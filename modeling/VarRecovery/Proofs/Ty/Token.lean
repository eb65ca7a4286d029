import Mathlib.Data.Nat.Digits.Defs
import VarRecovery.Ty.Store
import VarRecovery.Ty.Text
import VarRecovery.Ty.Token

/-!
The tokens of written types. What is written for a type is split into the tokens of its parts, if the names of
its structs are words.
-/

set_option autoImplicit false

namespace VarRecovery.Ty

mutual

/-- The structs in a type, inner ones first. -/
def structs : Ty → List StructDef
  | .int _ | .float _ | .unit => []
  | .ptr ty => structs ty
  | .array elem _ => structs elem
  | .vector elem _ => structs elem
  | .struct name fields packed => structsList fields ++ [⟨name, fields, packed⟩]
  | .func args ret => structsList args ++ structs ret

def structsList : List Ty → List StructDef
  | [] => []
  | ty :: tys => structs ty ++ structsList tys

end

/-- A name that the grammar takes for one: a word that is not empty. -/
def IsName (name : String) : Prop :=
  name.toList ≠ [] ∧ name.toList.all Token.isWordChar = true

instance (name : String) : Decidable (IsName name) :=
  inferInstanceAs (Decidable (_ ∧ _))

def Named (ds : List StructDef) : Prop :=
  ∀ d ∈ ds, IsName d.name

instance (ds : List StructDef) : Decidable (Named ds) :=
  inferInstanceAs (Decidable (∀ d ∈ ds, IsName d.name))

mutual

def tokens : Ty → List Token
  | .int w => [.word w.text.toList]
  | .float w => [.word w.text.toList]
  | .unit => [.word "unit".toList]
  | .ptr ty => .star :: tokens ty
  | .array elem len => .leftBracket :: (tokens elem ++ [.semicolon, .word (Nat.toDigits 10 len), .rightBracket])
  | .vector elem len => .leftAngle :: (tokens elem ++ [.semicolon, .word (Nat.toDigits 10 len), .rightAngle])
  | .struct name fields packed => .opening name.toList packed :: (tokensList fields ++ [.closing packed])
  | .func args ret => .leftParen :: (tokensList args ++ .rightParen :: .arrow :: tokens ret)

def tokensList : List Ty → List Token
  | [] => []
  | ty :: tys => tokens ty ++ tokensRest tys

def tokensRest : List Ty → List Token
  | [] => []
  | ty :: tys => .comma :: (tokens ty ++ tokensRest tys)

end

namespace Token

variable {c : Char} {cs rest word : List Char} {t : Token} {ts : List Token}

theorem scan_cons (cs : List Char) (solid : isBlank c = false) (h : next? c cs = some (t, rest)) (tail : scan rest = some ts) :
    scan (c :: cs) = some (t :: ts) := by
  rw [scan, if_neg (by simp [solid])]
  split
  next none => cases none.symm.trans h
  next u more found =>
    cases found.symm.trans h
    rw [tail]
    rfl

theorem scan_space (tail : scan rest = some ts) : scan (' ' :: rest) = some ts := by
  rw [scan, if_pos (by decide), tail]

/-- What may stand behind a type: no more of a word, and no angle that a brace before it would take. -/
def Ends (rest : List Char) : Prop :=
  ∀ c ∈ rest.head?, isWordChar c = false ∧ c ≠ '>'

theorem takeWhile_word (all : ∀ c ∈ word, isWordChar c = true) (ends : ∀ c ∈ rest.head?, isWordChar c = false) :
    (word ++ rest).takeWhile isWordChar = word ∧ (word ++ rest).dropWhile isWordChar = rest := by
  rw [List.takeWhile_append_of_pos all, List.dropWhile_append_of_pos all]
  cases rest with
  | nil => simp
  | cons c cs =>
    have stop : isWordChar c = false := ends c rfl
    simp [stop]

theorem not_blank_of_word (word : isWordChar c = true) : isBlank c = false := by
  unfold isBlank
  refine Bool.eq_false_iff.mpr fun blank => ?_
  simp only [Bool.or_eq_true, decide_eq_true_eq] at blank
  rcases blank with ((rfl | rfl) | rfl) | rfl <;> exact absurd word (by decide)

theorem scan_word (some_ : word ≠ []) (all : ∀ c ∈ word, isWordChar c = true)
    (ends : ∀ c ∈ rest.head?, isWordChar c = false) (tail : scan rest = some ts) :
    scan (word ++ rest) = some (.word word :: ts) := by
  obtain ⟨c, cs, rfl⟩ := List.exists_cons_of_ne_nil some_
  obtain ⟨first, others⟩ := List.forall_mem_cons.mp all
  obtain ⟨taken, dropped⟩ := takeWhile_word others ends
  rw [List.cons_append]
  refine scan_cons _ (not_blank_of_word first) ?_ tail
  unfold next?
  rw [if_pos first, taken, dropped]

/-- A name is read together with the brace behind it. -/
theorem scan_opening (some_ : word ≠ []) (all : ∀ c ∈ word, isWordChar c = true) (packed : Bool)
    (tail : scan rest = some ts) :
    scan ('@' :: (word ++ (Ty.opening packed ++ rest))) = some (.opening word packed :: ts) := by
  have brace : ∀ c ∈ (Ty.opening packed ++ rest).head?, isWordChar c = false := by
    cases packed <;> simp [Ty.opening] <;> decide
  obtain ⟨taken, dropped⟩ := takeWhile_word all brace
  refine scan_cons _ (by decide) ?_ tail
  have at_ : next? '@' (word ++ (Ty.opening packed ++ rest)) =
      some (afterName ((word ++ (Ty.opening packed ++ rest)).takeWhile isWordChar)
        ((word ++ (Ty.opening packed ++ rest)).dropWhile isWordChar)) := by
    unfold next?
    rw [if_neg (by decide)]
    simp [taken, some_]
  rw [at_, taken, dropped]
  cases packed <;> rfl

theorem scan_closing (packed : Bool) (ends : Ends rest) (tail : scan rest = some ts) :
    scan (Ty.closing packed ++ rest) = some (.closing packed :: ts) := by
  cases packed with
  | true => exact scan_cons ('>' :: rest) (by decide) rfl tail
  | false =>
    refine scan_cons (c := '\x7d') rest (by decide) ?_ tail
    unfold next?
    rw [if_neg (by decide)]
    cases rest with
    | nil => rfl
    | cons c cs =>
      have other : c ≠ '>' := (ends c rfl).2
      simp [other]

end Token

theorem word_digits (n : Nat) : Nat.toDigits 10 n ≠ [] ∧ ∀ c ∈ Nat.toDigits 10 n, Token.isWordChar c = true := by
  refine ⟨Nat.toDigits_ne_nil, fun c member => ?_⟩
  have digit : c.isDigit = true := Nat.isDigit_of_mem_toDigits (by decide) (by decide) member
  simp [Token.isWordChar, Char.isAlphanum, digit]

/-! ### Written types -/

variable {rest : List Char} {ts : List Token}

open Token

theorem ends_of (c : Char) (stop : isWordChar c = false ∧ c ≠ '>' := by decide) : Ends (c :: rest) := by
  intro d member
  cases Option.mem_some.mp member
  exact stop

theorem scan_length {n : Nat} {c : Char} {t : Token} (solid : isBlank c = false) (close : isWordChar c = false)
    (h : next? c rest = some (t, rest)) (tail : scan rest = some ts) :
    scan (';' :: ' ' :: (Nat.toDigits 10 n ++ c :: rest)) =
      some (.semicolon :: .word (Nat.toDigits 10 n) :: t :: ts) := by
  obtain ⟨some_, all⟩ := word_digits n
  refine scan_cons (c := ';') _ (by decide) rfl (scan_space (scan_word some_ all ?_ (scan_cons _ solid h tail)))
  intro d member
  cases Option.mem_some.mp member
  exact close

mutual

/-- What is written for a type is split into its tokens, whatever may stand behind it. -/
theorem scan_write (ty : Ty) (named : Named ty.structs) {rest : List Char} {ts : List Token} (ends : Ends rest)
    (tail : scan rest = some ts) : scan (ty.write true ++ rest) = some (ty.tokens ++ ts) := by
  have stop : ∀ c ∈ rest.head?, isWordChar c = false := fun c member => (ends c member).1
  cases ty with
  | int w => cases w <;> exact scan_word (by decide) (List.all_eq_true.mp (by decide)) stop tail
  | float w => cases w <;> exact scan_word (by decide) (List.all_eq_true.mp (by decide)) stop tail
  | unit => exact scan_word (by decide) (List.all_eq_true.mp (by decide)) stop tail
  | ptr ty => exact scan_cons (c := '*') _ (by decide) rfl (scan_write ty named ends tail)
  | array elem len =>
    have close := scan_length (n := len) (c := ']') (by decide) (by decide) rfl tail
    have elem := scan_write elem named (ends_of ';') close
    simpa [write, tokens] using scan_cons (c := '[') _ (by decide) rfl elem
  | vector elem len =>
    have close := scan_length (n := len) (c := '>') (by decide) (by decide) rfl tail
    have elem := scan_write elem named (ends_of ';') close
    simpa [write, tokens] using scan_cons (c := '<') _ (by decide) rfl elem
  | struct name fields packed =>
    obtain ⟨inner, self⟩ := List.forall_mem_append.mp named
    obtain ⟨some_, all⟩ := self _ (List.mem_singleton_self _)
    have brace : Ends (closing packed ++ rest) := by
      cases packed <;> exact ends_of _
    have body := scan_writeList fields inner brace (scan_closing packed ends tail)
    simpa [write, tokens] using scan_opening some_ (List.all_eq_true.mp all) packed body
  | func args ret =>
    obtain ⟨inner, last⟩ := List.forall_mem_append.mp named
    have ret := scan_space (scan_write ret last ends tail)
    have arrow := scan_space (scan_cons (c := '-') ('>' :: _) (by decide) rfl ret)
    have args := scan_writeList args inner (ends_of ')') (scan_cons (c := ')') _ (by decide) rfl arrow)
    simpa [write, tokens] using scan_cons (c := '(') _ (by decide) rfl args

theorem scan_writeList (tys : List Ty) (named : Named (structsList tys)) {rest : List Char} {ts : List Token}
    (ends : Ends rest) (tail : scan rest = some ts) :
    scan (writeList true tys ++ rest) = some (tokensList tys ++ ts) := by
  cases tys with
  | nil => exact tail
  | cons ty tys =>
    obtain ⟨first, others⟩ := List.forall_mem_append.mp named
    have others := scan_writeRest tys others ends tail
    have stop : Ends (writeRest true tys ++ rest) := by
      cases tys with
      | nil => exact ends
      | cons ty tys => exact ends_of ','
    simpa [writeList, tokensList] using scan_write ty first stop others

theorem scan_writeRest (tys : List Ty) (named : Named (structsList tys)) {rest : List Char} {ts : List Token}
    (ends : Ends rest) (tail : scan rest = some ts) :
    scan (writeRest true tys ++ rest) = some (tokensRest tys ++ ts) := by
  cases tys with
  | nil => exact tail
  | cons ty tys =>
    obtain ⟨first, others⟩ := List.forall_mem_append.mp named
    have others := scan_writeRest tys others ends tail
    have stop : Ends (writeRest true tys ++ rest) := by
      cases tys with
      | nil => exact ends
      | cons ty tys => exact ends_of ','
    have first := scan_space (scan_write ty first stop others)
    simpa [writeRest, tokensRest] using scan_cons (c := ',') _ (by decide) rfl first

end

end VarRecovery.Ty
