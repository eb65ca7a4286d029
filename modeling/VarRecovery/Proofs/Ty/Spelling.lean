import Mathlib.Data.List.Chain
import Mathlib.Data.List.TakeWhile
import VarRecovery.Proofs.Ty.Token

/-!
Which texts are split into which tokens. Blanks may stand around and between tokens, and only have to stand between two
tokens that would be read as one without them.
-/

set_option autoImplicit false

namespace VarRecovery.Ty

namespace Token

def text : Token → List Char
  | .word text => text
  | .reference name => '@' :: name
  | .opening name packed => '@' :: (name ++ Ty.opening packed)
  | .closing packed => Ty.closing packed
  | .star => ['*']
  | .leftBracket => ['[']
  | .rightBracket => [']']
  | .leftAngle => ['<']
  | .rightAngle => ['>']
  | .leftParen => ['(']
  | .rightParen => [')']
  | .semicolon => [';']
  | .comma => [',']
  | .arrow => ['-', '>']

/-- Words and names have characters, and these are characters of words. -/
def Proper : Token → Prop
  | .word text | .reference text | .opening text _ => text ≠ [] ∧ ∀ c ∈ text, isWordChar c = true
  | _ => True

def EndsBefore : Token → List Char → Prop
  | .word _, rest => ∀ c ∈ rest.head?, isWordChar c = false
  | _, _ => True

end Token

open Token

/-- A text that consists of tokens with blanks around and between them. -/
inductive Spells : List Token → List Char → Prop
  | nil : Spells [] []
  | blank {c : Char} {ts : List Token} {cs : List Char} (blank : isBlank c = true) (rest : Spells ts cs) :
    Spells ts (c :: cs)
  | token {t : Token} {ts : List Token} {cs : List Char} (proper : t.Proper) (ends : t.EndsBefore cs)
    (rest : Spells ts cs) : Spells (t :: ts) (t.text ++ cs)

variable {c : Char} {cs rest name : List Char} {t u : Token} {ts : List Token}

/-! ### The tokens of a text -/

theorem afterName_text (some_ : name ≠ []) (word : ∀ c ∈ name, isWordChar c = true)
    (found : afterName name cs = (t, rest)) :
    '@' :: (name ++ cs) = t.text ++ rest ∧ t.Proper ∧ t.EndsBefore rest := by
  unfold afterName at found
  split at found <;> cases found
  · exact ⟨by simp [text, opening], ⟨some_, word⟩, trivial⟩
  · exact ⟨by simp [text, opening], ⟨some_, word⟩, trivial⟩
  · exact ⟨rfl, ⟨some_, word⟩, trivial⟩

theorem next?_text (found : next? c cs = some (t, rest)) :
    c :: cs = t.text ++ rest ∧ t.Proper ∧ t.EndsBefore rest := by
  have word : ∀ d ∈ cs.takeWhile isWordChar, isWordChar d = true := fun d => List.mem_takeWhile_imp
  have whole := List.takeWhile_append_dropWhile (p := isWordChar) (l := cs)
  unfold next? at found
  split at found
  next first =>
    cases found
    refine ⟨by rw [text, List.cons_append, whole], ⟨by simp, List.forall_mem_cons.mpr ⟨first, word⟩⟩, fun d behind => ?_⟩
    have stops := List.head?_dropWhile_not isWordChar cs
    rw [Option.mem_def.mp behind] at stops
    exact stops
  next =>
    split at found
    · split at found
      next => cases found
      next some_ =>
        rw [← afterName_text some_ word (Option.some.inj found) |>.1, whole]
        exact ⟨rfl, (afterName_text some_ word (Option.some.inj found)).2⟩
    · split at found <;> cases found <;> exact ⟨rfl, trivial, trivial⟩
    · split at found <;> cases found
      exact ⟨rfl, trivial, trivial⟩
    all_goals cases found
    all_goals exact ⟨rfl, trivial, trivial⟩

theorem spells_of_scan (scanned : scan cs = some ts) : Spells ts cs := by
  induction cs using scan.induct generalizing ts with
  | case1 =>
    rw [scan] at scanned
    cases scanned
    exact .nil
  | case2 c cs blank ih =>
    rw [scan, if_pos blank] at scanned
    exact .blank blank (ih scanned)
  | case3 c cs solid none =>
    rw [scan, if_neg solid] at scanned
    split at scanned
    next => cases scanned
    next found => cases none.symm.trans found
  | case4 c cs solid t rest found ih =>
    rw [scan, if_neg solid] at scanned
    split at scanned
    next none => cases none.symm.trans found
    next u more found' =>
      cases found'.symm.trans found
      obtain ⟨us, behind, rfl⟩ := Option.map_eq_some_iff.mp scanned
      obtain ⟨same, proper, ends⟩ := next?_text found
      rw [same]
      exact .token proper ends (ih behind)

/-! ### The text of tokens -/

/-- Whether two tokens would be read as something else with nothing between them. -/
def Joins : Token → Token → Prop
  | .word _, .word _ | .reference _, .word _ => True
  | .closing false, .rightAngle => True
  | _, _ => False

def Apart (ts : List Token) : Prop :=
  ts.IsChain fun t u => ¬Joins t u

/-- The first character of a token tells whether it is a word, an angle or something else. -/
structure Starts (t : Token) (c : Char) : Prop where
  solid : isBlank c = false
  noBrace : c ≠ '\x7b'
  word : (∃ text, t = .word text) ∨ isWordChar c = false
  leftAngle : c = '<' → t = .leftAngle
  rightAngle : c = '>' → t = .rightAngle

theorem starts_text (proper : t.Proper) : ∃ c more, t.text = c :: more ∧ Starts t c := by
  cases t with
  | word word =>
    obtain ⟨some_, all⟩ := proper
    obtain ⟨c, more, rfl⟩ := List.exists_cons_of_ne_nil some_
    have first := all c List.mem_cons_self
    have other (d : Char) (apart : isWordChar d = false) : c ≠ d := by
      rintro rfl
      exact absurd first (by simp [apart])
    exact ⟨c, more, rfl, not_blank_of_word first, other _ (by decide), .inl ⟨_, rfl⟩,
      fun same => absurd same (other _ (by decide)), fun same => absurd same (other _ (by decide))⟩
  | closing packed =>
    cases packed <;> exact ⟨_, _, rfl, by decide, by decide, .inr (by decide), nofun, nofun⟩
  | _ => exact ⟨_, _, rfl, by decide, by decide, .inr (by decide), by simp, by simp⟩

theorem Spells.head (spells : Spells ts cs) (first : c ∈ cs.head?) : isBlank c = true ∨ ∃ t ∈ ts.head?, Starts t c := by
  cases spells with
  | nil => cases first
  | blank blank rest =>
    cases Option.some.inj first
    exact .inl blank
  | token proper ends rest =>
    obtain ⟨d, more, same, starts⟩ := starts_text proper
    rw [same] at first
    cases Option.some.inj first
    exact .inr ⟨_, rfl, starts⟩

theorem Spells.no_brace (spells : Spells ts cs) : '\x7b' ∉ cs.head? := by
  intro first
  rcases spells.head first with blank | ⟨t, -, starts⟩
  · exact absurd blank (by decide)
  · exact starts.noBrace rfl

theorem Spells.no_word (spells : Spells ts cs) (other : ∀ t ∈ ts.head?, ∀ text, t ≠ .word text) :
    ∀ c ∈ cs.head?, isWordChar c = false := by
  intro c first
  rcases spells.head first with blank | ⟨t, next, starts⟩
  · by_contra word
    rw [not_blank_of_word (Bool.of_not_eq_false word)] at blank
    cases blank
  · exact starts.word.resolve_left fun ⟨text, same⟩ => other t next text same

/-- An angle is read by itself, and not with a brace behind it. -/
theorem Spells.no_opening (spells : Spells ts cs) : ¬∃ rest, cs = '<' :: '\x7b' :: rest := by
  rintro ⟨rest, rfl⟩
  generalize same : '<' :: '\x7b' :: rest = cs at spells
  cases spells with
  | nil => cases same
  | blank blank rest =>
    cases same
    exact absurd blank (by decide)
  | token proper ends behind =>
    obtain ⟨c, more, text, starts⟩ := starts_text proper
    rw [text] at same
    cases (List.cons.inj same).1
    cases starts.leftAngle rfl
    cases text
    cases same
    exact behind.no_brace rfl

theorem scan_text (proper : t.Proper) (ends : t.EndsBefore cs) (spells : Spells ts cs)
    (apart : ∀ u ∈ ts.head?, ¬Joins t u) (tail : scan cs = some ts) : scan (t.text ++ cs) = some (t :: ts) := by
  cases t with
  | word word => exact scan_word proper.1 proper.2 ends tail
  | opening name packed => simpa [text] using scan_opening proper.1 proper.2 packed tail
  | reference name =>
    have stop := spells.no_word fun u next text same => apart u next (same ▸ trivial)
    obtain ⟨taken, dropped⟩ := takeWhile_word proper.2 stop
    -- Only a brace could make an opening of the name, and no token starts with one.
    have alone : afterName name cs = (.reference name, cs) := by
      unfold afterName
      split
      next => exact absurd rfl spells.no_brace
      next rest => exact absurd ⟨rest, rfl⟩ spells.no_opening
      next => rfl
    refine scan_cons (name ++ cs) (by decide) ?_ tail
    unfold next?
    rw [if_neg (by decide)]
    simp only [taken, dropped, if_neg proper.1, alone]
  | closing packed =>
    cases packed with
    | true => exact scan_cons ('>' :: cs) (by decide) rfl tail
    | false =>
      -- An angle behind the brace would be a token, the one that joins it.
      refine scan_cons (c := '\x7d') cs (by decide) ?_ tail
      unfold next?
      rw [if_neg (by decide)]
      cases cs with
      | nil => rfl
      | cons c cs =>
        have other : c ≠ '>' := by
          rintro rfl
          rcases spells.head rfl with blank | ⟨u, next, starts⟩
          · exact absurd blank (by decide)
          · cases starts.rightAngle rfl
            exact apart _ next trivial
        simp [other]
  | arrow => exact scan_cons ('>' :: cs) (by decide) rfl tail
  | _ => exact scan_cons cs (by decide) rfl tail

theorem scan_of_spells (spells : Spells ts cs) (apart : Apart ts) : scan cs = some ts := by
  induction spells with
  | nil => rw [scan]
  | blank blank rest ih => rw [scan, if_pos blank, ih apart]
  | token proper ends rest ih =>
    obtain ⟨next, others⟩ := List.isChain_cons.mp apart
    exact scan_text proper ends rest next (ih others)

/-- Blanks between tokens of which no two join can be left out. -/
theorem Spells.tight (spells : Spells ts cs) (apart : Apart ts) :
    Spells ts (ts.flatMap text) := by
  induction spells with
  | nil => exact .nil
  | blank blank rest ih => exact ih apart
  | @token t ts cs proper ends rest ih =>
    obtain ⟨next, others⟩ := List.isChain_cons.mp apart
    rw [List.flatMap_cons]
    refine .token proper ?_ (ih others)
    cases t with
    | word word => exact (ih others).no_word fun u first text same => next u first (same ▸ trivial)
    | _ => trivial

end VarRecovery.Ty
