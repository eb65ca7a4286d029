import VarRecovery.Proofs.Ty.Token
import VarRecovery.Ty.Expr

/-!
Written types as expressions. The parser reads the tokens of a type as an expression that says how the type is
made, so two types that are written the same are the same.
-/

set_option autoImplicit false

namespace VarRecovery.Ty

mutual

/-- How a type is made, with the bodies of all its structs. -/
def expr : Ty → Expr
  | .int w => .scalar (.int w)
  | .float w => .scalar (.float w)
  | .unit => .scalar .unit
  | .ptr ty => .ptr (expr ty)
  | .array elem len => .array (expr elem) (Nat.toDigits 10 len)
  | .vector elem len => .vector (expr elem) (Nat.toDigits 10 len)
  | .struct name fields packed => .struct name.toList (exprList fields) packed
  | .func args ret => .func (exprList args) (expr ret)

def exprList : List Ty → List Expr
  | [] => []
  | ty :: tys => expr ty :: exprList tys

end

theorem toDigits_injective {m n : Nat} (same : Nat.toDigits 10 m = Nat.toDigits 10 n) : m = n := by
  rw [← Nat.ofDigitChars_ten_toDigits (n := m), same, Nat.ofDigitChars_ten_toDigits]

mutual

theorem expr_injective (a b : Ty) (same : a.expr = b.expr) : a = b := by
  cases a with
  | int v => cases b <;> simp_all [expr]
  | float v => cases b <;> simp_all [expr]
  | unit => cases b <;> simp_all [expr]
  | ptr a =>
    cases b with
    | ptr b =>
      rw [expr, expr, Expr.ptr.injEq] at same
      rw [expr_injective a b same]
    | _ => simp [expr] at same
  | array a m =>
    cases b with
    | array b n =>
      rw [expr, expr, Expr.array.injEq] at same
      rw [expr_injective a b same.1, toDigits_injective same.2]
    | _ => simp [expr] at same
  | vector a m =>
    cases b with
    | vector b n =>
      rw [expr, expr, Expr.vector.injEq] at same
      rw [expr_injective a b same.1, toDigits_injective same.2]
    | _ => simp [expr] at same
  | struct s as p =>
    cases b with
    | struct t bs q =>
      rw [expr, expr, Expr.struct.injEq] at same
      rw [String.toList_inj.mp same.1, exprList_injective as bs same.2.1, same.2.2]
    | _ => simp [expr] at same
  | func as a =>
    cases b with
    | func bs b =>
      rw [expr, expr, Expr.func.injEq] at same
      rw [exprList_injective as bs same.1, expr_injective a b same.2]
    | _ => simp [expr] at same

theorem exprList_injective (as bs : List Ty) (same : exprList as = exprList bs) : as = bs := by
  cases as with
  | nil => cases bs <;> simp_all [exprList]
  | cons a as =>
    cases bs with
    | nil => simp [exprList] at same
    | cons b bs =>
      rw [exprList, exprList, List.cons.injEq] at same
      rw [expr_injective a b same.1, exprList_injective as bs same.2]

end

namespace Expr

open Token

/-- The parser reads an expression from the front of tokens, and leaves the rest. -/
def Parses (ts : List Token) (e : Expr) (rest : List Token) : Prop :=
  ∃ shorter, parse ts = some (e, ⟨rest, shorter⟩)

def ParsesList (close : Token) (ts : List Token) (es : List Expr) (rest : List Token) : Prop :=
  ∃ shorter, parseList close ts = some (es, ⟨rest, shorter⟩)

def ParsesItems (close : Token) (ts : List Token) (es : List Expr) (rest : List Token) : Prop :=
  ∃ shorter, parseItems close ts = some (es, ⟨rest, shorter⟩)

variable {ts mid rest : List Token} {e : Expr} {es : List Expr} {close : Token}

-- Lean derives the equations of the parser here, once for all the lemmas below.
attribute [local simp] parse

theorem parses_scalar {word : List Char} {ty : Ty} (known : scalar? word = some ty) :
    Parses (.word word :: rest) (.scalar ty) rest := by
  rw [Parses, parse, known]
  exact ⟨_, rfl⟩

theorem parses_ptr (pointee : Parses ts e rest) : Parses (.star :: ts) (.ptr e) rest := by
  obtain ⟨_, found⟩ := pointee
  rw [Parses, parse, found]
  exact ⟨_, rfl⟩

theorem parseLength_eq (close : Token) (rest : List Token) {len : List Char} (digits : len.all Char.isDigit = true) :
    ∃ shorter, parseLength close (.semicolon :: .word len :: close :: rest) = some (len, ⟨rest, shorter⟩) :=
  ⟨_, if_pos (by simp [digits])⟩

theorem parses_array {len : List Char} (digits : len.all Char.isDigit = true)
    (elem : Parses ts e (.semicolon :: .word len :: .rightBracket :: rest)) :
    Parses (.leftBracket :: ts) (.array e len) rest := by
  obtain ⟨shorter, elem⟩ := elem
  obtain ⟨_, close⟩ := parseLength_eq .rightBracket rest digits
  refine ⟨by simp only [List.length_cons] at shorter ⊢; omega, ?_⟩
  rw [parse, elem]
  simp only [close]

theorem parses_vector {len : List Char} (digits : len.all Char.isDigit = true)
    (elem : Parses ts e (.semicolon :: .word len :: .rightAngle :: rest)) :
    Parses (.leftAngle :: ts) (.vector e len) rest := by
  obtain ⟨shorter, elem⟩ := elem
  obtain ⟨_, close⟩ := parseLength_eq .rightAngle rest digits
  refine ⟨by simp only [List.length_cons] at shorter ⊢; omega, ?_⟩
  rw [parse, elem]
  simp only [close]

theorem parses_func (args : ParsesList .rightParen ts es (.arrow :: mid)) (ret : Parses mid e rest) :
    Parses (.leftParen :: ts) (.func es e) rest := by
  obtain ⟨shorter, args⟩ := args
  obtain ⟨less, ret⟩ := ret
  refine ⟨by simp only [List.length_cons] at shorter ⊢; omega, ?_⟩
  rw [parse, args]
  simp only [ret]

theorem parses_struct (name : List Char) {packed : Bool} (fields : ParsesList (.closing packed) ts es rest) :
    Parses (.opening name packed :: ts) (.struct name es packed) rest := by
  obtain ⟨_, fields⟩ := fields
  rw [Parses, parse, fields]
  exact ⟨_, rfl⟩

theorem parsesList_nil : ParsesList close (close :: rest) [] rest := by
  rw [ParsesList, parseList, if_pos rfl]
  exact ⟨_, rfl⟩

theorem parsesList_cons {t : Token} (more : t ≠ close) (items : ParsesItems close (t :: ts) es rest) :
    ParsesList close (t :: ts) es rest := by
  obtain ⟨_, items⟩ := items
  rw [ParsesList, parseList, if_neg more, items]
  exact ⟨_, rfl⟩

theorem parsesItems_last (item : Parses ts e (close :: rest)) : ParsesItems close ts [e] rest := by
  obtain ⟨shorter, item⟩ := item
  refine ⟨by simp only [List.length_cons] at shorter; omega, ?_⟩
  rw [parseItems, item]
  simp only [if_true]

theorem parsesItems_comma (other : Token.comma ≠ close) (item : Parses ts e (.comma :: mid))
    (items : ParsesItems close mid es rest) : ParsesItems close ts (e :: es) rest := by
  obtain ⟨shorter, item⟩ := item
  obtain ⟨less, items⟩ := items
  refine ⟨by simp only [List.length_cons] at shorter; omega, ?_⟩
  rw [parseItems, item]
  simp only [other, if_false, if_true, items]

end Expr

/-! ### Tokens of types -/

open Token VarRecovery.Ty.Expr

variable {rest : List Token}

theorem digits_toDigits (n : Nat) : (Nat.toDigits 10 n).all Char.isDigit = true :=
  List.all_eq_true.mpr fun _ => Nat.isDigit_of_mem_toDigits (by decide) (by decide)

/-- No type starts with what closes a list of types. -/
theorem tokens_start (ty : Ty) : ∃ t ts, ty.tokens = t :: ts ∧ t ≠ .rightParen ∧ ∀ packed, t ≠ .closing packed := by
  cases ty <;> exact ⟨_, _, rfl, by simp, by simp⟩

mutual

theorem parses_tokens (ty : Ty) (rest : List Token) : Parses (ty.tokens ++ rest) ty.expr rest := by
  cases ty with
  | int w => cases w <;> exact parses_scalar rfl
  | float w => cases w <;> exact parses_scalar rfl
  | unit => exact parses_scalar rfl
  | ptr ty => exact parses_ptr (parses_tokens ty rest)
  | array elem len =>
    have elem := parses_tokens elem (.semicolon :: .word (Nat.toDigits 10 len) :: .rightBracket :: rest)
    simpa [tokens, expr] using parses_array (digits_toDigits len) elem
  | vector elem len =>
    have elem := parses_tokens elem (.semicolon :: .word (Nat.toDigits 10 len) :: .rightAngle :: rest)
    simpa [tokens, expr] using parses_vector (digits_toDigits len) elem
  | struct name fields packed =>
    have fields := parses_tokensList fields (.closing packed) rest (.inr ⟨packed, rfl⟩)
    simpa [tokens, expr] using parses_struct name.toList fields
  | func args ret =>
    have args := parses_tokensList args .rightParen (.arrow :: (ret.tokens ++ rest)) (.inl rfl)
    simpa [tokens, expr] using parses_func args (parses_tokens ret rest)

theorem parses_tokensList (tys : List Ty) (close : Token) (rest : List Token)
    (closes : close = .rightParen ∨ ∃ packed, close = .closing packed) :
    ParsesList close (tokensList tys ++ close :: rest) (exprList tys) rest := by
  cases tys with
  | nil => exact parsesList_nil
  | cons ty tys =>
    have other : Token.comma ≠ close := by rcases closes with rfl | ⟨_, rfl⟩ <;> simp
    have items := parses_tokensRest tys close rest other (parses_tokens ty _)
    obtain ⟨t, ts, start, paren, brace⟩ := ty.tokens_start
    have more : t ≠ close := by
      rcases closes with rfl | ⟨packed, rfl⟩
      · exact paren
      · exact brace packed
    rw [start] at items
    simpa [tokensList, exprList, start] using parsesList_cons more items

/-- The items of a list, from the second on. -/
theorem parses_tokensRest (tys : List Ty) (close : Token) (rest : List Token) (other : Token.comma ≠ close)
    {ts : List Token} {e : Expr} (item : Parses ts e (tokensRest tys ++ close :: rest)) :
    ParsesItems close ts (e :: exprList tys) rest := by
  cases tys with
  | nil => exact parsesItems_last item
  | cons ty tys =>
    have items := parses_tokensRest tys close rest other (parses_tokens ty _)
    exact parsesItems_comma other (by simpa [tokensRest] using item) items

end

theorem ofChars?_write {ty : Ty} (named : Named ty.structs) : Expr.ofChars? (ty.write true) = some ty.expr := by
  have ends : Ends [] := nofun
  have scanned := scan_write ty named ends (show scan [] = some [] by rw [scan])
  obtain ⟨_, parsed⟩ := parses_tokens ty []
  rw [List.append_nil] at scanned
  unfold Expr.ofChars?
  rw [scanned]
  simp only [Option.bind_eq_bind, Option.bind_some, parsed, if_true]

/-- Types whose structs have words for names are known by how they are spelled. -/
theorem spelled_injective {a b : Ty} (first : Named a.structs) (second : Named b.structs)
    (same : a.spelled = b.spelled) : a = b := by
  have text : a.write true = b.write true := String.ofList_inj.mp same
  have parsed := ofChars?_write first
  rw [text, ofChars?_write second] at parsed
  exact expr_injective a b (Option.some.inj parsed).symm

end VarRecovery.Ty
