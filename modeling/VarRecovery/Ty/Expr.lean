import VarRecovery.Ty.Token

/-!
Type expressions: what a spelling says before its struct names and lengths are looked at. The parser
looks one token ahead and reads each token once.
-/

set_option autoImplicit false

namespace VarRecovery.Ty

inductive Expr where
  | scalar (ty : Ty)
  | ptr (pointee : Expr)
  | array (elem : Expr) (len : List Char)
  | vector (elem : Expr) (len : List Char)
  | func (args : List Expr) (ret : Expr)
  /-- A struct that is known already. -/
  | reference (name : List Char)
  /-- A struct written with its body. -/
  | struct (name : List Char) (fields : List Expr) (packed : Bool)

namespace Expr

def scalar? (word : List Char) : Option Ty :=
  match String.ofList word with
  | "i1" => some .i1
  | "i8" => some .i8
  | "i16" => some .i16
  | "i32" => some .i32
  | "i64" => some .i64
  | "i128" => some .i128
  | "f32" => some .f32
  | "f64" => some .f64
  | "f80" => some .f80
  | "unit" => some .unit
  | _ => none

abbrev Rest (ts : List Token) := { rest : List Token // rest.length < ts.length }

/-- Reads `; length` and the closing token of an array or a vector. -/
def parseLength (close : Token) : (ts : List Token) → Option (List Char × Rest ts)
  | .semicolon :: .word digits :: t :: rest =>
    if digits.all Char.isDigit && t = close then some (digits, ⟨rest, by simp; omega⟩) else none
  | _ => none

mutual

def parse (ts : List Token) : Option (Expr × Rest ts) :=
  match ts with
  | .word w :: rest =>
    match scalar? w with
    | some ty => some (.scalar ty, ⟨rest, by simp⟩)
    | none => none
  | .reference name :: rest => some (.reference name, ⟨rest, by simp⟩)
  | .star :: rest =>
    match parse rest with
    | some (pointee, ⟨rest', h⟩) => some (.ptr pointee, ⟨rest', by simp; omega⟩)
    | none => none
  | .leftBracket :: rest =>
    match parse rest with
    | some (elem, ⟨rest', h⟩) =>
      match parseLength .rightBracket rest' with
      | some (len, ⟨rest'', h'⟩) => some (.array elem len, ⟨rest'', by simp; omega⟩)
      | none => none
    | none => none
  | .leftAngle :: rest =>
    match parse rest with
    | some (elem, ⟨rest', h⟩) =>
      match parseLength .rightAngle rest' with
      | some (len, ⟨rest'', h'⟩) => some (.vector elem len, ⟨rest'', by simp; omega⟩)
      | none => none
    | none => none
  | .leftParen :: rest =>
    match parseList .rightParen rest with
    | some (args, ⟨.arrow :: rest', h⟩) =>
      match parse rest' with
      | some (ret, ⟨rest'', h'⟩) =>
        some (.func args ret, ⟨rest'', by simp only [List.length_cons] at *; omega⟩)
      | none => none
    | _ => none
  | .opening name packed :: rest =>
    match parseList (.closing packed) rest with
    | some (fields, ⟨rest', h⟩) => some (.struct name fields packed, ⟨rest', by simp; omega⟩)
    | none => none
  | _ => none
termination_by (ts.length, 0)
decreasing_by
  all_goals apply Prod.Lex.left
  all_goals simp_all
  all_goals omega

/-- Reads types with commas between them, and the closing token. The list may be empty. -/
def parseList (close : Token) (ts : List Token) : Option (List Expr × Rest ts) :=
  match ts with
  | [] => none
  | t :: rest => if t = close then some ([], ⟨rest, by simp⟩) else parseItems close (t :: rest)
termination_by (ts.length, 2)

def parseItems (close : Token) (ts : List Token) : Option (List Expr × Rest ts) :=
  match parse ts with
  | some (item, ⟨t :: rest, h⟩) =>
    -- A comma must be followed by another type.
    if t = close then some ([item], ⟨rest, by simp at h; omega⟩)
    else if t = .comma then
      match parseItems close rest with
      | some (items, ⟨rest', h'⟩) => some (item :: items, ⟨rest', by simp at h; omega⟩)
      | none => none
    else none
  | _ => none
termination_by (ts.length, 1)
decreasing_by
  · exact Prod.Lex.right _ (by decide)
  · exact Prod.Lex.left _ _ (by simp at h; omega)

end

def ofChars? (cs : List Char) : Option Expr := do
  let tokens ← Token.scan cs
  let (e, ⟨rest, _⟩) ← parse tokens
  if rest = [] then some e else none

end Expr

end VarRecovery.Ty
