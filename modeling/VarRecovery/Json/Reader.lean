import VarRecovery.Json.Number
import VarRecovery.Json.Text

/-!
Reading JSON text.
-/

set_option autoImplicit false

namespace VarRecovery.Json

def isBlank (c : Char) : Bool :=
  c = ' ' || c = '\t' || c = '\n' || c = '\r'

def skipBlanks (cs : List Char) : List Char :=
  cs.dropWhile isBlank

theorem length_skipBlanks (cs : List Char) : (skipBlanks cs).length ≤ cs.length :=
  (List.dropWhile_sublist isBlank).length_le

abbrev Rest (cs : List Char) := { rest : List Char // rest.length < cs.length }

def readText (cs : List Char) : Option (Option String × Rest cs) :=
  match h : readUnits cs with
  | some (units, rest) =>
    some ((decodeUnits units).map String.ofList, ⟨rest, length_of_readUnits h⟩)
  | none => none

def readNumber (cs : List Char) : Option (Json × Rest cs) :=
  match h : readNumeral cs with
  | some (n, rest) => some (n.value, ⟨rest, length_of_readNumeral h⟩)
  | none => none

mutual

/-- Reads a value that starts here, without a blank in front. -/
def readValue (cs : List Char) : Option (Json × Rest cs) :=
  match cs with
  | 'n' :: 'u' :: 'l' :: 'l' :: rest => some (.null, ⟨rest, by simp; omega⟩)
  | 't' :: 'r' :: 'u' :: 'e' :: rest => some (.bool true, ⟨rest, by simp; omega⟩)
  | 'f' :: 'a' :: 'l' :: 's' :: 'e' :: rest => some (.bool false, ⟨rest, by simp; omega⟩)
  | '"' :: rest =>
    match readText rest with
    | some (text, ⟨rest', h⟩) => some (.str text, ⟨rest', by simp; omega⟩)
    | none => none
  | '[' :: rest =>
    have hskip := length_skipBlanks rest
    match hrest : skipBlanks rest with
    | ']' :: rest' => some (.arr [], ⟨rest', by simp [hrest] at *; omega⟩)
    | rest' =>
      match readItems rest' with
      | some (items, ⟨rest'', h⟩) => some (.arr items, ⟨rest'', by simp [hrest] at *; omega⟩)
      | none => none
  | '\x7b' :: rest =>
    have hskip := length_skipBlanks rest
    match hrest : skipBlanks rest with
    | '\x7d' :: rest' => some (.obj [], ⟨rest', by simp [hrest] at *; omega⟩)
    | rest' =>
      match readFields rest' with
      | some (fields, ⟨rest'', h⟩) => some (.obj fields, ⟨rest'', by simp [hrest] at *; omega⟩)
      | none => none
  | cs => readNumber cs
termination_by (cs.length, 0)
decreasing_by
  all_goals
    apply Prod.Lex.left
    subst hrest
    exact Nat.lt_succ_of_le hskip

def readItems (cs : List Char) : Option (List Json × Rest cs) :=
  match readValue cs with
  | none => none
  | some (item, ⟨rest, h⟩) =>
    have hskip := length_skipBlanks rest
    match hrest : skipBlanks rest with
    | ']' :: rest' => some ([item], ⟨rest', by simp [hrest] at *; omega⟩)
    | ',' :: rest' =>
      have hskip' := length_skipBlanks rest'
      match readItems (skipBlanks rest') with
      | some (items, ⟨rest'', h'⟩) => some (item :: items, ⟨rest'', by simp [hrest] at *; omega⟩)
      | none => none
    | _ => none
termination_by (cs.length, 1)
decreasing_by
  · exact Prod.Lex.right _ (by decide)
  · apply Prod.Lex.left
    simp [hrest] at *
    omega

def readFields (cs : List Char) : Option (List (Option String × Json) × Rest cs) :=
  match cs with
  | '"' :: rest =>
    match readText rest with
    | none => none
    | some (key, ⟨rest₁, h₁⟩) =>
      have hskip₁ := length_skipBlanks rest₁
      match hrest₁ : skipBlanks rest₁ with
      | ':' :: rest₂ =>
        have hskip₂ := length_skipBlanks rest₂
        match readValue (skipBlanks rest₂) with
        | none => none
        | some (value, ⟨rest₃, h₃⟩) =>
          have hskip₃ := length_skipBlanks rest₃
          match hrest₃ : skipBlanks rest₃ with
          | '\x7d' :: rest₄ =>
            some ([(key, value)], ⟨rest₄, by simp [hrest₁, hrest₃] at *; omega⟩)
          | ',' :: rest₄ =>
            have hskip₄ := length_skipBlanks rest₄
            match readFields (skipBlanks rest₄) with
            | some (fields, ⟨rest₅, h₅⟩) =>
              some ((key, value) :: fields, ⟨rest₅, by simp [hrest₁, hrest₃] at *; omega⟩)
            | none => none
          | _ => none
      | _ => none
  | _ => none
termination_by (cs.length, 1)
decreasing_by
  · apply Prod.Lex.left
    simp [hrest₁] at *
    omega
  · apply Prod.Lex.left
    simp [hrest₁, hrest₃] at *
    omega

end

def ofText? (text : String) : Option Json :=
  match readValue (skipBlanks text.toList) with
  | some (value, ⟨rest, _⟩) => if skipBlanks rest = [] then some value else none
  | none => none

end VarRecovery.Json
