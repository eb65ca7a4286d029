import VarRecovery.Ty.Basic

/-!
The tokens of type spellings. A struct name and the opening of its body are one token, since no
blank may stand between them.
-/

set_option autoImplicit false

namespace VarRecovery.Ty

inductive Token where
  /-- A run of word characters: the name of a scalar type, or a length. -/
  | word (text : List Char)
  /-- A struct name without a body: `@name`. -/
  | reference (name : List Char)
  /-- A struct name and the opening of its body: `@name{` or `@name<{`. -/
  | opening (name : List Char) (packed : Bool)
  | closing (packed : Bool)
  | star
  | leftBracket
  | rightBracket
  | leftAngle
  | rightAngle
  | leftParen
  | rightParen
  | semicolon
  | comma
  | arrow
deriving DecidableEq, Repr

namespace Token

/-- Blanks separate tokens and are skipped. -/
def isBlank (c : Char) : Bool :=
  c = ' ' || c = '\t' || c = '\n' || c = '\r'

/-- Words and struct names are made of ASCII letters, digits and three marks. -/
def isWordChar (c : Char) : Bool :=
  c.isAlphanum || c = '_' || c = '.' || c = '$'

/-- What a struct name followed by `cs` is: the opening of a body, or a name alone. -/
def afterName (name cs : List Char) : Token × List Char :=
  match cs with
  | '\x7b' :: rest => (.opening name false, rest)
  | '<' :: '\x7b' :: rest => (.opening name true, rest)
  | rest => (.reference name, rest)

/-- The longest token that starts with `c` in front of `cs`, and what follows it. -/
def next? (c : Char) (cs : List Char) : Option (Token × List Char) :=
  if isWordChar c then some (.word (c :: cs.takeWhile isWordChar), cs.dropWhile isWordChar)
  else
    match c with
    | '@' =>
      if cs.takeWhile isWordChar = [] then none
      else some (afterName (cs.takeWhile isWordChar) (cs.dropWhile isWordChar))
    | '\x7d' =>
      -- No type ends with a closing angle but a vector, whose length stands in between.
      match cs with
      | '>' :: rest => some (.closing true, rest)
      | rest => some (.closing false, rest)
    | '-' =>
      match cs with
      | '>' :: rest => some (.arrow, rest)
      | _ => none
    | '*' => some (.star, cs)
    | '[' => some (.leftBracket, cs)
    | ']' => some (.rightBracket, cs)
    | '<' => some (.leftAngle, cs)
    | '>' => some (.rightAngle, cs)
    | '(' => some (.leftParen, cs)
    | ')' => some (.rightParen, cs)
    | ';' => some (.semicolon, cs)
    | ',' => some (.comma, cs)
    | _ => none

theorem length_afterName (name cs : List Char) : (afterName name cs).2.length ≤ cs.length := by
  unfold afterName
  split
  · simp only [List.length_cons]
    omega
  · simp only [List.length_cons]
    omega
  · exact Nat.le_refl _

theorem length_of_next? {c : Char} {cs : List Char} {t : Token} {rest : List Char}
    (h : next? c cs = some (t, rest)) : rest.length ≤ cs.length := by
  have hdrop := (List.dropWhile_sublist (l := cs) isWordChar).length_le
  unfold next? at h
  split at h
  · simp_all
  · split at h
    · have hname := length_afterName (cs.takeWhile isWordChar) (cs.dropWhile isWordChar)
      split at h
      · simp at h
      · simp only [Option.some.injEq] at h
        rw [h] at hname
        exact Nat.le_trans hname hdrop
    · split at h <;> simp at h <;> obtain ⟨-, rfl⟩ := h <;> simp
    · split at h <;> simp at h
      obtain ⟨-, rfl⟩ := h
      simp
    all_goals simp_all

/-- Splits a text into tokens. Fails where none starts. -/
def scan : List Char → Option (List Token)
  | [] => some []
  | c :: cs =>
    if isBlank c then scan cs
    else
      match _h : next? c cs with
      | none => none
      | some (t, rest) => (scan rest).map (t :: ·)
termination_by cs => cs.length
decreasing_by
  · simp
  · have := length_of_next? _h
    simp only [List.length_cons]
    omega

end Token

end VarRecovery.Ty
