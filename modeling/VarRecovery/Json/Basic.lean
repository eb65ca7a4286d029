/-!
JSON values, as far as declarations need them. A number counts by its integer value; of any other
number only its size matters. Text with half a surrogate pair in it is well-formed JSON, yet no string.
-/

set_option autoImplicit false

namespace VarRecovery

inductive Json where
  | null
  | bool (value : Bool)
  /-- An integer of 64 bits, with or without a sign. -/
  | int (value : Int)
  /-- A number that is no such integer, and whether a double can hold it. -/
  | real (isFinite : Bool)
  | str (text : Option String)
  | arr (items : List Json)
  | obj (fields : List (Option String × Json))

namespace Json

mutual

/-- Whether a value has only strings and numbers that can be stored, and nests at most `depth` arrays
and objects. -/
def isStorable : Nat → Json → Bool
  | _, .null => true
  | _, .bool _ => true
  | _, .int _ => true
  | _, .real isFinite => isFinite
  | _, .str text => text.isSome
  | 0, .arr _ => false
  | 0, .obj _ => false
  | depth + 1, .arr items => areStorable depth items
  | depth + 1, .obj fields => haveStorable depth fields

def areStorable : Nat → List Json → Bool
  | _, [] => true
  | depth, item :: items => isStorable depth item && areStorable depth items

def haveStorable : Nat → List (Option String × Json) → Bool
  | _, [] => true
  | depth, (key, value) :: fields =>
    key.isSome && isStorable depth value && haveStorable depth fields

end

end Json

end VarRecovery
