/-!
The types of values: integers, floats, the unit type, and the compounds made from them. A struct
type carries its name, its fields and whether it is packed, so equal types are equal terms.
-/

set_option autoImplicit false

namespace VarRecovery

inductive IntWidth where
  | i1
  | i8
  | i16
  | i32
  | i64
  | i128
deriving DecidableEq, Repr, Inhabited

inductive FloatWidth where
  | f32
  | f64
  | f80
deriving DecidableEq, Repr, Inhabited

inductive Ty where
  | int (width : IntWidth)
  | float (width : FloatWidth)
  | unit
  | ptr (pointee : Ty)
  | array (elem : Ty) (len : Nat)
  | vector (elem : Ty) (len : Nat)
  | struct (name : String) (fields : List Ty) (packed : Bool)
  | func (args : List Ty) (ret : Ty)
deriving Repr, Inhabited

namespace IntWidth

def bits : IntWidth → Nat
  | .i1 => 1
  | .i8 => 8
  | .i16 => 16
  | .i32 => 32
  | .i64 => 64
  | .i128 => 128

/-- An `i1` fills a byte. -/
def bytes : IntWidth → Nat
  | .i1 | .i8 => 1
  | .i16 => 2
  | .i32 => 4
  | .i64 => 8
  | .i128 => 16

/-- The integer that fills `n` bytes with its bits. -/
def ofBytes? : Nat → Option IntWidth
  | 1 => some .i8
  | 2 => some .i16
  | 4 => some .i32
  | 8 => some .i64
  | 16 => some .i128
  | _ => none

end IntWidth

namespace FloatWidth

def bits : FloatWidth → Nat
  | .f32 => 32
  | .f64 => 64
  | .f80 => 80

def bytes : FloatWidth → Nat
  | .f32 => 4
  | .f64 => 8
  | .f80 => 10

end FloatWidth

namespace Ty

abbrev i1 : Ty := .int .i1
abbrev i8 : Ty := .int .i8
abbrev i16 : Ty := .int .i16
abbrev i32 : Ty := .int .i32
abbrev i64 : Ty := .int .i64
abbrev i128 : Ty := .int .i128
abbrev f32 : Ty := .float .f32
abbrev f64 : Ty := .float .f64
abbrev f80 : Ty := .float .f80

mutual

def decEq : (a b : Ty) → Decidable (a = b)
  | .int v, .int w => if h : v = w then isTrue (h ▸ rfl) else isFalse (by simp [h])
  | .float v, .float w => if h : v = w then isTrue (h ▸ rfl) else isFalse (by simp [h])
  | .unit, .unit => isTrue rfl
  | .ptr a, .ptr b =>
    match decEq a b with
    | isTrue h => isTrue (h ▸ rfl)
    | isFalse h => isFalse (by simp [h])
  | .array a m, .array b n =>
    if hn : m = n then
      match decEq a b with
      | isTrue h => isTrue (h ▸ hn ▸ rfl)
      | isFalse h => isFalse (by simp [h])
    else isFalse (by simp [hn])
  | .vector a m, .vector b n =>
    if hn : m = n then
      match decEq a b with
      | isTrue h => isTrue (h ▸ hn ▸ rfl)
      | isFalse h => isFalse (by simp [h])
    else isFalse (by simp [hn])
  | .struct s as p, .struct t bs q =>
    if hs : s = t then
      if hp : p = q then
        -- Types with the same struct in them share its list of fields, so mostly one look is enough.
        match withPtrEqDecEq as bs fun _ => decEqList as bs with
        | isTrue h => isTrue (h ▸ hs ▸ hp ▸ rfl)
        | isFalse h => isFalse (by simp [h])
      else isFalse (by simp [hp])
    else isFalse (by simp [hs])
  | .func as a, .func bs b =>
    match decEqList as bs, decEq a b with
    | isTrue h, isTrue h' => isTrue (h ▸ h' ▸ rfl)
    | isFalse h, _ => isFalse (by simp [h])
    | _, isFalse h => isFalse (by simp [h])
  | .int _, .float _ | .int _, .unit | .int _, .ptr _ | .int _, .array .. | .int _, .vector ..
  | .int _, .struct .. | .int _, .func .. => isFalse (by simp)
  | .float _, .int _ | .float _, .unit | .float _, .ptr _ | .float _, .array ..
  | .float _, .vector .. | .float _, .struct .. | .float _, .func .. => isFalse (by simp)
  | .unit, .int _ | .unit, .float _ | .unit, .ptr _ | .unit, .array .. | .unit, .vector ..
  | .unit, .struct .. | .unit, .func .. => isFalse (by simp)
  | .ptr _, .int _ | .ptr _, .float _ | .ptr _, .unit | .ptr _, .array .. | .ptr _, .vector ..
  | .ptr _, .struct .. | .ptr _, .func .. => isFalse (by simp)
  | .array .., .int _ | .array .., .float _ | .array .., .unit | .array .., .ptr _
  | .array .., .vector .. | .array .., .struct .. | .array .., .func .. => isFalse (by simp)
  | .vector .., .int _ | .vector .., .float _ | .vector .., .unit | .vector .., .ptr _
  | .vector .., .array .. | .vector .., .struct .. | .vector .., .func .. => isFalse (by simp)
  | .struct .., .int _ | .struct .., .float _ | .struct .., .unit | .struct .., .ptr _
  | .struct .., .array .. | .struct .., .vector .. | .struct .., .func .. => isFalse (by simp)
  | .func .., .int _ | .func .., .float _ | .func .., .unit | .func .., .ptr _
  | .func .., .array .. | .func .., .vector .. | .func .., .struct .. => isFalse (by simp)

def decEqList : (as bs : List Ty) → Decidable (as = bs)
  | [], [] => isTrue rfl
  | [], _ :: _ => isFalse (by simp)
  | _ :: _, [] => isFalse (by simp)
  | a :: as, b :: bs =>
    match decEq a b, decEqList as bs with
    | isTrue h, isTrue h' => isTrue (h ▸ h' ▸ rfl)
    | isFalse h, _ => isFalse (by simp [h])
    | _, isFalse h => isFalse (by simp [h])

end

instance : DecidableEq Ty := decEq

def isIntegral : Ty → Bool
  | .int _ => true
  | _ => false

def isUnit : Ty → Bool
  | .unit => true
  | _ => false

def isPtr : Ty → Bool
  | .ptr _ => true
  | _ => false

def isArray : Ty → Bool
  | .array .. => true
  | _ => false

def isVector : Ty → Bool
  | .vector .. => true
  | _ => false

def isStruct : Ty → Bool
  | .struct .. => true
  | _ => false

def isFunc : Ty → Bool
  | .func .. => true
  | _ => false

def pointee? : Ty → Option Ty
  | .ptr ty => some ty
  | _ => none

/-- The width of a number; only numbers have one. -/
def bits? : Ty → Option Nat
  | .int w => some w.bits
  | .float w => some w.bits
  | _ => none

def intOfSize? (n : Nat) : Option Ty :=
  (IntWidth.ofBytes? n).map .int

/-- A type that a variable can be placed at: code is placed as a pointer to it. -/
def placed : Ty → Ty
  | .func args ret => .ptr (.func args ret)
  | ty => ty

end Ty

end VarRecovery
