import VarRecovery.Ty.Basic

/-!
Two written forms of a type. `shown` writes a struct as `@name`; `spelled` writes its body too, so
that a reader who knows no struct can still read the type.
-/

set_option autoImplicit false

namespace VarRecovery

namespace IntWidth

def text : IntWidth → String
  | .i1 => "i1"
  | .i8 => "i8"
  | .i16 => "i16"
  | .i32 => "i32"
  | .i64 => "i64"
  | .i128 => "i128"

end IntWidth

namespace FloatWidth

def text : FloatWidth → String
  | .f32 => "f32"
  | .f64 => "f64"
  | .f80 => "f80"

end FloatWidth

namespace Ty

def opening (packed : Bool) : List Char :=
  if packed then ['<', '\x7b'] else ['\x7b']

def closing (packed : Bool) : List Char :=
  if packed then ['\x7d', '>'] else ['\x7d']

mutual

/-- Writes a type; `bodies` says whether a struct is written with its body. -/
def write (bodies : Bool) : Ty → List Char
  | .int w => w.text.toList
  | .float w => w.text.toList
  | .unit => "unit".toList
  | .ptr ty => '*' :: write bodies ty
  | .array elem len => '[' :: write bodies elem ++ "; ".toList ++ Nat.toDigits 10 len ++ [']']
  | .vector elem len => '<' :: write bodies elem ++ "; ".toList ++ Nat.toDigits 10 len ++ ['>']
  | .struct name fields packed =>
    if bodies then
      '@' :: name.toList ++ opening packed ++ writeList bodies fields ++ closing packed
    else '@' :: name.toList
  | .func args ret => '(' :: writeList bodies args ++ ") -> ".toList ++ write bodies ret

def writeList (bodies : Bool) : List Ty → List Char
  | [] => []
  | ty :: tys => write bodies ty ++ writeRest bodies tys

def writeRest (bodies : Bool) : List Ty → List Char
  | [] => []
  | ty :: tys => ", ".toList ++ write bodies ty ++ writeRest bodies tys

end

/-- The form in program listings. -/
def shown (ty : Ty) : String :=
  String.ofList (ty.write false)

/-- The form that needs no struct definitions to be read. -/
def spelled (ty : Ty) : String :=
  String.ofList (ty.write true)

end Ty

end VarRecovery
