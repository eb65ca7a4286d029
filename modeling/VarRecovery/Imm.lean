import VarRecovery.Ty.Basic
import VarRecovery.Word

/-!
Integer constants: a width and that many bits.
-/

set_option autoImplicit false

namespace VarRecovery

structure Imm where
  width : IntWidth
  bits : BitVec width.bits
deriving DecidableEq

namespace Imm

def ty (i : Imm) : Ty :=
  .int i.width

def ofInt (width : IntWidth) (value : Int) : Imm :=
  ⟨width, BitVec.ofInt width.bits value⟩

def ofInt? (ty : Ty) (value : Int) : Option Imm :=
  match ty with
  | .int width => some (ofInt width value)
  | _ => none

/-- The number a constant stands for. All widths are signed but `i1`, whose one bit is 0 or 1. -/
def toInt (i : Imm) : Int :=
  match i.width with
  | .i1 => i.bits.toNat
  | _ => i.bits.toInt

/-- The address a constant stands for: its bits without a sign, the low 64 of them. -/
def toAddress (i : Imm) : Nat :=
  Word.wrap i.bits.toNat

def text (i : Imm) : String :=
  toString i.toInt

end Imm

end VarRecovery
