import VarRecovery.Calling.Register

/-!
Calling conventions as tables of registers and rules for the stack.
-/

set_option autoImplicit false

namespace VarRecovery

structure Convention where
  name : String
  stackPointer : String
  paramRegisters : List RegisterSlot
  returnRegisters : List RegisterSlot
  structReturnRegister : String
  /-- Where the first parameter on the stack is, from where the stack pointer points on entry. -/
  stackBaseOffset : Int
  returnStackPointerOffset : Int
  /-- Whether a return also takes the address of the returned struct off the stack. -/
  calleePopsStructReturn : Bool
  /-- Whether small integer fields of a returned struct share a register. -/
  coalesceStructFields : Bool
  redzone : Nat
deriving DecidableEq, Repr

namespace RegisterSlot

def general (narrow wide : String) : RegisterSlot :=
  ⟨[⟨narrow, [.int, .ptr], [.bits8, .bits16, .bits32]⟩, ⟨wide, [.int, .ptr], [.bits64]⟩]⟩

def general32 (name : String) : RegisterSlot :=
  ⟨[⟨name, [.int, .ptr], [.bits8, .bits16, .bits32]⟩]⟩

def sse (name : String) : RegisterSlot :=
  ⟨[⟨name, [.float], [.bits32, .bits64]⟩, ⟨name, [.vector], [.bits64, .bits128]⟩]⟩

end RegisterSlot

namespace Convention

def systemV : Convention where
  name := "x86_64_sysv"
  stackPointer := "RSP"
  paramRegisters :=
    [.general "EDI" "RDI", .general "ESI" "RSI", .general "EDX" "RDX", .general "ECX" "RCX",
      .general "R8D" "R8", .general "R9D" "R9", .sse "XMM0", .sse "XMM1", .sse "XMM2", .sse "XMM3",
      .sse "XMM4", .sse "XMM5", .sse "XMM6", .sse "XMM7"]
  returnRegisters :=
    [.general "EAX" "RAX", .general "EDX" "RDX", .sse "XMM0", .sse "XMM1",
      ⟨[⟨"ST0", [.float], [.bits80]⟩]⟩]
  structReturnRegister := "RAX"
  stackBaseOffset := 8
  returnStackPointerOffset := 8
  calleePopsStructReturn := false
  coalesceStructFields := true
  redzone := 128

/-- The cdecl convention of 32-bit x86, which passes all parameters on the stack. -/
def cdecl : Convention where
  name := "x86_cdecl"
  stackPointer := "ESP"
  paramRegisters := []
  returnRegisters :=
    [.general32 "EAX", .general32 "EDX", ⟨[⟨"ST0", [.float], [.bits32, .bits64, .bits80]⟩]⟩,
      ⟨[⟨"MM0", [.vector], [.bits64]⟩]⟩]
  structReturnRegister := "EAX"
  stackBaseOffset := 4
  returnStackPointerOffset := 4
  calleePopsStructReturn := true
  coalesceStructFields := false
  redzone := 0

def ofTarget? (t : Target) : Option Convention :=
  match t.architecture, t.operatingSystem with
  | .x86_64, .windows => none
  | .x86_64, _ => some systemV
  | .x86, _ => some cdecl

end Convention

end VarRecovery
