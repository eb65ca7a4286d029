import VarRecovery.Ty.Basic

/-!
Intrinsics: functions that stand for accesses to memory in lifted code. They are recognised by name.
The first argument of a call is the state of memory; where an intrinsic accesses memory, the address
follows, and then the values it takes.
-/

set_option autoImplicit false

namespace VarRecovery

inductive AccessWidth where
  | i8
  | i16
  | i32
  | i64
  | f32
  | f64
  | f80
deriving DecidableEq, Repr

inductive FetchOp where
  | add
  | sub
  | and
  | or
  | xor
deriving DecidableEq, Repr

inductive BarrierKind where
  | loadLoad
  | loadStore
  | storeLoad
  | storeStore
  | atomicBegin
  | atomicEnd
deriving DecidableEq, Repr

inductive Intrinsic where
  | readMemory (width : AccessWidth)
  | writeMemory (width : AccessWidth)
  | compareExchange (width : AccessWidth)
  | fetchAndUpdate (op : FetchOp) (width : AccessWidth)
  | readDevice (width : AccessWidth)
  | writeDevice (width : AccessWidth)
  | barrier (kind : BarrierKind)
deriving DecidableEq, Repr

namespace AccessWidth

def all : List AccessWidth := [.i8, .i16, .i32, .i64, .f32, .f64, .f80]

/-- How names of intrinsics write a width. -/
def text : AccessWidth → String
  | .i8 => "8"
  | .i16 => "16"
  | .i32 => "32"
  | .i64 => "64"
  | .f32 => "f32"
  | .f64 => "f64"
  | .f80 => "f80"

def ty : AccessWidth → Ty
  | .i8 => .i8
  | .i16 => .i16
  | .i32 => .i32
  | .i64 => .i64
  | .f32 => .f32
  | .f64 => .f64
  | .f80 => .f80

def deviceWidths : List AccessWidth := [.i8, .i16, .i32]

def integers : List AccessWidth := [.i8, .i16, .i32, .i64]

end AccessWidth

namespace FetchOp

def all : List FetchOp := [.add, .sub, .and, .or, .xor]

def text : FetchOp → String
  | .add => "add"
  | .sub => "sub"
  | .and => "and"
  | .or => "or"
  | .xor => "xor"

end FetchOp

namespace BarrierKind

def all : List BarrierKind :=
  [.loadLoad, .loadStore, .storeLoad, .storeStore, .atomicBegin, .atomicEnd]

def text : BarrierKind → String
  | .loadLoad => "load_load"
  | .loadStore => "load_store"
  | .storeLoad => "store_load"
  | .storeStore => "store_store"
  | .atomicBegin => "atomic_begin"
  | .atomicEnd => "atomic_end"

end BarrierKind

namespace Intrinsic

def all : List Intrinsic :=
  AccessWidth.all.map readMemory ++ AccessWidth.all.map writeMemory
    ++ AccessWidth.integers.map compareExchange
    ++ FetchOp.all.flatMap (fun op => AccessWidth.integers.map (fetchAndUpdate op))
    ++ AccessWidth.deviceWidths.map readDevice ++ AccessWidth.deviceWidths.map writeDevice
    ++ BarrierKind.all.map barrier

/-- The name of an intrinsic, without what all of them start with. -/
def name : Intrinsic → String
  | .readMemory width => "read_memory_" ++ width.text
  | .writeMemory width => "write_memory_" ++ width.text
  | .compareExchange width => "compare_exchange_" ++ width.text
  | .fetchAndUpdate op width => "fetch_and_" ++ op.text ++ "_" ++ width.text
  | .readDevice width => "read_io_port_" ++ width.text
  | .writeDevice width => "write_io_port_" ++ width.text
  | .barrier kind => "barrier_" ++ kind.text

/-- The intrinsic that a function is, if its name is `start` and the name of one. -/
def ofName? (start name : String) : Option Intrinsic :=
  all.find? fun i => start ++ i.name = name

def width? : Intrinsic → Option AccessWidth
  | .readMemory width | .writeMemory width | .compareExchange width | .fetchAndUpdate _ width
  | .readDevice width | .writeDevice width => some width
  | .barrier _ => none

def arity : Intrinsic → Nat
  | .barrier _ => 1
  | .readMemory _ | .readDevice _ => 2
  | .writeMemory _ | .writeDevice _ | .fetchAndUpdate .. => 3
  | .compareExchange _ => 4

/-- Whether the second argument is an address. -/
def isMemoryAccess : Intrinsic → Bool
  | .barrier _ => false
  | _ => true

/-- Whether plain instructions can take the place of a call. -/
def isLowered : Intrinsic → Bool
  | .readMemory _ | .writeMemory _ | .barrier _ => true
  | _ => false

def isLoad : Intrinsic → Bool
  | .readMemory _ | .readDevice _ | .compareExchange _ | .fetchAndUpdate .. => true
  | _ => false

def isStore : Intrinsic → Bool
  | .writeMemory _ | .writeDevice _ | .compareExchange _ | .fetchAndUpdate .. => true
  | _ => false

def isAtomic : Intrinsic → Bool
  | .compareExchange _ | .fetchAndUpdate .. => true
  | _ => false

def isVolatile : Intrinsic → Bool
  | .readDevice _ | .writeDevice _ => true
  | _ => false

end Intrinsic

end VarRecovery
