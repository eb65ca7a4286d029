import VarRecovery.Access.Trace
import VarRecovery.Code.Module

/-!
Phis of addresses: a phi whose values are all addresses of pointers becomes a phi of those pointers.
-/

set_option autoImplicit false

namespace VarRecovery

namespace Graph

def pointerOf? (g : Graph) (v : ValueId) : Option ValueId :=
  match g.castOf? v with
  | some (.ptrToInt, ptr) => some ptr
  | _ => none

/-- Whether an instruction is a phi of addresses of type `ty`, and its result is used. -/
def isSinkable (g : Graph) (ty : Ty) (i : InstId) : Bool :=
  match g.inst? i, g.result? i with
  | some (.phi incoming _), some result =>
    g.ty result = ty && !(g.users result).isEmpty
      && incoming.all fun (v, _) => (g.pointerOf? v).isSome
  | _, _ => false

def uncastIncoming (g : Graph) (i : InstId) : List (ValueId × BlockId) :=
  match g.inst? i with
  | some (.phi incoming _) =>
    incoming.filterMap fun (v, block) => (g.castOf? v).map fun cast => (cast.2, block)
  | _ => []

/-- The type of a phi of pointers: what the phi of their addresses is cast to, or else the type of the
last pointer. -/
def sunkTy? (g : Graph) (result : ValueId) (incoming : List (ValueId × BlockId)) : Option Ty :=
  ((g.pointerCastTy? result).filter Ty.isPtr).orElse fun _ =>
    incoming.getLast?.map fun (v, _) => g.ty v

end Graph

namespace Func

/-- Casts pointers to one type, each at the end of the block it comes from. Stops at a block without
instructions. -/
def castIncoming (ty : Ty) :
    Func → List (ValueId × BlockId) → Func × Option (List (ValueId × BlockId))
  | f, [] => (f, some [])
  | f, (ptr, block) :: rest =>
    if f.graph.ty ptr = ty then
      let (f, vs) := castIncoming ty f rest
      (f, vs.map ((ptr, block) :: ·))
    else
      match f.listing.last? block with
      | none => (f, none)
      | some anchor =>
        let (f, v) := f.insert (.cast .bitcast ptr ty) ty (.before anchor)
        let (f, vs) := castIncoming ty f rest
        (f, vs.map ((v, block) :: ·))

/-- Writes a phi of pointers at the top of a block, and its address behind the phis, in place of the
result of the phi `old`. -/
def insertSunk (f : Func) (old : InstId) (result : ValueId) (block : BlockId)
    (incoming : List (ValueId × BlockId)) (ty : Ty) : Func × Option ValueId :=
  let intTy := f.graph.ty result
  let (f, ptr) := f.insert (.phi incoming ty) ty (.top block)
  -- A block of phis alone has no place for the cast, and `old` stays.
  match f.listing.firstNonPhi? block f.graph.isPhi with
  | none => (f, none)
  | some anchor =>
    let (f, int) := f.insert (.cast .ptrToInt ptr intTy) intTy (.before anchor)
    ((f.updateGraph (·.replaceUses result int)).remove old, some ptr)

def sink (f : Func) (old : InstId) : Func × Option ValueId :=
  match f.graph.result? old, f.listing.blockOf? old with
  | some result, some block =>
    let incoming := f.graph.uncastIncoming old
    match f.graph.sunkTy? result incoming with
    | none => (f, none)
    | some ty =>
      match castIncoming ty f incoming with
      | (f, none) => (f, none)
      | (f, some incoming) => f.insertSunk old result block incoming ty
  | _, _ => (f, none)

end Func

end VarRecovery
