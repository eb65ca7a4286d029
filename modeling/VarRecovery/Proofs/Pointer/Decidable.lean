import VarRecovery.Code.Module
import VarRecovery.Proofs.Pointer.Edit

/-!
The conditions on code under which it is simplified can be evaluated.
-/

set_option autoImplicit false

namespace VarRecovery

namespace Inst

def incoming? : Inst → Option (List (ValueId × BlockId))
  | .phi incoming _ => some incoming
  | _ => none

/-- The pointer that an instruction takes the address of. -/
def addressed? : Inst → Option ValueId
  | .cast .ptrToInt v _ => some v
  | _ => none

theorem incoming?_eq_some {inst : Inst} {incoming : List (ValueId × BlockId)} :
    inst.incoming? = some incoming ↔ ∃ ty, inst = .phi incoming ty := by
  cases inst <;> simp [incoming?]

theorem addressed?_eq_some {inst : Inst} {v : ValueId} :
    inst.addressed? = some v ↔ ∃ ty, inst = .cast .ptrToInt v ty := by
  cases inst with
  | cast op arg ty => cases op <;> simp [addressed?]
  | _ => simp [addressed?]

end Inst

namespace Func

instance (f : Func) : Decidable f.EndsInTerminators :=
  decidable_of_iff (∀ b ∈ f.listing.blocks, ∃ i ∈ b.2.getLast?, ∃ inst ∈ f.graph.inst? i, inst.isTerminator)
    (forall₂_congr fun _ _ =>
      ⟨fun ⟨i, last, inst, found, ends⟩ => ⟨i, inst, last, found, ends⟩,
        fun ⟨i, inst, last, found, ends⟩ => ⟨i, last, inst, found, ends⟩⟩)

instance (f : Func) : Decidable f.PhisFirst :=
  inferInstanceAs (Decidable (∀ b ∈ f.listing.blocks,
    b.2.Pairwise fun i j => f.graph.isPhi j → f.graph.isPhi i))

instance (f : Func) : Decidable f.PhisGrounded :=
  decidable_of_iff (∀ i ∈ f.code, ∀ incoming ∈ (f.graph.inst? i).bind Inst.incoming?,
      incoming ≠ [] ∧ ∀ e ∈ incoming, e.2 ∈ f.listing.blockIds)
    (forall₂_congr fun i _ => forall_congr' fun incoming => by
      simp only [Option.mem_def, Option.bind_eq_some_iff, Inst.incoming?_eq_some]
      constructor
      · rintro grounded ty found
        exact grounded ⟨_, found, ty, rfl⟩
      · rintro grounded ⟨_, found, ty, rfl⟩
        exact grounded ty found)

instance (f : Func) : Decidable f.CastsPointers :=
  decidable_of_iff (∀ n < f.graph.insts.size, ∀ v ∈ (f.graph.inst? ⟨n⟩).bind Inst.addressed?,
      (f.graph.ty v).isPtr)
    ⟨fun casts i inst found v ty cast => casts i.index (Graph.inst?_lt found) v
        (Option.bind_eq_some_iff.mpr ⟨inst, found, Inst.addressed?_eq_some.mpr ⟨ty, cast⟩⟩),
      fun casts n _ v address => by
        obtain ⟨inst, found, cast⟩ := Option.bind_eq_some_iff.mp address
        obtain ⟨ty, cast⟩ := Inst.addressed?_eq_some.mp cast
        exact casts ⟨n⟩ inst found v ty cast⟩

instance (f : Func) : Decidable f.UsersListed :=
  decidable_of_iff (∀ n < f.graph.userLists.size, ∀ i ∈ f.graph.users ⟨n⟩, i ∈ f.code)
    ⟨fun listed v i user => listed v.index (Graph.lt_of_mem_users user) i user,
      fun listed n _ i user => listed ⟨n⟩ i user⟩

instance (f : Func) : Decidable f.SumsNoPointers :=
  inferInstanceAs (Decidable (∀ i ∈ f.code, ∀ inst ∈ f.graph.inst? i, inst.isSum →
    ∀ v ∈ f.graph.result? i, (f.graph.ty v).isPtr = false))

end Func

namespace Module

/-- A loop that reads a field of what an address points to, which is that of one of two pointers. -/
def fieldLoop : Module :=
  let int := Ty.int .i64
  let ptr := Ty.ptr (.struct "pair" [int, .int .i32] false)
  let f := (Func.declare ⟨"read", .exported, [ptr, ptr], .unit, none, false, false⟩ []).addBlock.addBlock.addBlock
  let (f, a) := f.insert (.cast .ptrToInt ⟨0⟩ int) int (.bottom ⟨0⟩)
  let (f, _) := f.insertInst (.jump ⟨1⟩) (.bottom ⟨0⟩)
  let (f, address) := f.insert (.phi [(a, ⟨0⟩)] int) int (.bottom ⟨1⟩)
  let (f, offset) := f.addImm (.ofInt .i64 8)
  let (f, sum) := f.insert (.binary .add address offset) int (.bottom ⟨1⟩)
  let (f, field) := f.insert (.cast .intToPtr sum (.ptr (.int .i32))) (.ptr (.int .i32)) (.bottom ⟨1⟩)
  let (f, value) := f.insert (.load field (.int .i32)) (.int .i32) (.bottom ⟨1⟩)
  let (f, b) := f.insert (.cast .ptrToInt ⟨1⟩ int) int (.bottom ⟨1⟩)
  let (f, _) := f.insertInst (.branch value ⟨1⟩ ⟨2⟩) (.bottom ⟨1⟩)
  let (f, _) := f.insertInst (.leave none) (.bottom ⟨2⟩)
  { empty ⟨.x86_64, .unknown, .linux⟩ with funcs := #[f.updateGraph (·.addIncoming ⟨2⟩ b ⟨1⟩)] }

end Module

end VarRecovery
