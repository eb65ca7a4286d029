import VarRecovery.Pointer.DeadCode
import VarRecovery.Proofs.Code.Extension
import VarRecovery.Proofs.Code.Func

/-!
The edits that the simplification of pointer arithmetic is made of, and what each of them keeps. Code
without effects is written in front of other code, phis are written at the top of blocks, uses of one
value become uses of another of its type, and dead code is taken out.
-/

set_option autoImplicit false

namespace VarRecovery

namespace Inst

def isSum : Inst → Bool
  | .binary .add _ _ => true
  | _ => false

@[simp] theorem isPure_mapOperands (f : ValueId → ValueId) (inst : Inst) :
    (inst.mapOperands f).isPure = inst.isPure := by
  cases inst <;> rfl

@[simp] theorem isSum_mapOperands (f : ValueId → ValueId) (inst : Inst) :
    (inst.mapOperands f).isSum = inst.isSum := by
  cases inst with
  | binary op lhs rhs => cases op <;> rfl
  | _ => rfl

theorem isPure_of_isTerminator {inst : Inst} (ends : inst.isTerminator) : inst.isPure = false := by
  cases inst <;> simp_all [isTerminator, isPure]

theorem isPhi_of_isTerminator {inst : Inst} (ends : inst.isTerminator) : inst.isPhi = false := by
  cases inst <;> simp_all [isTerminator, isPhi]

theorem isPure_of_isSum {inst : Inst} (sum : inst.isSum) : inst.isPure := by
  cases inst <;> simp_all [isSum, isPure]

theorem isPhi_of_isSum {inst : Inst} (sum : inst.isSum) : inst.isPhi = false := by
  cases inst <;> simp_all [isSum, isPhi]

end Inst

namespace Graph

/-- Whether an instruction, if it takes the address of a pointer, does so of a pointer. -/
def CastsPointer (g : Graph) (inst : Inst) : Prop :=
  ∀ v ty, inst = .cast .ptrToInt v ty → (g.ty v).isPtr

def IsAddress (g : Graph) (v : ValueId) : Prop :=
  ∃ arg ty, g.defining? v = some (.cast .ptrToInt arg ty)

theorem lt_of_isPtr {g : Graph} {v : ValueId} (isPtr : (g.ty v).isPtr) : v.index < g.values.size := by
  refine Nat.lt_of_not_le fun outside => ?_
  have absent : g.value? v = none := Array.getElem?_eq_none outside
  simp [ty, absent, Ty.isPtr] at isPtr

theorem CastsPointer.of_extends {g h : Graph} {inst : Inst} (casts : g.CastsPointer inst)
    (grown : g.Extends h) : h.CastsPointer inst := by
  intro v ty cast
  have isPtr := casts v ty cast
  rwa [grown.ty (lt_of_isPtr isPtr)]

end Graph

namespace Func

/-! ### What the edits keep -/

def PhisFirst (f : Func) : Prop :=
  ∀ b ∈ f.listing.blocks, b.2.Pairwise fun i j => f.graph.isPhi j → f.graph.isPhi i

def CastsPointers (f : Func) : Prop :=
  ∀ i inst, f.graph.inst? i = some inst → f.graph.CastsPointer inst

/-- Addresses are taken of values that are there. -/
def CastsKnown (f : Func) : Prop :=
  ∀ i v ty, f.graph.inst? i = some (.cast .ptrToInt v ty) → v.index < f.graph.values.size

def UsersListed (f : Func) : Prop :=
  ∀ v, ∀ i ∈ f.graph.users v, i ∈ f.code

def SumsNoPointers (f : Func) : Prop :=
  ∀ i ∈ f.code, ∀ inst, f.graph.inst? i = some inst → inst.isSum →
    ∀ v, f.graph.result? i = some v → (f.graph.ty v).isPtr = false

/-- What all edits keep of a function, if they are made with the same discipline: with all addresses taken of
pointers (`typed`), with values for all phis (`fed`), or with all results defined by listed code (`closed`). -/
structure Sound (typed fed closed : Prop) (f : Func) : Prop where
  valid : f.Valid
  ends : f.EndsInTerminators
  casts : typed → f.CastsPointers
  grounded : fed → f.PhisGrounded
  known : fed → f.CastsKnown
  phisFirst : closed → f.PhisFirst
  defined : closed → f.OperandsDefined
  listed : closed → f.UsersListed
  sums : closed → f.SumsNoPointers

/-! ### Edits -/

variable {typed fed closed : Prop} {f g h : Func}

/-- Writes code or changes what it uses. The new phis are told. -/
inductive Edit (typed fed closed : Prop) : List InstId → Func → Func → Prop
  | imm {f : Func} (i : Imm) : Edit typed fed closed [] f (f.addImm i).1
  | insert {f : Func} {inst : Inst} {anchor : InstId} (ty : Ty) (isPure : inst.isPure)
      (noPhi : inst.isPhi = false) (noSum : inst.isSum = false) (listed : anchor ∈ f.code)
      (behind : f.graph.isPhi anchor = false) (usable : ∀ v ∈ inst.operands, f.Usable closed v)
      (casts : typed → f.graph.CastsPointer inst) :
      Edit typed fed closed [] f (f.insert inst ty (.before anchor)).1
  | phi {f : Func} {incoming : List (ValueId × BlockId)} {ty : Ty} {block : BlockId}
      (listed : block ∈ f.listing.blockIds) (usable : ∀ e ∈ incoming, f.Usable closed e.1)
      (isPtr : typed → ty.isPtr) (grounded : fed → incoming ≠ [] ∧ ∀ e ∈ incoming, e.2 ∈ f.listing.blockIds) :
      Edit typed fed closed [f.graph.nextInst] f (f.insert (.phi incoming ty) ty (.top block)).1
  | replace {f : Func} {old new : ValueId} (usable : f.Usable closed new)
      (same : f.graph.ty new = f.graph.ty old) (address : f.graph.IsAddress new) :
      Edit typed fed closed [] f (f.updateGraph (·.replaceUses old new))

/-- Edits, and between them the removal of dead code. What was removed is told in this order. -/
inductive Edits (typed fed closed : Prop) : List InstId → List InstId → Func → Func → Prop
  | refl (f : Func) : Edits typed fed closed [] [] f f
  | edit {f g h : Func} {phis new swept : List InstId} (before : Edits typed fed closed phis swept f g)
      (last : Edit typed fed closed new g h) : Edits typed fed closed (phis ++ new) swept f h
  | sweep {f g : Func} {phis swept : List InstId} {i : InstId} (before : Edits typed fed closed phis swept f g)
      (listed : i ∈ g.code) (dead : g.isDead i) : Edits typed fed closed phis (swept ++ [i]) f (g.remove i)

theorem Edit.edits {new : List InstId} (edit : Edit typed fed closed new f g) :
    Edits typed fed closed new [] f g :=
  .edit (.refl f) edit

theorem Edits.trans {phis new swept others : List InstId} (first : Edits typed fed closed phis swept f g)
    (second : Edits typed fed closed new others g h) :
    Edits typed fed closed (phis ++ new) (swept ++ others) f h := by
  induction second with
  | refl => simpa using first
  | edit _ last ih => simpa using Edits.edit (ih first) last
  | sweep _ listed dead ih => simpa using Edits.sweep (ih first) listed dead

end Func

end VarRecovery
