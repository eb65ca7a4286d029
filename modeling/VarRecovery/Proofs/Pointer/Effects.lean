import Mathlib.Logic.Relation
import Mathlib
import VarRecovery.Proofs.Pointer.Decidable
import VarRecovery.Proofs.Pointer.Steps

/-!
Simplification keeps code well formed and keeps its effects: each block has the same instructions with
effects in the same order, on operands of the same types.
-/

set_option autoImplicit false

namespace VarRecovery

namespace Inst

/-- Whether an instruction does more than to produce its result. -/
def isEffect : Inst → Bool
  | .load .. | .store .. | .alloca _ | .call .. | .jump _ | .branch .. | .leave _ => true
  | _ => false

theorem isEffect_eq (inst : Inst) : inst.isEffect = !inst.isPure := by
  cases inst <;> rfl

@[simp] theorem isEffect_mapOperands (σ : ValueId → ValueId) (inst : Inst) :
    (inst.mapOperands σ).isEffect = inst.isEffect := by
  cases inst <;> rfl

end Inst

namespace Graph

def isEffect (g : Graph) (i : InstId) : Bool :=
  ((g.inst? i).map Inst.isEffect).getD false

theorem Extends.isEffect {g h : Graph} (grown : g.Extends h) {i : InstId} (inside : i.index < g.insts.size) :
    h.isEffect i = g.isEffect i := by
  rw [Graph.isEffect, grown.map_inst Inst.isEffect_mapOperands inside, Graph.isEffect]

end Graph

namespace Func

variable {typed fed closed : Prop} {f g h : Func} {phis new swept : List InstId}

def effects (f : Func) : List (BlockId × List InstId) :=
  f.listing.blocks.map fun b => (b.1, b.2.filter f.graph.isEffect)

/-- The instructions with effects are the same in the same places, up to operands of the same types, and
their results are the same values. -/
structure KeepsEffects (f g : Func) : Prop where
  effects : g.effects = f.effects
  inst : ∀ i ∈ f.code, ∀ inst, f.graph.inst? i = some inst → inst.isEffect →
    ∃ σ : ValueId → ValueId, g.graph.inst? i = some (inst.mapOperands σ) ∧
      (∀ v ∈ inst.operands, g.graph.ty (σ v) = f.graph.ty v) ∧
      g.graph.result? i = f.graph.result? i ∧
      ∀ v, f.graph.result? i = some v → g.graph.ty v = f.graph.ty v

theorem KeepsEffects.of_extends (valid : f.Valid) (grown : f.graph.Extends g.graph)
    (effects : g.effects = f.effects) : f.KeepsEffects g where
  effects := effects
  inst i listed inst found _ := by
    obtain ⟨σ, after, types⟩ := grown.inst i inst found
    refine ⟨σ, after, fun v operand => (types v ?_).2, grown.result i (Graph.inst?_lt found),
      fun v result => grown.ty (valid.graph.result_lt result).2⟩
    exact valid.operand_lt listed (Graph.mem_operands.mpr ⟨inst, found, operand⟩)

theorem effects_eq_of_blocks (valid : f.Valid) (grown : f.graph.Extends g.graph)
    (change : BlockId × List InstId → List InstId)
    (blocks : g.listing.blocks = f.listing.blocks.map fun b => (b.1, change b))
    (same : ∀ b ∈ f.listing.blocks, (change b).filter g.graph.isEffect = b.2.filter g.graph.isEffect) :
    g.effects = f.effects := by
  rw [effects, blocks, List.map_map, effects]
  refine List.map_congr_left fun b block => Prod.ext rfl ?_
  refine (same b block).trans (List.filter_congr fun i inside => ?_)
  exact grown.isEffect (valid.code_lt i (mem_code_of_block block inside))

theorem isEffect_nextInst (g : Graph) (inst : Inst) (ty : Ty) :
    (g.emit inst ty).isEffect g.nextInst = inst.isEffect := by
  rw [Graph.isEffect, Graph.inst?_emit, if_pos rfl]
  rfl

theorem filter_putBefore {p : InstId → Bool} {i anchor : InstId} (none_ : p i = false) (insts : List InstId) :
    (insts.flatMap (Listing.putBefore i anchor)).filter p = insts.filter p := by
  induction insts with
  | nil => rfl
  | cons j js ih =>
    rw [List.flatMap_cons, List.filter_append, ih, ← List.singleton_append (x := j), List.filter_append]
    congr 1
    unfold Listing.putBefore
    split
    · rw [List.filter_cons_of_neg (by simp [none_])]
    · rfl

theorem Edit.effects (edit : Edit typed fed closed new f g) (valid : f.Valid) : g.effects = f.effects := by
  have grown := edit.grows valid
  have same {insts : List (BlockId × List InstId)} : (insts.map fun b => (b.1, b.2)) = insts :=
    List.map_id insts
  cases edit with
  | imm => exact effects_eq_of_blocks valid grown Prod.snd same.symm fun _ _ => rfl
  | replace => exact effects_eq_of_blocks valid grown Prod.snd same.symm fun _ _ => rfl
  | @insert _ inst anchor ty isPure =>
    refine effects_eq_of_blocks valid grown (fun b =>
      b.2.flatMap (Listing.putBefore f.graph.nextInst anchor)) ?_ fun b _ => filter_putBefore ?_ b.2
    · rw [listing_insert]
      rfl
    · rw [graph_insert, isEffect_nextInst, Inst.isEffect_eq, isPure]
      rfl
  | @phi _ incoming ty block =>
    refine effects_eq_of_blocks valid grown (fun b =>
      if b.1 = block then f.graph.nextInst :: b.2 else b.2) ?_ fun b _ => ?_
    · rw [listing_insert]
      refine List.map_congr_left fun b _ => ?_
      by_cases here : b.1 = block <;> simp [here]
    · split
      · refine List.filter_cons_of_neg ?_
        rw [graph_insert, isEffect_nextInst]
        exact Bool.false_ne_true
      · rfl

theorem effects_remove (valid : f.Valid) {i : InstId} (dead : f.isDead i) :
    (f.remove i).effects = f.effects := by
  obtain ⟨inst, v, found, isPure, -⟩ := isDead_iff.mp dead
  have plain : (f.remove i).graph.isEffect i = false := by
    rw [Graph.isEffect, Func.remove, Graph.inst?_untrack, found]
    simp [Inst.isEffect_eq, isPure]
  refine effects_eq_of_blocks valid (.untrack f.graph i) _ (Listing.blocks_remove f.listing i) fun b _ => ?_
  rw [List.filter_filter]
  refine List.filter_congr fun j _ => ?_
  by_cases same : j = i
  · rw [same, plain, Bool.false_and]
  · simp [same]

theorem Edits.effects (edits : Edits typed fed closed phis swept f g) (sound : f.Sound typed fed closed) :
    g.effects = f.effects := by
  induction edits with
  | refl => rfl
  | edit before last ih => exact (last.effects (before.sound sound).valid).trans (ih sound)
  | sweep before listed dead ih => exact (effects_remove (before.sound sound).valid dead).trans (ih sound)

/-! ### Well-formed code -/

/-- Code as it should be: what is listed uses values, and only it does; phis come first in blocks and
terminators last; and results are used only where they are produced. -/
structure WellFormed (f : Func) : Prop where
  valid : f.Valid
  phisFirst : f.PhisFirst
  ends : f.EndsInTerminators
  defined : f.OperandsDefined
  listed : f.UsersListed

instance (f : Func) : Decidable f.WellFormed :=
  decidable_of_iff (f.Valid ∧ f.PhisFirst ∧ f.EndsInTerminators ∧ f.OperandsDefined ∧ f.UsersListed)
    ⟨fun ⟨valid, first, ends, defined, listed⟩ => ⟨valid, first, ends, defined, listed⟩,
      fun wellFormed => ⟨wellFormed.valid, wellFormed.phisFirst, wellFormed.ends, wellFormed.defined,
        wellFormed.listed⟩⟩

theorem WellFormed.sound (wellFormed : f.WellFormed) (sums : f.SumsNoPointers) : f.Sound False False True where
  valid := wellFormed.valid
  ends := wellFormed.ends
  casts := False.elim
  grounded := False.elim
  known := False.elim
  phisFirst _ := wellFormed.phisFirst
  defined _ := wellFormed.defined
  listed _ := wellFormed.listed
  sums _ := sums

theorem Sound.wellFormed (sound : f.Sound False False True) : f.WellFormed :=
  ⟨sound.valid, sound.phisFirst trivial, sound.ends, sound.defined trivial, sound.listed trivial⟩

theorem WellFormed.mem_users_iff (wellFormed : f.WellFormed) {v : ValueId} {i : InstId} :
    i ∈ f.graph.users v ↔ i ∈ f.code ∧ v ∈ f.graph.operands i :=
  ⟨fun user => ⟨wellFormed.listed v i user, wellFormed.valid.graph.uses v i user⟩,
    fun ⟨listed, operand⟩ => wellFormed.valid.used i listed v operand⟩

end Func

namespace Module

variable {m n : Module}

def WellFormed (m : Module) : Prop :=
  ∀ id f, m.func? id = some f → f.WellFormed

def SumsNoPointers (m : Module) : Prop :=
  ∀ id f, m.func? id = some f → f.SumsNoPointers

instance (m : Module) : Decidable m.WellFormed :=
  decidable_of_iff _ m.forall_func_iff.symm

instance (m : Module) : Decidable m.SumsNoPointers :=
  decidable_of_iff _ m.forall_func_iff.symm

def KeepsEffects (m n : Module) : Prop :=
  ∀ id f, m.func? id = some f → ∃ g, n.func? id = some g ∧ f.KeepsEffects g

/-- One part of simplification: a function changes, stays well formed and keeps its effects, and each phi
that is new has the pointers under the addresses that another phi, of integers, had, which is gone. -/
def Simplifies (m n : Module) : Prop :=
  n.WellFormed ∧ ∃ id f g, m.func? id = some f ∧ n = m.updateFunc id (fun _ => g) ∧ f.KeepsEffects g ∧
    ∀ new ∈ g.code, g.graph.isPhi new → new ∈ f.code ∨
      ∃ old ∈ f.code, old ∉ g.code ∧ f.graph.isIntPhi m.layout.pointerInt old ∧ g.Sinks old new

theorem WellFormed.sound (wellFormed : m.WellFormed) (sums : m.SumsNoPointers) : m.Sound False False True :=
  fun id f found => (wellFormed id f found).sound (sums id f found)

theorem Sound.wellFormed (sound : m.Sound False False True) : m.WellFormed :=
  fun id f found => (sound id f found).wellFormed

theorem Step.simplifies {change : Nat} (step : Step False False True change m n) (sound : m.Sound False False True) :
    m.Simplifies n := by
  refine ⟨(step.sound sound).wellFormed, ?_⟩
  cases step with
  | @rewrite _ id f g phis i found edits listed candidate sinks =>
    have here := sound id f found
    refine ⟨id, f, g, found, rfl, .of_extends here.valid (edits.grows here) (edits.effects here), ?_⟩
    intro new member isPhi
    refine (edits.known_phi here member isPhi).imp_right fun told => ?_
    obtain ⟨oldPhi, carries⟩ := sinks trivial new told
    refine ⟨i, listed, (edits.removed here (List.mem_singleton_self i)).2, ?_, carries⟩
    have noSum : f.graph.isSum i = false := by
      refine Bool.eq_false_iff.mpr fun sum => ?_
      obtain ⟨inst, known, isSum⟩ := Simplification.isSum_iff.mp sum
      simp [Graph.isPhi, known, Inst.isPhi_of_isSum isSum] at oldPhi
    simpa [Func.isCandidate, noSum] using candidate
  | @tidy _ id f g swept found edits =>
    have here := sound id f found
    refine ⟨id, f, g, found, rfl, .of_extends here.valid (edits.grows here) (edits.effects here), ?_⟩
    exact fun new member isPhi => (edits.known_phi here member isPhi).imp_right fun told =>
      absurd told List.not_mem_nil

theorem Steps.simplifies {changes : Nat} (steps : Steps False False True changes m n) (sound : m.Sound False False True) :
    Relation.ReflTransGen Simplifies m n := by
  induction steps with
  | refl => exact .refl
  | step before last ih => exact (ih sound).tail (last.simplifies (before.sound sound))

theorem Steps.evolves {typed fed closed : Prop} {changes : Nat} (steps : Steps typed fed closed changes m n)
    (sound : m.Sound typed fed closed) {id : FuncId} {f : Func} (found : m.func? id = some f) :
    ∃ g, n.func? id = some g ∧ f.graph.Extends g.graph ∧ g.effects = f.effects :=
  steps.lifts (R := fun f g => f.graph.Extends g.graph ∧ g.effects = f.effects) (fun f => ⟨.refl f.graph, rfl⟩)
    (fun _ _ _ first second => ⟨first.1.trans second.1, second.2.trans first.2⟩)
    (fun _ _ _ _ sound edits => ⟨edits.grows sound, edits.effects sound⟩) sound found

/-- A pointer that is the sum of its own address and a constant, and is displaced once more. -/
def selfDisplaced : Module :=
  let int := Ty.int .i64
  let ptr := Ty.ptr (.int .i32)
  let f := (Func.declare ⟨"f", .exported, [ptr], int, none, false, false⟩ []).addBlock
  let (f, address) := f.insert (.cast .ptrToInt ⟨0⟩ ptr) ptr (.bottom ⟨0⟩)
  let (f, four) := f.addImm (.ofInt .i64 4)
  let (f, self) := f.insert (.binary .add address four) ptr (.bottom ⟨0⟩)
  let (f, eight) := f.addImm (.ofInt .i64 8)
  let (f, other) := f.insert (.binary .add address eight) int (.bottom ⟨0⟩)
  let (f, _) := f.insertInst (.leave (some other)) (.bottom ⟨0⟩)
  { empty ⟨.x86_64, .unknown, .linux⟩ with funcs := #[f.updateGraph (·.replaceOperand ⟨0⟩ ⟨0⟩ self)] }

end Module

end VarRecovery
