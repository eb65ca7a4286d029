import VarRecovery.Proofs.Code.Module
import VarRecovery.Proofs.Pointer.Candidates
import VarRecovery.Proofs.Pointer.DeadCode
import VarRecovery.Proofs.Pointer.Phi

/-!
Simplification as a run of steps. A step rewrites one sum or phi of one function, or only tidies: it casts
pointers, or removes dead code.
-/

set_option autoImplicit false

namespace VarRecovery

namespace Module

variable {typed fed closed : Prop} {m n k : Module}

def Sound (typed fed closed : Prop) (m : Module) : Prop :=
  ∀ id f, m.func? id = some f → f.Sound typed fed closed

theorem Sound.updateFunc (sound : m.Sound typed fed closed) {id : FuncId} {g : Func}
    (after : g.Sound typed fed closed) : (m.updateFunc id fun _ => g).Sound typed fed closed := by
  intro j f found
  rw [func?_updateFunc] at found
  split at found
  next =>
    obtain ⟨_, _, rfl⟩ := Option.map_eq_some_iff.mp found
    exact after
  next => exact sound j f found

/-- One step, and whether it counts as a change. -/
inductive Step (typed fed closed : Prop) : Nat → Module → Module → Prop
  | rewrite {m : Module} {id : FuncId} {f g : Func} {phis : List InstId} {i : InstId}
      (found : m.func? id = some f) (edits : Func.Edits typed fed closed phis [i] f g) (listed : i ∈ f.code)
      (candidate : f.isCandidate m.layout.pointerInt i)
      (sinks : closed → ∀ new ∈ phis, f.graph.isPhi i ∧ g.Sinks i new) :
      Step typed fed closed 1 m (m.updateFunc id fun _ => g)
  | tidy {m : Module} {id : FuncId} {f g : Func} {swept : List InstId} (found : m.func? id = some f)
      (edits : Func.Edits typed fed closed [] swept f g) : Step typed fed closed 0 m (m.updateFunc id fun _ => g)

/-- Steps one after the other, and the number of changes. -/
inductive Steps (typed fed closed : Prop) : Nat → Module → Module → Prop
  | refl (m : Module) : Steps typed fed closed 0 m m
  | step {m n k : Module} {changes change : Nat} (before : Steps typed fed closed changes m n)
      (last : Step typed fed closed change n k) : Steps typed fed closed (changes + change) m k

theorem Step.steps {change : Nat} (step : Step typed fed closed change m n) : Steps typed fed closed change m n := by
  simpa using Steps.step (.refl m) step

theorem Steps.trans {changes others : Nat} (first : Steps typed fed closed changes m n)
    (second : Steps typed fed closed others n k) : Steps typed fed closed (changes + others) m k := by
  induction second with
  | refl => exact first
  | step _ last ih => simpa [Nat.add_assoc] using Steps.step (ih first) last

theorem Step.sound {change : Nat} (step : Step typed fed closed change m n) (sound : m.Sound typed fed closed) :
    n.Sound typed fed closed := by
  cases step with
  | rewrite found edits => exact sound.updateFunc (edits.sound (sound _ _ found))
  | tidy found edits => exact sound.updateFunc (edits.sound (sound _ _ found))

theorem Steps.sound {changes : Nat} (steps : Steps typed fed closed changes m n) (sound : m.Sound typed fed closed) :
    n.Sound typed fed closed := by
  induction steps with
  | refl => exact sound
  | step _ last ih => exact last.sound (ih sound)

/-- What edits make of a function, steps make of each. -/
theorem Steps.lifts {R : Func → Func → Prop} (refl : ∀ f, R f f) (trans : ∀ f g h, R f g → R g h → R f h)
    (edits : ∀ f g phis swept, f.Sound typed fed closed → Func.Edits typed fed closed phis swept f g → R f g)
    {changes : Nat} (steps : Steps typed fed closed changes m n) (sound : m.Sound typed fed closed) {id : FuncId}
    {f : Func} (found : m.func? id = some f) : ∃ g, n.func? id = some g ∧ R f g := by
  induction steps with
  | refl => exact ⟨f, found, refl f⟩
  | @step _ n k _ _ before last ih =>
    obtain ⟨g, middle, related⟩ := ih sound found
    have there := before.sound sound
    -- A step changes one function, which may be this one or another.
    have one {j : FuncId} {h h' : Func} (known : n.func? j = some h) {phis swept : List InstId}
        (made : Func.Edits typed fed closed phis swept h h') :
        ∃ g', (n.updateFunc j fun _ => h').func? id = some g' ∧ R f g' := by
      rw [func?_updateFunc]
      split
      next same =>
        cases same
        cases known.symm.trans middle
        exact ⟨h', by simp [known], trans _ _ _ related (edits _ _ _ _ (there _ _ known) made)⟩
      next => exact ⟨g, middle, related⟩
    cases last with
    | rewrite known made => exact one known made
    | tidy known made => exact one known made

theorem Step.eq_funcs {change : Nat} (step : Step typed fed closed change m n) : n = { m with funcs := n.funcs } := by
  cases step <;> rfl

/-- Only functions change. -/
theorem Steps.eq_funcs {changes : Nat} (steps : Steps typed fed closed changes m n) :
    n = { m with funcs := n.funcs } := by
  induction steps with
  | refl => rfl
  | @step _ n k _ _ _ last ih =>
    rw [last.eq_funcs, ih]

theorem Steps.known {changes : Nat} (steps : Steps typed fed closed changes m n) {id : FuncId}
    (there : (n.func? id).isSome) : (m.func? id).isSome := by
  induction steps with
  | refl => exact there
  | step _ last ih =>
    cases last <;>
    · rw [func?_updateFunc] at there
      split at there
      next => exact ih (by simpa using there)
      next => exact ih there

theorem Steps.layout {changes : Nat} (steps : Steps typed fed closed changes m n) : n.layout = m.layout :=
  (congrArg Module.layout steps.eq_funcs :)

end Module

namespace Simplification

variable {typed fed closed : Prop} {r s t : Simplification}

/-- What a part of a simplification does: steps, as many of them changes as it counts. -/
def Leads (typed fed closed : Prop) (r s : Simplification) : Prop :=
  ∃ changes, s.changes = r.changes + changes ∧ Module.Steps typed fed closed changes r.module s.module

theorem Leads.refl (r : Simplification) : Leads typed fed closed r r :=
  ⟨0, rfl, .refl _⟩

theorem Leads.trans (first : Leads typed fed closed r s) (second : Leads typed fed closed s t) :
    Leads typed fed closed r t := by
  obtain ⟨changes, counted, steps⟩ := first
  obtain ⟨others, counted', steps'⟩ := second
  exact ⟨changes + others, by omega, steps.trans steps'⟩

theorem Leads.sound (leads : Leads typed fed closed r s) (sound : r.module.Sound typed fed closed) :
    s.module.Sound typed fed closed := by
  obtain ⟨changes, -, steps⟩ := leads
  exact steps.sound sound

theorem Leads.layout (leads : Leads typed fed closed r s) : s.module.layout = r.module.layout := by
  obtain ⟨changes, -, steps⟩ := leads
  exact steps.layout

/-! ### Folding -/

/-- Displacements that are still to be folded, after others of the same pointer. -/
structure Foldable (closed : Prop) (f : Func) (ptr : ValueId) (ds : List Displacement) : Prop where
  listed : ∀ d ∈ ds, d.sum ∈ f.code
  sum : ∀ d ∈ ds, f.graph.isSum d.sum
  nodup : (ds.map Displacement.sum).Nodup
  defined : ds ≠ [] → closed → ∀ i, f.graph.definition? ptr = some i → i ∈ f.code

theorem foldable_displacements {f : Func} (sound : f.Sound typed fed closed) (ptr : ValueId) :
    Foldable closed f ptr (f.displacements ptr) where
  listed d member := (Func.mem_codeUsers.mp (Func.mem_displacements.mp member).2.1).2
  sum d member := by
    obtain ⟨n, offset, -⟩ := (Func.mem_displacements.mp member).2.2
    obtain ⟨lhs, rhs, found, -⟩ := Func.isSum_of_displacement offset
    simp [Graph.isSum, found, Inst.isSum]
  nodup := Func.nodup_displacements sound.valid ptr
  defined some_ restricted i definition := by
    obtain ⟨d, member⟩ := List.exists_mem_of_ne_nil _ some_
    obtain ⟨j, user, -⟩ := Func.mem_addresses.mp (Func.mem_displacements.mp member).1
    obtain ⟨uses, listed⟩ := Func.mem_codeUsers.mp user
    exact sound.defined restricted j listed ptr (sound.valid.graph.uses ptr j uses) i definition

theorem isSum_iff {g : Graph} {i : InstId} : g.isSum i ↔ ∃ inst, g.inst? i = some inst ∧ inst.isSum := by
  unfold Graph.isSum
  cases g.inst? i <;> simp

theorem Foldable.rest {f g : Func} {ptr : ValueId} {d : Displacement} {ds : List Displacement}
    (foldable : Foldable closed f ptr (d :: ds)) (sound : f.Sound typed fed closed) {L : DataLayout}
    {pointers : List ValueId} (folded : f.foldSum L ptr d = some (g, pointers)) : Foldable closed g ptr ds := by
  obtain ⟨inst, found, isSum⟩ := isSum_iff.mp (foldable.sum d List.mem_cons_self)
  have edits := Func.foldSum_edits sound (foldable.listed d List.mem_cons_self) found isSum
    (foldable.defined (List.cons_ne_nil _ _)) folded
  have nodup := foldable.nodup
  rw [List.map_cons, List.nodup_cons] at nodup
  have others (e) (member : e ∈ ds) : e.sum ∉ [d.sum] := by
    -- The sum that goes is no pointer, so it is not what defines the pointer.
    intro same
    exact nodup.1 (List.mem_map.mpr ⟨e, member, List.mem_singleton.mp same⟩)
  refine ⟨fun e member => ?_, fun e member => ?_, nodup.2, fun _ restricted i definition => ?_⟩
  · exact edits.listed sound (foldable.listed e (List.mem_cons_of_mem _ member)) (others e member)
  · have inside := sound.valid.code_lt _ (foldable.listed e (List.mem_cons_of_mem _ member))
    rw [(edits.grows sound).isSum inside]
    exact foldable.sum e (List.mem_cons_of_mem _ member)
  · obtain ⟨offset, -, rest⟩ := Option.bind_eq_some_iff.mp folded
    obtain ⟨sum, result, rest⟩ := Option.bind_eq_some_iff.mp rest
    obtain ⟨pointee, points, -⟩ := Option.bind_eq_some_iff.mp rest
    have isPtr : (f.graph.ty ptr).isPtr := by
      cases ty : f.graph.ty ptr <;> simp_all [Ty.pointee?, Ty.isPtr]
    rw [(edits.grows sound).definition? (Graph.lt_of_isPtr isPtr)] at definition
    refine edits.listed sound (foldable.defined (List.cons_ne_nil _ _) restricted i definition) ?_
    intro same
    rw [List.mem_singleton.mp same] at definition
    have known := (sound.valid.graph.result_iff d.sum ptr).mpr definition
    have noPtr := sound.sums restricted d.sum (foldable.listed d List.mem_cons_self) inst found isSum ptr known
    simp [noPtr] at isPtr

theorem fold_leads {ptr : FuncId × ValueId} {d : Displacement} {ds : List Displacement} {f : Func}
    (sound : r.module.Sound typed fed closed) (found : r.module.func? ptr.1 = some f)
    (foldable : Foldable closed f ptr.2 (d :: ds)) :
    Leads typed fed closed r (fold ptr r d) ∧ ∃ g, (fold ptr r d).module.func? ptr.1 = some g ∧
      Foldable closed g ptr.2 ds := by
  have here := sound _ _ found
  unfold fold
  simp only [found]
  cases folded : f.foldSum r.module.layout ptr.2 d with
  | none =>
    refine ⟨.refl r, f, found, fun e member => foldable.listed e (List.mem_cons_of_mem _ member),
      fun e member => foldable.sum e (List.mem_cons_of_mem _ member), ?_,
      fun _ => foldable.defined (List.cons_ne_nil _ _)⟩
    exact (List.nodup_cons.mp foldable.nodup).2
  | some written =>
    obtain ⟨g, pointers⟩ := written
    have isSum := foldable.sum d List.mem_cons_self
    obtain ⟨inst, known, sum⟩ := isSum_iff.mp isSum
    have listed := foldable.listed d List.mem_cons_self
    have edits := Func.foldSum_edits here listed known sum (foldable.defined (List.cons_ne_nil _ _)) folded
    refine ⟨⟨1, rfl, (Module.Step.rewrite found edits listed ?_ ?_).steps⟩, g,
      Module.func?_updateFunc_self found _, foldable.rest here folded⟩
    · simp [Func.isCandidate, isSum]
    · exact fun _ new member => absurd member List.not_mem_nil

theorem foldl_fold_leads {ptr : FuncId × ValueId} {ds : List Displacement} {f : Func}
    (sound : r.module.Sound typed fed closed) (found : r.module.func? ptr.1 = some f)
    (foldable : Foldable closed f ptr.2 ds) : Leads typed fed closed r (ds.foldl (fold ptr) r) := by
  induction ds generalizing r f with
  | nil => exact .refl r
  | cons d ds ih =>
    obtain ⟨first, g, found', rest⟩ := fold_leads sound found foldable
    exact first.trans (ih (first.sound sound) found' rest)

theorem foldAll_leads (sound : r.module.Sound typed fed closed) (ptr : FuncId × ValueId) :
    Leads typed fed closed r (r.foldAll ptr) := by
  unfold foldAll
  split
  next => exact .refl r
  next f found => exact foldl_fold_leads sound found (foldable_displacements (sound _ _ found) ptr.2)

/-! ### Sinking -/

/-- Phis that are still to be sunk, after others of the same function. -/
structure Sinkables (intTy : Ty) (f : Func) (phis : List InstId) : Prop where
  listed : ∀ i ∈ phis, i ∈ f.code
  merges : ∀ i ∈ phis, f.graph.MergesAddresses i
  integer : ∀ i ∈ phis, f.graph.isIntPhi intTy i
  nodup : phis.Nodup

theorem sinkables_code {f : Func} (valid : f.Valid) (intTy : Ty) :
    Sinkables intTy f (f.code.filter (f.graph.isSinkable intTy)) := by
  have facts {i : InstId} (sinkable : f.graph.isSinkable intTy i) :
      f.graph.MergesAddresses i ∧ f.graph.isIntPhi intTy i := by
    unfold Graph.isSinkable at sinkable
    split at sinkable
    next incoming ty result found known =>
      simp only [Bool.and_eq_true, decide_eq_true_eq, List.all_eq_true] at sinkable
      refine ⟨⟨incoming, ty, found, fun e member => ?_⟩, ?_⟩
      · obtain ⟨ptr, under⟩ := Option.isSome_iff_exists.mp (sinkable.2 e member)
        unfold Graph.pointerOf? at under
        split at under
        next cast => exact Func.isAddress_iff.mpr ⟨_, cast⟩
        next => cases under
      · simp [Graph.isIntPhi, Graph.isPhi, found, known, sinkable.1.1, Inst.isPhi]
    next => cases sinkable
  refine ⟨fun i member => (List.mem_filter.mp member).1,
    fun i member => (facts (List.mem_filter.mp member).2).1,
    fun i member => (facts (List.mem_filter.mp member).2).2, valid.code_nodup.filter _⟩

theorem Sinkables.rest {intTy : Ty} {f g : Func} {i : InstId} {is phis swept : List InstId}
    (sinkables : Sinkables intTy f (i :: is)) (sound : f.Sound typed fed closed)
    (edits : Func.Edits typed fed closed phis swept f g) (kept : ∀ j ∈ swept, j = i) : Sinkables intTy g is where
  listed j member := by
    refine edits.listed sound (sinkables.listed j (List.mem_cons_of_mem _ member)) fun removed => ?_
    exact (List.nodup_cons.mp sinkables.nodup).1 (kept j removed ▸ member)
  merges j member := edits.mergesAddresses sound (sinkables.merges j (List.mem_cons_of_mem _ member))
  integer j member := by
    have inside := sound.valid.code_lt j (sinkables.listed j (List.mem_cons_of_mem _ member))
    rw [(edits.grows sound).isIntPhi sound.valid.graph intTy inside]
    exact sinkables.integer j (List.mem_cons_of_mem _ member)
  nodup := (List.nodup_cons.mp sinkables.nodup).2

theorem exists_result_of_isIntPhi {g : Graph} {intTy : Ty} {i : InstId} (integer : g.isIntPhi intTy i) :
    g.isPhi i ∧ ∃ result, g.result? i = some result := by
  unfold Graph.isIntPhi at integer
  cases known : g.result? i with
  | none => simp [known] at integer
  | some result => exact ⟨by simp_all, result, rfl⟩

theorem sink_leads (guarded : fed ∨ closed) {id : FuncId} {i : InstId} {is : List InstId} {f : Func}
    (sound : r.module.Sound typed fed closed) (found : r.module.func? id = some f)
    (sinkables : Sinkables r.module.layout.pointerInt f (i :: is)) :
    Leads typed fed closed r (sink id r i) ∧ (fed → (sink id r i).changes = r.changes + 1) ∧
      ∃ g, (sink id r i).module.func? id = some g ∧
        Sinkables (sink id r i).module.layout.pointerInt g is := by
  have here := sound _ _ found
  have listed := sinkables.listed i List.mem_cons_self
  have integer := sinkables.integer i List.mem_cons_self
  obtain ⟨isPhi, result, known⟩ := exists_result_of_isIntPhi integer
  obtain ⟨g, out, sunk, complete, edits⟩ :=
    Func.sink_edits here guarded listed (sinkables.merges i List.mem_cons_self) known
  unfold sink
  simp only [found, sunk]
  cases out with
  | none =>
    refine ⟨⟨0, rfl, (Module.Step.tidy found edits).steps⟩, fun restricted => (nomatch complete restricted), g,
      Module.func?_updateFunc_self found _, sinkables.rest here edits (by simp)⟩
  | some ptr =>
    obtain ⟨new, edits, sinks⟩ := edits
    refine ⟨⟨1, rfl, (Module.Step.rewrite found edits listed ?_ fun restricted phi member => ?_).steps⟩,
      fun _ => rfl, g, Module.func?_updateFunc_self found _, sinkables.rest here edits (by simp)⟩
    · simp [Func.isCandidate, integer]
    · rw [List.mem_singleton.mp member]
      exact ⟨isPhi, sinks restricted⟩

theorem foldl_sink_leads (guarded : fed ∨ closed) {id : FuncId} {is : List InstId} {f : Func}
    (sound : r.module.Sound typed fed closed) (found : r.module.func? id = some f)
    (sinkables : Sinkables r.module.layout.pointerInt f is) :
    Leads typed fed closed r (is.foldl (sink id) r) ∧
      (fed → (is.foldl (sink id) r).changes = r.changes + is.length) := by
  induction is generalizing r f with
  | nil => exact ⟨.refl r, fun _ => rfl⟩
  | cons i is ih =>
    obtain ⟨first, counted, g, found', rest⟩ := sink_leads guarded sound found sinkables
    obtain ⟨others, countedRest⟩ := ih (first.sound sound) found' rest
    refine ⟨first.trans others, fun restricted => ?_⟩
    rw [List.foldl_cons, countedRest restricted, counted restricted, List.length_cons]
    omega

theorem sinkAll_leads (guarded : fed ∨ closed) (sound : r.module.Sound typed fed closed) (id : FuncId) :
    Leads typed fed closed r (r.sinkAll id) := by
  unfold sinkAll
  split
  next => exact .refl r
  next f found => exact (foldl_sink_leads guarded sound found (sinkables_code (sound _ _ found).valid _)).1

/-! ### Rounds -/

theorem removeDead_leads (typed fed closed : Prop) (r : Simplification) (id : FuncId) :
    Leads typed fed closed r (r.removeDead id) := by
  unfold removeDead
  cases found : r.module.func? id with
  | none =>
    rw [Module.updateFunc_congr (fun f => f) (by simp [found]), Module.updateFunc_id]
    exact .refl r
  | some f =>
    obtain ⟨swept, edits⟩ := Func.removeDeadFrom_edits typed fed closed f f.code.reverse
    rw [Module.updateFunc_congr (fun _ => f.removeDead.1) (by simp [found])]
    exact ⟨0, rfl, (Module.Step.tidy found edits).steps⟩

/-- What folding at a pointer keeps, folding at pointers one after the other keeps. -/
theorem foldFrom_induction {P : Simplification → Prop} (fold : ∀ r ptr, P r → P (r.foldAll ptr)) (n next : Nat)
    (start : P r) : P (foldFrom n next r) := by
  induction n generalizing next r with
  | zero => exact start
  | succ n ih =>
    unfold foldFrom
    split
    next => exact start
    next ptr _ => exact ih (next + 1) (fold r ptr start)

/-- What folding, sinking and removing keep, a round keeps. -/
theorem round_induction {P : Simplification → Prop} (fold : ∀ r ptr, P r → P (r.foldAll ptr))
    (sink : ∀ r id, P r → P (r.sinkAll id)) (remove : ∀ r id, P r → P (r.removeDead id)) {m : Module} {fr : Frontier}
    (start : P ⟨m, fr, 0⟩) : P (round m fr) := by
  have folded : P (foldFrontier ⟨m, fr, 0⟩) := foldFrom_induction fold _ 0 start
  have sunk := List.foldlRecOn (foldFrontier ⟨m, fr, 0⟩).module.definedFuncs sinkAll folded
    fun r before id _ => sink r id before
  exact List.foldlRecOn (foldFrontier ⟨m, fr, 0⟩).module.definedFuncs removeDead sunk
    fun r before id _ => remove r id before

theorem round_leads (guarded : fed ∨ closed) {m : Module} (sound : m.Sound typed fed closed) (fr : Frontier) :
    Leads typed fed closed ⟨m, fr, 0⟩ (round m fr) :=
  round_induction (P := Leads typed fed closed ⟨m, fr, 0⟩)
    (fun _ ptr before => before.trans (foldAll_leads (before.sound sound) ptr))
    (fun _ id before => before.trans (sinkAll_leads guarded (before.sound sound) id))
    (fun r id before => before.trans (removeDead_leads typed fed closed r id)) (.refl _)

end Simplification

namespace Module

variable {typed fed closed : Prop} {m : Module}

/-- What a round keeps, all of them keep, counting their changes. The last round is counted with no change, but may have
removed dead code. -/
theorem simplifyRounds_induction {P : Simplification → Prop}
    (round : ∀ m fr total, P ⟨m, fr, total⟩ → P ⟨(Simplification.round m fr).module,
      (Simplification.round m fr).frontier, total + (Simplification.round m fr).changes⟩)
    (limit n : Nat) {fr : Frontier} {total : Nat} (start : P ⟨m, fr, total⟩) :
    P (m.simplifyRounds limit n fr total).toSimplification := by
  induction n generalizing m fr total with
  | zero => exact start
  | succ n ih =>
    have after := round m fr total start
    unfold simplifyRounds
    dsimp only
    split
    next none_ => rwa [none_] at after
    next => exact ih after

theorem simplifyRounds_leads (guarded : fed ∨ closed) (limit n : Nat) (sound : m.Sound typed fed closed)
    (fr : Frontier) (total : Nat) :
    Simplification.Leads typed fed closed ⟨m, fr, total⟩ (m.simplifyRounds limit n fr total).toSimplification := by
  refine simplifyRounds_induction (P := Simplification.Leads typed fed closed ⟨m, fr, total⟩)
    (fun m fr total before => ?_) limit n (.refl _)
  obtain ⟨changes, counted, steps⟩ := Simplification.round_leads guarded (before.sound sound) fr
  exact before.trans ⟨changes, by rw [counted, Nat.zero_add], steps⟩

theorem simplifyPointers_leads (guarded : fed ∨ closed) (sound : m.Sound typed fed closed) (fr : Frontier)
    (limit : Nat) :
    Steps typed fed closed (m.simplifyPointers fr limit).changes m (m.simplifyPointers fr limit).module := by
  obtain ⟨changes, counted, steps⟩ := simplifyRounds_leads guarded limit limit sound fr 0
  simp only [Nat.zero_add] at counted
  exact counted ▸ steps

end Module

end VarRecovery
