import Mathlib
import VarRecovery.Proofs.Access.Lowering
import VarRecovery.Proofs.Placement
import VarRecovery.Proofs.Pointer.Tracking
import VarRecovery.Proofs.Region.Tracking
import VarRecovery.Proofs.Stages

/-!
What is tracked through a whole recovery. The passes hand on to each other cells with listed users and a cursor at
listed instructions, so after each of them what is tracked is what is listed.
-/

set_option autoImplicit false

namespace VarRecovery

namespace Func

theorem operands_of_value?_addArgs {g : Graph} {position : Nat} {tys : List Ty} {v : ValueId} {val : Value}
    (found : (addArgs g position tys).1.value? v = some val) : g.value? v = some val ∨ val.operands = [] := by
  induction tys generalizing g position with
  | nil => exact .inl found
  | cons ty tys ih =>
    rcases ih found with (before : (g.addValue (.arg position ty)).1.value? v = some val) | plain
    · rw [Graph.value?_addValue] at before
      split at before
      next => cases before; exact .inr rfl
      next => exact .inl before
    · exact .inr plain

theorem closed_declare (s : Signature) (names : List (Nat × String)) : (Func.declare s names).Closed where
  code := nofun
  exprs v val found w operand := by
    rcases operands_of_value?_addArgs found with old | plain
    · cases old
    · rw [plain] at operand
      cases operand

end Func

namespace Module

variable {m n : Module} {image : Image}

theorem placeImage_tracked (tracked : m.Tracked) (closed : m.Closed) {t : EntityTable} {ws stop : List Warning}
    (run : (m.placeImage image).run.run ws = (.ok (n, t), stop)) : n.Tracked ∧ n.Closed :=
  ⟨placeImage_forall (fun s => Func.tracked_declare s []) tracked run,
    placeImage_forall (fun s => Func.closed_declare s []) closed run⟩

theorem buildFrames_revision {redzone : Nat} {perFunc : List (FuncId × List Cell)} {cursor last : EntryCursor}
    {fr fr' : Frontier} {ws stop : List Warning} (tracked : m.Tracked) (cursors : cursor.Listed m)
    (listed : ∀ s ∈ perFunc, ∀ c ∈ s.2, c.Listed m s.1)
    (h : (buildFrames image redzone perFunc m cursor fr).run.run ws = (.ok (n, last, fr'), stop)) :
    m.Revision n ∧ last.Listed n := by
  induction perFunc generalizing m cursor fr ws with
  | nil =>
    obtain ⟨done, -⟩ := Recovering.pure_ok h
    cases done
    exact ⟨.refl tracked, cursors⟩
  | cons s rest ih =>
    obtain ⟨here, others⟩ := List.forall_mem_cons.mp listed
    obtain ⟨⟨m', cursor', frame⟩, mid, built, h⟩ := Recovering.bind_ok h
    obtain ⟨first, cursors'⟩ := buildFrame_revision tracked cursors here built
    obtain ⟨revision, last⟩ :=
      ih first.tracked cursors' (fun s member c inside => (others s member c inside).revise first) h
    exact ⟨first.trans revision, last⟩

end Module

theorem Stages.tracked {m : Module} {image : Image} {config : RecoveryConfig} (s : Stages m image config)
    (tracked : m.Tracked) (closed : m.Closed) : s.lowering.module.Tracked := by
  obtain ⟨_, _, placed⟩ := s.place
  obtain ⟨_, _, framed⟩ := s.buildFrames
  obtain ⟨_, _, built⟩ := s.buildGlobals
  obtain ⟨tracked₁, closed₁⟩ := Module.placeImage_tracked tracked closed placed
  obtain ⟨materialized, listed⟩ := Module.collect_listed tracked₁ closed₁ s.collect
  -- Up to here code is only added, so the users of global cells are still listed when it is their turn.
  obtain ⟨frames, cursors⟩ := Module.buildFrames_revision materialized.tracked (.start _) listed.stack framed
  obtain ⟨declared, -⟩ := Module.buildGlobals_revision frames.tracked cursors
    (fun c member => (listed.globals c member).revise frames) built
  exact Module.lower_tracked declared.tracked s.lower

namespace Module

variable {m : Module} {image : Image}

theorem recover_tracked {config : RecoveryConfig} {r : Recovered} (tracked : m.Tracked) (closed : m.Closed)
    (h : (m.recover image config).warnings.1 = .ok r) : r.module.Tracked := by
  obtain ⟨stop, run⟩ := Recovering.warnings_ok h
  obtain ⟨s, rfl, -⟩ := recover_stages run
  exact simplifyPointers_tracked (s.tracked tracked closed) _ _

/-- Whatever operations made a graph, the users of a value are the tracked instructions that have it among their
operands. And where exactly the listed instructions are tracked, each pass keeps it so, if the cells and the cursor
it is given are at listed instructions. In closed code they are. -/
theorem passes_keep_tracked :
    (∀ (g : Graph) (tracked : Set InstId), g.Tracks tracked →
      ∀ v i, i ∈ g.users v ↔ i ∈ tracked ∧ v ∈ g.operands i) ∧
    ∀ m : Module, m.Tracked →
      (∀ f, (m.updateFunc f Func.materialize).Tracked) ∧
      (∀ f cells stackPointer redzone cursor n last frame, cursor.Listed m → (∀ c ∈ cells, c.Listed m f) →
        (m.buildFrame f cells stackPointer redzone cursor).warnings.1 = .ok (n, last, frame) →
        n.Tracked ∧ last.Listed n ∧ ∀ g (c : Cell), c.Listed m g → c.Listed n g) ∧
      (∀ t cells cursor n u last built, cursor.Listed m → (∀ c ∈ cells, c.Listed m c.func) →
        (m.buildGlobals t cells cursor).warnings.1 = .ok (n, u, last, built) →
        n.Tracked ∧ last.Listed n ∧ ∀ g (c : Cell), c.Listed m g → c.Listed n g) ∧
      (∀ start l, m.lower start = .ok l → l.module.Tracked) ∧
      (∀ fr limit, (m.simplifyPointers fr limit).module.Tracked) ∧
      (m.Closed →
        (∀ image start n cells, m.collect image start = .ok (n, cells) → n.Tracked ∧ cells.Listed n) ∧
        ∀ image config r, (m.recover image config).warnings.1 = .ok r → r.module.Tracked) := by
  refine ⟨fun g tracked tracks => tracks.exact.users,
    fun m tracked => ⟨fun f => ?materialize, ?frame, ?globals, ?lower, ?simplify, fun closed => ⟨?collect, ?recover⟩⟩⟩
  case materialize =>
    have written := (updateFunc_materialize_rewritten tracked False.elim f).1
    exact written.tracked
  case frame =>
    intro f cells stackPointer redzone cursor n last frame cursors listed h
    obtain ⟨stop, run⟩ := Recovering.warnings_ok h
    obtain ⟨revision, cursors'⟩ := buildFrame_revision tracked cursors listed run
    exact ⟨revision.tracked, cursors', fun g c inside => inside.revise revision⟩
  case globals =>
    intro t cells cursor n u last built cursors listed h
    obtain ⟨stop, run⟩ := Recovering.warnings_ok h
    obtain ⟨revision, cursors'⟩ := buildGlobals_revision tracked cursors listed run
    exact ⟨revision.tracked, cursors', fun g c inside => inside.revise revision⟩
  case lower => exact fun start l lowered => lower_tracked tracked lowered
  case simplify => exact fun fr limit => simplifyPointers_tracked tracked fr limit
  case collect =>
    intro image start n cells h
    obtain ⟨revision, listed⟩ := collect_listed tracked closed h
    exact ⟨revision.tracked, listed⟩
  case recover => exact fun image config r h => recover_tracked tracked closed h

/-- A read of a variable by an intrinsic, and one of the stack. -/
def twoReads : Module :=
  let int := Ty.int .i64
  let f := (Func.declare ⟨"main", .exported, [int], .unit, none, false, false⟩ []).addBlock
  let f := (f.addImm (.ofInt .i64 4096)).1
  let f := (f.insert (.call ⟨1⟩ [⟨0⟩, ⟨1⟩] int) int (.bottom ⟨0⟩)).1
  let f := (f.addImm (.ofInt .i64 8192)).1
  let f := (f.insert (.cast .intToPtr ⟨3⟩ (.ptr .i32)) (.ptr .i32) (.bottom ⟨0⟩)).1
  let f := (f.insert (.load ⟨4⟩ .i32) .i32 (.bottom ⟨0⟩)).1
  let f := (f.insertInst (.leave none) (.bottom ⟨0⟩)).1
  { empty ⟨.x86_64, .unknown, .linux⟩ with
    funcs := #[f, .declare ⟨"__relift_read_memory_64", .external, [int, int], int, none, false, false⟩ []] }

def twoReadsImage : Image where
  kindAt address := if address = 4096 then .global else .stack
  stackPointer := some 8192
  funcs := []
  vars := []

theorem tracked_twoReads : twoReads.Tracked := by
  intro id f found
  have f₀ := (Func.tracked_declare ⟨"main", .exported, [.i64], .unit, none, false, false⟩ []).addBlock (by decide)
  have f₁ := (f₀.addImm (.ofInt .i64 4096)).1.tracked
  have f₂ := (f₁.insert (.call ⟨1⟩ [⟨0⟩, ⟨1⟩] .i64) .i64 (.bottom ⟨0⟩) (by decide +kernel)
    (by decide +kernel)).1.tracked
  have f₃ := (f₂.addImm (.ofInt .i64 8192)).1.tracked
  have f₄ := (f₃.insert (.cast .intToPtr ⟨3⟩ (.ptr .i32)) (.ptr .i32) (.bottom ⟨0⟩) (by decide +kernel)
    (by decide +kernel)).1.tracked
  have f₅ := (f₄.insert (.load ⟨4⟩ .i32) .i32 (.bottom ⟨0⟩) (by decide +kernel) (by decide +kernel)).1.tracked
  have f₆ := (f₅.insertInst (.leave none) (.bottom ⟨0⟩) (by decide +kernel) (by decide +kernel)).1.tracked
  match id with
  | ⟨0⟩ => cases found; exact f₆
  | ⟨1⟩ => cases found; exact Func.tracked_declare _ _
  | ⟨_ + 2⟩ => cases found

theorem closed_twoReads : twoReads.Closed := by
  intro id f found
  match id with
  | ⟨0⟩ => cases found; decide +kernel
  | ⟨1⟩ => cases found; exact Func.closed_declare _ _
  | ⟨_ + 2⟩ => cases found

-- To evaluate a lowering takes this equation, which is slow to derive, so it is derived once, here.
attribute [local simp] Func.lowerToLoad

theorem twoReads_stay_tracked :
    (∃ n last, ∃ frame : Frame, (twoReads.buildFrame ⟨0⟩ [⟨⟨0⟩, 8192, .i32, 4, .plain, ⟨1⟩, ⟨3⟩⟩] (some 8192) 128
      .start).warnings.1 = .ok (n, last, frame) ∧ n.Tracked) ∧
    (∃ n u last, ∃ built : BuiltGlobals, (twoReads.buildGlobals .empty [⟨⟨0⟩, 4096, .i64, 8, .plain, ⟨0⟩, ⟨1⟩⟩]
      .start).warnings.1 = .ok (n, u, last, built) ∧ n.Tracked) ∧
    (∃ l, twoReads.lower "__relift_" = .ok l ∧ l.lowered = 1 ∧ l.module.Tracked) ∧
    (∃ r, (twoReads.recover twoReadsImage ⟨0, 1, "__relift_"⟩).warnings.1 = .ok r ∧ r.cells = 2 ∧
      r.intrinsicsLowered = 1 ∧ r.module.Tracked) ∧
    ∀ i, i ∈ (twoReads.graph ⟨0⟩).users ⟨3⟩ ↔ i ∈ (twoReads.listing ⟨0⟩).allInsts ∧
      ⟨3⟩ ∈ (twoReads.graph ⟨0⟩).operands i := by
  have frameRun : ((twoReads.buildFrame ⟨0⟩ [⟨⟨0⟩, 8192, .i32, 4, .plain, ⟨1⟩, ⟨3⟩⟩] (some 8192) 128
      .start).warnings.1.toOption.map fun _ => ()) = some () := by cbv
  have globalsRun : ((twoReads.buildGlobals .empty [⟨⟨0⟩, 4096, .i64, 8, .plain, ⟨0⟩, ⟨1⟩⟩]
      .start).warnings.1.toOption.map fun _ => ()) = some () := by cbv
  have lowerRun : ((twoReads.lower "__relift_").toOption.map (·.lowered)) = some 1 := by cbv
  have recoverRun : ((twoReads.recover twoReadsImage ⟨0, 1, "__relift_"⟩).warnings.1.toOption.map
      fun r => (r.cells, r.intrinsicsLowered)) = some (2, 1) := by cbv
  have listed (c : Cell) (user : (⟨0⟩, c.user) ∈ twoReads.allCode)
      (value : c.value.index < (twoReads.graph ⟨0⟩).values.size) : c.Listed twoReads ⟨0⟩ :=
    ⟨mem_allCode.mp user, _, rfl, value⟩
  obtain ⟨users, passes⟩ := passes_keep_tracked
  obtain ⟨-, frame, globals, lower, -, closed⟩ := passes twoReads tracked_twoReads
  refine ⟨?frame, ?globals, ?lower, ?recover, users _ _ (tracked_twoReads ⟨0⟩ _ rfl).tracks ⟨3⟩⟩
  case frame =>
    obtain ⟨⟨n, last, built⟩, same, -⟩ := Option.map_eq_some_iff.mp frameRun
    have h := Recovering.ok_of_toOption same
    refine ⟨n, last, built, h, (frame _ _ _ _ _ _ _ _ (.start _) ?_ h).1⟩
    exact List.forall_mem_singleton.mpr (listed _ (by decide +kernel) (by decide +kernel))
  case globals =>
    obtain ⟨⟨n, u, last, built⟩, same, -⟩ := Option.map_eq_some_iff.mp globalsRun
    have h := Recovering.ok_of_toOption same
    refine ⟨n, u, last, built, h, (globals _ _ _ _ _ _ _ (.start _) ?_ h).1⟩
    exact List.forall_mem_singleton.mpr (listed _ (by decide +kernel) (by decide +kernel))
  case lower =>
    obtain ⟨l, same, lowered⟩ := Option.map_eq_some_iff.mp lowerRun
    have h := Recovering.ok_of_toOption same
    exact ⟨l, h, lowered, lower _ l h⟩
  case recover =>
    obtain ⟨r, same, counts⟩ := Option.map_eq_some_iff.mp recoverRun
    obtain ⟨cells, lowered⟩ := Prod.mk.inj counts
    have h := Recovering.ok_of_toOption same
    exact ⟨r, h, cells, lowered, (closed closed_twoReads).2 _ _ r h⟩

/-- An address that is a sum, which was taken out of the code that still uses it. -/
def detachedSum : Module :=
  let int := Ty.int .i64
  let f := (Func.declare ⟨"f", .exported, [int], int, none, false, false⟩ []).addBlock
  let f := (f.addImm (.ofInt .i64 4096)).1
  let f := (f.insert (.binary .add ⟨1⟩ ⟨0⟩) int (.bottom ⟨0⟩)).1
  let f := (f.insert (.cast .intToPtr ⟨2⟩ (.ptr int)) (.ptr int) (.bottom ⟨0⟩)).1
  let f := (f.insert (.load ⟨3⟩ int) int (.bottom ⟨0⟩)).1
  let f := (f.insertInst (.leave (some ⟨4⟩)) (.bottom ⟨0⟩)).1
  { empty ⟨.x86_64, .unknown, .linux⟩ with funcs := #[f.remove ⟨0⟩] }

def detachedSumImage : Image where
  kindAt address := if address = 4096 then .global else .unknown
  stackPointer := none
  funcs := []
  vars := []

theorem tracked_detachedSum : detachedSum.Tracked := by
  intro id f found
  have f₀ := (Func.tracked_declare ⟨"f", .exported, [.i64], .i64, none, false, false⟩ []).addBlock (by decide)
  have f₁ := (f₀.addImm (.ofInt .i64 4096)).1.tracked
  have f₂ := (f₁.insert (.binary .add ⟨1⟩ ⟨0⟩) .i64 (.bottom ⟨0⟩) (by decide +kernel) (by decide +kernel)).1.tracked
  have f₃ := (f₂.insert (.cast .intToPtr ⟨2⟩ (.ptr .i64)) (.ptr .i64) (.bottom ⟨0⟩) (by decide +kernel)
    (by decide +kernel)).1.tracked
  have f₄ := (f₃.insert (.load ⟨3⟩ .i64) .i64 (.bottom ⟨0⟩) (by decide +kernel) (by decide +kernel)).1.tracked
  have f₅ := (f₄.insertInst (.leave (some ⟨4⟩)) (.bottom ⟨0⟩) (by decide +kernel) (by decide +kernel)).1.tracked
  match id with
  | ⟨0⟩ => cases found; exact (f₅.remove ⟨0⟩).tracked
  | ⟨_ + 1⟩ => cases found

/-- The search for constants goes on at the sum, although it is not listed, and then it is tracked again. -/
theorem detachedSum_tracked_again : detachedSum.Tracked ∧ ∃ m cells n u last, ∃ built : BuiltGlobals,
    detachedSum.collect detachedSumImage "__relift_" = .ok (m, cells) ∧ m.Tracked ∧
    (m.buildGlobals .empty cells.globals .start).warnings.1 = .ok (n, u, last, built) ∧ ¬n.Tracked := by
  have run : ((detachedSum.collect detachedSumImage "__relift_").toOption.bind fun r =>
      (r.1.buildGlobals .empty r.2.globals .start).warnings.1.toOption.map fun built => (built.1.func? ⟨0⟩).map fun f =>
        (decide (⟨0⟩ ∈ f.graph.users ⟨6⟩), decide (⟨0⟩ ∈ f.code))) = some (some (true, false)) := by cbv
  obtain ⟨⟨m, cells⟩, collected, run⟩ := Option.bind_eq_some_iff.mp run
  obtain ⟨⟨n, u, last, built⟩, done, run⟩ := Option.map_eq_some_iff.mp run
  obtain ⟨f, found, run⟩ := Option.map_eq_some_iff.mp run
  obtain ⟨user, absent⟩ := Prod.mk.inj run
  have collected := Recovering.ok_of_toOption collected
  have materialized : m = detachedSum.materialize := by
    obtain ⟨_, -, same⟩ := Recovering.bind_eq_ok collected
    cases same
    rfl
  refine ⟨tracked_detachedSum, m, cells, n, u, last, built, collected, ?_, Recovering.ok_of_toOption done,
    fun tracked => ?_⟩
  · rw [materialized]
    exact (materialize_rewritten tracked_detachedSum False.elim).1.tracked
  · have listed := ((tracked ⟨0⟩ f found).mem_users_iff.mp (of_decide_eq_true user)).1
    exact of_decide_eq_false absent listed

end Module

end VarRecovery
