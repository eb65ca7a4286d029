import Mathlib.Data.List.Nodup
import VarRecovery.Proofs.Access.Form
import VarRecovery.Proofs.Access.LoweredRun

/-!
Lowering a module. It fails for the first call that cannot be lowered, and before anything is changed. If there is none,
all calls of reads, writes and barriers that are listed are lowered, whatever their order is.
-/

set_option autoImplicit false

namespace VarRecovery

namespace Lowering

theorem foldl_addCall_eq {l : Lowering} (calls : List LoweredCall) (there : ∀ c ∈ calls, (l.module.func? c.func).isSome) :
    (calls.foldl addCall l).lowered = l.lowered + calls.length ∧
      ∀ id, (calls.foldl addCall l).module.func? id = (l.module.func? id).map fun f =>
        (calls.filter (·.func = id)).foldl (fun f c => (f.lowerCall c.inst c.intrinsic).1) f := by
  induction calls generalizing l with
  | nil => exact ⟨rfl, fun id => by simp⟩
  | cons c calls ih =>
    obtain ⟨here, rest⟩ := List.forall_mem_cons.mp there
    obtain ⟨f, found⟩ := Option.isSome_iff_exists.mp here
    have step : l.addCall c = ⟨l.module.updateFunc c.func fun _ => (f.lowerCall c.inst c.intrinsic).1, l.lowered + 1,
        l.pointers ++ ((f.lowerCall c.inst c.intrinsic).2.map (c.func, ·)).toList⟩ := by
      simp only [addCall, found]
    have func (id : FuncId) : (l.addCall c).module.func? id = if id = c.func then
        some (f.lowerCall c.inst c.intrinsic).1 else l.module.func? id := by
      rw [step, Module.func?_updateFunc]
      split
      next same => rw [same, found, Option.map_some]
      next => rfl
    -- One lowering never loses a function, so the calls behind it still find theirs.
    obtain ⟨count, each⟩ := ih (l := l.addCall c) fun d member => by
      rw [func]
      split
      next => rfl
      next => exact rest d member
    refine ⟨?_, fun id => ?_⟩
    · rw [List.foldl_cons, count, step, List.length_cons]
      dsimp only
      omega
    · rw [List.foldl_cons, each, func]
      by_cases same : id = c.func
      · rw [if_pos same, same, found, List.filter_cons_of_pos (by simp)]
        rfl
      · rw [if_neg same, List.filter_cons_of_neg (by simpa using Ne.symm same)]

end Lowering

namespace Module

variable {m : Module} {start : String} {id : FuncId} {f : Func} {i : InstId}

/-- The intrinsic that a listed call names, if its calls are lowered. -/
def lowers? (m : Module) (start : String) (f : Func) (i : InstId) : Option Intrinsic :=
  if i ∈ f.code then
    match f.graph.inst? i with
    | some (.call callee _ _) => (m.intrinsic? start callee).filter Intrinsic.isLowered
    | _ => none
  else none

/-- The intrinsic that what is listed in a function names. -/
def lowersAt? (m : Module) (start : String) (x : FuncId × InstId) : Option Intrinsic :=
  (m.func? x.1).bind (m.lowers? start · x.2)

/-- A call that cannot be lowered, and how lowering fails for it: a function with a body is no intrinsic, and then all
arguments of the intrinsic must be there. -/
inductive Offends (m : Module) (start : String) : FuncId × InstId → RecoveryError → Prop
  | hasBody {id callee : FuncId} {f g : Func} {i : InstId} {args : List ValueId} {ret : Ty} {intrinsic : Intrinsic}
      (found : m.func? id = some f) (call : f.graph.inst? i = some (.call callee args ret))
      (names : m.intrinsic? start callee = some intrinsic) (lowered : intrinsic.isLowered)
      (known : m.func? callee = some g) (body : g.hasBody) :
      Offends m start (id, i) (.intrinsicHasBody (m.funcName callee))
  | malformed {id callee : FuncId} {f : Func} {i : InstId} {args : List ValueId} {ret : Ty} {intrinsic : Intrinsic}
      (found : m.func? id = some f) (call : f.graph.inst? i = some (.call callee args ret))
      (names : m.intrinsic? start callee = some intrinsic) (lowered : intrinsic.isLowered)
      (declared : ∀ g, m.func? callee = some g → g.hasBody = false) (few : args.length < intrinsic.arity) :
      Offends m start (id, i) (.malformedIntrinsic (m.funcName callee) args.length intrinsic.arity)

theorem hasBody_iff {callee : FuncId} :
    ((m.func? callee).map Func.hasBody).getD false = true ↔ ∃ g, m.func? callee = some g ∧ g.hasBody := by
  cases m.func? callee <;> simp

theorem loweredCall?_of_offends {x : FuncId × InstId} {e : RecoveryError} (offends : m.Offends start x e) :
    m.loweredCall? start x.1 (m.graph x.1) x.2 = .error e := by
  cases offends with
  | hasBody found call names lowered known body =>
    have body' := hasBody_iff.mpr ⟨_, known, body⟩
    rw [graph_of_func? found]
    simp only [loweredCall?, call, names, lowered, body']
    rfl
  | @malformed id callee f i args ret intrinsic found call names lowered declared few =>
    have noBody : ((m.func? callee).map Func.hasBody).getD false = false := by
      refine Bool.eq_false_iff.mpr fun body => ?_
      obtain ⟨g, known, body⟩ := hasBody_iff.mp body
      cases (declared g known).symm.trans body
    rw [graph_of_func? found]
    simp only [loweredCall?, call, names, lowered, noBody, if_pos few]
    rfl

theorem lowers?_of_call (listed : i ∈ f.code) {callee : FuncId} {args : List ValueId} {ret : Ty}
    (call : f.graph.inst? i = some (.call callee args ret)) :
    m.lowers? start f i = (m.intrinsic? start callee).filter Intrinsic.isLowered := by
  rw [lowers?, if_pos listed, call]

theorem lowers?_of_other (other : ∀ callee args ret, f.graph.inst? i ≠ some (.call callee args ret)) :
    m.lowers? start f i = none := by
  unfold lowers?
  split
  next =>
    split
    next callee args ret call => exact absurd call (other callee args ret)
    next => rfl
  next => rfl

theorem mem_code_of_lowers? {t : Intrinsic} (known : m.lowers? start f i = some t) : i ∈ f.code := by
  by_contra absent
  rw [lowers?, if_neg absent] at known
  cases known

theorem offends_or_lowerable (start : String) (found : m.func? id = some f) (listed : i ∈ f.code) :
    (∃ e, m.Offends start (id, i) e) ∨
      m.loweredCall? start id f.graph i = .ok ((m.lowers? start f i).map (⟨id, i, ·⟩)) ∧
        ∀ t, m.lowers? start f i = some t → f.Lowerable i t := by
  unfold loweredCall?
  split
  next callee args ret call =>
    rw [lowers?_of_call listed call]
    cases names : m.intrinsic? start callee with
    | none => exact .inr ⟨rfl, fun t same => nomatch same⟩
    | some intrinsic =>
      cases lowered : intrinsic.isLowered with
      | false => exact .inr (by simp [lowered])
      | true =>
        cases body : ((m.func? callee).map Func.hasBody).getD false with
        | true =>
          obtain ⟨g, known, body⟩ := hasBody_iff.mp body
          exact .inl ⟨_, .hasBody found call names lowered known body⟩
        | false =>
          by_cases few : args.length < intrinsic.arity
          · refine .inl ⟨_, .malformed found call names lowered (fun g known => ?_) few⟩
            refine Bool.eq_false_iff.mpr fun has => ?_
            cases (hasBody_iff.mpr ⟨g, known, has⟩).symm.trans body
          · refine .inr ⟨by simp [lowered, few], fun t same => ?_⟩
            simp only [Option.filter_some, lowered, if_true, Option.some.injEq] at same
            subst same
            exact ⟨listed, lowered, callee, args, ret, call, Nat.le_of_not_lt few⟩
  next other =>
    rw [lowers?_of_other other]
    exact .inr ⟨rfl, fun t same => nomatch same⟩

/-- The calls that are lowered, if all can be. -/
def callsLowered (m : Module) (start : String) : List LoweredCall :=
  m.allCode.filterMap fun x => (m.lowersAt? start x).map (⟨x.1, x.2, ·⟩)

theorem lower_eq_error {e : RecoveryError} : m.lower start = .error e ↔ ∃ before x after,
    m.allCode = before ++ x :: after ∧ m.Offends start x e ∧ ∀ y ∈ before, ∀ e', ¬m.Offends start y e' := by
  have whole : m.lower start = .error e ↔
      m.allCode.mapM (fun x => m.loweredCall? start x.1 (m.graph x.1) x.2) = .error e := by
    unfold lower loweredCalls
    cases m.allCode.mapM fun x => m.loweredCall? start x.1 (m.graph x.1) x.2 <;>
      simp [bind, Except.bind, pure, Except.pure]
  -- Each instruction either offends or passes, so the first error is that of the first one that offends.
  have looked {x : FuncId × InstId} (member : x ∈ m.allCode) : (∃ e, m.Offends start x e) ∨
      ∃ c, m.loweredCall? start x.1 (m.graph x.1) x.2 = .ok c := by
    obtain ⟨f, found, listed⟩ := mem_allCode.mp member
    exact (offends_or_lowerable start found listed).imp_right fun ⟨looked, _⟩ => ⟨_, graph_of_func? found ▸ looked⟩
  rw [whole, Recovering.mapM_eq_error]
  refine exists_congr fun before => exists_congr fun x => exists_congr fun after => and_congr_right fun parts => ?_
  have inside : x ∈ m.allCode := parts ▸ List.mem_append_right _ List.mem_cons_self
  refine and_congr ⟨fun failed => ?_, loweredCall?_of_offends⟩ (forall₂_congr fun y member => ?_)
  · rcases looked inside with ⟨e', offends⟩ | ⟨c, passed⟩
    · cases failed.symm.trans (loweredCall?_of_offends offends)
      exact offends
    · cases failed.symm.trans passed
  · constructor
    · rintro ⟨c, passed⟩ e' offends
      cases passed.symm.trans (loweredCall?_of_offends offends)
    · intro sound
      refine (looked (parts ▸ List.mem_append_left _ member)).resolve_left ?_
      rintro ⟨e', offends⟩
      exact sound e' offends

theorem mem_callsLowered {c : LoweredCall} : c ∈ m.callsLowered start ↔
    ∃ f, m.func? c.func = some f ∧ m.lowers? start f c.inst = some c.intrinsic := by
  unfold callsLowered
  rw [List.mem_filterMap]
  constructor
  · rintro ⟨x, member, same⟩
    obtain ⟨t, known, rfl⟩ := Option.map_eq_some_iff.mp same
    exact Option.bind_eq_some_iff.mp known
  · rintro ⟨f, found, known⟩
    refine ⟨(c.func, c.inst), mem_allCode.mpr ⟨f, found, mem_code_of_lowers? known⟩,
      Option.map_eq_some_iff.mpr ⟨c.intrinsic, ?_, rfl⟩⟩
    exact Option.bind_eq_some_iff.mpr ⟨f, found, known⟩

theorem lower_of_sound (sound : ∀ x ∈ m.allCode, ∀ e, ¬m.Offends start x e) :
    m.lower start = .ok ((m.callsLowered start).foldl Lowering.addCall ⟨m, 0, []⟩) ∧
      ∀ id f, m.func? id = some f → ∀ i t, m.lowers? start f i = some t → f.Lowerable i t := by
  have each {id : FuncId} {f : Func} {i : InstId} (found : m.func? id = some f) (listed : i ∈ f.code) :=
    (offends_or_lowerable start found listed).resolve_left fun ⟨e, offends⟩ =>
      sound (id, i) (mem_allCode.mpr ⟨f, found, listed⟩) e offends
  have looked : m.allCode.mapM (fun x => m.loweredCall? start x.1 (m.graph x.1) x.2) =
      .ok (m.allCode.map fun x => (m.lowersAt? start x).map (⟨x.1, x.2, ·⟩)) := by
    refine Recovering.mapM_eq_map fun x member => ?_
    obtain ⟨f, found, listed⟩ := mem_allCode.mp member
    rw [graph_of_func? found, (each found listed).1, lowersAt?, found, Option.bind_some]
  refine ⟨?_, fun id f found i t known => ?_⟩
  · have calls : m.loweredCalls start = .ok (m.callsLowered start) := by
      unfold loweredCalls
      rw [looked]
      simp [callsLowered, bind, Except.bind, pure, Except.pure, List.filterMap_map]
    rw [lower, calls]
    rfl
  · exact (each found (mem_code_of_lowers? known)).2 t known

theorem nodup_callsLowered (start : String) (once : ∀ id f, m.func? id = some f → f.code.Nodup) :
    ((m.callsLowered start).map LoweredCall.key).Nodup := by
  have keys : (m.callsLowered start).map LoweredCall.key = m.allCode.filter fun x => (m.lowersAt? start x).isSome := by
    rw [callsLowered, List.map_filterMap, ← List.filterMap_eq_filter]
    refine List.filterMap_congr fun x _ => ?_
    cases known : m.lowersAt? start x <;> simp [known, LoweredCall.key, Option.guard]
  rw [keys]
  exact (nodup_allCode once).filter _

/-- The result of lowering a program: an error for the first call that cannot be lowered, if there is one, and else code
in which all calls were replaced. If code used no result of what is not listed, it uses no result of a call that was
lowered. -/
theorem lower_replaces_calls (m : Module) (start : String) :
    (∀ e, m.lower start = .error e ↔ ∃ before x after, m.allCode = before ++ x :: after ∧ m.Offends start x e ∧
      ∀ y ∈ before, ∀ e', ¬m.Offends start y e') ∧
    ((∀ x ∈ m.allCode, ∀ e, ¬m.Offends start x e) →
      (∀ id f, m.func? id = some f → f.Valid ∧ f.OperandsDefined) →
      (∀ id f, m.func? id = some f → ∀ v, ¬Relation.TransGen (Func.Forwards (m.lowers? start f) f) v v) →
      ∃ l, m.lower start = .ok l ∧ l.lowered = m.allCode.countP (fun x => (m.lowersAt? start x).isSome) ∧
        l.module.IsLowered start ∧
        ∀ id f, m.func? id = some f → ∃ g σ news, l.module.func? id = some g ∧
          Func.Lowered (m.lowers? start f) f g σ news ∧
          (∀ v w, Relation.ReflTransGen (Func.Forwards (m.lowers? start f) f) v w → σ v = σ w) ∧
          ∀ i ∈ g.code, ∀ v ∈ g.graph.operands i, ¬Func.Replaced (m.lowers? start f) f v) := by
  refine ⟨fun e => lower_eq_error, fun sound formed acyclic => ?_⟩
  obtain ⟨lowers, lowerable⟩ := lower_of_sound sound
  have once := nodup_callsLowered start fun id f found => (formed id f found).1.code_nodup
  obtain ⟨count, each⟩ := Lowering.foldl_addCall_eq (l := ⟨m, 0, []⟩) (m.callsLowered start) fun c member => by
    obtain ⟨f, found, -⟩ := mem_callsLowered.mp member
    exact Option.isSome_iff_exists.mpr ⟨f, found⟩
  have keeps : m.KeepsForm True _ ∧ _ := lower_keepsForm lowers
  refine ⟨_, lowers, ?count, keeps.2, fun id f found => ?func⟩
  case count =>
    rw [count, Nat.zero_add, callsLowered, List.length_filterMap_eq_countP]
    simp
  case func =>
    obtain ⟨valid, defined⟩ := formed id f found
    have here {c : LoweredCall} (member : c ∈ (m.callsLowered start).filter (·.func = id)) :
        m.lowers? start f c.inst = some c.intrinsic := by
      obtain ⟨inside, same⟩ := List.mem_filter.mp member
      obtain ⟨f', found', known⟩ := mem_callsLowered.mp inside
      cases (of_decide_eq_true same ▸ found').symm.trans found
      exact known
    -- The keys of all calls differ, so within a function the instructions do.
    have alone : (((m.callsLowered start).filter (·.func = id)).map LoweredCall.inst).Nodup := by
      refine List.Nodup.of_map (id, ·) ?_
      rw [List.map_map, List.map_congr_left fun c member => ?key]
      · exact once.sublist (List.filter_sublist.map LoweredCall.key)
      case key => exact Prod.ext (of_decide_eq_true (List.mem_filter.mp member).2).symm rfl
    obtain ⟨k, σ, news, lowered, known⟩ := (Func.LoweredSoFar.refl valid).run valid defined
      ((m.callsLowered start).filter (·.func = id))
      (fun c member => ⟨lowerable id f found _ _ (here member), rfl⟩) alone
    -- The calls that were lowered one by one are all that the function lists.
    have all : k = m.lowers? start f := by
      refine funext fun i => Option.ext fun t => (known i t).trans ⟨?_, fun lowered => .inr ?_⟩
      · rintro (absent | ⟨c, member, rfl, rfl⟩)
        · cases absent
        · exact here member
      · refine ⟨⟨id, i, t⟩, List.mem_filter.mpr ⟨mem_callsLowered.mpr ⟨f, found, lowered⟩, by simp⟩, rfl, rfl⟩
    subst all
    exact ⟨_, σ, news, by rw [each, found, Option.map_some], lowered.toLowered, fun v w leads => lowered.forwards leads,
      fun i listed v operand => lowered.unused valid (acyclic id f found) listed operand⟩

theorem not_offends {x : FuncId × InstId} (looked : (m.loweredCall? start x.1 (m.graph x.1) x.2).toOption.isSome)
    (e : RecoveryError) : ¬m.Offends start x e := fun offends => by
  rw [loweredCall?_of_offends offends] at looked
  cases looked

/-- States of memory that were there before the results that give them lead back to none. -/
theorem forwards_acyclic (down : ∀ i ∈ f.code, ∀ t ∈ m.lowers? start f i, t.isLoad = false →
    ∀ v ∈ f.graph.result? i, (f.argument i 0).index < v.index) (v : ValueId) :
    ¬Relation.TransGen (Func.Forwards (m.lowers? start f) f) v v := by
  have step (v w : ValueId) (forwards : Func.Forwards (m.lowers? start f) f v w) : w.index < v.index := by
    obtain ⟨i, t, known, noLoad, result, rfl⟩ := forwards
    exact down i (mem_code_of_lowers? known) t known noLoad v result
  have less (v w : ValueId) (leads : Relation.TransGen (Func.Forwards (m.lowers? start f) f) v w) :
      w.index < v.index := by
    induction leads with
    | single first => exact step _ _ first
    | tail _ last ih => exact Nat.lt_trans (step _ _ last) ih
  exact fun leads => Nat.lt_irrefl _ (less v v leads)

/-- A store of a word, a barrier in front of it that waits for the store, and a wide read that waits for the barrier. -/
def chainedCode : Func :=
  let int := Ty.int .i64
  let f := (Func.declare ⟨"f", .exported, [int, int], .f64, none, false, false⟩ []).addBlock
  let (f, stored) := f.insert (.call ⟨1⟩ [⟨0⟩, ⟨1⟩, ⟨1⟩] int) int (.bottom ⟨0⟩)
  let (f, ordered) := f.insert (.call ⟨2⟩ [stored] int) int (.before ⟨0⟩)
  let (f, read) := f.insert (.call ⟨3⟩ [ordered, ⟨1⟩] .f64) .f64 (.bottom ⟨0⟩)
  (f.insertInst (.leave (some read)) (.bottom ⟨0⟩)).1

def chainedAccesses : Module :=
  let int := Ty.int .i64
  let declare (name : String) (args : List Ty) (ret : Ty) : Func :=
    .declare ⟨name, .external, args, ret, none, false, false⟩ []
  { empty ⟨.x86_64, .unknown, .linux⟩ with
    funcs := #[chainedCode, declare "__relift_write_memory_64" [int, int, int] int,
      declare "__relift_barrier_store_load" [int] int, declare "__relift_read_memory_f80" [int, int] .f64] }

theorem chainedAccesses_lowered : ∃ l g, chainedAccesses.lower "__relift_" = .ok l ∧ l.lowered = 3 ∧
    l.module.IsLowered "__relift_" ∧ l.module.func? ⟨0⟩ = some g ∧ ∃ σ news,
      Func.Lowered (chainedAccesses.lowers? "__relift_" chainedCode) chainedCode g σ news ∧ σ ⟨3⟩ = ⟨0⟩ ∧
      ∀ i ∈ g.code, ∀ v ∈ g.graph.operands i, v ≠ ⟨2⟩ ∧ v ≠ ⟨3⟩ := by
  have formed : ∀ f ∈ chainedAccesses.funcs.toList, (f.Valid ∧ f.OperandsDefined) ∧
      ∀ i ∈ f.code, ∀ t ∈ chainedAccesses.lowers? "__relift_" f i, t.isLoad = false →
        ∀ v ∈ f.graph.result? i, (f.argument i 0).index < v.index := by decide +kernel
  have looked : ∀ x ∈ chainedAccesses.allCode,
      (chainedAccesses.loweredCall? "__relift_" x.1 (chainedAccesses.graph x.1) x.2).toOption.isSome := by decide +kernel
  have each := chainedAccesses.forall_func_iff.mpr formed
  obtain ⟨l, lowers, count, none_, func⟩ := (lower_replaces_calls chainedAccesses "__relift_").2
    (fun x member => not_offends (looked x member)) (fun id f found => (each id f found).1)
    (fun id f found => forwards_acyclic (each id f found).2)
  obtain ⟨g, σ, news, after, lowered, leads, unused⟩ := func ⟨0⟩ chainedCode rfl
  refine ⟨l, g, lowers, count.trans (by decide +kernel), none_, after, σ, news, lowered, ?_, fun i listed v operand => ?_⟩
  · have ordered : Func.Forwards (chainedAccesses.lowers? "__relift_" chainedCode) chainedCode ⟨3⟩ ⟨2⟩ :=
      ⟨⟨1⟩, .barrier .storeLoad, by decide +kernel, rfl, by decide +kernel, by decide +kernel⟩
    have stored : Func.Forwards (chainedAccesses.lowers? "__relift_" chainedCode) chainedCode ⟨2⟩ ⟨0⟩ :=
      ⟨⟨0⟩, .writeMemory .i64, by decide +kernel, rfl, by decide +kernel, by decide +kernel⟩
    have free : ∀ i ∈ chainedCode.code, chainedCode.graph.result? i ≠ some ⟨0⟩ := by decide +kernel
    exact (leads _ _ (.tail (.single ordered) stored)).trans
      (lowered.still ⟨0⟩ fun i t known => free i (mem_code_of_lowers? known))
  · have free := unused i listed v operand
    refine ⟨?_, ?_⟩
    · rintro rfl
      exact free ⟨⟨0⟩, .writeMemory .i64, by decide +kernel, by decide +kernel⟩
    · rintro rfl
      exact free ⟨⟨1⟩, .barrier .storeLoad, by decide +kernel, by decide +kernel⟩

/-- A read of the address that another read gives, of which the cast to an address is not listed any more. -/
def detachedCode : Func :=
  let int := Ty.int .i64
  let f := (Func.declare ⟨"f", .exported, [int, int], int, none, false, false⟩ []).addBlock
  let (f, first) := f.insert (.call ⟨1⟩ [⟨0⟩, ⟨1⟩] int) int (.bottom ⟨0⟩)
  let (f, address) := f.insert (.cast .ptrToInt first int) int (.bottom ⟨0⟩)
  let (f, second) := f.insert (.call ⟨1⟩ [⟨0⟩, address] int) int (.bottom ⟨0⟩)
  let f := (f.insertInst (.leave (some second)) (.bottom ⟨0⟩)).1
  f.remove ⟨1⟩

def detachedAddress : Module :=
  let int := Ty.int .i64
  { empty ⟨.x86_64, .unknown, .linux⟩ with
    funcs := #[detachedCode, .declare ⟨"__relift_read_memory_64", .external, [int, int], int, none, false, false⟩ []] }

/-- The pointer of the second read is cast from the result of the first, which is not listed any more. -/
theorem detachedAddress_uses_result : (∀ x ∈ detachedAddress.allCode, ∀ e, ¬detachedAddress.Offends "__relift_" x e) ∧
    (∀ id f, detachedAddress.func? id = some f → f.Valid ∧
      ∀ v, ¬Relation.TransGen (Func.Forwards (detachedAddress.lowers? "__relift_" f) f) v v) ∧
    ∃ l g, detachedAddress.lower "__relift_" = .ok l ∧ l.module.func? ⟨0⟩ = some g ∧
      ∃ i ∈ g.code, ∃ v ∈ g.graph.operands i, Func.Replaced (detachedAddress.lowers? "__relift_" detachedCode) detachedCode v := by
  have formed : ∀ f ∈ detachedAddress.funcs.toList, f.Valid ∧
      ∀ i ∈ f.code, ∀ t ∈ detachedAddress.lowers? "__relift_" f i, t.isLoad = false →
        ∀ v ∈ f.graph.result? i, (f.argument i 0).index < v.index := by decide +kernel
  have looked : ∀ x ∈ detachedAddress.allCode,
      (detachedAddress.loweredCall? "__relift_" x.1 (detachedAddress.graph x.1) x.2).toOption.isSome := by decide +kernel
  have each := detachedAddress.forall_func_iff.mpr formed
  refine ⟨fun x member => not_offends (looked x member), fun id f found => ⟨(each id f found).1,
    forwards_acyclic (each id f found).2⟩, ?_⟩
  have run : ((detachedAddress.lower "__relift_").toOption.bind fun l => (l.module.func? ⟨0⟩).map fun g =>
      decide (∃ i ∈ g.code, ⟨2⟩ ∈ g.graph.operands i)) = some true := by decide +kernel
  obtain ⟨l, lowers, run⟩ := Option.bind_eq_some_iff.mp run
  obtain ⟨g, found, uses⟩ := Option.map_eq_some_iff.mp run
  obtain ⟨i, listed, operand⟩ := of_decide_eq_true uses
  exact ⟨l, g, Recovering.ok_of_toOption lowers, found, i, listed, ⟨2⟩, operand, ⟨0⟩, .readMemory .i64, by decide +kernel,
    by decide +kernel⟩

end Module

end VarRecovery
