import VarRecovery.Proofs.Code.Func
import VarRecovery.Proofs.Code.Module
import VarRecovery.Proofs.Recovering
import VarRecovery.Region.EntryCursor

/-!
What is written at the start of functions stands there in the order in which it was written, in front of the code
that was there. Functions take turns in any way, and between two instructions all but the order of code may change.
-/

set_option autoImplicit false

namespace VarRecovery

namespace Listing

variable {l : Listing} {i anchor : InstId} {front : List InstId}

/-- Code with more instructions at its start. -/
def startWith (l : Listing) (front : List InstId) : Listing :=
  match l.blocks with
  | [] => l
  | (entry, insts) :: rest => ⟨(entry, front ++ insts) :: rest⟩

@[simp] theorem startWith_nil (l : Listing) : l.startWith [] = l := by
  unfold startWith
  split
  next => rfl
  next blocks => exact congrArg Listing.mk blocks.symm

@[simp] theorem blockIds_startWith (l : Listing) (front : List InstId) : (l.startWith front).blockIds = l.blockIds := by
  unfold startWith
  split
  next => rfl
  next blocks => simp [blockIds, blocks]

theorem allInsts_startWith (body : l.entry?.isSome) (front : List InstId) :
    (l.startWith front).allInsts = front ++ l.allInsts := by
  unfold startWith
  split
  next blocks => simp [blockIds, blocks, Listing.entry?] at body
  next blocks => simp [allInsts, blocks]

/-- The first instruction comes to the top of the entry block. -/
theorem prepend_entry {entry : BlockId} (nodup : l.blockIds.Nodup) (first : l.entry? = some entry) :
    l.prepend i entry = l.startWith [i] := by
  obtain ⟨blocks⟩ := l
  cases blocks with
  | nil => cases first
  | cons block rest =>
    obtain ⟨b, insts⟩ := block
    obtain rfl : b = entry := Option.some.inj first
    obtain ⟨absent, -⟩ := List.nodup_cons.mp nodup
    have others (e : BlockId × List InstId) (member : e ∈ rest) : e.1 ≠ b := fun same =>
      absent (List.mem_map.mpr ⟨e, member, same⟩)
    have kept : (rest.map fun e => if e.1 = b then (e.1, i :: e.2) else (e.1, e.2)) = rest :=
      (List.map_congr_left fun e member => if_neg (others e member)).trans (List.map_id rest)
    simp only [prepend, updateBlock, startWith, List.map_cons, if_true, kept]
    rfl

/-- Each later one comes behind the one before it. -/
theorem insertAfter_startWith (absent : anchor ∉ front) (new : anchor ∉ l.allInsts) :
    (l.startWith (front ++ [anchor])).insertAfter i anchor = l.startWith (front ++ [anchor, i]) := by
  have still (j : InstId) (other : j ≠ anchor) : (if j = anchor then [j, i] else [j]) = [j] := if_neg other
  obtain ⟨blocks⟩ := l
  cases blocks with
  | nil => rfl
  | cons block rest =>
    obtain ⟨b, insts⟩ := block
    simp only [allInsts, List.flatMap_cons, List.mem_append, not_or] at new
    have others (e : BlockId × List InstId) (member : e ∈ rest) : anchor ∉ e.2 := fun inside =>
      new.2 (List.mem_flatMap.mpr ⟨e, member, inside⟩)
    have kept : (rest.map fun e => (e.1, e.2.flatMap fun j => if j = anchor then [j, i] else [j])) = rest :=
      (List.map_congr_left fun e member => congrArg (Prod.mk e.1) (flatMap_of_not_mem still (others e member))).trans
        (List.map_id rest)
    simp only [insertAfter, updateAll, startWith, List.map_cons, kept, List.flatMap_append, List.flatMap_cons,
      flatMap_of_not_mem still absent, flatMap_of_not_mem still new.1, if_true, List.append_assoc, List.cons_append,
      List.nil_append]

theorem isSome_entry?_startWith (l : Listing) (front : List InstId) :
    Option.isSome (Listing.entry? (l.startWith front)) = Option.isSome l.entry? := by
  unfold entry?
  rw [blockIds_startWith]

end Listing

theorem Graph.size_results_emit (g : Graph) (inst : Inst) (ty : Ty) :
    (g.emit inst ty).results.size = g.results.size + 1 := by
  change ((g.addInst inst).1.results.setIfInBounds _ _).size = _
  rw [Array.size_setIfInBounds, congrArg Graph.results (Graph.addInst_eq g inst).1, Array.size_push]

@[simp] theorem Graph.results_addImm (g : Graph) (i : Imm) : (g.addImm i).1.results = g.results := by
  rcases addImm_cases g i with ⟨v, -, same⟩ | new
  · rw [same]
  · rw [new]
    rfl

/-- Blocks are listed once, and code consists of instructions that are there. -/
structure Func.Ordered (f : Func) : Prop where
  blocks : f.listing.blockIds.Nodup
  code : ∀ i ∈ f.code, i.index < f.graph.insts.size
  results : f.graph.results.size = f.graph.insts.size

instance (f : Func) : Decidable f.Ordered :=
  decidable_of_iff (f.listing.blockIds.Nodup ∧ (∀ i ∈ f.code, i.index < f.graph.insts.size) ∧
      f.graph.results.size = f.graph.insts.size)
    ⟨fun ⟨blocks, code, results⟩ => ⟨blocks, code, results⟩,
      fun ordered => ⟨ordered.blocks, ordered.code, ordered.results⟩⟩

/-- Anything may change but the order of code. -/
def Module.KeepsOrder (m n : Module) : Prop :=
  ∀ f func, m.func? f = some func → ∃ after, n.func? f = some after ∧ after.listing = func.listing ∧
    func.graph.insts.size ≤ after.graph.insts.size ∧
    (func.graph.results.size = func.graph.insts.size → after.graph.results.size = after.graph.insts.size)

/-- Constants may come in between. -/
theorem Module.keepsOrder_addOffset (m : Module) (f : FuncId) (offset : Int) :
    m.KeepsOrder (m.addOffset f offset).1 := by
  intro g func found
  unfold addOffset
  split
  next => exact ⟨func, found, rfl, Nat.le_refl _, id⟩
  next other known =>
    by_cases here : g = f
    · subst here
      obtain rfl : other = func := Option.some.inj (known.symm.trans found)
      have insts := other.graph.insts_addImm (.ofInt m.layout.pointerWidth offset)
      have results := other.graph.results_addImm (.ofInt m.layout.pointerWidth offset)
      refine ⟨_, func?_updateFunc_self found _, rfl, ?_, fun same => ?_⟩
      · exact Nat.le_of_eq (congrArg Array.size insts).symm
      · exact (congrArg Array.size results).trans (same.trans (congrArg Array.size insts).symm)
    · exact ⟨func, by rw [func?_updateFunc, if_neg here, found], rfl, Nat.le_refl _, id⟩

namespace EntryCursor

/-- What a cursor that began with `m₀` has written so far, into which functions, and where that has led. -/
inductive Writes (m₀ : Module) : List (FuncId × InstId) → Module → EntryCursor → Prop where
  | start : Writes m₀ [] m₀ .start
  | change {log : List (FuncId × InstId)} {m n : Module} {c : EntryCursor} (before : Writes m₀ log m c)
      (kept : m.KeepsOrder n) : Writes m₀ log n c
  | insert {log : List (FuncId × InstId)} {m n : Module} {c d : EntryCursor} {v : ValueId} (before : Writes m₀ log m c)
      (f : FuncId) (i : InstId) (inst : Inst) (ty : Ty) (written : c.insert m f inst ty = .ok (n, d, v))
      (made : (n.graph f).definition? v = some i) : Writes m₀ (log ++ [(f, i)]) n d

/-- What was written into a function. -/
def writtenTo (log : List (FuncId × InstId)) (f : FuncId) : List InstId :=
  (log.filter (·.1 = f)).map Prod.snd

/-- What holds of a function with the instructions `front` at its start, which it did not have before. -/
structure Behind (c : EntryCursor) (f : FuncId) (before now : Func) (front : List InstId) : Prop where
  listing : now.listing = before.listing.startWith front
  nodup : front.Nodup
  new : ∀ i ∈ front, before.graph.insts.size ≤ i.index ∧ i.index < now.graph.insts.size
  grown : before.graph.insts.size ≤ now.graph.insts.size
  results : now.graph.results.size = now.graph.insts.size
  last : c.last.lookup f = front.getLast?
  body : before.hasBody = false → front = []

variable {m₀ m n : Module} {c d : EntryCursor} {f g : FuncId} {before now after func : Func} {front : List InstId}
variable {inst : Inst} {ty : Ty} {v : ValueId} {i : InstId} {log : List (FuncId × InstId)}

/-! ### One write -/

/-- An instruction is written at the place that comes next in a function with a body, and is remembered. -/
theorem insert_places (h : c.insert m f inst ty = .ok (n, d, v)) :
    ∃ func place, m.func? f = some func ∧ c.place? f func = some place ∧
      n = m.updateFunc f (fun _ => (func.insert inst ty place).1) ∧
      d = ⟨(f, func.graph.nextInst) :: c.last⟩ ∧ v = func.graph.nextValue := by
  unfold insert at h
  split at h
  next => cases h
  next func found =>
    split at h
    next => cases h
    next place here =>
      obtain ⟨rfl, rest⟩ := Prod.ext_iff.mp (Except.ok.inj h)
      obtain ⟨rfl, rfl⟩ := Prod.ext_iff.mp rest
      exact ⟨func, place, found, here, rfl, rfl, func.value_insert inst ty place⟩

theorem place?_cases {place : Place} (h : c.place? f func = some place) :
    (∃ i, c.last.lookup f = some i ∧ place = .after i) ∨ ∃ entry, func.listing.entry? = some entry ∧ place = .top entry := by
  unfold place? at h
  split at h
  next i last =>
    cases h
    exact .inl ⟨i, last, rfl⟩
  next =>
    obtain ⟨entry, first, rfl⟩ := Option.map_eq_some_iff.mp h
    exact .inr ⟨entry, first, rfl⟩

theorem lookup_written (c : EntryCursor) (f g : FuncId) (i : InstId) :
    List.lookup g ((f, i) :: c.last) = if g = f then some i else c.last.lookup g := by
  rw [List.lookup_cons]
  by_cases here : g = f
  · rw [if_pos here, beq_iff_eq.mpr here]
  · rw [if_neg here, beq_eq_false_iff_ne.mpr here]

/-- The graph of the function has one more instruction, and the value that it makes. -/
theorem insert_graph (h : c.insert m f inst ty = .ok (n, d, v)) :
    n.graph f = (m.graph f).emit inst ty ∧ v = (m.graph f).nextValue := by
  obtain ⟨func, place, found, -, rfl, -, rfl⟩ := insert_places h
  rw [Module.graph_updateFunc found, if_pos rfl, Func.graph_insert, Module.graph_of_func? found]
  exact ⟨rfl, rfl⟩

/-! ### All writes -/

theorem Behind.hasBody (behind : c.Behind f before now front) : now.hasBody = before.hasBody := by
  rw [Func.hasBody, behind.listing, Listing.isSome_entry?_startWith, Func.hasBody]

theorem Behind.start (ordered : before.Ordered) : start.Behind f before before [] where
  listing := before.listing.startWith_nil.symm
  nodup := .nil
  new := nofun
  grown := Nat.le_refl _
  results := ordered.results
  last := rfl
  body _ := rfl

theorem Behind.change (behind : c.Behind f before now front) (listing : after.listing = now.listing)
    (size : now.graph.insts.size ≤ after.graph.insts.size)
    (results : after.graph.results.size = after.graph.insts.size) : c.Behind f before after front :=
  { behind with
    listing := listing.trans behind.listing
    new := fun i member => ⟨(behind.new i member).1, Nat.lt_of_lt_of_le (behind.new i member).2 size⟩
    grown := Nat.le_trans behind.grown size
    results }

/-- The next instruction goes behind all that were written, and in front of the code from before. -/
theorem Behind.place (behind : c.Behind f before now front) (ordered : before.Ordered)
    (body : before.hasBody = true) (i : InstId) :
    ∃ place, c.place? f now = some place ∧ now.listing.insert i place = before.listing.startWith (front ++ [i]) := by
  -- The cursor remembers nothing exactly as long as nothing stands in front.
  rcases List.eq_nil_or_concat' front with rfl | ⟨initial, anchor, rfl⟩
  · have last : c.last.lookup f = none := behind.last
    have same : now.listing = before.listing := behind.listing.trans before.listing.startWith_nil
    obtain ⟨entry, first⟩ := Option.isSome_iff_exists.mp body
    refine ⟨.top entry, ?_, ?_⟩
    · simp [place?, last, same, first]
    · rw [same]
      exact Listing.prepend_entry ordered.blocks first
  · have last : c.last.lookup f = some anchor := behind.last.trans List.getLast?_concat
    obtain ⟨-, -, apart⟩ := List.nodup_append.mp behind.nodup
    -- The anchor is listed once: the others in front differ from it, and the code behind is older.
    have absent : anchor ∉ initial := fun member => apart anchor member anchor (List.mem_singleton_self anchor) rfl
    have new : anchor ∉ before.listing.allInsts := fun listed =>
      Nat.not_lt.mpr (behind.new anchor (by simp)).1 (ordered.code anchor listed)
    refine ⟨.after anchor, ?_, ?_⟩
    · simp only [place?, last]
    · rw [behind.listing, List.append_assoc]
      exact Listing.insertAfter_startWith absent new

theorem Behind.insert_eq (behind : c.Behind f before now front) (ordered : before.Ordered)
    (found : m.func? f = some now) (body : before.hasBody = true) (inst : Inst) (ty : Ty) :
    ∃ after, c.insert m f inst ty =
        .ok (m.updateFunc f fun _ => after, ⟨(f, now.graph.nextInst) :: c.last⟩, now.graph.nextValue) ∧
      after.graph = now.graph.emit inst ty ∧
      after.listing = before.listing.startWith (front ++ [now.graph.nextInst]) := by
  obtain ⟨place, here, placed⟩ := behind.place ordered body now.graph.nextInst
  refine ⟨(now.insert inst ty place).1, ?_, now.graph_insert inst ty place, ?_⟩
  · have value : (now.insert inst ty place).2 = now.graph.nextValue := now.value_insert inst ty place
    rw [← value, insert, found]
    simp only [here]
    rfl
  · rw [now.listing_insert, placed]

theorem Behind.missingBody (behind : c.Behind f before now front) (found : m.func? f = some now)
    (body : before.hasBody = false) (inst : Inst) (ty : Ty) :
    c.insert m f inst ty = .error (.missingBody now.signature.name) := by
  have last : c.last.lookup f = none := by rw [behind.last, behind.body body]; rfl
  have entry : now.listing.entry? = none := Option.isNone_iff_eq_none.mp (by
    rw [← Option.not_isSome]
    exact congrArg not (behind.hasBody.trans body))
  simp only [insert, found, place?, last, entry, Option.map_none]

/-- What stands at the start of a function grows by one instruction. -/
theorem Behind.snoc (behind : c.Behind f before now front) (body : before.hasBody = true)
    (graph : after.graph = now.graph.emit inst ty)
    (listing : after.listing = before.listing.startWith (front ++ [now.graph.nextInst])) :
    Behind ⟨(f, now.graph.nextInst) :: c.last⟩ f before after (front ++ [now.graph.nextInst]) := by
  have size : after.graph.insts.size = now.graph.insts.size + 1 := by rw [graph, Graph.size_insts_emit]
  have fresh : now.graph.nextInst ∉ front := fun member => Nat.lt_irrefl _ (behind.new _ member).2
  have grown : before.graph.insts.size ≤ after.graph.insts.size := size ▸ Nat.le_succ_of_le behind.grown
  refine ⟨listing, ?nodup, fun i member => ?new, grown, ?results, ?last, ?body⟩
  case nodup =>
    rw [← List.concat_eq_append]
    exact behind.nodup.concat fresh
  case new =>
    rcases List.mem_append.mp member with old | here
    · exact ⟨(behind.new i old).1, size ▸ Nat.lt_succ_of_lt (behind.new i old).2⟩
    · obtain rfl := List.mem_singleton.mp here
      exact ⟨behind.grown, size ▸ Nat.lt_succ_self now.graph.insts.size⟩
  case results => rw [size, graph, Graph.size_results_emit, behind.results]
  case last => rw [List.lookup_cons_self, List.getLast?_concat]
  case body => exact fun none => absurd (body.symm.trans none) Bool.noConfusion

/-- A function is not touched by what is written into another. -/
theorem insert_other (h : c.insert m g inst ty = .ok (n, d, v)) (other : f ≠ g) :
    n.func? f = m.func? f ∧ d.last.lookup f = c.last.lookup f := by
  obtain ⟨func, place, -, -, rfl, rfl, -⟩ := insert_places h
  refine ⟨?_, ?_⟩
  · rw [Module.func?_updateFunc, if_neg other]
  · rw [lookup_written, if_neg other]

theorem writtenTo_concat (log : List (FuncId × InstId)) (g f : FuncId) (i : InstId) :
    writtenTo (log ++ [(g, i)]) f = if f = g then writtenTo log f ++ [i] else writtenTo log f := by
  by_cases here : f = g
  · simp [writtenTo, here]
  · simp [writtenTo, here, Ne.symm here]

/-- Step by step, each function keeps what was written into it at its start. -/
theorem Writes.behind (run : Writes m₀ log m c) (declared : m₀.func? f = some before) (ordered : before.Ordered) :
    ∃ now, m.func? f = some now ∧ c.Behind f before now (writtenTo log f) := by
  induction run with
  | start => exact ⟨before, declared, .start ordered⟩
  | change _ kept ih =>
    obtain ⟨now, found, behind⟩ := ih
    obtain ⟨after, again, listing, size, results⟩ := kept f now found
    exact ⟨after, again, behind.change listing size (results behind.results)⟩
  | @insert log m n c d v _ g i inst ty written made ih =>
    -- Only a function with a body takes an instruction, and what is written elsewhere is not seen here.
    obtain ⟨now, found, behind⟩ := ih
    rw [writtenTo_concat]
    split
    next here =>
      subst here
      cases body : before.hasBody with
      | false => cases (behind.missingBody found body inst ty).symm.trans written
      | true =>
        obtain ⟨after, put, graph, listing⟩ := behind.insert_eq ordered found body inst ty
        obtain ⟨rfl, rest⟩ := Prod.ext_iff.mp (Except.ok.inj (written.symm.trans put))
        obtain ⟨rfl, rfl⟩ := Prod.ext_iff.mp rest
        have here := Module.func?_updateFunc_self found fun _ => after
        have defined : (now.graph.emit inst ty).definition? now.graph.nextValue = some now.graph.nextInst :=
          Graph.definition?_eq_some.mpr ⟨ty, by rw [Graph.value?_emit, if_pos rfl]⟩
        obtain rfl : now.graph.nextInst = i := by
          rw [Module.graph_of_func? here, graph] at made
          exact Option.some.inj (defined.symm.trans made)
        exact ⟨after, here, behind.snoc body graph listing⟩
    next other =>
      obtain ⟨kept, last⟩ := insert_other written other
      exact ⟨now, kept.trans found, { behind with last := last.trans behind.last }⟩

/-- Whatever was written into whichever functions, code begins with what was written into it, in the order of the calls,
and goes on as it was. The next instruction is new, and its result has the type that was asked for; only a function
without a body takes none. -/
theorem Writes.listing_startWith (run : Writes m₀ log m c) (declared : m₀.func? f = some before)
    (ordered : before.Ordered) :
    ∃ now, m.func? f = some now ∧ now.listing = before.listing.startWith (writtenTo log f) ∧
      (before.hasBody = true → ∀ inst ty, ∃ n d v i, c.insert m f inst ty = .ok (n, d, v) ∧
        i ∉ now.code ∧ (n.graph f).inst? i = some inst ∧ (n.graph f).value? v = some (.result i ty) ∧
        (n.graph f).result? i = some v ∧ ∀ g, g ≠ f → n.func? g = m.func? g) ∧
      (before.hasBody = false → ∀ inst ty,
        c.insert m f inst ty = .error (.missingBody now.signature.name)) := by
  obtain ⟨now, found, behind⟩ := run.behind declared ordered
  refine ⟨now, found, behind.listing, fun body inst ty => ?_, fun body inst ty => behind.missingBody found body inst ty⟩
  obtain ⟨after, put, graph, -⟩ := behind.insert_eq ordered found body inst ty
  have here := Module.graph_of_func? (Module.func?_updateFunc_self found fun _ => after)
  refine ⟨_, _, _, now.graph.nextInst, put, ?_, ?_, ?_, ?_, fun g other => (insert_other put other).1⟩
  · intro listed
    rw [Func.code, behind.listing, Listing.allInsts_startWith body] at listed
    rcases List.mem_append.mp listed with written | old
    · exact Nat.lt_irrefl _ (behind.new _ written).2
    · exact Nat.not_lt.mpr behind.grown (ordered.code _ old)
  · rw [here, graph, Graph.inst?_emit, if_pos rfl]
  · rw [here, graph, Graph.value?_emit, if_pos rfl]
  · rw [here, graph, Graph.result?_emit behind.results, if_pos rfl]

/-- Two functions with bodies and one without. -/
def threeFuncs : Module :=
  let f := (Func.declare ⟨"first", .exported, [], .unit, none, false, false⟩ []).addBlock
  let (f, _) := f.insertInst (.leave none) (.bottom ⟨0⟩)
  let g := (Func.declare ⟨"second", .exported, [], .unit, none, false, false⟩ []).addBlock.addBlock
  let (g, _) := g.insertInst (.jump ⟨1⟩) (.bottom ⟨0⟩)
  let (g, _) := g.insertInst (.leave none) (.bottom ⟨1⟩)
  { Module.empty ⟨.x86_64, .unknown, .linux⟩ with
    funcs := #[f, g, .declare ⟨"third", .external, [], .unit, none, false, false⟩ []] }

theorem threeFuncs_in_turns : ∃ m c, Writes threeFuncs [(⟨0⟩, ⟨1⟩), (⟨1⟩, ⟨2⟩), (⟨0⟩, ⟨2⟩)] m c ∧
    m.listing ⟨0⟩ = ⟨[(⟨0⟩, [⟨1⟩, ⟨2⟩, ⟨0⟩])]⟩ ∧ m.listing ⟨1⟩ = ⟨[(⟨0⟩, [⟨2⟩, ⟨0⟩]), (⟨1⟩, [⟨1⟩])]⟩ ∧
    ∀ inst ty, ∃ name, c.insert m ⟨2⟩ inst ty = .error (.missingBody name) := by
  -- A slot in each, and then a number made of the first slot, with a constant in between.
  have taken : (do
      let (m₁, c₁, slot) ← start.insert threeFuncs ⟨0⟩ (.alloca .unit) (.ptr .unit)
      let (m₂, c₂, other) ← c₁.insert m₁ ⟨1⟩ (.alloca .unit) (.ptr .unit)
      let (m₃, c₃, number) ← c₂.insert (m₂.addOffset ⟨0⟩ 8).1 ⟨0⟩ (.cast .ptrToInt slot (.int .i64)) (.int .i64)
      return [(m₁.graph ⟨0⟩).definition? slot, (m₂.graph ⟨1⟩).definition? other,
        (m₃.graph ⟨0⟩).definition? number]).toOption = some [some ⟨1⟩, some ⟨2⟩, some ⟨2⟩] := by decide +kernel
  obtain ⟨⟨m₁, c₁, slot⟩, first, rest⟩ := Recovering.bind_eq_ok (Recovering.ok_of_toOption taken)
  obtain ⟨⟨m₂, c₂, other⟩, second, rest⟩ := Recovering.bind_eq_ok rest
  obtain ⟨⟨m₃, c₃, number⟩, third, rest⟩ := Recovering.bind_eq_ok rest
  obtain ⟨made₁, made₂, made₃⟩ : _ ∧ _ ∧ _ := by simpa using Except.ok.inj rest
  have run := (((Writes.start.insert ⟨0⟩ ⟨1⟩ _ _ first made₁).insert ⟨1⟩ ⟨2⟩ _ _ second made₂).change
    (m₂.keepsOrder_addOffset ⟨0⟩ 8)).insert ⟨0⟩ ⟨2⟩ _ _ third made₃
  obtain ⟨now₀, found₀, listing₀, -⟩ := run.listing_startWith (f := ⟨0⟩) rfl (by decide)
  obtain ⟨now₁, found₁, listing₁, -⟩ := run.listing_startWith (f := ⟨1⟩) rfl (by decide)
  obtain ⟨now₂, -, -, -, missing⟩ := run.listing_startWith (f := ⟨2⟩) rfl (by decide)
  refine ⟨m₃, c₃, run, ?_, ?_, fun inst ty => ⟨_, missing rfl inst ty⟩⟩
  · rw [Module.listing, found₀]
    exact listing₀
  · rw [Module.listing, found₁]
    exact listing₁

end EntryCursor

end VarRecovery
