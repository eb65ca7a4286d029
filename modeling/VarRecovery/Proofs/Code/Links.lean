import VarRecovery.Proofs.Code.Chain
import VarRecovery.Proofs.Code.Func

/-!
Links refine lists. Whatever is written and taken out, following the links of a block gives the list that
the same changes make of a list, and no link leads to what is not listed.
-/

set_option autoImplicit false

namespace VarRecovery

namespace Slots

variable {α : Type} [Inhabited α]

theorem get_set (s : Slots α) (n m : Nat) (a : α) : (s.set n a).get m = if m = n then a else s.get m := by
  simp only [get, set, Array.getD_eq_getD_getElem?, Array.getElem?_setIfInBounds, Array.size_rightpad]
  by_cases same : n = m
  · subst same
    simp [Nat.lt_of_lt_of_le (Nat.lt_succ_self n) (Nat.le_max_left (n + 1) s.written.size)]
  · simp only [same, if_false, Ne.symm same, Array.rightpad, Array.getElem?_append]
    by_cases inside : m < s.written.size
    · simp [inside]
    · by_cases padded : m - s.written.size < n + 1 - s.written.size <;> simp [inside, padded]

end Slots

/-! ### Changes of a listing -/

namespace Listing

/-- What may be done to the order of code. -/
inductive Change where
  | block (b : BlockId)
  | insert (i : InstId) (place : Place)
  | remove (i : InstId)
deriving DecidableEq, Repr

/-- A change of lists, if it may be made: a block is listed once, and so is an instruction. -/
def change? (s : Listing) : Change → Option Listing
  | .block b => if b ∈ s.blockIds then none else some (s.appendBlock b)
  | .insert i place => if s.Offers place ∧ i ∉ s.allInsts then some (s.insert i place) else none
  | .remove i => if i ∈ s.allInsts then some (s.remove i) else none

end Listing

namespace Links

variable {l l' : Links} {s : Listing} {i j : InstId} {b c : BlockId} {before behind : Option InstId}

/-! ### Nodes after a change -/

@[simp] theorem inst_setInst (l : Links) (i j : InstId) (node : InstNode) :
    (l.setInst i node).inst j = if j = i then node else l.inst j := by
  have same : j.index = i.index ↔ j = i := by cases i; cases j; simp
  simp [inst, setInst, Slots.get_set, same]

@[simp] theorem block_setBlock (l : Links) (b c : BlockId) (node : BlockNode) :
    (l.setBlock b node).block c = if c = b then node else l.block c := by
  have same : c.index = b.index ↔ c = b := by cases b; cases c; simp
  simp [block, setBlock, Slots.get_set, same]

@[simp] theorem block_setInst (l : Links) (i : InstId) (node : InstNode) (b : BlockId) :
    (l.setInst i node).block b = l.block b := rfl

@[simp] theorem inst_setBlock (l : Links) (b : BlockId) (node : BlockNode) (i : InstId) :
    (l.setBlock b node).inst i = l.inst i := rfl

theorem inst_linkBlock (l : Links) (before : Option BlockId) (b : BlockId) (i : InstId) :
    (l.linkBlock before b).inst i = l.inst i := by
  cases before <;> rfl

theorem block_linkBlock (l : Links) (before : Option BlockId) (b c : BlockId) :
    (l.linkBlock before b).block c =
      if some c = before then { l.block c with behind := some b } else l.block c := by
  cases before with
  | none => rfl
  | some last => by_cases same : c = last <;> simp [linkBlock, same]

theorem entry_linkBlock (l : Links) (before : Option BlockId) (b : BlockId) :
    (l.linkBlock before b).firstBlock? = if before.isSome then l.firstBlock? else some b := by
  cases before <;> rfl

theorem inst_linkBehind (l : Links) (b : BlockId) (before i : Option InstId) (j : InstId) :
    (l.linkBehind b before i).inst j = if some j = before then { l.inst j with behind := i } else l.inst j := by
  cases before with
  | none => simp [linkBehind]
  | some k => by_cases same : j = k <;> simp [linkBehind, same]

theorem inst_linkBefore (l : Links) (b : BlockId) (behind i : Option InstId) (j : InstId) :
    (l.linkBefore b behind i).inst j = if some j = behind then { l.inst j with before := i } else l.inst j := by
  cases behind with
  | none => simp [linkBefore]
  | some k => by_cases same : j = k <;> simp [linkBefore, same]

theorem block_linkBehind (l : Links) (b : BlockId) (before i : Option InstId) (c : BlockId) :
    (l.linkBehind b before i).block c =
      if c = b ∧ before = none then { l.block c with first := i } else l.block c := by
  cases before with
  | none => by_cases same : c = b <;> simp [linkBehind, same]
  | some k => simp [linkBehind]

theorem block_linkBefore (l : Links) (b : BlockId) (behind i : Option InstId) (c : BlockId) :
    (l.linkBefore b behind i).block c =
      if c = b ∧ behind = none then { l.block c with last := i } else l.block c := by
  cases behind with
  | none => by_cases same : c = b <;> simp [linkBefore, same]
  | some k => simp [linkBefore]

theorem ends_linkBehind (l : Links) (b : BlockId) (before i : Option InstId) :
    (l.linkBehind b before i).firstBlock? = l.firstBlock? ∧ (l.linkBehind b before i).lastBlock? = l.lastBlock? := by
  cases before <;> exact ⟨rfl, rfl⟩

theorem ends_linkBefore (l : Links) (b : BlockId) (behind i : Option InstId) :
    (l.linkBefore b behind i).firstBlock? = l.firstBlock? ∧ (l.linkBefore b behind i).lastBlock? = l.lastBlock? := by
  cases behind <;> exact ⟨rfl, rfl⟩

/-! ### Links and lists -/

/-- The links are those of a listing, and there are no others. -/
structure Represents (l : Links) (s : Listing) : Prop where
  blocks_nodup : s.blockIds.Nodup
  nodup : ∀ b, (s.insts b).Nodup
  entry : l.firstBlock? = s.blockIds.head?
  last : l.lastBlock? = s.blockIds.getLast?
  listed : ∀ b, l.containsBlock b = true ↔ b ∈ s.blockIds
  order : Chained (fun b => (l.block b).before) (fun b => (l.block b).behind) none s.blockIds none
  absent : ∀ b ∉ s.blockIds, l.block b = default
  firstOf : ∀ b, (l.block b).first = (s.insts b).head?
  lastOf : ∀ b, (l.block b).last = (s.insts b).getLast?
  code : ∀ b, Chained (fun i => (l.inst i).before) (fun i => (l.inst i).behind) none (s.insts b) none
  within : ∀ i b, l.blockOf? i = some b ↔ i ∈ s.insts b
  detached : ∀ i, l.contains i = false → l.inst i = default

theorem Represents.contains_iff (rep : l.Represents s) : l.contains i = true ↔ ∃ b, i ∈ s.insts b := by
  rw [contains, Option.isSome_iff_exists]
  exact exists_congr fun b => rep.within i b

theorem Represents.blockOf?_eq_none (rep : l.Represents s) (absent : i ∉ s.allInsts) : l.blockOf? i = none :=
  Option.eq_none_iff_forall_ne_some.mpr fun b found =>
    absent ((Listing.mem_allInsts rep.blocks_nodup).mpr ⟨b, (rep.within i b).mp found⟩)

theorem Represents.block_unique (rep : l.Represents s) (one : i ∈ s.insts b) (other : i ∈ s.insts c) : b = c :=
  Option.some.inj (((rep.within i b).mpr one).symm.trans ((rep.within i c).mpr other))

/-- A change that puts `new` in the place of `old` between two neighbours of a block, or at an end of it. -/
structure Splices (l l' : Links) (b : BlockId) (xs old new ys : List InstId) : Prop where
  entry : l'.firstBlock? = l.firstBlock?
  last : l'.lastBlock? = l.lastBlock?
  block : ∀ c, l'.block c = { l.block c with
    first := if c = b then (xs ++ (new ++ ys)).head? else (l.block c).first
    last := if c = b then (xs ++ (new ++ ys)).getLast? else (l.block c).last }
  still : ∀ a, a ∉ old → a ∉ new → l'.inst a = { l.inst a with
    before := if some a = ys.head? then new.getLast?.or xs.getLast? else (l.inst a).before
    behind := if some a = xs.getLast? then new.head?.or ys.head? else (l.inst a).behind }
  gone : ∀ a ∈ old, a ∉ new → l'.inst a = default
  within : ∀ a ∈ new, l'.blockOf? a = some b
  chained : Chained (fun i => (l'.inst i).before) (fun i => (l'.inst i).behind) xs.getLast? new ys.head?

section splice

variable {xs old new ys : List InstId}

theorem Splices.inst_of_outside (splices : l.Splices l' b xs old new ys) (outside : i ∉ xs ++ (old ++ ys))
    (other : i ∉ new) : l'.inst i = l.inst i := by
  simp only [List.mem_append, not_or] at outside
  rw [splices.still i outside.2.1 other, if_neg fun first => outside.2.2 (List.mem_of_head? first.symm),
    if_neg fun last => outside.1 (List.mem_of_getLast? last.symm)]

/-- The chain through a block stays whole. -/
theorem Splices.chain (splices : l.Splices l' b xs old new ys) (nodup : (xs ++ (old ++ ys)).Nodup)
    (fresh : ∀ a ∈ new, a ∉ xs ++ (old ++ ys))
    (chained : Chained (fun i => (l.inst i).before) (fun i => (l.inst i).behind) none (xs ++ (old ++ ys)) none) :
    Chained (fun i => (l'.inst i).before) (fun i => (l'.inst i).behind) none (xs ++ (new ++ ys)) none := by
  obtain ⟨xs_nodup, rest, apart⟩ := List.nodup_append.mp nodup
  obtain ⟨-, ys_nodup, apart'⟩ := List.nodup_append.mp rest
  obtain ⟨first, chained⟩ := Chained.append.mp chained
  obtain ⟨-, last⟩ := Chained.append.mp chained
  have left (a : InstId) (member : a ∈ xs) : l'.inst a = { l.inst a with
      behind := if some a = xs.getLast? then new.head?.or ys.head? else (l.inst a).behind } := by
    rw [splices.still a (fun other => apart a member a (by simp [other]) rfl)
      (fun other => fresh a other (by simp [member])), if_neg]
    exact fun head => apart a member a (by simp [List.mem_of_head? head.symm]) rfl
  have right (a : InstId) (member : a ∈ ys) : l'.inst a = { l.inst a with
      before := if some a = ys.head? then new.getLast?.or xs.getLast? else (l.inst a).before } := by
    rw [splices.still a (fun other => apart' a other a member rfl)
      (fun other => fresh a other (by simp [member])), if_neg (c := some a = xs.getLast?)]
    exact fun tail => apart a (List.mem_of_getLast? tail.symm) a (by simp [member]) rfl
  refine Chained.append.mpr ⟨?_, Chained.append.mpr ⟨by simpa using splices.chained, ?_⟩⟩
  · refine first.relinkLast xs_nodup (fun a member => ?_) fun a member => ?_
    · rw [left a member]
    · rw [left a member]
      simp
  · refine last.relinkFirst ys_nodup (fun a member => ?_) fun a member => ?_
    · rw [right a member]
      simp
    · rw [right a member]

theorem Splices.block_eq (splices : l.Splices l' b xs old new ys) (i : InstId) :
    l'.blockOf? i = if i ∈ new then some b else if i ∈ old then none else l.blockOf? i := by
  split
  next member => exact splices.within i member
  next other =>
    split
    next member => rw [blockOf?, splices.gone i member other]; rfl
    next still => rw [blockOf?, splices.still i still other, blockOf?]

theorem Represents.splice (old new : List InstId) (rep : l.Represents s) (listed : b ∈ s.blockIds)
    (holds : s.insts b = xs ++ (old ++ ys)) (nodup : (xs ++ (new ++ ys)).Nodup)
    (fresh : ∀ a ∈ new, ∀ c, a ∉ s.insts c) (splices : l.Splices l' b xs old new ys) :
    l'.Represents (s.updateBlock b fun _ => xs ++ (new ++ ys)) := by
  have ids : (s.updateBlock b fun _ => xs ++ (new ++ ys)).blockIds = s.blockIds :=
    Listing.blockIds_updateBlock s b _
  have insts (c : BlockId) : (s.updateBlock b fun _ => xs ++ (new ++ ys)).insts c =
      if c = b then xs ++ (new ++ ys) else s.insts c := by
    rw [Listing.insts_updateBlock]
    simp [listed]
  have before := holds ▸ rep.nodup b
  refine ⟨ids ▸ rep.blocks_nodup, fun c => ?nodup, ids ▸ splices.entry.trans rep.entry,
    ids ▸ splices.last.trans rep.last, fun c => ?listed, ?order, fun c unlisted => ?absent, fun c => ?first,
    fun c => ?lastOf, fun c => ?code, fun a c => ?within, fun a free => ?detached⟩
  case nodup =>
    rw [insts]
    split
    · exact nodup
    · exact rep.nodup c
  case listed =>
    rw [containsBlock, splices.block, ids]
    exact rep.listed c
  case order =>
    rw [ids]
    exact rep.order.congr fun c _ => by simp [splices.block]
  case absent =>
    rw [ids] at unlisted
    have other : c ≠ b := by
      rintro rfl
      exact unlisted listed
    simp [splices.block, other, rep.absent c unlisted]
  case first =>
    rw [splices.block, insts]
    by_cases here : c = b <;> simp [here, rep.firstOf]
  case lastOf =>
    rw [splices.block, insts]
    by_cases here : c = b <;> simp [here, rep.lastOf]
  case code =>
    rw [insts]
    split
    next here => exact splices.chain before (fun a member => holds ▸ fresh a member b) (holds ▸ rep.code b)
    next other =>
      -- The chains of other blocks have no instruction in common with this one.
      refine (rep.code c).congr fun a member => ?_
      have same := splices.inst_of_outside (i := a)
        (fun here => other (rep.block_unique member (holds ▸ here))) (fun new => fresh a new c member)
      exact ⟨congrArg InstNode.before same, congrArg InstNode.behind same⟩
  case within =>
    rw [splices.block_eq, insts]
    have known := rep.within a c
    have here := rep.within a b
    rw [holds] at here
    have apart : a ∈ old → a ∉ xs ∧ a ∉ ys := by
      grind
    have absent : a ∈ new → a ∉ s.insts c := fun member => fresh a member c
    grind
  case detached =>
    rw [contains, splices.block_eq] at free
    split at free
    next => cases free
    next other =>
      split at free
      next member => exact splices.gone a member other
      next =>
        refine (splices.inst_of_outside (fun inside => ?_) other).trans (rep.detached a free)
        rw [(rep.within a b).mpr (holds ▸ inside)] at free
        cases free

end splice

/-! ### Changes -/

theorem inst_bridge (l : Links) (b : BlockId) (before behind first last : Option InstId) (i : InstId) :
    (l.bridge b before behind first last).inst i = { l.inst i with
      before := if some i = behind then last else (l.inst i).before
      behind := if some i = before then first else (l.inst i).behind } := by
  rw [bridge, inst_linkBefore, inst_linkBehind]
  split <;> split <;> rfl

theorem block_bridge (l : Links) (b : BlockId) (before behind first last : Option InstId) (c : BlockId) :
    (l.bridge b before behind first last).block c = { l.block c with
      first := if c = b ∧ before = none then first else (l.block c).first
      last := if c = b ∧ behind = none then last else (l.block c).last } := by
  rw [bridge, block_linkBefore, block_linkBehind]
  split <;> split <;> rfl

theorem ends_bridge (l : Links) (b : BlockId) (before behind first last : Option InstId) :
    (l.bridge b before behind first last).firstBlock? = l.firstBlock? ∧
      (l.bridge b before behind first last).lastBlock? = l.lastBlock? :=
  ⟨(ends_linkBefore ..).1.trans (ends_linkBehind ..).1, (ends_linkBefore ..).2.trans (ends_linkBehind ..).2⟩

theorem bridge_ends {xs ys : List InstId} (old new : List InstId) (rep : l.Represents s) (holds : s.insts b = xs ++ (old ++ ys))
    (c : BlockId) :
    (if c = b ∧ xs.getLast? = none then new.head?.or ys.head? else (l.block c).first) =
        (if c = b then (xs ++ (new ++ ys)).head? else (l.block c).first) ∧
      (if c = b ∧ ys.head? = none then new.getLast?.or xs.getLast? else (l.block c).last) =
        (if c = b then (xs ++ (new ++ ys)).getLast? else (l.block c).last) := by
  by_cases here : c = b
  · subst here
    rw [rep.firstOf, rep.lastOf, holds]
    constructor
    · cases xs <;> simp
    · cases ys <;> simp [List.getLast?_append, List.getLast?_cons]
  · simp [here]

theorem Represents.link (rep : l.Represents s) (listed : b ∈ s.blockIds) (xs ys : List InstId)
    (holds : s.insts b = xs ++ ys) (free : l.contains i = false) :
    ∃ l', l.link i b xs.getLast? ys.head? = some l' ∧ l'.Represents (s.updateBlock b fun _ => xs ++ i :: ys) := by
  have fresh (c : BlockId) : i ∉ s.insts c := fun inside =>
    Bool.false_ne_true (free.symm.trans (rep.contains_iff.mpr ⟨c, inside⟩))
  have nodup : (xs ++ ([i] ++ ys)).Nodup :=
    List.nodup_middle.mpr (List.nodup_cons.mpr ⟨holds ▸ fresh b, holds ▸ rep.nodup b⟩)
  have ends := bridge_ends [] [i] rep holds
  refine ⟨_, if_pos (by simp [(rep.listed b).mpr listed, free]),
    rep.splice [] [i] listed holds nodup (by simpa using fresh)
      ⟨(ends_bridge ..).1, (ends_bridge ..).2, fun c => ?_, fun a _ other => ?_, nofun, fun a member => ?_, ?_⟩⟩
  · rw [block_setInst, block_bridge, ← (ends c).1, ← (ends c).2]
    rfl
  · rw [inst_setInst, if_neg (by simpa using other), inst_bridge]
    rfl
  · simp [blockOf?, List.mem_singleton.mp member]
  · simp [Chained]

theorem Represents.remove (rep : l.Represents s) {xs ys : List InstId} (holds : s.insts b = xs ++ i :: ys) :
    ∃ l', l.remove i = some l' ∧ l'.Represents (s.updateBlock b fun _ => xs ++ ys) := by
  have inside : i ∈ s.insts b := by simp [holds]
  have listed : b ∈ s.blockIds := Listing.mem_blockIds_of_insts inside
  have nodup := holds ▸ rep.nodup b
  obtain ⟨before, behind⟩ := Chained.neighbours (holds ▸ rep.code b)
  have ends := bridge_ends [i] [] rep holds
  have removed : l.remove i = some
      ((l.setInst i default).bridge b xs.getLast? ys.head? ys.head? xs.getLast?) := by
    rw [Links.remove, (rep.within i b).mpr inside, ← before, ← behind]
    rfl
  refine ⟨_, removed, rep.splice [i] [] listed holds ?_ nofun
      ⟨(ends_bridge ..).1, (ends_bridge ..).2, fun c => ?_, fun a other _ => ?_, fun a member _ => ?_, nofun, trivial⟩⟩
  · exact (List.nodup_cons.mp (List.nodup_middle.mp nodup)).2
  · rw [block_bridge, block_setInst, ← (ends c).1, ← (ends c).2]
    rfl
  · rw [inst_bridge, inst_setInst, if_neg (by simpa using other)]
    rfl
  · obtain rfl := List.mem_singleton.mp member
    have apart := List.nodup_cons.mp (List.nodup_middle.mp nodup)
    simp only [List.mem_append, not_or] at apart
    rw [inst_bridge, inst_setInst, if_pos rfl, if_neg fun first => apart.1.2 (List.mem_of_head? first.symm),
      if_neg fun last => apart.1.1 (List.mem_of_getLast? last.symm)]

/-- A new block stands behind the last one, and holds nothing. -/
theorem Represents.appendBlock_nodes (rep : l.Represents s) (new : b ∉ s.blockIds) :
    ∃ l', l.appendBlock b = some l' ∧ l'.firstBlock? = (s.blockIds ++ [b]).head? ∧ l'.lastBlock? = some b ∧
      (∀ i, l'.inst i = l.inst i) ∧
      ∀ c, l'.block c = if c = b then ⟨s.blockIds.getLast?, none, none, none, true⟩
        else { l.block c with behind := if some c = s.blockIds.getLast? then some b else (l.block c).behind } := by
  have free : ¬l.containsBlock b = true := fun listed => new ((rep.listed b).mp listed)
  refine ⟨_, if_neg free, ?_, rfl, inst_linkBlock _ _ _, fun c => (block_linkBlock _ _ _ c).trans ?_⟩
  · refine (entry_linkBlock _ _ _).trans ?_
    rw [rep.last]
    cases ids : s.blockIds with
    | nil => rfl
    | cons c cs =>
      rw [if_pos (by simp)]
      exact rep.entry.trans (by rw [ids]; rfl)
  · rw [rep.last, block_setBlock]
    by_cases here : c = b
    · have other : ¬some c = s.blockIds.getLast? := fun tail => new (here ▸ List.mem_of_getLast? tail.symm)
      rw [if_neg other, if_pos here, if_pos here]
      rfl
    · rw [if_neg here, if_neg here]
      split <;> rfl

theorem Represents.appendBlock (rep : l.Represents s) (new : b ∉ s.blockIds) :
    ∃ l', l.appendBlock b = some l' ∧ l'.Represents (s.appendBlock b) := by
  obtain ⟨l', appended, entry, last, inst, block⟩ := rep.appendBlock_nodes new
  have ids : (s.appendBlock b).blockIds = s.blockIds ++ [b] := by simp [Listing.blockIds, Listing.appendBlock]
  have insts (c : BlockId) : (s.appendBlock b).insts c = s.insts c := Listing.insts_appendBlock new c
  have nothing : s.insts b = [] := Listing.insts_of_not_mem new
  have other (c : BlockId) (member : c ∈ s.blockIds) : c ≠ b := by
    rintro rfl
    exact new member
  have nodup : (s.blockIds ++ [b]).Nodup := by
    simpa [List.nodup_append] using ⟨rep.blocks_nodup, other⟩
  refine ⟨l', appended, ids ▸ nodup, fun c => insts c ▸ rep.nodup c, ids ▸ entry, by simpa [ids] using last,
    fun c => ?listed, ids ▸ Chained.append.mpr ⟨?order, ?_⟩, fun c unlisted => ?absent, fun c => ?first,
    fun c => ?lastOf, fun c => ?code, fun i c => ?within, fun i => ?detached⟩
  case listed =>
    rw [containsBlock, block, ids]
    have known := rep.listed c
    by_cases here : c = b
    · simp [here]
    · simpa [here, containsBlock] using known
  -- Only the former last block points elsewhere than before, namely to the new one.
  case order =>
    refine rep.order.relinkLast rep.blocks_nodup (fun c member => ?_) fun c member => ?_
    · simp [block, other c member]
    · simp [block, other c member]
  case absent =>
    simp only [ids, List.mem_append, List.mem_singleton, not_or] at unlisted
    rw [block, if_neg unlisted.2, if_neg fun tail => unlisted.1 (List.mem_of_getLast? tail.symm),
      rep.absent c unlisted.1]
  case first =>
    rw [insts, block]
    by_cases here : c = b
    · simp [here, nothing]
    · simp [here, rep.firstOf]
  case lastOf =>
    rw [insts, block]
    by_cases here : c = b
    · simp [here, nothing]
    · simp [here, rep.lastOf]
  case code =>
    rw [insts]
    exact (rep.code c).congr fun a _ => by simp [inst]
  case within =>
    rw [blockOf?, inst, insts]
    exact rep.within i c
  case detached =>
    rw [contains, blockOf?, inst]
    exact rep.detached i
  · simp [Chained, block]

/-- An instruction of a listing has a place in one block. -/
theorem Represents.split (rep : l.Represents s) (listed : i ∈ s.allInsts) :
    ∃ b xs ys, s.insts b = xs ++ i :: ys ∧ i ∉ xs ++ ys ∧ ∀ f : InstId → List InstId,
      (∀ j, j ≠ i → f j = [j]) → s.updateAll f = s.updateBlock b fun _ => xs ++ (f i ++ ys) := by
  obtain ⟨b, inside⟩ := (Listing.mem_allInsts rep.blocks_nodup).mp listed
  obtain ⟨xs, ys, holds⟩ := List.append_of_mem inside
  have once : i ∉ xs ++ ys := (List.nodup_cons.mp (List.nodup_middle.mp (holds ▸ rep.nodup b))).1
  exact ⟨b, xs, ys, holds, once, fun f still => Listing.updateAll_eq rep.blocks_nodup holds once
    (fun c other => rep.block_unique other inside) still⟩

theorem Represents.insert (rep : l.Represents s) (place : Place) (offered : s.Offers place)
    (free : i ∉ s.allInsts) : ∃ l', l.insert i place = some l' ∧ l'.Represents (s.insert i place) := by
  have detached : l.contains i = false := by
    refine Bool.eq_false_iff.mpr fun listed => free ?_
    exact (Listing.mem_allInsts rep.blocks_nodup).mpr (rep.contains_iff.mp listed)
  cases place with
  | top b =>
    obtain ⟨l', linked, after⟩ := rep.link offered [] _ rfl detached
    refine ⟨l', ?_, ?_⟩
    · rwa [Links.insert, rep.firstOf]
    · rwa [Listing.insert, Listing.prepend, Listing.updateBlock_congr rep.blocks_nodup]
  | bottom b =>
    obtain ⟨l', linked, after⟩ := rep.link offered _ [] (List.append_nil _).symm detached
    refine ⟨l', ?_, ?_⟩
    · rwa [Links.insert, rep.lastOf]
    · rwa [Listing.insert, Listing.append, Listing.updateBlock_congr rep.blocks_nodup]
  | before anchor =>
    obtain ⟨b, xs, ys, holds, -, update⟩ := rep.split offered
    have inside : anchor ∈ s.insts b := by simp [holds]
    obtain ⟨before, -⟩ := Chained.neighbours (holds ▸ rep.code b)
    obtain ⟨l', linked, after⟩ := rep.link (Listing.mem_blockIds_of_insts inside) xs (anchor :: ys) holds detached
    refine ⟨l', ?_, ?_⟩
    · rw [Links.insert, (rep.within anchor b).mpr inside, before]
      exact linked
    · rw [Listing.insert, Listing.insertBefore, update _ fun j other => if_neg other]
      simpa using after
  | after anchor =>
    obtain ⟨b, xs, ys, holds, -, update⟩ := rep.split offered
    have inside : anchor ∈ s.insts b := by simp [holds]
    obtain ⟨-, behind⟩ := Chained.neighbours (holds ▸ rep.code b)
    obtain ⟨l', linked, after⟩ := rep.link (Listing.mem_blockIds_of_insts inside) (xs ++ [anchor]) ys
      (by simp [holds]) detached
    refine ⟨l', ?_, ?_⟩
    · rw [Links.insert, (rep.within anchor b).mpr inside, behind]
      simpa using linked
    · rw [Listing.insert, Listing.insertAfter, update _ fun j other => if_neg other]
      simpa using after

theorem Represents.insert_eq_none (rep : l.Represents s) {place : Place}
    (refused : s.Offers place → i ∈ s.allInsts) : l.insert i place = none := by
  have link (b : BlockId) (before behind : Option InstId) (unlisted : b ∈ s.blockIds → i ∈ s.allInsts) :
      l.link i b before behind = none := by
    refine if_neg fun may => ?_
    simp only [Bool.and_eq_true, Bool.not_eq_true'] at may
    obtain ⟨c, inside⟩ := (Listing.mem_allInsts rep.blocks_nodup).mp (unlisted ((rep.listed b).mp may.1))
    exact Bool.false_ne_true (may.2.symm.trans (rep.contains_iff.mpr ⟨c, inside⟩))
  have anchored (anchor : InstId) (before behind : Option InstId)
      (unlisted : anchor ∈ s.allInsts → i ∈ s.allInsts) :
      ((l.blockOf? anchor).bind fun b => l.link i b before behind) = none := by
    cases found : l.blockOf? anchor with
    | none => rfl
    | some b =>
      exact link b _ _ fun _ =>
        unlisted ((Listing.mem_allInsts rep.blocks_nodup).mpr ⟨b, (rep.within anchor b).mp found⟩)
  cases place with
  | top b => exact link b _ _ refused
  | bottom b => exact link b _ _ refused
  | before anchor => exact anchored anchor _ _ refused
  | after anchor => exact anchored anchor _ _ refused

theorem represents_empty : empty.Represents Listing.empty := by
  refine ⟨List.nodup_nil, fun _ => List.nodup_nil, rfl, rfl, fun b => ?_, trivial, fun b _ => ?_, fun b => ?_,
    fun b => ?_, fun _ => trivial, fun i b => ?_, fun i _ => ?_⟩
  all_goals simp [empty, Listing.empty, containsBlock, blockOf?, block, inst, Slots.get, Listing.blockIds,
    Listing.insts]
  all_goals rfl

def change? (l : Links) : Listing.Change → Option Links
  | .block b => l.appendBlock b
  | .insert i place => l.insert i place
  | .remove i => l.remove i

/-- A change of links may be made when that of the lists may, and gives their links. -/
theorem Represents.change (rep : l.Represents s) (c : Listing.Change) :
    Option.Rel Represents (l.change? c) (s.change? c) := by
  cases c with
  | block b =>
    rw [Links.change?, Listing.change?]
    split
    next listed =>
      rw [Links.appendBlock, if_pos ((rep.listed b).mpr listed)]
      exact .none
    next new =>
      obtain ⟨l', appended, after⟩ := rep.appendBlock new
      exact appended ▸ .some after
  | insert i place =>
    rw [Links.change?, Listing.change?]
    split
    next may =>
      obtain ⟨l', inserted, after⟩ := rep.insert place may.1 may.2
      exact inserted ▸ .some after
    next not =>
      rw [rep.insert_eq_none (by rwa [not_and, not_not] at not)]
      exact .none
  | remove i =>
    rw [Links.change?, Listing.change?]
    split
    next listed =>
      obtain ⟨b, xs, ys, holds, -, update⟩ := rep.split listed
      obtain ⟨l', removed, after⟩ := rep.remove holds
      have same : s.remove i = s.updateBlock b fun _ => xs ++ ys := by
        rw [Listing.remove, update _ fun j other => if_neg other]
        simp
      exact removed ▸ same ▸ .some after
    next detached =>
      rw [Links.remove, rep.blockOf?_eq_none detached]
      exact .none

/-! ### Answers -/

theorem blockIds?_of_follow {n : Nat} {bs : List BlockId}
    (ends : follow (fun b => (l.block b).behind) n l.firstBlock? = some bs) : l.blockIds? = some bs :=
  follow_of_length_le ends
    (length_le_of_follow l.blocks BlockNode.behind (fun ⟨_⟩ ⟨_⟩ same => congrArg BlockId.mk same) rfl ends)

theorem insts?_of_follow {n : Nat} {is : List InstId}
    (ends : follow (fun i => (l.inst i).behind) n (l.block b).first = some is) : l.insts? b = some is :=
  follow_of_length_le ends
    (length_le_of_follow l.insts InstNode.behind (fun ⟨_⟩ ⟨_⟩ same => congrArg InstId.mk same) rfl ends)

/-- The answers that links give are those of the lists, and no link is stale. -/
structure Refines (l : Links) (s : Listing) : Prop where
  blockIds : l.blockIds? = some s.blockIds
  insts : ∀ b, l.insts? b = some (s.insts b)
  entry : l.firstBlock? = s.entry?
  last : ∀ b, l.lastOf? b = s.last? b
  block : ∀ i, l.blockOf? i = s.blockOf? i
  contains : ∀ i, l.contains i = s.contains i
  containsBlock : ∀ b, l.containsBlock b = decide (b ∈ s.blockIds)
  firstNonPhi : ∀ b isPhi, l.firstNonPhi? b isPhi = s.firstNonPhi? b isPhi
  blocks_once : s.blockIds.Nodup
  once : s.allInsts.Nodup
  blocks_mirrored : ∀ b c, (l.block b).behind = some c ↔ (l.block c).before = some b
  mirrored : ∀ i j, (l.inst i).behind = some j ↔ (l.inst j).before = some i
  together : ∀ i j, (l.inst i).behind = some j → l.blockOf? i = l.blockOf? j
  detached : ∀ i, l.contains i = false → l.inst i = ⟨none, none, none⟩ ∧
    (∀ j, (l.inst j).behind ≠ some i ∧ (l.inst j).before ≠ some i) ∧
    ∀ b, (l.block b).first ≠ some i ∧ (l.block b).last ≠ some i

theorem Represents.mirrored (rep : l.Represents s) (i j : InstId) :
    (l.inst i).behind = some j ↔ (l.inst j).before = some i := by
  have linked (k : InstId) (some_ : l.inst k ≠ default) : ∃ b, k ∈ s.insts b :=
    rep.contains_iff.mp (Decidable.byContradiction fun free => some_ (rep.detached k (Bool.eq_false_iff.mpr free)))
  constructor
  · intro next
    obtain ⟨b, inside⟩ := linked i fun detached => by rw [detached] at next; cases next
    exact (((rep.code b).mirror inside).1 next).2
  · intro previous
    obtain ⟨b, inside⟩ := linked j fun detached => by rw [detached] at previous; cases previous
    exact (((rep.code b).mirror inside).2 previous).2

theorem Represents.blocks_mirrored (rep : l.Represents s) (b c : BlockId) :
    (l.block b).behind = some c ↔ (l.block c).before = some b := by
  have listed (d : BlockId) (some_ : l.block d ≠ default) : d ∈ s.blockIds :=
    Decidable.byContradiction fun absent => some_ (rep.absent d absent)
  constructor
  · intro next
    have member := listed b fun absent => by rw [absent] at next; cases next
    exact ((rep.order.mirror member).1 next).2
  · intro previous
    have member := listed c fun absent => by rw [absent] at previous; cases previous
    exact ((rep.order.mirror member).2 previous).2

theorem Represents.blockOf?_eq (rep : l.Represents s) (i : InstId) : l.blockOf? i = s.blockOf? i := by
  by_cases listed : i ∈ s.allInsts
  · obtain ⟨b, found, -⟩ := Listing.exists_blockOf? listed
    rw [found, rep.within]
    exact Listing.mem_insts_of_blockOf? rep.blocks_nodup found
  · rw [rep.blockOf?_eq_none listed, Listing.blockOf?_eq_none listed]

theorem Represents.nodup_allInsts (rep : l.Represents s) : s.allInsts.Nodup := by
  rw [Listing.allInsts, Listing.blocks_eq rep.blocks_nodup, List.flatMap_map]
  refine List.nodup_flatMap.mpr ⟨fun b _ => rep.nodup b, rep.blocks_nodup.imp fun other i one another => ?_⟩
  exact other (rep.block_unique one another)

theorem Represents.refines (rep : l.Represents s) : l.Refines s := by
  have insts (b : BlockId) : l.insts? b = some (s.insts b) :=
    insts?_of_follow (rep.firstOf b ▸ follow_of_chained (rep.code b) (Nat.le_refl _))
  refine ⟨?blockIds, insts, rep.entry, rep.lastOf, rep.blockOf?_eq, fun i => ?contains, fun b => ?containsBlock,
    fun b isPhi => ?firstNonPhi, rep.blocks_nodup, rep.nodup_allInsts, rep.blocks_mirrored, rep.mirrored,
    fun i j next => ?together, fun i free => ⟨rep.detached i free, fun j => ?stale, fun b => ?ends⟩⟩
  case blockIds =>
    exact blockIds?_of_follow (rep.entry ▸ follow_of_chained rep.order (Nat.le_refl _))
  case contains => rw [contains, Listing.contains, rep.blockOf?_eq]
  case containsBlock => rw [Bool.eq_iff_iff, rep.listed, decide_eq_true_iff]
  case firstNonPhi =>
    rw [firstNonPhi?, insts]
    rfl
  case together =>
    cases found : l.blockOf? i with
    | none =>
      rw [rep.detached i (by rw [contains, found]; rfl)] at next
      cases next
    | some b => exact ((rep.within j b).mpr (((rep.code b).mirror ((rep.within i b).mp found)).1 next).1).symm
  case stale =>
    constructor
    · intro next
      rw [rep.mirrored, rep.detached i free] at next
      cases next
    · intro previous
      rw [← rep.mirrored, rep.detached i free] at previous
      cases previous
  case ends =>
    have absent : i ∉ s.insts b := fun inside =>
      Bool.false_ne_true (free.symm.trans (rep.contains_iff.mpr ⟨b, inside⟩))
    rw [rep.firstOf, rep.lastOf]
    exact ⟨fun first => absent (List.mem_of_head? first), fun last => absent (List.mem_of_getLast? last)⟩

theorem Represents.changes (rep : l.Represents s) (changes : List Listing.Change) :
    Option.Rel Represents (changes.foldlM change? l) (changes.foldlM Listing.change? s) := by
  induction changes generalizing l s with
  | nil => exact .some rep
  | cons c cs ih =>
    rw [List.foldlM_cons, List.foldlM_cons]
    have step := rep.change c
    generalize l.change? c = l', s.change? c = s' at step
    cases step with
    | none => exact .none
    | some after => exact ih after

/-- Links refine lists: whatever changes are made, they may be made on links when they may be made on lists, and
then all questions have the same answers. -/
theorem changes_refine (changes : List Listing.Change) :
    Option.Rel Refines (changes.foldlM change? empty) (changes.foldlM Listing.change? Listing.empty) := by
  have run := represents_empty.changes changes
  generalize changes.foldlM change? empty = l, changes.foldlM Listing.change? Listing.empty = s at run
  cases run with
  | none => exact .none
  | some rep => exact .some rep.refines

/-- An instruction that was taken out of the middle of a block and put in front of another. -/
example : (do
    let l ← [.block ⟨0⟩, .block ⟨1⟩, .insert ⟨2⟩ (.bottom ⟨0⟩), .insert ⟨3⟩ (.bottom ⟨0⟩), .insert ⟨4⟩ (.after ⟨3⟩),
      .insert ⟨5⟩ (.bottom ⟨1⟩), .remove ⟨3⟩, .insert ⟨3⟩ (.before ⟨5⟩)].foldlM change? empty
    return (l.inst ⟨2⟩, l.inst ⟨3⟩, l.inst ⟨4⟩)) =
      some (⟨some ⟨0⟩, none, some ⟨4⟩⟩, ⟨some ⟨1⟩, none, some ⟨5⟩⟩, ⟨some ⟨0⟩, some ⟨2⟩, none⟩) := by
  decide

end Links

end VarRecovery
