import Mathlib.Data.Int.ModEq
import VarRecovery.Pointer.Displacement
import VarRecovery.Proofs.Code.Replacement
import VarRecovery.Proofs.Pointer.Displacement
import VarRecovery.Proofs.Pointer.Path
import VarRecovery.Proofs.Region.Redirection

/-!
What the indices of a folded displacement say. They are constants as wide as a pointer, so what they add up to is the
displacement as long as it is counted in as many bits.
-/

set_option autoImplicit false

namespace VarRecovery

/-- Constants are the numbers they were made from, up to a multiple of how many there are. -/
theorem Imm.toInt_ofInt_modEq (w : IntWidth) (n : Int) : (Imm.ofInt w n).toInt ≡ n [ZMOD 2 ^ w.bits] := by
  have signed : (BitVec.ofInt w.bits n).toInt ≡ n [ZMOD 2 ^ w.bits] := by
    rw [BitVec.toInt_ofInt, Int.ModEq]
    exact_mod_cast Int.bmod_emod
  have unsigned : ((BitVec.ofInt w.bits n).toNat : Int) ≡ n [ZMOD 2 ^ w.bits] := by
    have positive : (0 : Int) < 2 ^ w.bits := Int.pow_pos (by decide)
    rw [BitVec.toNat_ofInt, Nat.cast_pow, Nat.cast_ofNat, Int.toNat_of_nonneg (Int.emod_nonneg n positive.ne')]
    exact Int.mod_modEq n _
  cases w <;> first | exact unsigned | exact signed

theorem Imm.ofInt_injective {w : IntWidth} {n k : Nat} (left : n < 2 ^ w.bits) (right : k < 2 ^ w.bits)
    (same : Imm.ofInt w n = Imm.ofInt w k) : n = k := by
  have bits : BitVec.ofNat w.bits n = BitVec.ofNat w.bits k := by simpa [Imm.ofInt] using same
  simpa [Nat.mod_eq_of_lt left, Nat.mod_eq_of_lt right] using congrArg BitVec.toNat bits

namespace DataLayout

variable {L : DataLayout} {ty part last pointee : Ty} {ns : List Nat} {is : List Imm} {o o' : Int}

/-- Where constants lead to in a value: a number of elements further, or to the field that the constant was made for. -/
inductive Reads (L : DataLayout) : Ty → List Imm → Int → Prop
  | here (ty : Ty) : Reads L ty [] 0
  | element {elem : Ty} {len size : Nat} {i : Imm} {is : List Imm} {o : Int} (sized : L.allocSize? elem = some size)
      (inner : Reads L elem is o) : Reads L (.array elem len) (i :: is) (i.toInt * size + o)
  | lane {elem : Ty} {len size : Nat} {i : Imm} {is : List Imm} {o : Int} (sized : L.allocSize? elem = some size)
      (inner : Reads L elem is o) : Reads L (.vector elem len) (i :: is) (i.toInt * size + o)
  | field {name : String} {fields : List Ty} {packed : Bool} {part : Ty} {n start : Nat} {is : List Imm} {o : Int}
      (named : fields[n]? = some part) (placed : L.fieldOffset? (.struct name fields packed) n = some start)
      (inner : Reads L part is o) :
      Reads L (.struct name fields packed) (.ofInt L.pointerWidth n :: is) (start + o)

/-- The same from a pointer, where the first constant counts values of what it points to. -/
inductive ReadsFrom (L : DataLayout) (pointee : Ty) : List Imm → Int → Prop
  | mk {size : Nat} {i : Imm} {is : List Imm} {o : Int} (sized : L.allocSize? pointee = some size)
      (inner : Reads L pointee is o) : ReadsFrom L pointee (i :: is) (i.toInt * size + o)

theorem Leads.reads {start : Nat} (leads : L.Leads ty ns last start) :
    ∃ o, L.Reads ty (ns.map fun n : Nat => .ofInt L.pointerWidth n) o ∧ o ≡ start [ZMOD 2 ^ L.pointerWidth.bits] := by
  induction leads with
  | here ty => exact ⟨0, .here ty, rfl⟩
  | @step ty part last n start offset ns first _ ih =>
    obtain ⟨o, reads, same⟩ := ih
    -- A constant may be negative where its index is large; congruence is all that is left, and sums keep it.
    have scaled (size : Nat) : (Imm.ofInt L.pointerWidth n).toInt * size + o ≡ ((n * size + offset : Nat) : Int)
        [ZMOD 2 ^ L.pointerWidth.bits] := by
      push_cast
      exact ((Imm.toInt_ofInt_modEq L.pointerWidth n).mul_right _).add same
    cases first with
    | element inside sized => exact ⟨_, .element sized reads, scaled _⟩
    | lane inside sized => exact ⟨_, .lane sized reads, scaled _⟩
    | field named placed => exact ⟨_, .field named placed reads, by push_cast; exact same.add_left _⟩

/-- No struct in a type has more fields than constants can tell apart. -/
def FieldsCountable (L : DataLayout) (ty : Ty) : Prop :=
  ∀ part ∈ ty.parts, part.inner.length ≤ 2 ^ L.pointerWidth.bits

theorem Reads.unique (few : L.FieldsCountable ty) (first : L.Reads ty is o) (second : L.Reads ty is o') : o = o' := by
  induction first generalizing o' with
  | here ty => cases second; rfl
  | element sized inner ih =>
    cases second with
    | element sized' inner' =>
      cases sized.symm.trans sized'
      rw [ih ((Ty.forall_parts.mp few).2 _ (List.mem_singleton_self _)) inner']
  | lane sized inner ih =>
    cases second with
    | lane sized' inner' =>
      cases sized.symm.trans sized'
      rw [ih ((Ty.forall_parts.mp few).2 _ (List.mem_singleton_self _)) inner']
  | @field name fields packed part n start is o named placed inner ih =>
    obtain ⟨count, others⟩ := Ty.forall_parts.mp few
    have below {k : Nat} {field : Ty} (found : fields[k]? = some field) : k < 2 ^ L.pointerWidth.bits :=
      Nat.lt_of_lt_of_le (List.getElem?_eq_some_iff.mp found).1 count
    -- The constant alone does not say which field was meant; it does as fields are fewer than constants.
    generalize number : Imm.ofInt L.pointerWidth n = i at second
    cases second with
    | field named' placed' inner' =>
      cases Imm.ofInt_injective (below named) (below named') number
      cases named.symm.trans named'
      cases placed.symm.trans placed'
      rw [ih (others part (List.mem_of_getElem? named)) inner']

theorem ReadsFrom.unique (few : L.FieldsCountable pointee) (first : L.ReadsFrom pointee is o)
    (second : L.ReadsFrom pointee is o') : o = o' := by
  cases first with
  | mk sized inner =>
    cases second with
    | mk sized' inner' =>
      cases sized.symm.trans sized'
      rw [inner.unique few inner']

end DataLayout

/-! ### The code of a path -/

namespace Graph

variable {L : DataLayout} {g h : Graph} {pointee : Ty} {path : TyPath} {base ptr sum : ValueId} {pointers : List ValueId}
  {n : Nat} {o o' : Int}

/-- The code of a path: a pointer to the part that its indices lead to and, if something is left, a second one that
counts values which divide it. The pointers in turn. -/
inductive Follows (L : DataLayout) (g : Graph) (path : TyPath) (base : ValueId) : List ValueId → Prop
  | part {v : ValueId} {i : InstId} {vs : List ValueId} (made : g.Defines v i (.gep base vs) (.ptr path.ty))
      (constants : List.Forall₂ (fun v (n : Nat) => g.imm? v = some (.ofInt L.pointerWidth n)) vs path.indices)
      (nothing : path.rest = 0) : Follows L g path base [v]
  | rest {v cast last index : ValueId} {i j k : InstId} {vs : List ValueId} {elem : Ty} {size : Nat}
      (made : g.Defines v i (.gep base vs) (.ptr path.ty))
      (constants : List.Forall₂ (fun v (n : Nat) => g.imm? v = some (.ofInt L.pointerWidth n)) vs path.indices)
      (some_ : path.rest ≠ 0) (casts : g.Defines cast j (.cast .bitcast v (.ptr elem)) (.ptr elem))
      (counts : g.Defines last k (.gep cast [index]) (.ptr elem)) (sized : L.allocSize? elem = some size)
      (divides : size ∣ path.rest) (constant : g.imm? index = some (.ofInt L.pointerWidth (path.rest / size : Nat))) :
      Follows L g path base [v, last]

/-- How far behind its base the last of some pointers lies, as the constants of the code say: one gep leads there or,
if the type of the first pointer is not the one to count by, a second one from its cast. -/
inductive Displaces (L : DataLayout) (g : Graph) (pointee : Ty) (base : ValueId) : List ValueId → Int → Prop
  | one {v : ValueId} {i : InstId} {vs : List ValueId} {is : List Imm} {ty : Ty} {o : Int}
      (made : g.Defines v i (.gep base vs) ty) (constants : List.Forall₂ (fun v i => g.imm? v = some i) vs is)
      (reads : L.ReadsFrom pointee is o) : Displaces L g pointee base [v] o
  | two {v cast last : ValueId} {j k : InstId} {vs : List ValueId} {is : List Imm} {elem : Ty} {o o' : Int}
      (first : Displaces L g pointee base [v] o) (casts : g.Defines cast j (.cast .bitcast v (.ptr elem)) (.ptr elem))
      (counts : g.Defines last k (.gep cast vs) (.ptr elem)) (single : vs.length = 1)
      (constants : List.Forall₂ (fun v i => g.imm? v = some i) vs is) (reads : L.ReadsFrom elem is o') :
      Displaces L g pointee base [v, last] (o + o')

theorem forall₂_constants {vs : List ValueId} {ns : List Nat} (f : Nat → Imm)
    (constants : List.Forall₂ (fun v n => g.imm? v = some (f n)) vs ns) :
    List.Forall₂ (fun v i => g.imm? v = some i) vs (ns.map f) :=
  List.forall₂_map_right_iff.mpr constants

theorem forall₂_unique {vs : List ValueId} {is is' : List Imm} (first : List.Forall₂ (fun v i => g.imm? v = some i) vs is)
    (second : List.Forall₂ (fun v i => g.imm? v = some i) vs is') : is = is' := by
  induction first generalizing is' with
  | nil => cases second; rfl
  | cons here _ ih =>
    cases second with
    | cons here' others =>
      cases here.symm.trans here'
      rw [ih others]

theorem Defines.unique {v : ValueId} {i j : InstId} {inst inst' : Inst} {ty ty' : Ty} (first : g.Defines v i inst ty)
    (second : g.Defines v j inst' ty') : inst = inst' ∧ ty = ty' := by
  cases first.value.symm.trans second.value
  cases first.inst.symm.trans second.inst
  exact ⟨rfl, rfl⟩

/-- The constants of a path's code lead as far as the path does. -/
theorem Follows.displaces {first size start : Nat} (follows : Follows L g (path.cons first) base pointers)
    (sized : L.allocSize? pointee = some size) (leads : L.Leads pointee path.indices path.ty start)
    (whole : first * size + start + path.rest = n) :
    ∃ o, Displaces L g pointee base pointers o ∧ o ≡ n [ZMOD 2 ^ L.pointerWidth.bits] := by
  obtain ⟨o, reads, same⟩ := leads.reads
  have all := DataLayout.ReadsFrom.mk (i := .ofInt L.pointerWidth first) sized reads
  have part : (Imm.ofInt L.pointerWidth first).toInt * size + o ≡ ((first * size + start : Nat) : Int)
      [ZMOD 2 ^ L.pointerWidth.bits] := by
    push_cast
    exact ((Imm.toInt_ofInt_modEq L.pointerWidth first).mul_right _).add same
  cases follows with
  | part made constants nothing =>
    have nothing : path.rest = 0 := nothing
    refine ⟨_, .one made (forall₂_constants _ constants) all, ?_⟩
    rwa [← whole, nothing, Nat.add_zero]
  | @rest v cast last index i j k vs elem bytes made constants _ casts counts counted divides constant =>
    have divides : bytes ∣ path.rest := divides
    refine ⟨_, .two (.one made (forall₂_constants _ constants) all) casts counts rfl (.cons constant .nil)
      (.mk counted (.here elem)), ?_⟩
    rw [← whole, Nat.cast_add]
    refine part.add ?_
    have back : ((path.rest / bytes : Nat) : Int) * bytes = path.rest := by
      exact_mod_cast Nat.div_mul_cancel divides
    rw [Int.add_zero, ← back]
    exact (Imm.toInt_ofInt_modEq L.pointerWidth _).mul_right _

theorem Displaces.unique (few : L.FieldsCountable pointee) (first : Displaces L g pointee base pointers o)
    (second : Displaces L g pointee base pointers o') : o = o' := by
  have one {v : ValueId} {p p' : Int} (left : Displaces L g pointee base [v] p)
      (right : Displaces L g pointee base [v] p') : p = p' := by
    cases left with
    | one made constants reads =>
      cases right with
      | one made' constants' reads' =>
        cases (made.unique made').1
        cases forall₂_unique constants constants'
        exact reads.unique few reads'
  cases first with
  | one made constants reads => exact one (.one made constants reads) second
  | two left casts counts single constants reads =>
    cases second with
    | two left' casts' counts' _ constants' reads' =>
      cases (counts.unique counts').1
      cases (casts.unique casts').1
      cases forall₂_unique constants constants'
      rw [one left left']
      -- A single constant counts values of the type, whatever they are.
      obtain ⟨v, rfl⟩ := List.length_eq_one_iff.mp single
      cases constants with
      | cons _ rest =>
        cases rest
        cases reads with
        | mk sized inner =>
          cases reads' with
          | mk sized' inner' =>
            cases sized.symm.trans sized'
            cases inner
            cases inner'
            rfl

end Graph

namespace Func

variable {L : DataLayout} {f g : Func} {anchor : InstId} {ptr base : ValueId} {path : TyPath} {castTy : Option Ty}
  {rest : Nat}

theorem Puts.keeps {news : List InstId} (puts : Puts anchor news f g) : f.graph.Keeps 0 g.graph :=
  ⟨puts.size, puts.value, fun i inst _ => puts.inst i inst⟩

theorem addOffsets_puts (L : DataLayout) (valid : f.graph.Valid) (old : anchor.index < f.graph.insts.size)
    (ns : List Nat) : Puts anchor [] f (addOffsets L f ns).1 ∧
      List.Forall₂ (fun v (n : Nat) => (addOffsets L f ns).1.graph.imm? v = some (.ofInt L.pointerWidth n))
        (addOffsets L f ns).2 ns := by
  induction ns generalizing f with
  | nil => exact ⟨.refl valid anchor, .nil⟩
  | cons n ns ih =>
    have first := puts_addImm valid anchor (.ofInt L.pointerWidth n)
    obtain ⟨others, constants⟩ := ih first.valid (Nat.lt_of_lt_of_le old first.size)
    exact ⟨first.trans old others, .cons (others.keeps.imm? (f.graph.imm?_addImm_self _)) constants⟩

/-- A rest is counted by a type that divides it. -/
theorem restStep_divides (a : Architecture) (castTy : Option Ty) (rest : Nat) :
    ∃ elem size, restStep (.ofArchitecture a) castTy rest = (.ptr elem, size) ∧
      (DataLayout.ofArchitecture a).allocSize? elem = some size ∧ size ∣ rest := by
  have bytes : (DataLayout.ofArchitecture a).allocSize? .i8 = some 1 := by cases a <;> decide
  unfold restStep
  split
  next pointee =>
    split
    next size sized =>
      split
      next fits => exact ⟨pointee, size, rfl, sized, Nat.dvd_of_mod_eq_zero fits.2⟩
      next => exact ⟨.i8, 1, rfl, bytes, Nat.one_dvd rest⟩
    next => exact ⟨.i8, 1, rfl, bytes, Nat.one_dvd rest⟩
  next => exact ⟨.i8, 1, rfl, bytes, Nat.one_dvd rest⟩

theorem Puts.follows {news : List InstId} (puts : Puts anchor news f g) {pointers : List ValueId}
    (follows : Graph.Follows L f.graph path base pointers) : Graph.Follows L g.graph path base pointers := by
  have kept {vs : List ValueId} {c : Nat → Imm} {ns : List Nat}
      (constants : List.Forall₂ (fun v n => f.graph.imm? v = some (c n)) vs ns) :
      List.Forall₂ (fun v n => g.graph.imm? v = some (c n)) vs ns :=
    constants.imp fun v n => puts.keeps.imm?
  cases follows with
  | part made constants nothing => exact .part (puts.defines made) (kept constants) nothing
  | rest made constants some_ casts counts sized divides constant =>
    exact .rest (puts.defines made) (kept constants) some_ (puts.defines casts) (puts.defines counts) sized divides
      (puts.keeps.imm? constant)

/-- What is written for a path follows it, in front of the anchor. -/
theorem insertPath_follows (a : Architecture) (valid : f.graph.Valid) (old : anchor.index < f.graph.insts.size)
    (ptr : ValueId) (path : TyPath) (castTy : Option Ty) :
    ∃ g pointers last news, insertPath (.ofArchitecture a) f ptr path castTy anchor = (g, pointers, last) ∧
      Puts anchor news f g ∧ Graph.Follows (.ofArchitecture a) g.graph path ptr pointers ∧
      pointers.getLast? = some last ∧ ∀ v ∈ pointers, ∃ i ∈ news, g.graph.definition? v = some i := by
  obtain ⟨numbered, constants⟩ := addOffsets_puts (.ofArchitecture a) valid old path.indices
  unfold insertPath
  generalize addOffsets (.ofArchitecture a) f path.indices = offsets at numbered constants
  obtain ⟨f₁, vs⟩ := offsets
  obtain ⟨written, made⟩ := puts_insert numbered.valid anchor (.gep ptr vs) (.ptr path.ty)
  have first := numbered.trans old written
  have constants₂ := constants.imp fun v n => written.keeps.imm?
  simp only [value_insert]
  split
  next nothing => exact ⟨_, _, _, _, rfl, first, .part made constants₂ nothing, rfl,
      List.forall_mem_singleton.mpr ⟨_, List.mem_singleton_self _, made.definition?⟩⟩
  next some_ =>
    obtain ⟨elem, size, step, sized, divides⟩ := restStep_divides a castTy path.rest
    rw [step]
    -- Something is left: a cast, the constant and a second gep are written behind the first one.
    obtain ⟨casts, cast⟩ := puts_insert first.valid anchor (.cast .bitcast f₁.graph.nextValue (.ptr elem)) (.ptr elem)
    have second := first.trans old casts
    generalize (Func.insert _ (.cast .bitcast f₁.graph.nextValue (.ptr elem)) (.ptr elem) (.before anchor)).1 = f₃
      at casts cast second ⊢
    have indexed := puts_addImm second.valid anchor (.ofInt (DataLayout.ofArchitecture a).pointerWidth (path.rest / size : Nat))
    have constant := f₃.graph.imm?_addImm_self (.ofInt (DataLayout.ofArchitecture a).pointerWidth (path.rest / size : Nat))
    have third := second.trans old indexed
    change Graph.imm? (Func.addImm f₃ _).1.graph (Func.addImm f₃ _).2 = _ at constant
    generalize f₃.addImm _ = index at indexed constant third ⊢
    obtain ⟨f₄, index⟩ := index
    obtain ⟨counts, last⟩ := puts_insert third.valid anchor (.gep _ [index]) (.ptr elem)
    have whole := third.trans old counts
    have behind := (casts.trans (Nat.lt_of_lt_of_le old first.size) indexed).trans
      (Nat.lt_of_lt_of_le old first.size) counts
    have made' := behind.defines made
    have cast' := counts.defines (indexed.defines cast)
    refine ⟨_, _, _, _, rfl, whole, .rest made' ?_ some_ cast' last sized divides (counts.keeps.imm? constant), rfl, ?_⟩
    · exact constants₂.imp fun v n => behind.keeps.imm?
    · refine List.forall_mem_cons.mpr ⟨⟨_, ?_, made'.definition?⟩, List.forall_mem_singleton.mpr ⟨_, ?_, last.definition?⟩⟩ <;>
        simp

end Func

namespace Graph

variable {L : DataLayout} {g : Graph} {path : TyPath} {ptr sum int : ValueId} {pointers : List ValueId}

theorem imm?_replaceUses (g : Graph) (old new v : ValueId) : (g.replaceUses old new).imm? v = g.imm? v := by
  rw [Graph.imm?, value?_replaceUses, Graph.imm?]

theorem imm?_untrack (g : Graph) (i : InstId) (v : ValueId) : (g.untrack i).imm? v = g.imm? v := by
  rw [Graph.imm?, value?_untrack, Graph.imm?]

theorem map_constants {σ : ValueId → ValueId} (fixed : ∀ v i, g.imm? v = some i → σ v = v) {vs : List ValueId}
    {c : Nat → Imm} {ns : List Nat} (constants : List.Forall₂ (fun v n => g.imm? v = some (c n)) vs ns) :
    vs.map σ = vs := by
  induction constants with
  | nil => rfl
  | cons here _ ih => rw [List.map_cons, ih, fixed _ _ here]

/-- Other values in the place of a sum do not change the code of a path, unless it starts at the sum itself. -/
theorem Follows.replaceUses (follows : Follows L g path ptr pointers) (valid : g.Valid) {s : InstId} {op : BinaryOp}
    {lhs rhs : ValueId} {ty : Ty} (adds : g.Defines sum s (.binary op lhs rhs) ty) (int : ValueId) :
    ∃ base, (ptr ≠ sum → base = ptr) ∧ Follows L (g.replaceUses sum int) path base pointers := by
  have other {v : ValueId} {i : InstId} {inst : Inst} {ty' : Ty} (made : g.Defines v i inst ty')
      (noSum : ∀ op lhs rhs, inst ≠ .binary op lhs rhs) : sum ≠ v := by
    rintro rfl
    exact noSum op lhs rhs (made.unique adds).1
  have plain {v : ValueId} {i : Imm} (constant : g.imm? v = some i) : sum ≠ v := by
    rintro rfl
    rw [Func.imm?_of_definition adds.definition?] at constant
    cases constant
  have first {v : ValueId} {i : InstId} {vs : List ValueId} {c : Nat → Imm} {ty' : Ty} {ns : List Nat}
      (made : g.Defines v i (.gep ptr vs) ty') (constants : List.Forall₂ (fun v n => g.imm? v = some (c n)) vs ns) :
      ∃ base, (ptr ≠ sum → base = ptr) ∧ (g.replaceUses sum int).Defines v i (.gep base vs) ty' := by
    -- Indices are constants and the sum is none, so of a gep only its base can be the sum.
    have still : vs.map (fun v => if v = sum then int else v) = vs :=
      map_constants (fun v i constant => if_neg (plain constant).symm) constants
    have value := (value?_replaceUses g sum int v).trans made.value
    by_cases user : i ∈ g.users sum
    · refine ⟨if ptr = sum then int else ptr, fun differ => if_neg differ, value, ?_⟩
      rw [inst?_replaceUses, if_pos user, made.inst, Option.map_some, Inst.replace, Inst.mapOperands, still]
    · exact ⟨ptr, fun _ => rfl, value, by rw [inst?_replaceUses, if_neg user, made.inst]⟩
  have kept {vs : List ValueId} {c : Nat → Imm} {ns : List Nat}
      (constants : List.Forall₂ (fun v n => g.imm? v = some (c n)) vs ns) :
      List.Forall₂ (fun v n => (g.replaceUses sum int).imm? v = some (c n)) vs ns :=
    constants.imp fun v n constant => (imm?_replaceUses ..).trans constant
  cases follows with
  | part made constants nothing =>
    obtain ⟨base, same, made'⟩ := first made constants
    exact ⟨base, same, .part made' (kept constants) nothing⟩
  | rest made constants some_ casts counts sized divides constant =>
    obtain ⟨base, same, made'⟩ := first made constants
    have casts' := casts.replaceUses valid (by simpa [Inst.operands] using other made (by simp)) int
    have counts' := counts.replaceUses valid
      (by simpa [Inst.operands] using ⟨other casts (by simp), plain constant⟩ : sum ∉ _) int
    exact ⟨base, same, .rest made' (kept constants) some_ casts' counts' sized divides
      ((imm?_replaceUses ..).trans constant)⟩

theorem Follows.untrack {base : ValueId} (follows : Follows L g path base pointers) (i : InstId) :
    Follows L (g.untrack i) path base pointers := by
  have kept {vs : List ValueId} {c : Nat → Imm} {ns : List Nat}
      (constants : List.Forall₂ (fun v n => g.imm? v = some (c n)) vs ns) :
      List.Forall₂ (fun v n => (g.untrack i).imm? v = some (c n)) vs ns :=
    constants.imp fun v n constant => (imm?_untrack ..).trans constant
  cases follows with
  | part made constants nothing => exact .part (made.untrack i) (kept constants) nothing
  | rest made constants some_ casts counts sized divides constant =>
    exact .rest (made.untrack i) (kept constants) some_ (casts.untrack i) (counts.untrack i) sized divides
      ((imm?_untrack ..).trans constant)

end Graph

namespace Func

variable {f : Func} {ptr sum : ValueId} {d : Displacement}

theorem defines_of_displacement {offset : Int} (valid : f.graph.Valid)
    (displaced : f.graph.displacement? d.sum d.base = some offset) (result : f.graph.result? d.sum = some sum) :
    ∃ lhs rhs, f.graph.Defines sum d.sum (.binary .add lhs rhs) (f.graph.ty sum) := by
  obtain ⟨lhs, rhs, found, -⟩ := isSum_of_displacement displaced
  obtain ⟨ty, value⟩ := Graph.definition?_eq_some.mp ((valid.result_iff _ _).mp result)
  have same : f.graph.ty sum = ty := by
    rw [Graph.ty, value]
    rfl
  exact ⟨lhs, rhs, same ▸ value, found⟩

/-- A displacement from a pointer to what has a size is folded. The path is exact: each index enters a part, what is
left lies in no part of the type that the path ends in, and the starts of the parts and the rest add up to the
displacement. So the constants of the code that takes the place of the sum lead as far, in the bits of a pointer. -/
theorem foldSum_displaces (t : Target) (valid : f.graph.Valid) {offset : Int} {pointee : Ty} {size : Nat}
    (displaced : f.graph.displacement? d.sum d.base = some offset) (result : f.graph.result? d.sum = some sum)
    (points : f.graph.ty ptr = .ptr pointee)
    (sized : t.dataLayout.allocSize? pointee = some size) :
    ∃ (g : Func) (pointers : List ValueId) (first : Nat) (path : TyPath) (base : ValueId),
      f.foldSum t.dataLayout ptr d = some (g, pointers) ∧
      t.dataLayout.path? pointee (Word.wrap offset.toNat) = some (path.cons first) ∧
      (∃ start, t.dataLayout.Leads pointee path.indices path.ty start ∧
        first * size + start + path.rest = Word.wrap offset.toNat ∧
        (path.rest ≠ 0 → t.dataLayout.Ends path.ty path.rest)) ∧
      (ptr ≠ sum → base = ptr) ∧ Graph.Follows t.dataLayout g.graph (path.cons first) base pointers ∧
      (∃ o, Graph.Displaces t.dataLayout g.graph pointee base pointers o ∧
        o ≡ Word.wrap offset.toNat [ZMOD 2 ^ t.dataLayout.pointerWidth.bits]) ∧
      (t.dataLayout.FieldsCountable pointee → ∀ o, Graph.Displaces t.dataLayout g.graph pointee base pointers o →
        o ≡ Word.wrap offset.toNat [ZMOD 2 ^ t.dataLayout.pointerWidth.bits]) ∧
      ∃ last int i news, pointers.getLast? = some last ∧
        g.graph.Defines int i (.cast .ptrToInt last (f.graph.ty sum)) (f.graph.ty sum) ∧
        g.listing = f.listing.swap d.sum (news ++ [i]) ∧ ∀ v ∈ pointers, ∃ j ∈ news, g.graph.definition? v = some j := by
  obtain ⟨first, path, found, start, leads, whole, ends⟩ := DataLayout.path?_descends sized (Word.wrap offset.toNat)
  obtain ⟨lhs, rhs, adds⟩ := defines_of_displacement valid displaced result
  have old := Graph.inst?_lt adds.inst
  obtain ⟨f₁, pointers, last, news, written, puts, follows, latest, made⟩ :=
    insertPath_follows t.architecture valid old ptr (path.cons first) (f.graph.pointerCastTy? sum)
  obtain ⟨casts, address⟩ := puts_insert puts.valid d.sum (.cast .ptrToInt last (f.graph.ty sum)) (f.graph.ty sum)
  have all := puts.trans old casts
  have folded : f.foldSum t.dataLayout ptr d = some (((f₁.insert (.cast .ptrToInt last (f.graph.ty sum)) (f.graph.ty sum)
      (.before d.sum)).1.updateGraph (·.replaceUses sum f₁.graph.nextValue)).remove d.sum, pointers) := by
    rw [← value_insert f₁ (.cast .ptrToInt last (f.graph.ty sum)) (f.graph.ty sum) (.before d.sum)]
    have written : insertPath t.dataLayout f ptr (path.cons first) (f.graph.pointerCastTy? sum) d.sum = _ := written
    simp only [foldSum, displaced, result, points, Ty.pointee?, Option.bind_eq_bind, Option.bind_some]
    rw [found, Option.bind_some, written]
    rfl
  -- The sum is another instruction than all that was written, so only the base of the path may be the sum.
  obtain ⟨base, same, replaced⟩ :=
    (casts.follows follows).replaceUses all.valid (all.defines adds) f₁.graph.nextValue
  have after := replaced.untrack d.sum
  have definition (v : ValueId) (i : InstId) (known : f₁.graph.definition? v = some i) :
      (((f₁.insert (.cast .ptrToInt last (f.graph.ty sum)) (f.graph.ty sum) (.before d.sum)).1.graph.replaceUses sum
        f₁.graph.nextValue).untrack d.sum).definition? v = some i := by
    obtain ⟨ty, value⟩ := Graph.definition?_eq_some.mp known
    refine Graph.definition?_eq_some.mpr ⟨ty, ?_⟩
    rw [Graph.value?_untrack, Graph.value?_replaceUses, casts.value _ _ value]
  have displaces := after.displaces sized leads whole
  refine ⟨_, pointers, first, path, base, folded, found, ⟨start, leads, whole, ends⟩, same, after, displaces,
    fun few o other => ?_, last, f₁.graph.nextValue, f₁.graph.nextInst, news, latest, ?_, ?_, fun v member => ?_⟩
  · obtain ⟨o', displaces, congruent⟩ := displaces
    exact other.unique few displaces ▸ congruent
  · refine (address.replaceUses all.valid (fun operand => ?_) f₁.graph.nextValue).untrack d.sum
    obtain ⟨i, written, known⟩ := made last (List.mem_of_getLast? latest)
    cases List.mem_singleton.mp operand
    cases (puts.defines adds).definition?.symm.trans known
    exact puts.absent old written
  · exact (congrArg (Listing.remove · d.sum) all.listing).trans (Listing.remove_put (all.absent old))
  · obtain ⟨i, written, known⟩ := made v member
    exact ⟨i, written, definition v i known⟩

/-- The address of a byte inside the second element of an array in a struct, of which there are several. -/
def oddByte : Func :=
  let entry := Ty.struct "entry" [.int .i32, .array (.int .i16) 3] false
  let f := (Func.declare ⟨"odd", .exported, [.ptr entry], .int .i32, none, false, false⟩ []).addBlock
  let (f, address) := f.insert (.cast .ptrToInt ⟨0⟩ (.int .i32)) (.int .i32) (.bottom ⟨0⟩)
  let (f, offset) := f.addImm (.ofInt .i32 31)
  let (f, sum) := f.insert (.binary .add address offset) (.int .i32) (.bottom ⟨0⟩)
  (f.insertInst (.leave (some sum)) (.bottom ⟨0⟩)).1

theorem oddByte_displaces : ∃ g pointers, oddByte.foldSum (Target.dataLayout ⟨.x86, .unknown, .linux⟩) ⟨0⟩ ⟨⟨1⟩, ⟨1⟩⟩ =
      some (g, pointers) ∧
    (Target.dataLayout ⟨.x86, .unknown, .linux⟩).path? ((oddByte.graph.ty ⟨0⟩).pointee?.getD .unit) 31 =
      some ⟨[2, 1, 1], .int .i16, 1⟩ ∧
    ∃ o, Graph.Displaces (Target.dataLayout ⟨.x86, .unknown, .linux⟩) g.graph ((oddByte.graph.ty ⟨0⟩).pointee?.getD .unit)
      ⟨0⟩ pointers o ∧ o ≡ 31 [ZMOD 2 ^ 32] := by
  have valid : oddByte.graph.Valid := by decide +kernel
  obtain ⟨g, pointers, first, path, base, folded, found, -, same, -, displaces, -⟩ :=
    foldSum_displaces ⟨.x86, .unknown, .linux⟩ (f := oddByte) (d := ⟨⟨1⟩, ⟨1⟩⟩) valid
      (show _ = some 31 by decide +kernel) (show _ = some ⟨3⟩ by decide +kernel)
      (show oddByte.graph.ty ⟨0⟩ = .ptr ((oddByte.graph.ty ⟨0⟩).pointee?.getD .unit) by decide +kernel)
      (show _ = some 12 by decide +kernel)
  cases same (by decide)
  exact ⟨g, pointers, folded, by decide +kernel, displaces⟩

end Func

end VarRecovery
