import Mathlib
import VarRecovery.Proofs.Region.Frame
import VarRecovery.Proofs.Region.Resolution

/-!
Frames in their functions. A frame is allocated as a struct of what was laid out, and the constant address
of a cell becomes that of the byte of the frame at which the cell is placed.
-/

set_option autoImplicit false

namespace VarRecovery

namespace Graph

/-- New instructions made the address of a byte an integer, `offset` bytes behind the start of a slot for
values of type `frame`. -/
def Reaches (old : Nat) (L : DataLayout) (g : Graph) (frame : Ty) (bytes : ValueId) (offset : Nat) (ty : Ty)
    (v : ValueId) : Prop :=
  ∃ slot c ptr, g.Makes old slot (.alloca frame) ∧ g.Makes old bytes (.cast .bitcast slot (.ptr .i8)) ∧
    g.imm? c = some (.ofInt L.pointerWidth offset) ∧ g.Makes old ptr (.gep bytes [c]) ∧
    g.Makes old v (.cast .ptrToInt ptr ty)

theorem Reaches.keeps {old offset : Nat} {L : DataLayout} {g h : Graph} {bytes v : ValueId} {frame ty : Ty}
    (reaches : Reaches old L g frame bytes offset ty v) (keeps : g.Keeps old h) :
    Reaches old L h frame bytes offset ty v := by
  obtain ⟨slot, c, ptr, alloca, bitcast, constant, gep, cast⟩ := reaches
  exact ⟨slot, c, ptr, alloca.keeps keeps, bitcast.keeps keeps, keeps.imm? constant, gep.keeps keeps,
    cast.keeps keeps⟩

end Graph

namespace Module

variable {m : Module} {f : FuncId}

theorem addOffset_spec (func : (m.func? f).isSome) (n : Int) :
    m.Grows (m.addOffset f n).1 ∧
      ((m.addOffset f n).1.graph f).imm? (m.addOffset f n).2 = some (.ofInt m.layout.pointerWidth n) := by
  obtain ⟨body, found⟩ := Option.isSome_iff_exists.mp func
  simp only [addOffset, found]
  refine ⟨Keeps.updateFunc found (body.graph.keeps_findOrAdd _ _), ?_⟩
  rw [graph_updateFunc found, if_pos rfl]
  exact body.graph.imm?_addImm_self _

end Module

/-- The value of a cell is a constant, and its user an instruction. -/
structure Cell.IsOperand (g : Graph) (c : Cell) : Prop where
  user : c.user.index < g.insts.size
  constant : (g.imm? c.value).isSome

namespace FrameRedirection

/-- A value is the address of the byte at which a cell is placed, and may take the place of its constant. -/
def Stands (m : Module) (f : FuncId) (frame : Ty) (base : Nat) (bytes : ValueId) (cells : List Cell)
    (j : FuncId) (g : Graph) (user : InstId) (value new : ValueId) : Prop :=
  j = f ∧ ∃ c ∈ cells, c.user = user ∧ c.value = value ∧
    Graph.Reaches (m.counts f) m.layout g frame bytes (c.address - base) ((m.graph f).ty value) new

variable {m : Module} {f : FuncId} {frame : Ty} {base : Nat} {bytes : ValueId} {cells : List Cell}
  {s s' : FrameRedirection}

theorem lasting_stands : m.Lasting (Stands m f frame base bytes cells) where
  keeps := by
    rintro j g h user value new ⟨rfl, c, member, same, operand, reaches⟩ keeps
    exact ⟨rfl, c, member, same, operand, reaches.keeps keeps⟩
  imm := by
    rintro j g user value new ⟨rfl, c, -, -, -, slot, offset, ptr, -, -, -, -, cast⟩
    exact cast.imm?

structure Sound (m : Module) (f : FuncId) (frame : Ty) (base : Nat) (bytes : ValueId) (cells : List Cell)
    (s : FrameRedirection) : Prop where
  redirected : m.Redirected (Stands m f frame base bytes cells) s.module
  slot : ∃ slot, (s.module.graph f).Makes (m.counts f) slot (.alloca frame) ∧
    (s.module.graph f).Makes (m.counts f) bytes (.cast .bitcast slot (.ptr .i8))
  memo : ∀ address ty v, ((address, ty), v) ∈ s.memo →
    Graph.Reaches (m.counts f) m.layout (s.module.graph f) frame bytes (address - base) ty v

theorem Sound.keep (sound : s.Sound m f frame base bytes cells) (keeps : s.module.Keeps m.counts s'.module)
    (redirected : m.Redirected (Stands m f frame base bytes cells) s'.module) (memo : s'.memo = s.memo) :
    s'.Sound m f frame base bytes cells where
  redirected := redirected
  slot := by
    obtain ⟨slot, alloca, bitcast⟩ := sound.slot
    exact ⟨slot, alloca.keeps (keeps.graph f), bitcast.keeps (keeps.graph f)⟩
  memo address ty v member := (sound.memo address ty v (memo ▸ member)).keeps (keeps.graph f)

theorem address_spec (sound : s.Sound m f frame base bytes cells) (func : (m.func? f).isSome) {c : Cell}
    {ty : Ty} {v : ValueId} (h : s.address f base bytes c ty = .ok (s', v)) :
    s'.Sound m f frame base bytes cells ∧
      Graph.Reaches (m.counts f) m.layout (s'.module.graph f) frame bytes (c.address - base) ty v := by
  rcases address_cases h with ⟨known, rfl⟩ |
    ⟨m₁, offset, m₂, cursor₂, ptr, m₃, cursor₃, numbered, gep, cast, rfl⟩
  · exact ⟨sound, sound.memo _ _ _ known⟩
  · obtain ⟨grows₁, constant⟩ :=
      Module.addOffset_spec (sound.redirected.keeps.func f func) ((c.address - base : Nat) : Int)
    rw [numbered] at grows₁ constant
    obtain ⟨grows₂, makes₂⟩ := EntryCursor.insert_ok gep
    obtain ⟨grows₃, makes₃⟩ := EntryCursor.insert_ok cast
    have grows := (grows₁.trans grows₂).trans grows₃
    have sized := Nat.le_trans (sound.redirected.keeps.graph f).size_insts (grows₁.graph f).size_insts
    have grown : Sound m f frame base bytes cells { s with module := m₃ } :=
      sound.keep (Module.Grows.keeps grows _) (sound.redirected.grow lasting_stands grows) rfl
    obtain ⟨slot, alloca, bitcast⟩ := grown.slot
    -- The offset is a word of the target, which redirecting does not change.
    have layout : s.module.layout = m.layout := by
      rw [Module.layout, sound.redirected.keeps.target, Module.layout]
    have reaches : Graph.Reaches (m.counts f) m.layout (m₃.graph f) frame bytes (c.address - base) ty v := by
      refine ⟨slot, offset, ptr, alloca, bitcast, ?_, ?_, ?_⟩
      · exact layout ▸ ((grows₂.trans grows₃).graph f).imm? constant
      · exact (makes₂ _ sized).keeps ((grows₃.keeps m.counts).graph f)
      · exact makes₃ _ (Nat.le_trans sized (grows₂.graph f).size_insts)
    refine ⟨⟨grown.redirected, grown.slot, fun address ty' w member => ?_⟩, reaches⟩
    rcases List.mem_cons.mp member with same | before
    · cases same
      exact reaches
    · exact grown.memo address ty' w before

theorem redirect_spec (sound : s.Sound m f frame base bytes cells) {c : Cell} (member : c ∈ cells)
    (operand : c.IsOperand (m.graph f)) (h : s.redirect f base bytes c = .ok s') :
    s'.Sound m f frame base bytes cells := by
  obtain ⟨imm, found⟩ := Option.isSome_iff_exists.mp operand.constant
  have ty : (s.module.graph f).ty c.value = (m.graph f).ty c.value := by
    rw [Graph.ty_of_imm? found, Graph.ty_of_imm? ((sound.redirected.keeps.graph f).imm? found)]
  unfold redirect at h
  rw [ty] at h
  obtain ⟨⟨s₁, int⟩, addressed, h⟩ := Recovering.bind_eq_ok h
  obtain ⟨sound₁, reaches⟩ := address_spec sound (Module.isSome_func?_of_imm? found) addressed
  cases h
  obtain ⟨keeps, redirected⟩ := sound₁.redirected.replaceOperand lasting_stands operand.user
    operand.constant ⟨rfl, c, member, rfl, rfl, reaches⟩
  exact sound₁.keep keeps redirected rfl

end FrameRedirection

namespace Module

def stackOrder (m : Module) (cells : List Cell) : List Cell :=
  Cell.sort (.ofCells cells) m.layout cells

theorem mem_stackOrder {m : Module} {cells : List Cell} {c : Cell} : c ∈ m.stackOrder cells ↔ c ∈ cells :=
  List.mem_mergeSort

variable {m n : Module} {f : FuncId} {cells : List Cell} {stackPointer redzone : Nat}
  {cursor last : EntryCursor} {frame : Frame}

/-- A frame is the struct that was laid out exactly if all cells that have fields store all the bytes they
take. In any case the constants of cells become addresses of the bytes at which they were laid out. -/
theorem buildFrame_realizes_iff (word : stackPointer ≤ maxAddress)
    (takes : ∀ c ∈ cells, FieldList.Takes m.layout c.ty c.size)
    (h : (m.buildFrame f cells (some stackPointer) redzone cursor).warnings.1 = .ok (n, last, frame)) :
    ∃ l placed, (FrameLayout.ofCells m.layout (m.stackOrder cells) stackPointer redzone).warnings.1 = .ok l ∧
      l.fields.start = l.base ∧ l.Places (m.stackOrder cells) placed ∧
      (l.fields.IsRealizedBy m.layout frame.ty ↔ ∀ c ∈ placed, m.layout.Fills c.ty.placed) ∧
      ((∀ c ∈ cells, c.IsOperand (m.graph f)) → ∃ bytes, Graph.Redirects (fun user value new =>
          ∃ c ∈ cells, c.user = user ∧ c.value = value ∧ Graph.Reaches (m.counts f) m.layout (n.graph f)
            frame.ty bytes (c.address - l.base) ((m.graph f).ty value) new)
        (m.graph f) (n.graph f)) := by
  obtain ⟨stop, run⟩ := Recovering.warnings_ok h
  unfold buildFrame at run
  obtain ⟨l, _, laid, run⟩ := Recovering.bind_ok run
  dsimp only at run
  generalize declared : m.types.addFresh (m.funcName f ++ ".frame") l.fields.types true = added at run
  obtain ⟨types, ty⟩ := added
  obtain ⟨⟨m₁, cursor₁, slot⟩, _, allocated, run⟩ := Recovering.bind_ok run
  obtain ⟨allocated, -⟩ := Recovering.lift_ok allocated
  obtain ⟨⟨m₂, cursor₂, bytes⟩, _, cast, run⟩ := Recovering.bind_ok run
  obtain ⟨cast, -⟩ := Recovering.lift_ok cast
  obtain ⟨s, _, redirected, run⟩ := Recovering.bind_ok run
  obtain ⟨redirected, -⟩ := Recovering.lift_ok redirected
  obtain ⟨done, -⟩ := Recovering.pure_ok run
  obtain ⟨start, spans, fits, placed, places⟩ :=
    FrameLayout.ofCells_ok word (fun c member => takes c (mem_stackOrder.mp member)) laid
  cases done
  refine ⟨l, placed, congrArg Prod.fst laid, start, places, ?_, fun operands => ⟨bytes, ?_⟩⟩
  · obtain rfl := congrArg Prod.snd declared
    exact places.isRealizedBy_iff _ spans fits
  have typed : m.Grows { m with types } := ⟨rfl, fun _ known => known, rfl, fun _ => .refl _ _⟩
  obtain ⟨grows₁, makes₁⟩ := EntryCursor.insert_ok allocated
  obtain ⟨grows₂, makes₂⟩ := EntryCursor.insert_ok cast
  have first : FrameRedirection.Sound m f ty l.base bytes cells ⟨m₂, cursor₂, [], [slot]⟩ := by
    refine ⟨(Redirected.refl m).grow FrameRedirection.lasting_stands ((typed.trans grows₁).trans grows₂),
      ⟨slot, ?_, ?_⟩, nofun⟩
    · exact (makes₁ (m.counts f) (Nat.le_refl _)).keeps ((Grows.keeps grows₂ m.counts).graph f)
    · exact makes₂ (m.counts f) (grows₁.graph f).size_insts
  have sound : FrameRedirection.Sound m f ty l.base bytes cells s :=
    Recovering.foldlM_eq_ok (motive := FrameRedirection.Sound m f ty l.base bytes cells) first
      (fun c _ _ member before => FrameRedirection.redirect_spec before (mem_stackOrder.mp member)
        (operands c (mem_stackOrder.mp member))) redirected
  refine (sound.redirected.redirects f).mono ?_
  rintro user value new ⟨-, c, member, same, operand, reaches⟩
  exact ⟨c, member, same, operand, reaches⟩

/-- A read of a value on the stack, and one of an integer 16 bytes behind it. -/
def stackReads (ty : Ty) : Module :=
  let f := (Func.declare ⟨"f", .exported, [], .unit, none, false, false⟩ []).addBlock
  let (f, first) := f.addImm (.ofInt .i64 4096)
  let (f, address) := f.insert (.cast .intToPtr first (.ptr ty)) (.ptr ty) (.bottom ⟨0⟩)
  let (f, _) := f.insert (.load address ty) ty (.bottom ⟨0⟩)
  let (f, second) := f.addImm (.ofInt .i64 4112)
  let (f, address) := f.insert (.cast .intToPtr second (.ptr (.int .i64))) (.ptr (.int .i64)) (.bottom ⟨0⟩)
  let (f, _) := f.insert (.load address (.int .i64)) (.int .i64) (.bottom ⟨0⟩)
  let (f, _) := f.insertInst (.leave none) (.bottom ⟨0⟩)
  { empty ⟨.x86_64, .unknown, .linux⟩ with funcs := #[f] }

def stackReadCells (ty : Ty) (size : Nat) : List Cell :=
  [⟨⟨0⟩, 4096, ty, size, .plain, ⟨0⟩, ⟨0⟩⟩, ⟨⟨0⟩, 4112, .int .i64, 8, .plain, ⟨2⟩, ⟨3⟩⟩]

theorem stackReads_realized : ∃ n last, ∃ (frame : Frame) (l : FrameLayout),
    ((stackReads (.int .i32)).buildFrame ⟨0⟩ (stackReadCells (.int .i32) 4) (some 4096) 0 .start).warnings.1 =
      .ok (n, last, frame) ∧
    l.fields.fields = [(4096, .int .i32), (4100, .array (.int .i8) 12), (4112, .int .i64)] ∧
    l.fields.IsRealizedBy (stackReads (.int .i32)).layout frame.ty := by
  have takes : ∀ c ∈ stackReadCells (.int .i32) 4,
      FieldList.Takes (stackReads (.int .i32)).layout c.ty c.size := by decide +kernel
  have fills : ∀ c ∈ stackReadCells (.int .i32) 4, (stackReads (.int .i32)).layout.Fills c.ty.placed := by
    intro c member
    simp only [stackReadCells, List.mem_cons, List.not_mem_nil, or_false] at member
    rcases member with rfl | rfl
    · exact ⟨4, by decide +kernel, 4, by decide +kernel, Nat.le_refl 4⟩
    · exact ⟨8, by decide +kernel, 8, by decide +kernel, Nat.le_refl 8⟩
  have runs : ((stackReads (.int .i32)).buildFrame ⟨0⟩ (stackReadCells (.int .i32) 4) (some 4096) 0
      .start).warnings.1.toOption.isSome := by cbv
  have fields : (FrameLayout.ofCells (stackReads (.int .i32)).layout ((stackReads (.int .i32)).stackOrder
      (stackReadCells (.int .i32) 4)) 4096 0).warnings.1.toOption.map (·.fields.fields) =
        some [(4096, .int .i32), (4100, .array (.int .i8) 12), (4112, .int .i64)] := by cbv
  obtain ⟨⟨n, last, frame⟩, run⟩ := Option.isSome_iff_exists.mp runs
  have h := Recovering.ok_of_toOption run
  obtain ⟨l, placed, laid, -, places, realized, -⟩ := buildFrame_realizes_iff (by decide) takes h
  rw [laid] at fields
  refine ⟨n, last, frame, l, h, Option.some.inj fields, realized.mpr fun c member => ?_⟩
  exact fills c (mem_stackOrder.mp (places.sublist.subset member))

theorem stackReads_longDouble : (∀ c ∈ stackReadCells (.float .f80) 16,
      FieldList.Takes (stackReads (.float .f80)).layout c.ty c.size) ∧
    ∃ n last, ∃ (frame : Frame) (l : FrameLayout),
      ((stackReads (.float .f80)).buildFrame ⟨0⟩ (stackReadCells (.float .f80) 16) (some 4096)
        0 .start).warnings.1 = .ok (n, last, frame) ∧
      (FrameLayout.ofCells (stackReads (.float .f80)).layout ((stackReads (.float .f80)).stackOrder
        (stackReadCells (.float .f80) 16)) 4096 0).warnings.1 = .ok l ∧
      l.fields.fields[2]? = some (l.fields.start + 16, .int .i64) ∧
      (stackReads (.float .f80)).layout.fieldOffset? frame.ty 2 = some 22 ∧
      ¬l.fields.IsRealizedBy (stackReads (.float .f80)).layout frame.ty := by
  refine ⟨by decide +kernel, ?_⟩
  -- The padding of the float is in the struct twice: behind the float, and as a field of its own.
  have built : ((stackReads (.float .f80)).buildFrame ⟨0⟩ (stackReadCells (.float .f80) 16) (some 4096) 0
      .start).warnings.1.toOption.map (fun r => (stackReads (.float .f80)).layout.fieldOffset? r.2.2.ty 2) =
        some (some 22) := by cbv
  have laid : (FrameLayout.ofCells (stackReads (.float .f80)).layout ((stackReads (.float .f80)).stackOrder
      (stackReadCells (.float .f80) 16)) 4096 0).warnings.1.toOption.map
        (fun l => (l.fields.start, l.fields.fields[2]?)) = some (4096, some (4112, .int .i64)) := by cbv
  obtain ⟨⟨n, last, frame⟩, run, offset⟩ := Option.map_eq_some_iff.mp built
  obtain ⟨l, layout, field⟩ := Option.map_eq_some_iff.mp laid
  obtain ⟨start, third⟩ := Prod.ext_iff.mp field
  have there : l.fields.fields[2]? = some (l.fields.start + 16, .int .i64) := by
    rw [show l.fields.start = 4096 from start]
    exact third
  refine ⟨n, last, frame, l, Recovering.ok_of_toOption run, Recovering.ok_of_toOption layout, there, offset,
    fun realized => ?_⟩
  have expected := realized.1 2 _ there
  rw [Nat.add_sub_cancel_left] at expected
  cases offset.symm.trans expected

end Module

end VarRecovery
