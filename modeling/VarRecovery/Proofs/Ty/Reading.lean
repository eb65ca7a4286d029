import Mathlib
import VarRecovery.Proofs.Ty.Expr
import VarRecovery.Ty.Reading

/-!
Spellings read back. A type is spelled with the bodies of its structs, so it can be read into any store in which
their names are free or stand for the same structs.
-/

set_option autoImplicit false

namespace VarRecovery

namespace TyStore

variable {s : TyStore} {d : StructDef} {ds es : List StructDef} {name : String}

theorem find?_add (s : TyStore) (d : StructDef) (name : String) :
    (s.add d).find? name = (s.find? name).or (if d.name = name then some d else none) := by
  simp only [find?, add, List.find?_append, List.find?_singleton, decide_eq_true_eq]

/-- The store with structs declared whose names were free. -/
def extend (s : TyStore) (ds : List StructDef) : TyStore :=
  ds.foldl (fun s d => if (s.find? d.name).isSome then s else s.add d) s

theorem extend_append (s : TyStore) (ds es : List StructDef) : s.extend (ds ++ es) = (s.extend ds).extend es :=
  List.foldl_append

theorem find?_extend (s : TyStore) (ds : List StructDef) (name : String) :
    (s.extend ds).find? name = (s.find? name).or (ds.find? (·.name = name)) := by
  induction ds generalizing s with
  | nil => simp [extend]
  | cons d ds ih =>
    rw [extend, List.foldl_cons, ← extend, ih, List.find?_cons]
    split
    next known =>
      obtain ⟨e, found⟩ := Option.isSome_iff_exists.mp known
      by_cases here : d.name = name
      · simp [here ▸ found]
      · simp [here]
    next free =>
      rw [find?_add]
      by_cases here : d.name = name
      · have absent : s.find? name = none := by simpa [here] using free
        simp [here, absent]
      · simp [here]

/-- Structs that are known already are not declared again. -/
theorem extend_eq_self (known : ∀ d ∈ ds, s.find? d.name = some d) : s.extend ds = s := by
  induction ds with
  | nil => rfl
  | cons d ds ih =>
    obtain ⟨first, others⟩ := List.forall_mem_cons.mp known
    rw [extend, List.foldl_cons, if_pos (by rw [first]; rfl)]
    exact ih others

/-- No two of the structs have one name. -/
def Consistent (ds : List StructDef) : Prop :=
  ∀ d ∈ ds, ∀ e ∈ ds, d.name = e.name → d = e

/-- The names of the structs are free in a store, or stand for them. -/
def Agrees (s : TyStore) (ds : List StructDef) : Prop :=
  ∀ d ∈ ds, s.find? d.name = none ∨ s.find? d.name = some d

theorem Agrees.extend (agrees : s.Agrees ds) (consistent : Consistent ds) (among : ∀ e ∈ es, e ∈ ds) :
    (s.extend es).Agrees ds := by
  intro d member
  rw [find?_extend]
  rcases agrees d member with free | known
  · rw [free, Option.none_or]
    cases found : es.find? (·.name = d.name) with
    | none => exact .inl rfl
    | some e =>
      have same : e.name = d.name := by simpa using List.find?_some found
      exact .inr (congrArg some (consistent e (among e (List.mem_of_find?_eq_some found)) d member same))
  · exact .inr (by rw [known]; rfl)

theorem Agrees.find?_extend (agrees : s.Agrees ds) (consistent : Consistent ds) (among : ∀ e ∈ es, e ∈ ds)
    (member : d ∈ es) : (s.extend es).find? d.name = some d := by
  rcases agrees.extend consistent among d (among d member) with free | known
  · rw [TyStore.find?_extend, Option.or_eq_none_iff] at free
    exact absurd (List.find?_eq_none.mp free.2 d member) (by simp)
  · exact known

end TyStore

namespace Ty

mutual

/-- The lengths of arrays and vectors in a type. -/
def lengths : Ty → List Nat
  | .int _ | .float _ | .unit => []
  | .ptr ty => lengths ty
  | .array elem len => lengths elem ++ [len]
  | .vector elem len => lengths elem ++ [len]
  | .struct _ fields _ => lengthsList fields
  | .func args ret => lengthsList args ++ lengths ret

def lengthsList : List Ty → List Nat
  | [] => []
  | ty :: tys => lengths ty ++ lengthsList tys

end

/-- Lengths are words. -/
def Fits (lens : List Nat) : Prop :=
  ∀ n ∈ lens, n < Word.count

instance (lens : List Nat) : Decidable (Fits lens) :=
  inferInstanceAs (Decidable (∀ n ∈ lens, n < Word.count))

/-- What a step of reading gives, and the store that it leaves. -/
def Reads {α : Type} (x : Reading α) (s : TyStore) (a : α) (t : TyStore) : Prop :=
  x.run.run s = (.ok a, t)

variable {α β : Type} {s t u : TyStore} {text : String}

theorem reads_pure (a : α) (s : TyStore) : Reads (pure a) s a s := rfl

theorem reads_bind {x : Reading α} {f : α → Reading β} {a : α} {b : β} (first : Reads x s a t)
    (next : Reads (f a) t b u) : Reads (x >>= f) s b u := by
  unfold Reads at *
  rw [ExceptT.run_bind, StateT.run_bind, first]
  exact next

theorem reads_length {len : Nat} (fits : len < Word.count) : Reads (readLength text (Nat.toDigits 10 len)) s len s := by
  rw [readLength, Nat.ofDigitChars_ten_toDigits, if_pos fits]
  exact reads_pure len s

theorem reads_declare {d : StructDef} (agrees : s.find? d.name = none ∨ s.find? d.name = some d) :
    Reads (declare d) s d.ty (s.extend [d]) := by
  have result : s.declare d = .ok (s.extend [d], d.ty) := by
    rcases agrees with free | known
    · simp [TyStore.declare, TyStore.extend, free]
    · simp [TyStore.declare, TyStore.extend, known]
  have got : Reads (get : Reading TyStore) s s s := rfl
  refine reads_bind got ?_
  rw [result]
  exact reads_bind (rfl : Reads (set (s.extend [d]) : Reading PUnit) s ⟨⟩ (s.extend [d])) (reads_pure _ _)

theorem reads_new {d : StructDef} (free : s.find? d.name = none) : Reads (declare d) s d.ty (s.add d) := by
  have declared := reads_declare (.inl free)
  rwa [TyStore.extend, List.foldl_cons, List.foldl_nil, if_neg (by simp [free])] at declared

theorem reads_known {d : StructDef} (known : s.find? d.name = some d) : Reads (declare d) s d.ty s := by
  have declared := reads_declare (.inr known)
  rwa [TyStore.extend_eq_self (List.forall_mem_singleton.mpr known)] at declared

theorem reads_lookUp {name : String} {d : StructDef} (found : s.find? name = some d) : Reads (lookUp name) s d.ty s := by
  refine reads_bind (rfl : Reads (get : Reading TyStore) s s s) ?_
  rw [found]
  exact reads_pure _ s

/-- A step of reading that ends with an error, and the store that it leaves. -/
def Stops {α : Type} (x : Reading α) (s : TyStore) (error : ReadError) (t : TyStore) : Prop :=
  x.run.run s = (.error error, t)

variable {error : ReadError}

theorem stops_throw (error : ReadError) (s : TyStore) : Stops (throw error : Reading α) s error s := rfl

theorem stops_first {x : Reading α} (next : α → Reading β) (stops : Stops x s error t) : Stops (x >>= next) s error t := by
  unfold Stops at *
  rw [ExceptT.run_bind, StateT.run_bind, stops]
  rfl

theorem stops_next {x : Reading α} {next : α → Reading β} {a : α} (first : Reads x s a t)
    (stops : Stops (next a) t error u) : Stops (x >>= next) s error u := by
  unfold Stops Reads at *
  rw [ExceptT.run_bind, StateT.run_bind, first]
  exact stops

theorem stops_lookUp {name : String} (free : s.find? name = none) : Stops (lookUp name) s (.unknownStruct name) s := by
  refine stops_next (rfl : Reads (get : Reading TyStore) s s s) ?_
  rw [free]
  exact stops_throw _ s

theorem stops_declare {d known : StructDef} (found : s.find? d.name = some known) (other : known ≠ d) :
    Stops (declare d) s (.conflictingStruct d.name) s := by
  refine stops_next (rfl : Reads (get : Reading TyStore) s s s) ?_
  rw [TyStore.declare, found]
  simp only [if_neg other]
  exact stops_throw _ s

variable {ds : List StructDef}

open TyStore

mutual

/-- The expression of a type stands for it wherever its structs can be declared, and declares those that are
not. -/
theorem reads_resolve (ty : Ty) (consistent : Consistent ds) (among : ∀ d ∈ ty.structs, d ∈ ds)
    (fits : Fits ty.lengths) {s : TyStore} (agrees : s.Agrees ds) :
    Reads (ty.expr.resolve text) s ty (s.extend ty.structs) := by
  cases ty with
  | int w => exact reads_pure _ s
  | float w => exact reads_pure _ s
  | unit => exact reads_pure _ s
  | ptr ty =>
    rw [expr, Expr.resolve]
    exact reads_bind (reads_resolve ty consistent among fits agrees) (reads_pure _ _)
  | array elem len =>
    obtain ⟨inner, self⟩ := List.forall_mem_append.mp fits
    rw [expr, Expr.resolve]
    exact reads_bind (reads_resolve elem consistent among inner agrees)
      (reads_bind (reads_length (self len (List.mem_singleton_self len))) (reads_pure _ _))
  | vector elem len =>
    obtain ⟨inner, self⟩ := List.forall_mem_append.mp fits
    rw [expr, Expr.resolve]
    exact reads_bind (reads_resolve elem consistent among inner agrees)
      (reads_bind (reads_length (self len (List.mem_singleton_self len))) (reads_pure _ _))
  | struct name fields packed =>
    obtain ⟨inner, self⟩ := List.forall_mem_append.mp among
    rw [expr, Expr.resolve, structs, extend_append, String.ofList_toList]
    refine reads_bind (reads_resolveList fields consistent inner fits agrees) (reads_declare ?_)
    exact agrees.extend consistent inner _ (self _ (List.mem_singleton_self _))
  | func args ret =>
    obtain ⟨inner, last⟩ := List.forall_mem_append.mp among
    obtain ⟨short, words⟩ := List.forall_mem_append.mp fits
    rw [expr, Expr.resolve, structs, extend_append]
    exact reads_bind (reads_resolveList args consistent inner short agrees)
      (reads_bind (reads_resolve ret consistent last words (agrees.extend consistent inner)) (reads_pure _ _))

theorem reads_resolveList (tys : List Ty) (consistent : Consistent ds) (among : ∀ d ∈ structsList tys, d ∈ ds)
    (fits : Fits (lengthsList tys)) {s : TyStore} (agrees : s.Agrees ds) :
    Reads (Expr.resolveList text (exprList tys)) s tys (s.extend (structsList tys)) := by
  cases tys with
  | nil => exact reads_pure _ s
  | cons ty tys =>
    obtain ⟨first, others⟩ := List.forall_mem_append.mp among
    obtain ⟨short, words⟩ := List.forall_mem_append.mp fits
    rw [exprList, Expr.resolveList, structsList, extend_append]
    exact reads_bind (reads_resolve ty consistent first short agrees)
      (reads_bind (reads_resolveList tys consistent others words (agrees.extend consistent first)) (reads_pure _ _))

end

end Ty

theorem StructDef.ty_injective {d e : StructDef} (same : d.ty = e.ty) : d = e := by
  cases d
  cases e
  simpa [StructDef.ty] using same

namespace TyStore

/-- A type of a store: its structs are declared, and its lengths are words. -/
structure Holds (s : TyStore) (ty : Ty) : Prop where
  structs : ∀ d ∈ ty.structs, s.find? d.name = some d
  lengths : Ty.Fits ty.lengths

end TyStore

namespace Ty

open TyStore

variable {S T : TyStore} {ty : Ty}

mutual

/-- The structs in a struct of a type are structs of the type. -/
theorem mem_structs_trans (ty : Ty) {d : StructDef} (member : d ∈ ty.structs) : ∀ e ∈ d.ty.structs, e ∈ ty.structs := by
  cases ty with
  | int w => cases member
  | float w => cases member
  | unit => cases member
  | ptr ty => exact mem_structs_trans ty member
  | array elem len => exact mem_structs_trans elem member
  | vector elem len => exact mem_structs_trans elem member
  | struct name fields packed =>
    rcases List.mem_append.mp member with inner | self
    · exact fun e inside => List.mem_append_left _ (mem_structsList_trans fields inner e inside)
    · rw [List.mem_singleton.mp self]
      exact fun e inside => inside
  | func args ret =>
    rcases List.mem_append.mp member with first | last
    · exact fun e inside => List.mem_append_left _ (mem_structsList_trans args first e inside)
    · exact fun e inside => List.mem_append_right _ (mem_structs_trans ret last e inside)

theorem mem_structsList_trans (tys : List Ty) {d : StructDef} (member : d ∈ structsList tys) :
    ∀ e ∈ d.ty.structs, e ∈ structsList tys := by
  cases tys with
  | nil => cases member
  | cons ty tys =>
    rcases List.mem_append.mp member with first | others
    · exact fun e inside => List.mem_append_left _ (mem_structs_trans ty first e inside)
    · exact fun e inside => List.mem_append_right _ (mem_structsList_trans tys others e inside)

end

theorem read_eq (named : Named ty.structs) (consistent : Consistent ty.structs) (fits : Fits ty.lengths)
    (agrees : T.Agrees ty.structs) : Ty.read ty.spelled T = (.ok ty, T.extend ty.structs) := by
  have parsed : Expr.ofChars? ty.spelled.toList = some ty.expr := by
    rw [spelled, String.toList_ofList, ofChars?_write named]
  rw [Ty.read, ofText, parsed]
  exact reads_resolve ty consistent (fun _ member => member) fits agrees

/-- A type of one store is read from its spelling into another, if there each of its structs has a free name, or one
that stands for a struct with the same spelled body, made of structs with words for names. The store is extended by
what is missing, so into its own store the type is read without a change. -/
theorem read_spelled (words : Named S.structs) (holds : S.Holds ty)
    (known : ∀ d ∈ ty.structs, T.find? d.name = none ∨
      ∃ e, T.find? d.name = some e ∧ e.ty.spelled = d.ty.spelled ∧ Named e.ty.structs) :
    (∃ ty' T', Ty.read ty.spelled T = (.ok ty', T') ∧ T'.Holds ty' ∧ ty'.spelled = ty.spelled ∧
      ∀ name d, T.find? name = some d → T'.find? name = some d) ∧
    Ty.read ty.spelled S = (.ok ty, S) := by
  have named : Named ty.structs := fun d member => words d (List.mem_of_find?_eq_some (holds.structs d member))
  have consistent : Consistent ty.structs := by
    intro d first e second same
    have one := holds.structs d first
    rw [same, holds.structs e second] at one
    exact (Option.some.inj one).symm
  have agrees : T.Agrees ty.structs := by
    intro d member
    refine (known d member).imp id fun ⟨e, found, same, wordy⟩ => ?_
    have inner : Named d.ty.structs := fun c inside => named c (mem_structs_trans ty member c inside)
    obtain rfl : e = d := StructDef.ty_injective (spelled_injective wordy inner same)
    exact found
  refine ⟨⟨ty, _, read_eq named consistent holds.lengths agrees, ⟨fun d member => ?_, holds.lengths⟩, rfl,
    fun name d found => ?_⟩, ?_⟩
  · exact agrees.find?_extend consistent (fun _ inside => inside) member
  · rw [find?_extend, found]
    rfl
  · have own := read_eq named consistent holds.lengths fun d member => .inr (holds.structs d member)
    rwa [extend_eq_self holds.structs] at own

/-- A pointer to a function of structs, one packed, of which one is known where it is read. -/
def nestedStructs : Ty :=
  let inner := Ty.struct "inner" [.i16] true
  .ptr (.func [.i64, .struct "outer" [.array inner 3, .vector .f32 4, inner] false] .unit)

theorem nestedStructs_read : (∃ ty' T', Ty.read nestedStructs.spelled ⟨[⟨"inner", [.i16], true⟩]⟩ = (.ok ty', T') ∧
      T'.Holds ty' ∧ ty'.spelled = nestedStructs.spelled ∧
      ∀ name d, TyStore.find? ⟨[⟨"inner", [.i16], true⟩]⟩ name = some d → T'.find? name = some d) ∧
    Ty.read nestedStructs.spelled (TyStore.empty.extend nestedStructs.structs) =
      (.ok nestedStructs, TyStore.empty.extend nestedStructs.structs) := by
  refine read_spelled (S := TyStore.empty.extend nestedStructs.structs) ?_ ⟨?_, ?_⟩ ?_
  all_goals decide

/-- Two stores that have a struct of one spelling: in the first it has two fields, in the second one. -/
theorem read_twoFields :
    let b : StructDef := ⟨"b", [], false⟩
    let c : StructDef := ⟨"c", [], false⟩
    let pair : StructDef := ⟨"pair", [b.ty, c.ty], false⟩
    let one : StructDef := ⟨"b\x7b\x7d, @c", [], false⟩
    let other : StructDef := ⟨"pair", [one.ty], false⟩
    Named [b, c, pair] ∧ TyStore.Holds ⟨[b, c, pair]⟩ pair.ty ∧
      (∀ d ∈ pair.ty.structs, TyStore.find? ⟨[one, other]⟩ d.name = none ∨
        ∃ e, TyStore.find? ⟨[one, other]⟩ d.name = some e ∧ e.ty.spelled = d.ty.spelled) ∧
      (Ty.read pair.ty.spelled ⟨[one, other]⟩).1 = .error (.conflictingStruct "pair") := by
  refine ⟨by decide, ⟨by decide, by decide⟩, ?_, by cbv⟩
  intro d member
  simp only [StructDef.ty, structs, structsList, List.nil_append, List.append_nil, List.cons_append,
    List.mem_cons, List.not_mem_nil, or_false] at member
  rcases member with rfl | rfl | rfl
  · exact .inl (by decide)
  · exact .inl (by decide)
  · exact .inr ⟨_, rfl, by decide⟩

end Ty

end VarRecovery
