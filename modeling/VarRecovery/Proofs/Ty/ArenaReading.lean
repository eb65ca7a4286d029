import VarRecovery.Proofs.FreshName
import VarRecovery.Proofs.Ty.Arena

/-!
Reading into an arena does what reading into its structs does: it fails where that fails, gives the handle of the type
that it gives, and never declares a struct again.
-/

set_option autoImplicit false

namespace VarRecovery

open Ty (ReadError)

namespace Ty.Expr

mutual

/-- The types that are written in an expression are scalar types. -/
def Basic : Expr → Prop
  | .scalar ty => (Handle.ofScalar? ty).isSome
  | .ptr e | .array e _ | .vector e _ => e.Basic
  | .func args ret => BasicAll args ∧ ret.Basic
  | .reference _ => True
  | .struct _ fields _ => BasicAll fields

def BasicAll : List Expr → Prop
  | [] => True
  | e :: es => e.Basic ∧ BasicAll es

end

theorem isSome_ofScalar? {word : List Char} {ty : Ty} (known : scalar? word = some ty) :
    (Handle.ofScalar? ty).isSome := by
  unfold scalar? at known
  split at known <;> cases known <;> rfl

theorem basic_parse : (∀ ts, ∀ e rest, parse ts = some (e, rest) → e.Basic) ∧
    (∀ close ts, ∀ es rest, parseList close ts = some (es, rest) → BasicAll es) ∧
    (∀ close ts, ∀ es rest, parseItems close ts = some (es, rest) → BasicAll es) := by
  apply parse.mutual_induct (fun ts => ∀ e rest, parse ts = some (e, rest) → e.Basic)
    (fun close ts => ∀ es rest, parseList close ts = some (es, rest) → BasicAll es)
    (fun close ts => ∀ es rest, parseItems close ts = some (es, rest) → BasicAll es)
  all_goals
    intros
    rename_i run
    first | rw [parse] at run | rw [parseList] at run | rw [parseItems] at run
  case case20 =>
    rename_i differs again es rest
    rw [if_neg differs] at run
    exact again es rest run
  all_goals try simp_all [BasicAll]
  -- What is left are the ways in which the parser gives an expression.
  case case1 =>
    rename_i known e rest
    exact run.1 ▸ isSome_ofScalar? known
  all_goals
    rename_i run
    obtain ⟨rfl, -⟩ := run
    simp_all [Basic, BasicAll]

theorem basic_ofChars? {text : List Char} {e : Expr} (found : ofChars? text = some e) : e.Basic := by
  simp only [ofChars?, bind, Option.bind_eq_some_iff] at found
  obtain ⟨tokens, -, ⟨read, rest⟩, parsed, same⟩ := found
  split at same
  · cases same
    exact basic_parse.1 tokens _ _ parsed
  · cases same

end Ty.Expr

namespace ArenaReading

variable {ε α β γ δ : Type} {a b : Arena}

theorem run_bind_ok {x : ArenaReading ε α} {f : α → ArenaReading ε γ} {v : α}
    (ran : x.run.run.run a = (.ok (.ok v), b)) : (x >>= f).run.run.run a = (f v).run.run.run b := by
  rw [ExceptT.run_bind, ExceptT.run_bind, StateT.run_bind, ran]
  rfl

theorem run_bind_error {x : ArenaReading ε α} {f : α → ArenaReading ε γ} {e : ε}
    (ran : x.run.run.run a = (.ok (.error e), b)) : (x >>= f).run.run.run a = (.ok (.error e), b) := by
  rw [ExceptT.run_bind, ExceptT.run_bind, StateT.run_bind, ran]
  rfl

theorem run_lift {x : Interning α} {v : α} (ran : x.run.run a = (.ok v, b)) :
    (liftM x : ArenaReading ε α).run.run.run a = (.ok (.ok v), b) := by
  have lifted : (liftM x : ArenaReading ε α).run = .ok <$> x := rfl
  rw [lifted, ExceptT.run_map, StateT.run_map, ran]
  rfl

/-- A step on an arena gives or fails as the step on its structs does. It leaves the types as they are, and never ends
because of a clash. -/
def Follows (a : Arena) (rel : Arena → α → β → Prop) (x : ArenaReading ε α) (y : ExceptT ε (StateM TyStore) β) : Prop :=
  ∃ b : Arena, b.Valid ∧ a.Extends b ∧
    ((∃ v w, x.run.run.run a = (.ok (.ok v), b) ∧ y.run.run a.store = (.ok w, b.store) ∧ rel b v w) ∨
      ∃ e, x.run.run.run a = (.ok (.error e), b) ∧ y.run.run a.store = (.error e, b.store))

/-- A handle of a type. -/
def IsHandle (b : Arena) (h : Handle) (ty : Ty) : Prop :=
  h.IsIn b ∧ b.ty h = ty

def AreHandles (b : Arena) (hs : List Handle) (tys : List Ty) : Prop :=
  (∀ h ∈ hs, h.IsIn b) ∧ hs.map b.ty = tys

variable {rel : Arena → α → β → Prop} {next : Arena → γ → δ → Prop} {h : Handle} {hs : List Handle} {ty : Ty}
  {tys : List Ty} {c : Compound} {name text : String}

theorem IsHandle.grow (handle : IsHandle a h ty) (grown : a.Extends b) (valid : a.Valid) (after : b.Valid) :
    IsHandle b h ty :=
  ⟨grown.isIn handle.1, (grown.ty_eq valid after handle.1).trans handle.2⟩

theorem AreHandles.grow (handles : AreHandles a hs tys) (grown : a.Extends b) (valid : a.Valid) (after : b.Valid) :
    AreHandles b hs tys :=
  ⟨fun h member => grown.isIn (handles.1 h member),
    (List.map_congr_left fun h member => grown.ty_eq valid after (handles.1 h member)).trans handles.2⟩

theorem follows_pure {v : α} {w : β} (valid : a.Valid) (related : rel a v w) :
    Follows (ε := ε) a rel (pure v) (pure w) :=
  ⟨a, valid, .refl a, .inl ⟨v, w, rfl, rfl, related⟩⟩

theorem follows_throw (valid : a.Valid) (e : ε) :
    Follows a rel (throw e : ArenaReading ε α) (throw e : ExceptT ε (StateM TyStore) β) :=
  ⟨a, valid, .refl a, .inr ⟨e, rfl, rfl⟩⟩

theorem Follows.bind {x : ArenaReading ε α} {y : ExceptT ε (StateM TyStore) β} {f : α → ArenaReading ε γ}
    {g : β → ExceptT ε (StateM TyStore) δ} (first : Follows a rel x y)
    (rest : ∀ b v w, a.Extends b → b.Valid → rel b v w → Follows b next (f v) (g w)) :
    Follows a next (x >>= f) (y >>= g) := by
  obtain ⟨b, valid, grown, ⟨v, w, ran, other, related⟩ | ⟨e, ran, other⟩⟩ := first
  · obtain ⟨c, later, grows, ends⟩ := rest b v w grown valid related
    have runY : (y >>= g).run.run a.store = (g w).run.run b.store := by
      rw [ExceptT.run_bind, StateT.run_bind, other]
      rfl
    rw [Follows, run_bind_ok ran, runY]
    exact ⟨c, later, grown.trans grows, ends⟩
  · have runY : (y >>= g).run.run a.store = (.error e, b.store) := by
      rw [ExceptT.run_bind, StateT.run_bind, other]
      rfl
    exact ⟨b, valid, grown, .inr ⟨e, run_bind_error ran, runY⟩⟩

/-- Making a compound other than a struct changes no struct. -/
theorem follows_make (valid : a.Valid) (within : ∀ part ∈ c.parts, part.IsIn a) (unnamed : c.name? = none) :
    Follows (ε := ε) a IsHandle (liftM (Interning.make c)) (pure (c.ty a.ty)) := by
  have free : a.FreeFor c := fun name named => by rw [unnamed] at named; cases named
  cases known : a.places.lookup c with
  | some place =>
    have found := (valid.placed c place).mp known
    exact ⟨a, valid, .refl a, .inl ⟨_, _, run_lift (Interning.make_known known), rfl, Arena.isIn_of_found found,
      valid.ty_compound found⟩⟩
  | none =>
    have after := valid.add within known free
    have grown := Arena.extends_add a c
    refine ⟨a.add c, after, grown, .inl ⟨_, c.ty a.ty, run_lift (Interning.make_absent known free), ?_,
      Arena.isIn_of_found (Arena.found_add a c), ?_⟩⟩
    · rw [valid.store_add after unnamed]
      rfl
    · rw [after.ty_compound (Arena.found_add a c)]
      exact Compound.ty_congr fun part member => grown.ty_eq valid after (within part member)

/-- Making a struct under a free name declares it. -/
theorem follows_declare {fields : List Handle} {packed : Bool} (valid : a.Valid) (within : ∀ field ∈ fields, field.IsIn a)
    (free : a.structs.lookup name = none) :
    Follows (ε := ε) a IsHandle (liftM (Interning.make (.struct name fields packed)))
      (do set (a.store.add ⟨name, fields.map a.ty, packed⟩)
          return .struct name (fields.map a.ty) packed) := by
  have freeFor : a.FreeFor (.struct name fields packed) := fun other named => by cases named; exact free
  have absent : a.places.lookup (.struct name fields packed) = none := by
    rw [Option.eq_none_iff_forall_ne_some]
    intro place known
    have named := (valid.named name place).mpr ⟨fields, packed, (valid.placed _ place).mp known⟩
    rw [free] at named
    cases named
  have after := valid.add (d := .struct name fields packed) within absent freeFor
  have grown := Arena.extends_add a (.struct name fields packed)
  refine ⟨_, after, grown, .inl ⟨_, .struct name (fields.map a.ty) packed, run_lift (Interning.make_absent absent freeFor), ?_,
    Arena.isIn_of_found (Arena.found_add a _), ?_⟩⟩
  · rw [valid.store_add_struct within after]
    rfl
  · rw [after.ty_compound (Arena.found_add a _)]
    exact Compound.ty_congr (c := .struct name fields packed) fun part member =>
      grown.ty_eq valid after (within part member)

/-- Both see their state. -/
theorem follows_get {f : Arena → ArenaReading ε α} {g : TyStore → ExceptT ε (StateM TyStore) β}
    (rest : Follows a rel (f a) (g a.store)) : Follows a rel (get >>= f) (get >>= g) :=
  rest

theorem follows_lookUp (valid : a.Valid) (name : String) : Follows a IsHandle (lookUp name) (Ty.lookUp name) := by
  refine follows_get ?_
  rw [valid.find?_store]
  cases looked : a.structs.lookup name with
  | none => exact follows_throw valid _
  | some place =>
    obtain ⟨fields, packed, found⟩ := (valid.named name place).mp looked
    simp only [Option.bind_some, Arena.structAt?_some found]
    exact follows_pure valid ⟨Arena.isIn_of_found found, valid.ty_compound found⟩

theorem follows_declareStruct {fields : List Handle} {packed : Bool} (valid : a.Valid) (handles : AreHandles a fields tys) :
    Follows a IsHandle (declareStruct name fields packed) (Ty.declare ⟨name, tys, packed⟩) := by
  obtain ⟨within, rfl⟩ := handles
  refine follows_get ?_
  rw [TyStore.declare, valid.find?_store]
  cases looked : a.structs.lookup name with
  | none => exact follows_declare valid within looked
  | some place =>
    obtain ⟨known, flag, found⟩ := (valid.named name place).mp looked
    -- Fields are compared by their handles, which are equal exactly if the types are.
    have same := valid.eq_iff_map_ty (valid.isIn_fields found) within
    simp only [Option.bind_some, Arena.structAt?_some found, found, Option.some.injEq, Compound.struct.injEq, true_and,
      StructDef.mk.injEq]
    by_cases equal : known = fields ∧ flag = packed
    · rw [if_pos equal, if_pos ⟨same.mp equal.1, equal.2⟩]
      exact ⟨a, valid, .refl a, .inl ⟨_, _, rfl, rfl, Arena.isIn_of_found found, valid.ty_compound found⟩⟩
    · rw [if_neg equal, if_neg fun both => equal ⟨same.mpr both.1, both.2⟩]
      exact follows_throw valid _

theorem follows_readLength (valid : a.Valid) (text : String) (digits : List Char) :
    Follows a (fun _ => Eq) (readLength text digits) (Ty.readLength text digits) := by
  unfold readLength Ty.readLength
  split
  · exact follows_pure valid rfl
  · exact follows_throw valid _

mutual

/-- Reading an expression gives the handle of its type. -/
theorem follows_resolve (text : String) {a : Arena} (valid : a.Valid) : (e : Ty.Expr) → e.Basic →
    Follows a IsHandle (resolve text e) (e.resolve text)
  | .scalar ty, basic => by
    cases ty with
    | int | float | unit => exact follows_pure valid ⟨nofun, rfl⟩
    | _ => cases basic
  | .ptr pointee, basic => by
    rw [resolve, Ty.Expr.resolve]
    refine (follows_resolve text valid pointee basic).bind fun b h ty grown valid handle => ?_
    obtain ⟨within, rfl⟩ := handle
    exact follows_make valid (List.forall_mem_singleton.mpr within) rfl
  | .array elem len, basic => by
    rw [resolve, Ty.Expr.resolve]
    refine (follows_resolve text valid elem basic).bind fun b h ty grown valid handle => ?_
    refine (follows_readLength valid text len).bind fun c n _ grown' valid' same => ?_
    obtain ⟨within, rfl⟩ := handle.grow grown' valid valid'
    cases same
    exact follows_make valid' (List.forall_mem_singleton.mpr within) rfl
  | .vector elem len, basic => by
    rw [resolve, Ty.Expr.resolve]
    refine (follows_resolve text valid elem basic).bind fun b h ty grown valid handle => ?_
    refine (follows_readLength valid text len).bind fun c n _ grown' valid' same => ?_
    obtain ⟨within, rfl⟩ := handle.grow grown' valid valid'
    cases same
    exact follows_make valid' (List.forall_mem_singleton.mpr within) rfl
  | .func args ret, basic => by
    rw [resolve, Ty.Expr.resolve]
    refine (follows_resolveList text valid args basic.1).bind fun b hs tys grown valid handles => ?_
    refine (follows_resolve text valid ret basic.2).bind fun c h ty grown' valid' handle => ?_
    obtain ⟨among, rfl⟩ := handles.grow grown' valid valid'
    obtain ⟨within, rfl⟩ := handle
    exact follows_make valid' (List.forall_mem_append.mpr ⟨among, List.forall_mem_singleton.mpr within⟩) rfl
  | .reference name, _ => follows_lookUp valid _
  | .struct name fields packed, basic => by
    rw [resolve, Ty.Expr.resolve]
    exact (follows_resolveList text valid fields basic).bind fun b hs tys grown valid handles =>
      follows_declareStruct valid handles

theorem follows_resolveList (text : String) {a : Arena} (valid : a.Valid) : (es : List Ty.Expr) → Ty.Expr.BasicAll es →
    Follows a AreHandles (resolveList text es) (Ty.Expr.resolveList text es)
  | [], _ => follows_pure valid ⟨nofun, rfl⟩
  | e :: es, basic => by
    rw [resolveList, Ty.Expr.resolveList]
    refine (follows_resolve text valid e basic.1).bind fun b h ty grown valid handle => ?_
    refine (follows_resolveList text valid es basic.2).bind fun c hs tys grown' valid' handles => ?_
    have kept := handle.grow grown' valid valid'
    exact follows_pure valid' ⟨List.forall_mem_cons.mpr ⟨kept.1, handles.1⟩, congrArg₂ List.cons kept.2 handles.2⟩

end

theorem follows_ofText (valid : a.Valid) (text : String) : Follows a IsHandle (ofText text) (Ty.ofText text) := by
  unfold ofText Ty.ofText
  cases parsed : Ty.Expr.ofChars? text.toList with
  | none => exact follows_throw valid _
  | some e => exact follows_resolve text valid e (Ty.Expr.basic_ofChars? parsed)

end ArenaReading

end VarRecovery
