import VarRecovery.Proofs.Ty.Grammar

/-!
What the texts of the grammar stand for in a store. The first thing that is wrong, from left to right and inside out, is
the one that is told; what was declared up to it stays declared.
-/

set_option autoImplicit false

namespace VarRecovery.Ty

/-- What can be wrong with a text of the grammar. -/
inductive Failure where
  | length
  | unknownStruct (name : String)
  | conflictingStruct (name : String)

def Failure.error (text : String) : Failure → ReadError
  | .length => .malformed text
  | .unknownStruct name => .unknownStruct name
  | .conflictingStruct name => .conflictingStruct name

mutual

/-- An expression that stands for a type in a store, and the store with the structs that it declares. -/
inductive Makes : TyStore → Expr → Ty → TyStore → Prop
  | scalar {s : TyStore} (ty : Ty) : Makes s (.scalar ty) ty s
  | ptr {s t : TyStore} {e : Expr} {ty : Ty} (pointee : Makes s e ty t) : Makes s (.ptr e) (.ptr ty) t
  | array {s t : TyStore} {e : Expr} {ty : Ty} {len : List Char} (elem : Makes s e ty t)
    (fits : Nat.ofDigitChars 10 len 0 < Word.count) : Makes s (.array e len) (.array ty (Nat.ofDigitChars 10 len 0)) t
  | vector {s t : TyStore} {e : Expr} {ty : Ty} {len : List Char} (elem : Makes s e ty t)
    (fits : Nat.ofDigitChars 10 len 0 < Word.count) : Makes s (.vector e len) (.vector ty (Nat.ofDigitChars 10 len 0)) t
  | func {s t u : TyStore} {es : List Expr} {e : Expr} {tys : List Ty} {ty : Ty} (args : MakesList s es tys t)
    (ret : Makes t e ty u) : Makes s (.func es e) (.func tys ty) u
  | reference {s : TyStore} {name : List Char} {d : StructDef} (found : s.find? (String.ofList name) = some d) :
    Makes s (.reference name) d.ty s
  | known {s t : TyStore} {name : List Char} {es : List Expr} {packed : Bool} {tys : List Ty} (fields : MakesList s es tys t)
    (found : t.find? (String.ofList name) = some ⟨String.ofList name, tys, packed⟩) :
    Makes s (.struct name es packed) (.struct (String.ofList name) tys packed) t
  | new {s t : TyStore} {name : List Char} {es : List Expr} {packed : Bool} {tys : List Ty} (fields : MakesList s es tys t)
    (free : t.find? (String.ofList name) = none) :
    Makes s (.struct name es packed) (.struct (String.ofList name) tys packed) (t.add ⟨String.ofList name, tys, packed⟩)

inductive MakesList : TyStore → List Expr → List Ty → TyStore → Prop
  | nil {s : TyStore} : MakesList s [] [] s
  | cons {s t u : TyStore} {e : Expr} {es : List Expr} {ty : Ty} {tys : List Ty} (first : Makes s e ty t)
    (others : MakesList t es tys u) : MakesList s (e :: es) (ty :: tys) u

end

mutual

/-- An expression that something is wrong with, and the store with the structs that were declared before it. -/
inductive Fails : TyStore → Expr → Failure → TyStore → Prop
  | ptr {s t : TyStore} {e : Expr} {f : Failure} (pointee : Fails s e f t) : Fails s (.ptr e) f t
  | array {s t : TyStore} {e : Expr} {len : List Char} {f : Failure} (elem : Fails s e f t) : Fails s (.array e len) f t
  | vector {s t : TyStore} {e : Expr} {len : List Char} {f : Failure} (elem : Fails s e f t) : Fails s (.vector e len) f t
  | arrayLength {s t : TyStore} {e : Expr} {ty : Ty} {len : List Char} (elem : Makes s e ty t)
    (long : Word.count ≤ Nat.ofDigitChars 10 len 0) : Fails s (.array e len) .length t
  | vectorLength {s t : TyStore} {e : Expr} {ty : Ty} {len : List Char} (elem : Makes s e ty t)
    (long : Word.count ≤ Nat.ofDigitChars 10 len 0) : Fails s (.vector e len) .length t
  | args {s t : TyStore} {es : List Expr} {e : Expr} {f : Failure} (args : FailsList s es f t) : Fails s (.func es e) f t
  | ret {s t u : TyStore} {es : List Expr} {e : Expr} {tys : List Ty} {f : Failure} (args : MakesList s es tys t)
    (ret : Fails t e f u) : Fails s (.func es e) f u
  | unknown {s : TyStore} {name : List Char} (free : s.find? (String.ofList name) = none) :
    Fails s (.reference name) (.unknownStruct (String.ofList name)) s
  | fields {s t : TyStore} {name : List Char} {es : List Expr} {packed : Bool} {f : Failure} (fields : FailsList s es f t) :
    Fails s (.struct name es packed) f t
  | conflict {s t : TyStore} {name : List Char} {es : List Expr} {packed : Bool} {tys : List Ty} {d : StructDef}
    (fields : MakesList s es tys t) (found : t.find? (String.ofList name) = some d)
    (other : d ≠ ⟨String.ofList name, tys, packed⟩) :
    Fails s (.struct name es packed) (.conflictingStruct (String.ofList name)) t

inductive FailsList : TyStore → List Expr → Failure → TyStore → Prop
  | first {s t : TyStore} {e : Expr} {es : List Expr} {f : Failure} (first : Fails s e f t) : FailsList s (e :: es) f t
  | later {s t u : TyStore} {e : Expr} {es : List Expr} {ty : Ty} {f : Failure} (first : Makes s e ty t)
    (others : FailsList t es f u) : FailsList s (e :: es) f u

end

variable {s t : TyStore} {e : Expr} {es : List Expr} {ty : Ty} {f : Failure} {text : String}

/-! ### Every expression stands for a type or fails -/

mutual

theorem makes_or_fails (s : TyStore) (e : Expr) : (∃ ty t, Makes s e ty t) ∨ ∃ f t, Fails s e f t := by
  cases e with
  | scalar ty => exact .inl ⟨ty, s, .scalar ty⟩
  | ptr e =>
    obtain ⟨ty, t, made⟩ | ⟨f, t, failed⟩ := makes_or_fails s e
    · exact .inl ⟨_, _, .ptr made⟩
    · exact .inr ⟨_, _, .ptr failed⟩
  | array e len =>
    obtain ⟨ty, t, made⟩ | ⟨f, t, failed⟩ := makes_or_fails s e
    · rcases Nat.lt_or_ge (Nat.ofDigitChars 10 len 0) Word.count with fits | long
      · exact .inl ⟨_, _, .array made fits⟩
      · exact .inr ⟨_, _, .arrayLength made long⟩
    · exact .inr ⟨_, _, .array failed⟩
  | vector e len =>
    obtain ⟨ty, t, made⟩ | ⟨f, t, failed⟩ := makes_or_fails s e
    · rcases Nat.lt_or_ge (Nat.ofDigitChars 10 len 0) Word.count with fits | long
      · exact .inl ⟨_, _, .vector made fits⟩
      · exact .inr ⟨_, _, .vectorLength made long⟩
    · exact .inr ⟨_, _, .vector failed⟩
  | func es e =>
    obtain ⟨tys, t, made⟩ | ⟨f, t, failed⟩ := makesList_or_fails s es
    · obtain ⟨ty, u, last⟩ | ⟨f, u, failed⟩ := makes_or_fails t e
      · exact .inl ⟨_, _, .func made last⟩
      · exact .inr ⟨_, _, .ret made failed⟩
    · exact .inr ⟨_, _, .args failed⟩
  | reference name =>
    cases found : s.find? (String.ofList name) with
    | some d => exact .inl ⟨_, _, .reference found⟩
    | none => exact .inr ⟨_, _, .unknown found⟩
  | struct name es packed =>
    obtain ⟨tys, t, made⟩ | ⟨f, t, failed⟩ := makesList_or_fails s es
    · cases found : t.find? (String.ofList name) with
      | none => exact .inl ⟨_, _, .new made found⟩
      | some d =>
        by_cases same : d = ⟨String.ofList name, tys, packed⟩
        · exact .inl ⟨_, _, .known made (same ▸ found)⟩
        · exact .inr ⟨_, _, .conflict made found same⟩
    · exact .inr ⟨_, _, .fields failed⟩

theorem makesList_or_fails (s : TyStore) (es : List Expr) :
    (∃ tys t, MakesList s es tys t) ∨ ∃ f t, FailsList s es f t := by
  cases es with
  | nil => exact .inl ⟨_, _, .nil⟩
  | cons e es =>
    obtain ⟨ty, t, made⟩ | ⟨f, t, failed⟩ := makes_or_fails s e
    · obtain ⟨tys, u, others⟩ | ⟨f, u, failed⟩ := makesList_or_fails t es
      · exact .inl ⟨_, _, .cons made others⟩
      · exact .inr ⟨_, _, .later made failed⟩
    · exact .inr ⟨_, _, .first failed⟩

end

/-! ### That is what is read -/

theorem reads_digits {len : List Char} (fits : Nat.ofDigitChars 10 len 0 < Word.count) (s : TyStore) :
    Reads (readLength text len) s (Nat.ofDigitChars 10 len 0) s := by
  rw [readLength, if_pos fits]
  exact reads_pure _ s

theorem stops_digits {len : List Char} (long : Word.count ≤ Nat.ofDigitChars 10 len 0) (s : TyStore) :
    Stops (readLength text len) s (.malformed text) s := by
  rw [readLength, if_neg (Nat.not_lt.mpr long)]
  exact stops_throw _ s

mutual

theorem Makes.reads {s t : TyStore} {e : Expr} {ty : Ty} (makes : Makes s e ty t) (text : String) :
    Reads (e.resolve text) s ty t := by
  cases makes with
  | scalar ty => exact reads_pure ty s
  | ptr pointee => exact reads_bind (pointee.reads text) (reads_pure _ _)
  | array elem fits => exact reads_bind (elem.reads text) (reads_bind (reads_digits fits _) (reads_pure _ _))
  | vector elem fits => exact reads_bind (elem.reads text) (reads_bind (reads_digits fits _) (reads_pure _ _))
  | func args ret => exact reads_bind (args.reads text) (reads_bind (ret.reads text) (reads_pure _ _))
  | reference found => exact reads_lookUp found
  | known fields found => exact reads_bind (fields.reads text) (reads_known found)
  | new fields free => exact reads_bind (fields.reads text) (reads_new free)

theorem MakesList.reads {s t : TyStore} {es : List Expr} {tys : List Ty} (makes : MakesList s es tys t) (text : String) :
    Reads (Expr.resolveList text es) s tys t := by
  cases makes with
  | nil => exact reads_pure [] s
  | cons first others => exact reads_bind (first.reads text) (reads_bind (others.reads text) (reads_pure _ _))

end

mutual

theorem Fails.stops (text : String) {s t : TyStore} {e : Expr} {f : Failure} :
    Fails s e f t → Stops (e.resolve text) s (f.error text) t
  | .ptr pointee => stops_first _ (pointee.stops text)
  | .array elem => stops_first _ (elem.stops text)
  | .vector elem => stops_first _ (elem.stops text)
  | .arrayLength elem long => stops_next (elem.reads text) (stops_first _ (stops_digits long _))
  | .vectorLength elem long => stops_next (elem.reads text) (stops_first _ (stops_digits long _))
  | .args args => stops_first _ (args.stops text)
  | .ret args ret => stops_next (args.reads text) (stops_first _ (ret.stops text))
  | .unknown free => stops_lookUp free
  | .fields fields => stops_first _ (fields.stops text)
  | .conflict fields found other => stops_next (fields.reads text) (stops_declare found other)

theorem FailsList.stops (text : String) {s t : TyStore} {es : List Expr} {f : Failure} :
    FailsList s es f t → Stops (Expr.resolveList text es) s (f.error text) t
  | .first first => stops_first _ (first.stops text)
  | .later first others => stops_next (first.reads text) (stops_first _ (others.stops text))

end

/-- What is read of an expression, in whatever text it was found. -/
theorem read_iff (parsed : Expr.ofChars? text.toList = some e) :
    (∀ ty t, Ty.read text s = (.ok ty, t) ↔ Makes s e ty t) ∧
      ∀ error t, Ty.read text s = (.error error, t) ↔ ∃ f, error = f.error text ∧ Fails s e f t := by
  have run : Ty.read text s = (e.resolve text).run.run s := by
    rw [Ty.read, ofText, parsed]
  rw [run]
  refine ⟨fun ty t => ⟨fun read => ?_, fun made => made.reads text⟩, fun error t => ⟨fun stops => ?_, ?_⟩⟩
  -- What the expression stands for is read, so nothing else can have been.
  · obtain ⟨ty', t', made⟩ | ⟨f, t', failed⟩ := makes_or_fails s e
    · cases read.symm.trans (made.reads text)
      exact made
    · cases read.symm.trans (failed.stops text)
  · obtain ⟨ty, t', made⟩ | ⟨f, t', failed⟩ := makes_or_fails s e
    · cases stops.symm.trans (made.reads text)
    · cases stops.symm.trans (failed.stops text)
      exact ⟨f, rfl, failed⟩
  · rintro ⟨f, rfl, failed⟩
    exact failed.stops text

theorem Failure.error_ne (f : Failure) (text : String) : f.error text ≠ .ungrammatical := by
  cases f <;> simp [error]

/-- A text is ungrammatical exactly if it is not derived, and then nothing is declared. A derived text has one derivation,
and none of the blanks between its tokens is needed. What is read of its tokens, with any blanks, is what its expression
stands for or the first thing that is wrong with it. -/
theorem read_grammar (text : String) (s : TyStore) :
    ((Ty.read text s).1 = .error .ungrammatical ↔ ¬∃ e ts, Derives e ts ∧ Spells ts text.toList) ∧
    ((¬∃ e ts, Derives e ts ∧ Spells ts text.toList) → (Ty.read text s).2 = s) ∧
    ∀ e ts, Derives e ts → Spells ts text.toList →
      (∀ f us, Derives f us → Spells us text.toList → f = e ∧ us = ts) ∧
      Spells ts (ts.flatMap Token.text) ∧
      ∀ other : String, Spells ts other.toList →
        (∀ ty t, Ty.read other s = (.ok ty, t) ↔ Makes s e ty t) ∧
        ∀ error t, Ty.read other s = (.error error, t) ↔ ∃ f, error = f.error other ∧ Fails s e f t := by
  have underived (none : ¬∃ e ts, Derives e ts ∧ Spells ts text.toList) :
      Ty.read text s = (.error .ungrammatical, s) := by
    have unread : Expr.ofChars? text.toList = .none := by
      refine Option.eq_none_iff_forall_ne_some.mpr fun e parsed => none ?_
      exact ⟨e, ofChars?_iff.mp parsed⟩
    rw [Ty.read, ofText, unread]
    rfl
  refine ⟨⟨?_, fun none => by rw [underived none]⟩, fun none => by rw [underived none], fun e ts derives spells => ?_⟩
  · rintro failed ⟨e, ts, derives, spells⟩
    obtain ⟨-, stops⟩ := read_iff (s := s) (ofChars?_iff.mpr ⟨ts, derives, spells⟩)
    obtain ⟨f, same, -⟩ := (stops .ungrammatical _).mp (Prod.ext failed rfl)
    exact f.error_ne text same.symm
  · exact ⟨fun f us => derivation_unique derives spells, spells.tight derives.alone,
      fun other spells' => read_iff (ofChars?_iff.mpr ⟨ts, derives, spells'⟩)⟩

/-- A pointer to a struct with and without blanks, read where the struct is new and where its name is taken. -/
theorem spacedPair_read :
    let e : Expr := .ptr (.struct "pair".toList [.scalar .i32, .scalar .i8] false)
    let ts : List Token := [.star, .opening "pair".toList false, .word "i32".toList, .comma, .word "i8".toList, .closing false]
    let pair : StructDef := ⟨"pair", [.i32, .i8], false⟩
    let taken : StructDef := ⟨"pair", [.i8], true⟩
    let tight := "*@pair\x7bi32,i8\x7d"
    let spaced := "\t* @pair\x7b i32\n, i8 \x7d"
    Derives e ts ∧ Spells ts tight.toList ∧ Spells ts spaced.toList ∧
      (∀ text ∈ [tight, spaced], Ty.read text .empty = (.ok (.ptr pair.ty), ⟨[pair]⟩)) ∧
      ∀ text ∈ [tight, spaced], Ty.read text ⟨[taken]⟩ = (.error (.conflictingStruct "pair"), ⟨[taken]⟩) := by
  intro e ts pair taken tight spaced
  have derives : Derives e ts := .ptr (.struct _ _ (.more (.scalar (by decide)) (.last (.scalar (by decide)))))
  have first : Spells ts tight.toList := spells_of_scan (by cbv)
  have second : Spells ts spaced.toList := spells_of_scan (by cbv)
  have fields (s : TyStore) : MakesList s [.scalar .i32, .scalar .i8] [.i32, .i8] s :=
    .cons (.scalar _) (.cons (.scalar _) .nil)
  have made : Makes .empty e (.ptr pair.ty) ⟨[pair]⟩ := .ptr (.new (fields _) rfl)
  have failed : Fails ⟨[taken]⟩ e (.conflictingStruct "pair") ⟨[taken]⟩ :=
    .ptr (.conflict (fields _) (d := taken) rfl (by decide))
  have spells : ∀ text ∈ [tight, spaced], Spells ts text.toList := by simp [first, second]
  refine ⟨derives, first, second, fun text member => ?_, fun text member => ?_⟩
  · obtain ⟨-, -, same⟩ := (read_grammar tight .empty).2.2 e ts derives first
    exact ((same text (spells text member)).1 _ _).mpr made
  · obtain ⟨-, -, same⟩ := (read_grammar tight ⟨[taken]⟩).2.2 e ts derives first
    exact ((same text (spells text member)).2 _ _).mpr ⟨_, rfl, failed⟩

end VarRecovery.Ty
