import VarRecovery.Proofs.Ty.Reading
import VarRecovery.Proofs.Ty.Spelling

/-!
The grammar of type spellings. A text is read if it is one of the grammar, and what is read, or what is wrong, depends on
its tokens alone: not on the blanks between them.
-/

set_option autoImplicit false

namespace VarRecovery.Ty

def keywords : List (String × Ty) :=
  [("i1", .i1), ("i8", .i8), ("i16", .i16), ("i32", .i32), ("i64", .i64), ("i128", .i128), ("f32", .f32),
    ("f64", .f64), ("f80", .f80), ("unit", .unit)]

mutual

inductive Derives : Expr → List Token → Prop
  | scalar {word : List Char} {ty : Ty} (keyword : (String.ofList word, ty) ∈ keywords) : Derives (.scalar ty) [.word word]
  | ptr {e : Expr} {ts : List Token} (pointee : Derives e ts) : Derives (.ptr e) (.star :: ts)
  | array {e : Expr} {ts : List Token} {len : List Char} (elem : Derives e ts) (digits : len.all Char.isDigit = true) :
    Derives (.array e len) (.leftBracket :: (ts ++ [.semicolon, .word len, .rightBracket]))
  | vector {e : Expr} {ts : List Token} {len : List Char} (elem : Derives e ts) (digits : len.all Char.isDigit = true) :
    Derives (.vector e len) (.leftAngle :: (ts ++ [.semicolon, .word len, .rightAngle]))
  | func {es : List Expr} {e : Expr} {ts us : List Token} (args : DerivesList es ts) (ret : Derives e us) :
    Derives (.func es e) (.leftParen :: (ts ++ .rightParen :: .arrow :: us))
  | reference (name : List Char) : Derives (.reference name) [.reference name]
  | struct (name : List Char) (packed : Bool) {es : List Expr} {ts : List Token} (fields : DerivesList es ts) :
    Derives (.struct name es packed) (.opening name packed :: (ts ++ [.closing packed]))

/-- There are commas between types, and none behind the last. -/
inductive DerivesList : List Expr → List Token → Prop
  | nil : DerivesList [] []
  | last {e : Expr} {ts : List Token} (item : Derives e ts) : DerivesList [e] ts
  | more {e f : Expr} {es : List Expr} {ts us : List Token} (item : Derives e ts) (items : DerivesList (f :: es) us) :
    DerivesList (e :: f :: es) (ts ++ .comma :: us)

end

open Token VarRecovery.Ty.Expr

/-! ### What the parser reads is derived -/

theorem scalar?_eq_some_iff {word : List Char} {ty : Ty} :
    scalar? word = some ty ↔ (String.ofList word, ty) ∈ keywords := by
  unfold scalar? keywords
  generalize String.ofList word = text
  split
  case h_11 => simp_all
  all_goals simp [eq_comm]

theorem parseLength_some {close : Token} {ts rest : List Token} {len : List Char} {shorter : rest.length < ts.length}
    (found : parseLength close ts = some (len, ⟨rest, shorter⟩)) :
    ts = .semicolon :: .word len :: close :: rest ∧ len.all Char.isDigit = true := by
  unfold parseLength at found
  split at found
  next digits t rest' =>
    split at found
    next ok =>
      cases found
      simp only [Bool.and_eq_true, decide_eq_true_eq] at ok
      exact ⟨by rw [ok.2], ok.1⟩
    next => cases found
  next => cases found

mutual

theorem derives_of_parses {ts rest : List Token} {e : Expr} (parses : Parses ts e rest) :
    ∃ us, ts = us ++ rest ∧ Derives e us := by
  obtain ⟨shorter, found⟩ := parses
  cases ts with
  | nil => simp [parse] at found
  | cons t ts =>
    cases t with
    | word word =>
      rw [parse] at found
      split at found
      next ty known =>
        cases found
        exact ⟨[.word word], rfl, .scalar (scalar?_eq_some_iff.mp known)⟩
      next => cases found
    | reference name =>
      rw [parse] at found
      cases found
      exact ⟨[.reference name], rfl, .reference name⟩
    | star =>
      rw [parse] at found
      split at found
      next e _ h inner =>
        cases found
        obtain ⟨us, same, pointee⟩ := derives_of_parses ⟨h, inner⟩
        exact ⟨.star :: us, by rw [same]; rfl, .ptr pointee⟩
      next => cases found
    | leftBracket =>
      rw [parse] at found
      split at found
      next e mid h inner =>
        split at found
        next len _ h' length =>
          cases found
          obtain ⟨us, same, elem⟩ := derives_of_parses ⟨h, inner⟩
          obtain ⟨rfl, digits⟩ := parseLength_some length
          exact ⟨.leftBracket :: (us ++ [.semicolon, .word len, .rightBracket]), by simp [same], .array elem digits⟩
        next => cases found
      next => cases found
    | leftAngle =>
      rw [parse] at found
      split at found
      next e mid h inner =>
        split at found
        next len _ h' length =>
          cases found
          obtain ⟨us, same, elem⟩ := derives_of_parses ⟨h, inner⟩
          obtain ⟨rfl, digits⟩ := parseLength_some length
          exact ⟨.leftAngle :: (us ++ [.semicolon, .word len, .rightAngle]), by simp [same], .vector elem digits⟩
        next => cases found
      next => cases found
    | leftParen =>
      rw [parse] at found
      split at found
      next args mid h inner =>
        split at found
        next ret _ h' last =>
          cases found
          obtain ⟨us, same, args⟩ := derivesList_of_parses ⟨_, inner⟩
          obtain ⟨vs, rfl, ret⟩ := derives_of_parses ⟨h', last⟩
          exact ⟨.leftParen :: (us ++ .rightParen :: .arrow :: vs), by simp [same], .func args ret⟩
        next => cases found
      next => cases found
    | opening name packed =>
      rw [parse] at found
      split at found
      next fields _ h inner =>
        cases found
        obtain ⟨us, same, fields⟩ := derivesList_of_parses ⟨h, inner⟩
        exact ⟨.opening name packed :: (us ++ [.closing packed]), by simp [same], .struct name packed fields⟩
      next => cases found
    | _ => simp [parse] at found
termination_by (ts.length, 0)

-- The parser tells a list from its items without reading a token, so the order of the two decides.
theorem derivesList_of_parses {close : Token} {ts rest : List Token} {es : List Expr} (parses : ParsesList close ts es rest) :
    ∃ us, ts = us ++ close :: rest ∧ DerivesList es us := by
  obtain ⟨shorter, found⟩ := parses
  cases ts with
  | nil => simp [parseList] at found
  | cons t ts =>
    rw [parseList] at found
    split at found
    next same =>
      cases found
      exact ⟨[], by rw [same]; rfl, .nil⟩
    next =>
      obtain ⟨us, same, -, items⟩ := derivesItems_of_parses ⟨_, found⟩
      exact ⟨us, same, items⟩
termination_by (ts.length, 2)
decreasing_by
  subst_vars
  exact Prod.Lex.right _ (by decide)

theorem derivesItems_of_parses {close : Token} {ts rest : List Token} {es : List Expr}
    (parses : ParsesItems close ts es rest) : ∃ us, ts = us ++ close :: rest ∧ es ≠ [] ∧ DerivesList es us := by
  obtain ⟨shorter, found⟩ := parses
  rw [parseItems] at found
  split at found
  next item t mid h inner =>
    obtain ⟨us, same, item⟩ := derives_of_parses ⟨h, inner⟩
    split at found
    next closes =>
      cases found
      exact ⟨us, by rw [same, closes], by simp, .last item⟩
    next =>
      split at found
      next comma =>
        split at found
        next items _ h' others =>
          cases found
          obtain ⟨vs, rfl, some_, items⟩ := derivesItems_of_parses ⟨h', others⟩
          obtain ⟨f, es, rfl⟩ := List.exists_cons_of_ne_nil some_
          exact ⟨us ++ .comma :: vs, by simp [same, comma], by simp, .more item items⟩
        next => cases found
      next => cases found
  next => cases found
termination_by (ts.length, 1)

end

/-! ### What is derived is read -/

variable {e : Expr} {es : List Expr} {ts mid rest : List Token} {cs : List Char}

theorem parses_reference (name : List Char) : Parses (.reference name :: rest) (.reference name) rest := by
  rw [Parses, parse]
  exact ⟨_, rfl⟩

def Closes (close : Token) : Prop :=
  close = .rightParen ∨ ∃ packed, close = .closing packed

theorem Closes.comma {close : Token} (closes : Closes close) : Token.comma ≠ close := by
  rcases closes with rfl | ⟨packed, rfl⟩ <;> simp

theorem Derives.start (derives : Derives e ts) : ∃ t us, ts = t :: us ∧ ¬Closes t := by
  cases derives <;> exact ⟨_, _, rfl, by simp [Closes]⟩

theorem parsesList_of_items {close : Token} (closes : Closes close) (derives : Derives e ts)
    (items : ParsesItems close (ts ++ rest) es mid) : ParsesList close (ts ++ rest) es mid := by
  obtain ⟨t, us, rfl, other⟩ := derives.start
  exact parsesList_cons (fun same => other (same ▸ closes)) items

mutual

theorem Derives.parses {e : Expr} {ts : List Token} (derives : Derives e ts) (rest : List Token) :
    Parses (ts ++ rest) e rest := by
  cases derives with
  | scalar keyword => exact parses_scalar (scalar?_eq_some_iff.mpr keyword)
  | ptr pointee => exact parses_ptr (pointee.parses rest)
  | array elem digits => simpa using parses_array digits (elem.parses _)
  | vector elem digits => simpa using parses_vector digits (elem.parses _)
  | func args ret => simpa using parses_func (args.parses (.inl rfl) _).1 (ret.parses rest)
  | reference name => exact parses_reference name
  | struct name packed fields => simpa using parses_struct name (fields.parses (.inr ⟨packed, rfl⟩) rest).1

theorem DerivesList.parses {es : List Expr} {ts : List Token} {close : Token} (derives : DerivesList es ts)
    (closes : Closes close) (rest : List Token) :
    ParsesList close (ts ++ close :: rest) es rest ∧
      (es ≠ [] → ParsesItems close (ts ++ close :: rest) es rest) := by
  cases derives with
  | nil => exact ⟨parsesList_nil, fun some_ => absurd rfl some_⟩
  | last item =>
    have items := parsesItems_last (item.parses (close :: rest))
    exact ⟨parsesList_of_items closes item items, fun _ => items⟩
  | @more e f es ts us item others =>
    have items := parsesItems_comma closes.comma (item.parses (.comma :: (us ++ close :: rest)))
      ((others.parses closes rest).2 (List.cons_ne_nil f es))
    rw [List.append_assoc, List.cons_append]
    exact ⟨parsesList_of_items closes item items, fun _ => items⟩

end

/-! ### Texts of the grammar -/

/-- What may stand behind a type, with or without a blank before it. -/
def Quiet (ts : List Token) : Prop :=
  ∀ u ∈ ts.head?, ∀ t, ¬Joins t u

theorem quiet_cons {u : Token} (word : ∀ text, u ≠ .word text) (angle : u ≠ .rightAngle) : Quiet (u :: rest) := by
  intro v first t joins
  cases Option.some.inj first
  unfold Joins at joins
  split at joins
  · exact word _ rfl
  · exact word _ rfl
  · exact angle rfl
  · exact joins

theorem apart_cons (t : Token) (calm : ∀ u, ¬Joins t u) (behind : Apart rest) : Apart (t :: rest) :=
  List.isChain_cons.mpr ⟨fun u _ => calm u, behind⟩

theorem apart_length (len : List Char) {close : Token} (bracket : close = .rightBracket ∨ close = .rightAngle)
    (behind : Apart rest) : Apart (.semicolon :: .word len :: close :: rest) := by
  refine apart_cons _ (fun _ => id) (List.isChain_cons_cons.mpr ?_)
  rcases bracket with rfl | rfl <;> exact ⟨id, apart_cons _ (fun _ => id) behind⟩

mutual

theorem Derives.apart {e : Expr} {ts rest : List Token} (derives : Derives e ts) (behind : Apart rest)
    (quiet : Quiet rest) : Apart (ts ++ rest) := by
  cases derives with
  | scalar keyword => exact List.isChain_cons.mpr ⟨fun u first => quiet u first _, behind⟩
  | ptr pointee => exact apart_cons _ (fun _ => id) (pointee.apart behind quiet)
  | @array e ts len elem digits =>
    have elem := elem.apart (apart_length len (.inl rfl) behind) (quiet_cons nofun nofun)
    simpa using apart_cons .leftBracket (fun _ => id) elem
  | @vector e ts len elem digits =>
    have elem := elem.apart (apart_length len (.inr rfl) behind) (quiet_cons nofun nofun)
    simpa using apart_cons .leftAngle (fun _ => id) elem
  | func args ret =>
    have arrow := apart_cons .arrow (fun _ => id) (ret.apart behind quiet)
    have args := args.apart (apart_cons .rightParen (fun _ => id) arrow) (quiet_cons nofun nofun)
    simpa using apart_cons .leftParen (fun _ => id) args
  | reference name => exact List.isChain_cons.mpr ⟨fun u first => quiet u first _, behind⟩
  | struct name packed fields =>
    have close : Apart (.closing packed :: rest) := List.isChain_cons.mpr ⟨fun u first => quiet u first _, behind⟩
    have fields := fields.apart close (quiet_cons nofun nofun)
    simpa using apart_cons (.opening name packed) (fun _ => id) fields

theorem DerivesList.apart {es : List Expr} {ts rest : List Token} (derives : DerivesList es ts) (behind : Apart rest)
    (quiet : Quiet rest) : Apart (ts ++ rest) := by
  cases derives with
  | nil => exact behind
  | last item => exact item.apart behind quiet
  | more item items =>
    have items := apart_cons .comma (fun _ => id) (items.apart behind quiet)
    simpa using item.apart items (quiet_cons nofun nofun)

end

theorem Derives.alone (derives : Derives e ts) : Apart ts := by
  simpa using derives.apart (.nil : Apart []) nofun

theorem scan_of_derives (derives : Derives e ts) (spells : Spells ts cs) : scan cs = some ts :=
  scan_of_spells spells derives.alone

/-- A text is read as an expression exactly if it spells tokens that are derived from that. -/
theorem ofChars?_iff : Expr.ofChars? cs = some e ↔ ∃ ts, Derives e ts ∧ Spells ts cs := by
  constructor
  · intro read
    simp only [ofChars?, Option.bind_eq_bind, Option.bind_eq_some_iff] at read
    obtain ⟨ts, scanned, ⟨e', rest, shorter⟩, parsed, whole⟩ := read
    split at whole
    next all =>
      cases whole
      subst all
      obtain ⟨us, rfl, derives⟩ := derives_of_parses ⟨shorter, parsed⟩
      rw [List.append_nil] at scanned
      exact ⟨us, derives, spells_of_scan scanned⟩
    next => cases whole
  · rintro ⟨ts, derives, spells⟩
    have parses := derives.parses []
    rw [List.append_nil] at parses
    obtain ⟨shorter, parsed⟩ := parses
    simp only [ofChars?, scan_of_derives derives spells, Option.bind_eq_bind, Option.bind_some, parsed, if_true]

/-- No text has two derivations. -/
theorem derivation_unique {f : Expr} {us : List Token} (first : Derives e ts) (spells : Spells ts cs)
    (second : Derives f us) (spells' : Spells us cs) : f = e ∧ us = ts := by
  have read := ofChars?_iff.mpr ⟨ts, first, spells⟩
  have scanned := scan_of_derives first spells
  rw [ofChars?_iff.mpr ⟨us, second, spells'⟩] at read
  rw [scan_of_derives second spells'] at scanned
  exact ⟨Option.some.inj read, Option.some.inj scanned⟩

end VarRecovery.Ty
