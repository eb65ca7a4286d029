import VarRecovery.Code.Graph

/-!
Where an address comes from. Going back from a use of a value, through casts, the bases of geps, sums with
a constant and phis, the constants that are reached are the addresses it can be computed from.
-/

set_option autoImplicit false

namespace VarRecovery

namespace CastOp

/-- Whether a cast keeps the bits of an address. -/
def keepsBits : CastOp → Bool
  | .bitcast | .intToPtr | .ptrToInt => true
  | _ => false

/-- Whether an address is followed through a cast. -/
def isTraced : CastOp → Bool
  | .sext | .zext => true
  | op => op.keepsBits

end CastOp

namespace Graph

abbrev Use := InstId × ValueId

def isImm (g : Graph) (v : ValueId) : Bool :=
  (g.imm? v).isSome

/-- The operands of an instruction that its result may be an address from. -/
def addressOperands (g : Graph) : Inst → List ValueId
  | .cast op arg _ => if op.isTraced then [arg] else []
  | .gep base _ => [base]
  | .binary .add lhs rhs | .binary .sub lhs rhs =>
    -- With two constants or none, neither operand is known to be the address.
    if g.isImm lhs != g.isImm rhs then [lhs] else []
  | .phi incoming _ => incoming.map Prod.fst
  | _ => []

/-- One step back from a use: the uses by the instruction that produces the value. -/
def sources (g : Graph) (use : Use) : List Use :=
  match g.definition? use.2 with
  | none => []
  | some i =>
    match g.inst? i with
    | none => []
    | some inst => (g.addressOperands inst).map (i, ·)

def uses (g : Graph) : List Use :=
  (List.range g.insts.size).flatMap fun n => (g.operands ⟨n⟩).map (⟨n⟩, ·)

def without (use : Use) (uses : List Use) : List Use :=
  uses.filter (· ≠ use)

theorem length_without {use : Use} {uses : List Use} (h : use ∈ uses) :
    (without use uses).length < uses.length :=
  List.length_filter_lt_length_iff_exists.2 ⟨use, h, by simp⟩

/-- Goes on with the first use of `work`. Each use is visited once: `unseen` are those still to come. -/
def traceFrom (g : Graph) (unseen work : List Use) : List Use :=
  match work with
  | [] => []
  | use :: rest =>
    if use ∈ unseen then
      -- The last source goes first, so the work is in reverse.
      let found := if g.isImm use.2 then [use] else []
      found ++ g.traceFrom (without use unseen) ((g.sources use).reverse ++ rest)
    else g.traceFrom unseen rest
termination_by (unseen.length, work.length)
decreasing_by
  · exact Prod.Lex.left _ _ (length_without (by assumption))
  · exact Prod.Lex.right _ (by simp)

/-- The constants that `v`, as `user` uses it, is computed from, each with the instruction that uses
it. -/
def traceConstants (g : Graph) (user : InstId) (v : ValueId) : List Use :=
  g.traceFrom ((user, v) :: g.uses) [(user, v)]

/-- The type that a value is first cast to, by a cast that makes a pointer or another pointer of it. -/
def pointerCastTy? (g : Graph) (v : ValueId) : Option Ty :=
  (g.users v).findSome? fun i =>
    match g.inst? i with
    | some (.cast .bitcast _ ty) | some (.cast .intToPtr _ ty) => some ty
    | _ => none

def castSource? (g : Graph) (v : ValueId) : Option ValueId :=
  match g.castOf? v with
  | some (op, arg) => if op.keepsBits then some arg else none
  | none => none

def castChain (g : Graph) : Nat → ValueId → List ValueId
  | 0, v => [v]
  | n + 1, v =>
    match g.castSource? v with
    | some source => v :: g.castChain n source
    | none => [v]

/-- A value and all those it is cast from. A chain meets no instruction twice. -/
def castOrigins (g : Graph) (v : ValueId) : List ValueId :=
  g.castChain g.insts.size v

def originTy (g : Graph) (v : ValueId) : Ty :=
  g.ty ((g.castOrigins v).getLast?.getD v)

/-- The first pointer type of a value before it was cast. -/
def originPtrTy? (g : Graph) (v : ValueId) : Option Ty :=
  ((g.castOrigins v).map g.ty).reverse.find? Ty.isPtr

end Graph

end VarRecovery
