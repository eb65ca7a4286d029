import VarRecovery.Code.Func

/-!
The order of code, kept in links. A block has links to the blocks before and behind it and to its first
and last instruction, an instruction has links to its block and to its neighbours there. Nothing is moved
when code is written or taken out: links are redirected.
-/

set_option autoImplicit false

namespace VarRecovery

/-- A value for each number: what is written, and the default for all others. -/
structure Slots (α : Type) where
  written : Array α

namespace Slots

variable {α : Type} [Inhabited α]

def get (s : Slots α) (n : Nat) : α :=
  s.written.getD n default

def set (s : Slots α) (n : Nat) (a : α) : Slots α :=
  ⟨(s.written.rightpad (n + 1) default).setIfInBounds n a⟩

end Slots

structure BlockNode where
  before : Option BlockId
  behind : Option BlockId
  first : Option InstId
  last : Option InstId
  listed : Bool
deriving DecidableEq, Repr

instance : Inhabited BlockNode :=
  ⟨⟨none, none, none, none, false⟩⟩

structure InstNode where
  /-- None for an instruction that is detached. -/
  block : Option BlockId
  before : Option InstId
  behind : Option InstId
deriving DecidableEq, Repr

instance : Inhabited InstNode :=
  ⟨⟨none, none, none⟩⟩

structure Links where
  blocks : Slots BlockNode
  insts : Slots InstNode
  firstBlock? : Option BlockId
  lastBlock? : Option BlockId

namespace Links

def empty : Links := ⟨⟨#[]⟩, ⟨#[]⟩, none, none⟩

def block (l : Links) (b : BlockId) : BlockNode :=
  l.blocks.get b.index

def inst (l : Links) (i : InstId) : InstNode :=
  l.insts.get i.index

def setBlock (l : Links) (b : BlockId) (node : BlockNode) : Links :=
  { l with blocks := l.blocks.set b.index node }

def setInst (l : Links) (i : InstId) (node : InstNode) : Links :=
  { l with insts := l.insts.set i.index node }

/-! ### Questions -/

def containsBlock (l : Links) (b : BlockId) : Bool :=
  (l.block b).listed

def blockOf? (l : Links) (i : InstId) : Option BlockId :=
  (l.inst i).block

def contains (l : Links) (i : InstId) : Bool :=
  (l.blockOf? i).isSome

def lastOf? (l : Links) (b : BlockId) : Option InstId :=
  (l.block b).last

/-- What links lead to from a start, one behind the other, if it is no more than `n`. -/
def follow {α : Type} (behind : α → Option α) : Nat → Option α → Option (List α)
  | _, none => some []
  | 0, some _ => none
  | n + 1, some a => do return a :: (← follow behind n (behind a))

-- Only the last in a chain can be without a node of its own. Links that lead further lead in a circle.
def blockIds? (l : Links) : Option (List BlockId) :=
  follow (fun b => (l.block b).behind) (l.blocks.written.size + 1) l.firstBlock?

def insts? (l : Links) (b : BlockId) : Option (List InstId) :=
  follow (fun i => (l.inst i).behind) (l.insts.written.size + 1) (l.block b).first

def firstNonPhi? (l : Links) (b : BlockId) (isPhi : InstId → Bool) : Option InstId := do
  (← l.insts? b).find? (!isPhi ·)

/-! ### Changes -/

/-- Redirects the link behind an instruction, or without one that to the first of a block. -/
def linkBehind (l : Links) (b : BlockId) (before i : Option InstId) : Links :=
  match before with
  | some j => l.setInst j { l.inst j with behind := i }
  | none => l.setBlock b { l.block b with first := i }

/-- Redirects the link before an instruction, or without one that to the last of a block. -/
def linkBefore (l : Links) (b : BlockId) (behind i : Option InstId) : Links :=
  match behind with
  | some j => l.setInst j { l.inst j with before := i }
  | none => l.setBlock b { l.block b with last := i }

/-- Links the neighbours of a place to the ends of what stands there now. -/
def bridge (l : Links) (b : BlockId) (before behind first last : Option InstId) : Links :=
  (l.linkBehind b before first).linkBefore b behind last

/-- Redirects the link behind a block, or without one that to the entry. -/
def linkBlock (l : Links) (before : Option BlockId) (b : BlockId) : Links :=
  match before with
  | some last => l.setBlock last { l.block last with behind := some b }
  | none => { l with firstBlock? := some b }

/-- Puts a block behind all others. It must not be listed yet. -/
def appendBlock (l : Links) (b : BlockId) : Option Links :=
  if l.containsBlock b then none
  else
    let l' := l.setBlock b { (default : BlockNode) with before := l.lastBlock?, listed := true }
    some { l'.linkBlock l.lastBlock? b with lastBlock? := some b }

/-- Puts an instruction between two neighbours. It must be detached, and the block listed. -/
def link (l : Links) (i : InstId) (b : BlockId) (before behind : Option InstId) : Option Links :=
  if l.containsBlock b && !l.contains i then
    some ((l.bridge b before behind (some i) (some i)).setInst i ⟨some b, before, behind⟩)
  else none

def insert (l : Links) (i : InstId) : Place → Option Links
  | .top b => l.link i b none (l.block b).first
  | .bottom b => l.link i b (l.block b).last none
  -- An anchor that is detached has no block.
  | .before anchor => do l.link i (← l.blockOf? anchor) (l.inst anchor).before (some anchor)
  | .after anchor => do l.link i (← l.blockOf? anchor) (some anchor) (l.inst anchor).behind

/-- Takes an instruction out, which must be listed. -/
def remove (l : Links) (i : InstId) : Option Links := do
  let b ← l.blockOf? i
  let ⟨_, before, behind⟩ := l.inst i
  return (l.setInst i default).bridge b before behind behind before

end Links

end VarRecovery
