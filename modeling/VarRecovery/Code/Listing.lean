import VarRecovery.Code.Id

/-!
The order of a function's code: its blocks, and in each block its instructions. A block is listed once,
and so is an instruction, in one block; an instruction that is not listed is detached.
-/

set_option autoImplicit false

namespace VarRecovery

structure Listing where
  blocks : List (BlockId × List InstId)
deriving DecidableEq, Repr

namespace Listing

def empty : Listing := ⟨[]⟩

def blockIds (l : Listing) : List BlockId :=
  l.blocks.map Prod.fst

/-- Where a function starts. -/
def entry? (l : Listing) : Option BlockId :=
  l.blockIds.head?

def insts (l : Listing) (block : BlockId) : List InstId :=
  ((l.blocks.find? (·.1 = block)).map Prod.snd).getD []

def allInsts (l : Listing) : List InstId :=
  l.blocks.flatMap Prod.snd

def last? (l : Listing) (block : BlockId) : Option InstId :=
  (l.insts block).getLast?

def blockOf? (l : Listing) (inst : InstId) : Option BlockId :=
  (l.blocks.find? (inst ∈ ·.2)).map Prod.fst

def contains (l : Listing) (inst : InstId) : Bool :=
  (l.blockOf? inst).isSome

def firstNonPhi? (l : Listing) (block : BlockId) (isPhi : InstId → Bool) : Option InstId :=
  (l.insts block).find? (!isPhi ·)

def appendBlock (l : Listing) (block : BlockId) : Listing :=
  ⟨l.blocks ++ [(block, [])]⟩

def updateBlock (l : Listing) (block : BlockId) (f : List InstId → List InstId) : Listing :=
  ⟨l.blocks.map fun (b, insts) => if b = block then (b, f insts) else (b, insts)⟩

def updateAll (l : Listing) (f : InstId → List InstId) : Listing :=
  ⟨l.blocks.map fun (b, insts) => (b, insts.flatMap f)⟩

def append (l : Listing) (inst : InstId) (block : BlockId) : Listing :=
  l.updateBlock block (· ++ [inst])

def prepend (l : Listing) (inst : InstId) (block : BlockId) : Listing :=
  l.updateBlock block (inst :: ·)

def insertBefore (l : Listing) (inst anchor : InstId) : Listing :=
  l.updateAll fun i => if i = anchor then [inst, i] else [i]

def insertAfter (l : Listing) (inst anchor : InstId) : Listing :=
  l.updateAll fun i => if i = anchor then [i, inst] else [i]

def remove (l : Listing) (inst : InstId) : Listing :=
  l.updateAll fun i => if i = inst then [] else [i]

end Listing

end VarRecovery
