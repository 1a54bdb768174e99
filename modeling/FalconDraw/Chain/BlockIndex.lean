/-
FalconDraw.Chain.BlockIndex — block nodes as the node keeps them in memory
(blockchain/blockindex.go).

Nodes point to their parent and to one ancestor further back, whose height is
their own without its two lowest bits.
-/
import FalconDraw.Lib.Ancestry
import FalconDraw.Lib.LowestBit
import FalconDraw.Chain.BlockNode

namespace FalconDraw.Chain

open Lib Wire

/-- A `blockNode`. -/
structure IndexNode where
  info     : HeaderInfo
  height   : Nat
  parent   : Option Nat
  ancestor : Option Nat
deriving DecidableEq, Repr

def invertLowestOne (n : Nat) : Nat := n &&& (n - 1)

def getAncestorHeight (height : Nat) : Nat := invertLowestOne (invertLowestOne height)

/-- All nodes made so far. -/
abbrev NodeTable := List IndexNode

namespace NodeTable

def parent (t : NodeTable) (p : Nat) : Option Nat := t[p]?.bind IndexNode.parent

def height (t : NodeTable) (p : Nat) : Nat := (t[p]?.map IndexNode.height).getD 0

def hash (t : NodeTable) (p : Nat) : Hash := (t[p]?.map fun n => n.info.hash).getD 0

def lookupNode (t : NodeTable) (hash : Hash) : Option Nat :=
  t.findIdx? fun n => n.info.hash = hash

/-- Where a round of the loop of `Ancestor` goes from a node. -/
def back (height : Nat) (n : IndexNode) : Option Nat :=
  if n.ancestor.isSome ∧ height ≤ getAncestorHeight n.height then n.ancestor else n.parent

/-- The loop of `Ancestor`: where it ends and after how many rounds. -/
def walk (t : NodeTable) (height : Nat) : Nat → Option Nat → Option (Option Nat × Nat)
  | _, none => some (none, 0)
  | 0, some p => if t.height p = height then some (some p, 0) else none
  | fuel + 1, some p =>
      if t.height p = height then some (some p, 0)
      else (t.walk height fuel (t[p]?.bind (back height))).map fun r => (r.1, r.2 + 1)

def ancestor (t : NodeTable) (p : Nat) (height : Int) : Option Nat :=
  if height < 0 ∨ (t.height p : Int) < height then none
  else (t.walk height.toNat (t.height p) (some p)).bind Prod.fst

/-- `newBlockNode`, with `initBlockNode` and `buildAncestor`. -/
def newBlockNode (t : NodeTable) (info : HeaderInfo) : Option Nat → IndexNode
  | none => ⟨info, 0, none, none⟩
  | some parent =>
      let height := t.height parent + 1
      ⟨info, height, some parent, t.ancestor parent (getAncestorHeight height)⟩

/-- `AddNode` of a new node. -/
def addNode (t : NodeTable) (info : HeaderInfo) (parent : Option Nat) : NodeTable :=
  t ++ [t.newBlockNode info parent]

/-- The tables that are made from a genesis block. -/
inductive Grown : NodeTable → Prop
  | genesis (info : HeaderInfo) : Grown (addNode [] info none)
  | add {t : NodeTable} (ht : Grown t) (info : HeaderInfo) {parent : Nat}
      (hp : parent < t.length) : Grown (t.addNode info (some parent))

end NodeTable

end FalconDraw.Chain
