/-
FalconDraw.Chain.ChainView — a branch of the block tree as an array
(blockchain/chainview.go), and what a peer is sent for a locator
(`locateInventory` of blockchain/chain.go).

`nodes` is the slice of the view and `spare` the rest of its backing array, which
keeps what was there before.
-/
import FalconDraw.Chain.BlockIndex

namespace FalconDraw.Chain

open Wire

def approxNodesPerWeek : Nat := 6 * 24 * 7

/-- A `chainView`. -/
structure ChainView where
  nodes : List (Option Nat)
  spare : List (Option Nat)
deriving DecidableEq, Repr

namespace ChainView

def empty : ChainView := ⟨[], []⟩

/-- The slice gets the length `needed`; what it did not hold before is nil. -/
def resize (c : ChainView) (needed : Nat) : ChainView :=
  if c.nodes.length + c.spare.length < needed then
    { nodes := c.nodes ++ List.replicate (needed - c.nodes.length) none
      spare := List.replicate approxNodesPerWeek none }
  else
    { nodes := c.nodes.take needed ++ List.replicate (needed - c.nodes.length) none
      spare := c.nodes.drop needed ++ c.spare.drop (needed - c.nodes.length) }

/-- The loop of `setTip`. -/
def fill (t : NodeTable) : Nat → Option Nat → List (Option Nat) → Option (List (Option Nat))
  | _, none, nodes => some nodes
  | 0, some _, _ => none
  | fuel + 1, some p, nodes =>
      match nodes[t.height p]? with
      | none => none
      | some slot =>
          if slot = some p then some nodes
          else fill t fuel (t.parent p) (nodes.set (t.height p) (some p))

def setTip (t : NodeTable) (c : ChainView) : Option Nat → Option ChainView
  | none => some ⟨[], c.nodes ++ c.spare⟩
  | some p =>
      let resized := c.resize (t.height p + 1)
      (fill t (t.height p + 1) (some p) resized.nodes).map fun nodes => { resized with nodes }

def genesis (c : ChainView) : Option Nat := c.nodes.head?.join

def tip (c : ChainView) : Option Nat := c.nodes.getLast?.join

def height (c : ChainView) : Int := c.nodes.length - 1

def nodeByHeight (c : ChainView) (height : Int) : Option Nat :=
  if height < 0 ∨ (c.nodes.length : Int) ≤ height then none else c.nodes[height.toNat]?.join

def contains (t : NodeTable) (c : ChainView) (p : Nat) : Bool :=
  c.nodeByHeight (t.height p) = some p

def next (t : NodeTable) (c : ChainView) : Option Nat → Option Nat
  | none => none
  | some p => if contains t c p then c.nodeByHeight (t.height p + 1) else none

/-- The loop of `findFork`. -/
def forkFrom (t : NodeTable) (c : ChainView) : Nat → Option Nat → Option (Option Nat)
  | _, none => some none
  | 0, some _ => none
  | fuel + 1, some p =>
      if contains t c p then some (some p) else forkFrom t c fuel (t.parent p)

def findFork (t : NodeTable) (c : ChainView) : Option Nat → Option (Option Nat)
  | none => some none
  | some p =>
      forkFrom t c (t.height p + 1)
        (if c.height < t.height p then t.ancestor p c.height else some p)

/-! ## Locators -/

/-- The ancestor of a node for the next entry of a locator, looked up in the view if it
contains the node. -/
def ancestorFor (t : NodeTable) (c : ChainView) (p height : Nat) : Option (Option Nat) :=
  if contains t c p then c.nodes[height]? else some (t.ancestor p height)

/-- The loop of `blockLocator`, with `count` entries made before. -/
def locatorFrom (t : NodeTable) (c : ChainView) :
    Nat → Nat → Nat → Option Nat → Option (List Hash)
  | _, _, _, none => some []
  | 0, _, _, some _ => none
  | fuel + 1, step, count, some p =>
      if t.height p = 0 then some [t.hash p]
      else do
        let node ← ancestorFor t c p (t.height p - step)
        let step := if count + 1 > 10 then step * 2 else step
        let rest ← locatorFrom t c fuel step (count + 1) node
        return t.hash p :: rest

def blockLocator (t : NodeTable) (c : ChainView) (node : Option Nat) : Option (List Hash) :=
  match node <|> c.tip with
  | none => some []
  | some p => locatorFrom t c (t.height p + 1) 1 0 (some p)

def locateInventory (t : NodeTable) (c : ChainView) (locator : List Hash) (hashStop : Hash)
    (maxEntries : Nat) : Option Nat × Nat :=
  let stopNode := t.lookupNode hashStop
  if locator = [] then
    match stopNode with
    | none => (none, 0)
    | some stop => (some stop, 1)
  else
    -- the most recent block of the locator in the main chain
    let known := locator.findSome? fun hash => (t.lookupNode hash).filter (contains t c)
    match c.next t (known <|> c.genesis) with
    | none => (none, 0)
    | some start =>
        let total : Int :=
          match stopNode.filter fun stop => contains t c stop ∧ t.height start ≤ t.height stop with
          | some stop => t.height stop - t.height start + 1
          | none => (c.tip.map t.height).getD 0 - t.height start + 1
        (some start, min total.toNat maxEntries)

end ChainView

end FalconDraw.Chain
