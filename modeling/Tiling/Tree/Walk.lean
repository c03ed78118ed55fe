import Tiling.Tree.Basic
/-!
# Walking the tree

Traversals that follow links. On a forest every chain of child or parent links visits a node at
most once, so the number of slots bounds its length, and the number of visits of a parent-first
walk is below `2 ^ (slots + 1)`; these bounds are the fuel. A second, recursive account of a
subtree stands beside them.
-/

namespace Tiling.Tree

/-- Follows first children for at most `fuel` steps. -/
def leftmostFrom (t : Tree) : Nat → NodeId → Option NodeId
  | 0, _ => none
  | fuel + 1, n =>
    match t.get? n with
    | none => none
    | some node =>
      match node.firstChild with
      | none => some n
      | some child => leftmostFrom t fuel child

/-- The leftmost leaf under a node. -/
def leftmost (t : Tree) (n : Option NodeId) : Option NodeId :=
  n.bind (t.leftmostFrom (t.size + 1))

def isSecondChild (t : Tree) (n : NodeId) : Bool :=
  ((t.parent? n).bind t.get?).any (·.secondChild == some n)

/-- Climbs from second children, not past `root`. -/
def climb (t : Tree) (root : NodeId) : Nat → NodeId → Option NodeId
  | 0, _ => none
  | fuel + 1, n =>
    if t.isSecondChild n && n != root then
      match t.parent? n with
      | none => none
      | some parent => climb t root fuel parent
    else some n

/-- The leaf after `n` from left to right within the tree of `root`. -/
def nextLeaf (t : Tree) (n root : NodeId) : Option NodeId :=
  match t.climb root (t.size + 1) n with
  | none => none
  | some top =>
    if top == root then none
    else ((t.parent? top).bind t.get?).bind fun parent => t.leftmost parent.secondChild

/-- At most `fuel` leaves from `n` on. -/
def leavesFrom (t : Tree) (root : NodeId) : Nat → Option NodeId → List NodeId
  | 0, _ => []
  | _, none => []
  | fuel + 1, some n => n :: leavesFrom t root fuel (t.nextLeaf n root)

/-- The leaves of a tree from left to right. -/
def leaves (t : Tree) (root : Option NodeId) : List NodeId :=
  match root with
  | none => []
  | some r => t.leavesFrom r (t.size + 1) (t.leftmost (some r))

/-- Number of visits that a parent-first walk of a forest cannot reach. -/
def visitBound (t : Tree) : Nat := Nat.pow 2 (t.size + 1)

/-- Visits the pending nodes, each before its children. -/
def preorderFrom (t : Tree) : Nat → List NodeId → List NodeId
  | 0, _ => []
  | _, [] => []
  | fuel + 1, n :: pending =>
    match t.get? n with
    | none => preorderFrom t fuel pending
    | some node =>
      n :: preorderFrom t fuel (node.firstChild.toList ++ node.secondChild.toList ++ pending)

/-- Every node of a tree, parents before children and first children before second ones. -/
def preorder (t : Tree) (root : Option NodeId) : List NodeId :=
  t.preorderFrom t.visitBound root.toList

/-- Climbs to the node without a parent. -/
def rootFrom (t : Tree) : Nat → NodeId → Option NodeId
  | 0, _ => none
  | fuel + 1, n =>
    match t.get? n with
    | none => none
    | some node =>
      match node.parent with
      | none => some n
      | some parent => rootFrom t fuel parent

def rootOf (t : Tree) (n : NodeId) : Option NodeId := t.rootFrom (t.size + 1) n

/-- A binary tree of node indexes. -/
inductive Shape where
  | leaf (n : NodeId)
  | fork (n : NodeId) (first second : Shape)
  deriving DecidableEq, Repr

namespace Shape

def top : Shape → NodeId
  | leaf n => n
  | fork n _ _ => n

def leaves : Shape → List NodeId
  | leaf n => [n]
  | fork _ a b => a.leaves ++ b.leaves

/-- Nodes, parents first. -/
def preorder : Shape → List NodeId
  | leaf n => [n]
  | fork n a b => n :: (a.preorder ++ b.preorder)

end Shape

/-- The part of the tree under a node has a shape: child links lead down it and parent links
back. -/
inductive HasShape (t : Tree) : Option NodeId → Shape → Prop where
  | leaf {parent : Option NodeId} {n : NodeId} {node : Node} :
      t.get? n = some node → node.parent = parent → node.firstChild = none →
      node.secondChild = none → HasShape t parent (.leaf n)
  | fork {parent : Option NodeId} {n : NodeId} {node : Node} {a b : Shape} :
      t.get? n = some node → node.parent = parent → node.firstChild = some a.top →
      node.secondChild = some b.top → HasShape t (some n) a → HasShape t (some n) b →
      HasShape t parent (.fork n a b)

end Tiling.Tree
