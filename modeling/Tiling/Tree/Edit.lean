import Tiling.Tree.Walk
/-!
# Inserting and removing leaves

A new leaf splits the leaf it is inserted at: a fresh inner node takes that leaf's place and has
both as children. Removing a leaf is the inverse: its sibling takes the place of their parent.
The root of the edited tree is handed in and out, because it lives with the desktop.
-/

namespace Tiling.Tree

/-- Puts `new` where `old` was: below `parent`, or at the root without one. -/
def replaceChild (t : Tree) (root : Option NodeId) (parent : Option NodeId) (old new : NodeId) :
    Tree × Option NodeId :=
  match parent.bind fun p => (t.get? p).map fun node => (p, node) with
  | some (p, node) =>
    if node.firstChild == some old then
      (t.modify p fun node => { node with firstChild := some new }, root)
    else
      (t.modify p fun node => { node with secondChild := some new }, root)
  | none => (t, some new)

/-- The leaf that an insertion at `at?` splits: that node when it is a leaf, else the first
leaf. -/
def insertionTarget (t : Tree) (root : Option NodeId) (at? : Option NodeId) : Option NodeId :=
  (at?.filter fun n => (t.get? n).any Node.isLeaf).or (t.leftmost root)

/-- Inserts a leaf for a client, before the target when `newFirst` holds and after it otherwise. -/
def insertLeaf (t : Tree) (root : Option NodeId) (at? : Option NodeId) (client : Client)
    (newFirst : Bool) : Tree × Option NodeId × NodeId :=
  let (t, leaf) := t.alloc (.leaf client)
  match t.insertionTarget root at? with
  | none => (t, some leaf, leaf)
  | some target =>
    let grandparent := t.parent? target
    let (t, parent) :=
      t.alloc (if newFirst then .inner grandparent leaf target else .inner grandparent target leaf)
    let (t, root) := t.replaceChild root grandparent target parent
    let adopt (node : Node) : Node := { node with parent := some parent }
    ((t.modify leaf adopt).modify target adopt, root, leaf)

/-- Removes a leaf; hands back what it held. -/
def removeLeaf (t : Tree) (root : Option NodeId) (n : NodeId) :
    Tree × Option NodeId × Option Node :=
  match t.get? n with
  | none => (t, root, none)
  | some node =>
    match node.parent with
    | none => (t.release n, if root == some n then none else root, some node)
    | some p =>
      match t.get? p with
      | none => (t, root, none)
      | some parent =>
        let sibling := if parent.firstChild == some n then parent.secondChild else parent.firstChild
        let (t, root) :=
          match sibling with
          | none => (t, root)
          | some s =>
            let (t, root) := t.replaceChild root parent.parent p s
            (t.modify s fun node => { node with parent := parent.parent }, root)
        let t := t.release p
        (t.release n, root, t.get? n)

end Tiling.Tree
