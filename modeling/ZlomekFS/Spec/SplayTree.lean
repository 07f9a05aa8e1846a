import ZlomekFS.Lib.Spans
import ZlomekFS.Lib.Trees

/-! The splay tree of `lib/splay-tree/splay-tree.c`, at the node type of the interval trees: a node is the
span from its key to its value. A pointer to a node is the key of the node. -/

namespace ZFS
open Spans Trees

/-- Where `splay_tree_splay_helper` left the node it found in a subtree: rotations move it two levels up at
a time, so it waits at a child of the root for the next level. -/
inductive SplayPos
  | root | left | right
  deriving DecidableEq, Repr

def splayFromLeft (g : Span) (right : BinaryTree Span) : BinaryTree Span × SplayPos → BinaryTree Span × SplayPos
  | (left, .root) => (.node g left right, .left)
  | (.node p (.node n a b) c, .left) => (.node n a (.node p b (.node g c right)), .root)
  | (.node p a (.node n b c), .right) => (.node n (.node p a b) (.node g c right), .root)
  | (left, _) => (.node g left right, .left)

def splayFromRight (g : Span) (left : BinaryTree Span) : BinaryTree Span × SplayPos → BinaryTree Span × SplayPos
  | (right, .root) => (.node g left right, .right)
  | (.node p (.node n b c) d, .left) => (.node n (.node g left b) (.node p c d), .root)
  | (.node p b (.node n c d), .right) => (.node n (.node p (.node g left b) c) d, .root)
  | (right, _) => (.node g left right, .right)

/-- `splay_tree_splay_helper`; below a node without the child to go to, the node itself is the one found. -/
def splayTreeSplayHelper (key : ℕ) : BinaryTree Span → BinaryTree Span × SplayPos
  | .nil => (.nil, .root)
  | .node n left right =>
    if key = n.start then (.node n left right, .root)
    else if key < n.start then
      if left = .nil then (.node n left right, .root)
      else splayFromLeft n right (splayTreeSplayHelper key left)
    else
      if right = .nil then (.node n left right, .root)
      else splayFromRight n left (splayTreeSplayHelper key right)

def splayAtTop : BinaryTree Span × SplayPos → BinaryTree Span
  | (t, .root) => t
  | (.node p (.node n a b) c, .left) => .node n a (.node p b c)
  | (.node p a (.node n b c), .right) => .node n (.node p a b) c
  | (t, _) => t

def splayTreeSplay (key : ℕ) (t : BinaryTree Span) : BinaryTree Span := splayAtTop (splayTreeSplayHelper key t)

def splayTreeInsert (t : BinaryTree Span) (key value : ℕ) : BinaryTree Span :=
  match splayTreeSplay key t with
  | .nil => .node ⟨key, value⟩ .nil .nil
  | .node n left right =>
    if n.start = key then .node ⟨key, value⟩ left right
    else if n.start < key then .node ⟨key, value⟩ (.node n left .nil) right
    else .node ⟨key, value⟩ left (.node n .nil right)

def splayTreeDelete (t : BinaryTree Span) (key : ℕ) : BinaryTree Span :=
  match splayTreeSplay key t with
  | .nil => .nil
  | .node n left right => if n.start = key then hang left right else .node n left right

def splayTreeLookup (t : BinaryTree Span) (key : ℕ) : BinaryTree Span × Option Span :=
  match splayTreeSplay key t with
  | .nil => (.nil, none)
  | .node n left right => (.node n left right, if n.start = key then some n else none)

def splayTreePredecessor (t : BinaryTree Span) (key : ℕ) : BinaryTree Span × Option Span :=
  match splayTreeSplay key t with
  | .nil => (.nil, none)
  | .node n left right => (.node n left right, if n.start < key then some n else rightmost left)

def splayTreeSuccessor (t : BinaryTree Span) (key : ℕ) : BinaryTree Span × Option Span :=
  match splayTreeSplay key t with
  | .nil => (.nil, none)
  | .node n left right => (.node n left right, if key < n.start then some n else leftmost right)

/-- An assignment to key and value of the node with a key, through a pointer to it. -/
def setNode (t : BinaryTree Span) (key : ℕ) (node : Span) : BinaryTree Span :=
  t.map fun n => if n.start = key then node else n

end ZFS
