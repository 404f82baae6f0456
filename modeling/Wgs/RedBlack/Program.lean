import Wgs.Foundation.ColorTree
import Wgs.Foundation.Heap
import Wgs.Foundation.MachineInt
import Wgs.Foundation.Runs

/-!
`C/红黑树.c`: the red-black tree of linked nodes, function by function.

The two rotations, and the two mirrored halves of each rebalance loop, differ in `left` and
`right` only; each pair is one definition over a side `s`, and the source's functions are its
instances.  A loop takes a bound `fuel` on its iterations and a run out of it is a fault, like
an access through null or through a released node.

* `rbRotateLeft`, `rbRotateRight`, `rbInsertRebalance`, `rbEraseRebalance`;
* `rbSearchAuxiliary`, `rbSearch`, `rbInsert`, `rbErase`;
* `RbStep`: one call on a tree, the transition the runs of a client are made of.
-/

namespace Wgs

open Foundation

/-- `struct rb_node_t`. -/
structure RbNode where
  left : Ptr
  right : Ptr
  parent : Ptr
  key : ℤ
  data : ℤ
  color : Color
  deriving DecidableEq

namespace RbNode

/-- The child on a side. -/
def child (s : Side) (n : RbNode) : Ptr :=
  match s with
  | .left => n.left
  | .right => n.right

/-- The node with the child on a side replaced. -/
def setChild (s : Side) (p : Ptr) (n : RbNode) : RbNode :=
  match s with
  | .left => { n with left := p }
  | .right => { n with right := p }

/-- The node with its parent pointer replaced. -/
def setParent (p : Ptr) (n : RbNode) : RbNode := { n with parent := p }

/-- The node with its colour replaced. -/
def setColor (c : Color) (n : RbNode) : RbNode := { n with color := c }

end RbNode

/-! ### Rotations -/

/-- `if (p) p->parent = parent;` -/
def reparent (p parent : Ptr) (m : Mem RbNode) : Option (Mem RbNode) :=
  if p = none then some m else m.modify p (RbNode.setParent parent)

/-- The link above `node` is redirected to `new`: the child link of `parent` that names `node`,
or the root if there is no parent.  The source tests one child of `parent` for `node` and
takes the other one otherwise; the rotations test the right child, `rb_erase` the left one. -/
def relink (test : Side) (parent node new root : Ptr) (m : Mem RbNode) :
    Option (Ptr × Mem RbNode) :=
  if parent = none then some (new, m)
  else do
    let child ← m.read parent (RbNode.child test)
    let m ← if child = node then m.modify parent (RbNode.setChild test new)
      else m.modify parent (RbNode.setChild test.opp new)
    return (root, m)

/-- The common text of `rb_rotate_left` (`s = .left`) and `rb_rotate_right`: `node` moves down to
the side `s`, and its child `up` on the other side takes its place. -/
def rbRotate (s : Side) (node root : Ptr) (m : Mem RbNode) : Option (Ptr × Mem RbNode) := do
  let up ← m.read node (RbNode.child s.opp)
  let inner ← m.read up (RbNode.child s)
  let m ← m.modify node (RbNode.setChild s.opp inner)
  let m ← reparent inner node m
  let m ← m.modify up (RbNode.setChild s node)
  let parent ← m.read node RbNode.parent
  let m ← m.modify up (RbNode.setParent parent)
  let (root, m) ← relink .right parent node up root m
  let m ← m.modify node (RbNode.setParent up)
  return (root, m)

/-- `rb_rotate_left`. -/
def rbRotateLeft : Ptr → Ptr → Mem RbNode → Option (Ptr × Mem RbNode) := rbRotate .left

/-- `rb_rotate_right`. -/
def rbRotateRight : Ptr → Ptr → Mem RbNode → Option (Ptr × Mem RbNode) := rbRotate .right

/-! ### Rebalancing after an insertion -/

/-- `!p || p->color == BLACK`. -/
def blackOrNull (p : Ptr) (m : Mem RbNode) : Option Bool :=
  match p with
  | none => some true
  | some _ => m.read p fun n => decide (n.color = .black)

/-- One half of the loop body of `rb_insert_rebalance`: `parent` is the child of `gparent` on
the side `s`.  It gives back `node` and the root. -/
def rbInsertCase (s : Side) (node parent gparent root : Ptr) (m : Mem RbNode) :
    Option (Ptr × Ptr × Mem RbNode) := do
  let uncle ← m.read gparent (RbNode.child s.opp)
  let uncleBlack ← blackOrNull uncle m
  if uncleBlack = false then
    let m ← m.modify uncle (RbNode.setColor .black)
    let m ← m.modify parent (RbNode.setColor .black)
    let m ← m.modify gparent (RbNode.setColor .red)
    return (gparent, root, m)
  else
    let inner ← m.read parent (RbNode.child s.opp)
    -- an inner `node` is first rotated outwards, and changes roles with `parent`
    let (node, parent, root, m) ←
      if inner = node then do
        let (root, m) ← rbRotate s parent root m
        pure (parent, node, root, m)
      else pure (node, parent, root, m)
    let m ← m.modify parent (RbNode.setColor .black)
    let m ← m.modify gparent (RbNode.setColor .red)
    let (root, m) ← rbRotate s.opp gparent root m
    return (node, root, m)

/-- `rb_insert_rebalance`. -/
def rbInsertRebalance : ℕ → Ptr → Ptr → Mem RbNode → Option (Ptr × Mem RbNode)
  | 0, _, _, _ => none
  | fuel + 1, node, root, m => do
      let parent ← m.read node RbNode.parent
      let parentBlack ← blackOrNull parent m
      if parentBlack then
        let m ← m.modify root (RbNode.setColor .black)
        return (root, m)
      else
        let gparent ← m.read parent RbNode.parent
        let gleft ← m.read gparent RbNode.left
        let (node, root, m) ←
          if gleft = parent then rbInsertCase .left node parent gparent root m
          else rbInsertCase .right node parent gparent root m
        rbInsertRebalance fuel node root m

/-! ### Rebalancing after an erasure -/

/-- The part of the loop body of `rb_erase_rebalance` after a red sibling was rotated away:
`other` is the sibling, the child of `parent` on the side `s.opp`.  It gives back `node`,
`parent`, the root and whether the loop goes on. -/
def rbEraseSibling (s : Side) (parent other root : Ptr) (m : Mem RbNode) :
    Option (Ptr × Ptr × Ptr × Mem RbNode × Bool) := do
  let near ← m.read other (RbNode.child s)
  let far ← m.read other (RbNode.child s.opp)
  let nearBlack ← blackOrNull near m
  let farBlack ← blackOrNull far m
  if nearBlack ∧ farBlack then
    let m ← m.modify other (RbNode.setColor .red)
    let up ← m.read parent RbNode.parent
    return (parent, up, root, m, true)
  else
    let (other, root, m) ←
      if farBlack then do
        let m ← if near = none then pure m else m.modify near (RbNode.setColor .black)
        let m ← m.modify other (RbNode.setColor .red)
        let (root, m) ← rbRotate s.opp other root m
        let other ← m.read parent (RbNode.child s.opp)
        pure (other, root, m)
      else pure (other, root, m)
    let parentColor ← m.read parent RbNode.color
    let m ← m.modify other (RbNode.setColor parentColor)
    let m ← m.modify parent (RbNode.setColor .black)
    let far ← m.read other (RbNode.child s.opp)
    let m ← if far = none then pure m else m.modify far (RbNode.setColor .black)
    let (root, m) ← rbRotate s parent root m
    return (root, parent, root, m, false)

/-- One half of the loop body of `rb_erase_rebalance`: `node` is the child of `parent` on the
side `s`. -/
def rbEraseCase (s : Side) (parent root : Ptr) (m : Mem RbNode) :
    Option (Ptr × Ptr × Ptr × Mem RbNode × Bool) := do
  let other ← m.read parent (RbNode.child s.opp)
  let otherColor ← m.read other RbNode.color
  if otherColor = .red then
    let m ← m.modify other (RbNode.setColor .black)
    let m ← m.modify parent (RbNode.setColor .red)
    let (root, m) ← rbRotate s parent root m
    let other ← m.read parent (RbNode.child s.opp)
    rbEraseSibling s parent other root m
  else rbEraseSibling s parent other root m

/-- `rb_erase_rebalance`. -/
def rbEraseRebalance : ℕ → Ptr → Ptr → Ptr → Mem RbNode → Option (Ptr × Mem RbNode)
  | 0, _, _, _, _ => none
  | fuel + 1, node, parent, root, m => do
      let nodeBlack ← blackOrNull node m
      if nodeBlack ∧ node ≠ root then
        let left ← m.read parent RbNode.left
        let (node, parent, root, m, again) ←
          if left = node then rbEraseCase .left parent root m
          else rbEraseCase .right parent root m
        if again then rbEraseRebalance fuel node parent root m
        else finish node root m
      else finish node root m
where
  /-- The statements after the loop. -/
  finish (node root : Ptr) (m : Mem RbNode) : Option (Ptr × Mem RbNode) := do
    let m ← if node = none then pure m else m.modify node (RbNode.setColor .black)
    return (root, m)

/-! ### The operations -/

/-- The loop of `rb_search_auxiliary` at `node`; `parent` is the node it came from.  It gives
back the node found and the parent saved, which is set on a failed search only. -/
def rbSearchLoop : ℕ → ℤ → Ptr → Ptr → Mem RbNode → Option (Ptr × Ptr)
  | 0, _, _, _, _ => none
  | fuel + 1, key, node, parent, m =>
      if node = none then some (none, parent)
      else do
        let nodeKey ← m.read node RbNode.key
        let ret := toInt32 (nodeKey - key)
        if 0 < ret then
          let left ← m.read node RbNode.left
          rbSearchLoop fuel key left node m
        else if 0 > ret then
          let right ← m.read node RbNode.right
          rbSearchLoop fuel key right node m
        else return (node, none)

/-- `rb_search_auxiliary`, with the value left in `*save`, initially null. -/
def rbSearchAuxiliary (fuel : ℕ) (key : ℤ) (root : Ptr) (m : Mem RbNode) : Option (Ptr × Ptr) :=
  rbSearchLoop fuel key root none m

/-- `rb_search`. -/
def rbSearch (fuel : ℕ) (key : ℤ) (root : Ptr) (m : Mem RbNode) : Option Ptr := do
  let (node, _) ← rbSearchAuxiliary fuel key root m
  return node

/-- `rb_new_node`; the allocator hands out the address `a`, whose cell still holds `junk`. -/
def rbNewNode (key data : ℤ) (a : ℕ) (junk : RbNode) (m : Mem RbNode) :
    Option (Ptr × Mem RbNode) := do
  let m ← m.malloc a junk
  let m ← m.modify (some a) fun n => { n with key := key, data := data }
  return (some a, m)

/-- A new red leaf below `parent`: `rb_new_node` and the assignments to its links and its
colour. -/
def rbNewLeaf (key data : ℤ) (a : ℕ) (junk : RbNode) (parent : Ptr) (m : Mem RbNode) :
    Option (Ptr × Mem RbNode) := do
  let (node, m) ← rbNewNode key data a junk m
  let m ← m.modify node (RbNode.setParent parent)
  let m ← m.modify node (RbNode.setChild .right none)
  let m ← m.modify node (RbNode.setChild .left none)
  let m ← m.modify node (RbNode.setColor .red)
  return (node, m)

/-- The link to the new leaf: from `parent`, on the side the comparison of the two keys gives,
or from the root if there is no parent. -/
def rbLink (key : ℤ) (node parent root : Ptr) (m : Mem RbNode) : Option (Ptr × Mem RbNode) :=
  if parent = none then some (node, m)
  else do
    let parentKey ← m.read parent RbNode.key
    let m ← if parentKey > key then m.modify parent (RbNode.setChild .left node)
      else m.modify parent (RbNode.setChild .right node)
    return (root, m)

/-- `rb_insert`. -/
def rbInsert (fuel : ℕ) (key data : ℤ) (a : ℕ) (junk : RbNode) (root : Ptr) (m : Mem RbNode) :
    Option (Ptr × Mem RbNode) := do
  let (found, parent) ← rbSearchAuxiliary fuel key root m
  if found ≠ none then return (root, m)
  else
    let (node, m) ← rbNewLeaf key data a junk parent m
    let (root, m) ← rbLink key node parent root m
    rbInsertRebalance fuel node root m

/-- `while ((left = node->left) != NULL) node = left;` -/
def rbLeftmost : ℕ → Ptr → Mem RbNode → Option Ptr
  | 0, _, _ => none
  | fuel + 1, node, m => do
      let left ← m.read node RbNode.left
      if left = none then return node else rbLeftmost fuel left m

/-- `node`, already taken out of the tree, is linked in where `old` is. -/
def rbSubstitute (old node root : Ptr) (m : Mem RbNode) : Option (Ptr × Mem RbNode) := do
  let o ← m.load old
  let m ← m.modify node (RbNode.setParent o.parent)
  let m ← m.modify node (RbNode.setColor o.color)
  let m ← m.modify node (RbNode.setChild .right o.right)
  let m ← m.modify node (RbNode.setChild .left o.left)
  let (root, m) ← relink .left o.parent old node root m
  let m ← m.modify o.left (RbNode.setParent node)
  let m ← reparent o.right node m
  return (root, m)

/-- The branch of `rb_erase` for a node `old` with two children: its successor is taken out and
put in its place.  It gives back `child`, `parent`, `color`, the root and the memory. -/
def rbUnlinkTwo (fuel : ℕ) (old root : Ptr) (m : Mem RbNode) :
    Option (Ptr × Ptr × Color × Ptr × Mem RbNode) := do
  let right ← m.read old RbNode.right
  let node ← rbLeftmost fuel right m
  let child ← m.read node RbNode.right
  let parent ← m.read node RbNode.parent
  let color ← m.read node RbNode.color
  let m ← reparent child parent m
  let (root, m) ← relink .left parent node child root m
  let nodeParent ← m.read node RbNode.parent
  let parent := if nodeParent = old then node else parent
  -- `old->right` is read here, after the successor may have been unlinked from it
  let (root, m) ← rbSubstitute old node root m
  return (child, parent, color, root, m)

/-- The branch of `rb_erase` for a node with at most one child, which takes its place. -/
def rbUnlinkOne (node root : Ptr) (m : Mem RbNode) :
    Option (Ptr × Ptr × Color × Ptr × Mem RbNode) := do
  let left ← m.read node RbNode.left
  let right ← m.read node RbNode.right
  let child := if left = none then right else left
  let parent ← m.read node RbNode.parent
  let color ← m.read node RbNode.color
  let m ← reparent child parent m
  let (root, m) ← relink .left parent node child root m
  return (child, parent, color, root, m)

/-- `rb_erase`. -/
def rbErase (fuel : ℕ) (key : ℤ) (root : Ptr) (m : Mem RbNode) : Option (Ptr × Mem RbNode) := do
  let (node, _) ← rbSearchAuxiliary fuel key root m
  if node = none then return (root, m)
  else
    let left ← m.read node RbNode.left
    let right ← m.read node RbNode.right
    let (child, parent, color, root, m) ←
      if left ≠ none ∧ right ≠ none then rbUnlinkTwo fuel node root m
      else rbUnlinkOne node root m
    let m ← m.free node
    if color = .black then rbEraseRebalance fuel child parent root m
    else return (root, m)

/-! ### Runs of calls -/

/-- A tree: its root pointer and the memory its nodes live in. -/
structure RbState where
  root : Ptr
  mem : Mem RbNode

/-- No tree: `root = NULL` and nothing allocated. -/
def RbState.empty : RbState := ⟨none, fun _ => none⟩

/-- A call a client makes.  An insertion carries what the allocator answers, should it be
asked: an address and what the cell there happens to hold. -/
inductive RbCall where
  | insert (key data : ℤ) (a : ℕ) (junk : RbNode)
  | erase (key : ℤ)

/-- The key of a call. -/
def RbCall.key : RbCall → ℤ
  | insert key _ _ _ => key
  | erase key => key

/-- What a call computes within a bound on the iterations of its loops. -/
def RbCall.exec (fuel : ℕ) (s : RbState) : RbCall → Option (Ptr × Mem RbNode)
  | insert key data a junk => rbInsert fuel key data a junk s.root s.mem
  | erase key => rbErase fuel key s.root s.mem

/-- One call: it returns, and leaves the state `s'`. -/
def RbStep (s : RbState) (c : RbCall) (s' : RbState) : Prop :=
  Returns (fun fuel => c.exec fuel s) (s'.root, s'.mem)

end Wgs
