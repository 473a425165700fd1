import MpsShdict.Lib.RedBlack
import MpsShdict.Lib.Words
import MpsShdict.String
import Mathlib.Logic.Function.Basic

/-! # The red-black tree (`mps_rbtree.c`)

Nodes are offsets in the pool; the sentinel is the node that stands for every leaf. The
source writes each rotation and each half of the two fixup loops twice, once for either
side. Here they are written once, for a side `d`: what the source calls left is `d` in the
half it writes first.

Otherwise the definitions follow the source assignment by assignment. The order of the
assignments matters in several places, as where a rotation reads a link that it has just
written, or where deletion copies the links of a node before or after relinking its
neighbour, and the sentinel is written like any other node: its parent link is what the
fixup loop of a deletion climbs by.

The insertion function is chosen by the tree's insert type. The three functions of the
source differ in one comparison, which `insertValueBy` takes as a parameter; the one of
the dictionary also reads the key bytes of the nodes. A loop takes the number of rounds it
may run for and answers `none` when it would need more; that some number is enough is
proved with each loop.
-/
namespace MpsShdict

open RedBlack (Side Color)
open Words

/-- `mps_rbtree_node_t`: the key, the three links and the colour. A colour other than zero
is red. -/
@[ext] structure RbNode where
  key : Nat
  left : Nat
  right : Nat
  parent : Nat
  color : Nat

/-- The left or the right link. -/
def RbNode.child (n : RbNode) : Side → Nat
  | .left => n.left
  | .right => n.right

/-- The nodes of the pool, by offset. -/
abbrev RbMem := Nat → RbNode

/-- `MPS_RBTREE_INSERT_TYPE_ID_*`: the index into the table of insertion functions, which
stands in the tree header because a function pointer would mean nothing in another
process. -/
inductive InsertTypeId where
  | standard
  | timer
  | luadict
  deriving DecidableEq, Repr

/-- `mps_rbtree_t`: the offsets of the root and the sentinel, and the number of the
function that inserts. -/
structure Rbtree where
  root : Nat
  sentinel : Nat
  insert : InsertTypeId

/-- A tree header and the nodes it reaches. Every operation of the source takes the header
and works on the pool, so this is its state. -/
structure RbHeap where
  tree : Rbtree
  node : RbMem

/-! ### Assignments -/

namespace RbMem
variable (m : RbMem) (x v : Nat)

/-- `x->left = v` or `x->right = v`, as the side says. -/
def setChild (d : Side) : RbMem :=
  Function.update m x (match d with
    | .left => { m x with left := v }
    | .right => { m x with right := v })

/-- `x->parent = v`. -/
def setParent : RbMem := Function.update m x { m x with parent := v }

/-- `x->color = v`. -/
def setColor : RbMem := Function.update m x { m x with color := v }

/-- `x->key = v`. -/
def setKey : RbMem := Function.update m x { m x with key := v }

variable {m x v} {a : Nat} {d e : Side}

theorem setChild_ne (h : a ≠ x) : m.setChild x v d a = m a := by simp [setChild, h]
theorem setParent_ne (h : a ≠ x) : m.setParent x v a = m a := by simp [setParent, h]
theorem setColor_ne (h : a ≠ x) : m.setColor x v a = m a := by simp [setColor, h]
theorem setKey_ne (h : a ≠ x) : m.setKey x v a = m a := by simp [setKey, h]

@[simp] theorem setChild_child :
    (m.setChild x v d a).child e = if a = x ∧ e = d then v else (m a).child e := by
  by_cases h : a = x
  · subst h; cases d <;> cases e <;> simp [setChild, RbNode.child]
  · simp [setChild_ne h, h]

@[simp] theorem setChild_parent : (m.setChild x v d a).parent = (m a).parent := by
  by_cases h : a = x
  · subst h; cases d <;> simp [setChild]
  · rw [setChild_ne h]

@[simp] theorem setChild_color : (m.setChild x v d a).color = (m a).color := by
  by_cases h : a = x
  · subst h; cases d <;> simp [setChild]
  · rw [setChild_ne h]

@[simp] theorem setChild_key : (m.setChild x v d a).key = (m a).key := by
  by_cases h : a = x
  · subst h; cases d <;> simp [setChild]
  · rw [setChild_ne h]

@[simp] theorem setParent_child : (m.setParent x v a).child e = (m a).child e := by
  by_cases h : a = x
  · subst h; cases e <;> simp [setParent, RbNode.child]
  · rw [setParent_ne h]

@[simp] theorem setParent_parent :
    (m.setParent x v a).parent = if a = x then v else (m a).parent := by
  by_cases h : a = x <;> simp [setParent, Function.update, h]

@[simp] theorem setParent_color : (m.setParent x v a).color = (m a).color := by
  by_cases h : a = x <;> simp [setParent, Function.update, h]

@[simp] theorem setParent_key : (m.setParent x v a).key = (m a).key := by
  by_cases h : a = x <;> simp [setParent, Function.update, h]

@[simp] theorem setColor_child : (m.setColor x v a).child e = (m a).child e := by
  by_cases h : a = x
  · subst h; cases e <;> simp [setColor, RbNode.child]
  · rw [setColor_ne h]

@[simp] theorem setColor_parent : (m.setColor x v a).parent = (m a).parent := by
  by_cases h : a = x <;> simp [setColor, Function.update, h]

@[simp] theorem setColor_color :
    (m.setColor x v a).color = if a = x then v else (m a).color := by
  by_cases h : a = x <;> simp [setColor, Function.update, h]

@[simp] theorem setColor_key : (m.setColor x v a).key = (m a).key := by
  by_cases h : a = x <;> simp [setColor, Function.update, h]

@[simp] theorem setKey_child : (m.setKey x v a).child e = (m a).child e := by
  by_cases h : a = x
  · subst h; cases e <;> simp [setKey, RbNode.child]
  · rw [setKey_ne h]

@[simp] theorem setKey_parent : (m.setKey x v a).parent = (m a).parent := by
  by_cases h : a = x <;> simp [setKey, Function.update, h]

@[simp] theorem setKey_color : (m.setKey x v a).color = (m a).color := by
  by_cases h : a = x <;> simp [setKey, Function.update, h]

end RbMem

/-- `ngx_rbt_red`. -/
def ngxRbtRed (m : RbMem) (x : Nat) : RbMem := m.setColor x 1

/-- `ngx_rbt_black`. -/
def ngxRbtBlack (m : RbMem) (x : Nat) : RbMem := m.setColor x 0

/-- `ngx_rbt_is_red`. -/
def ngxRbtIsRed (m : RbMem) (x : Nat) : Bool := (m x).color != 0

/-- `ngx_rbt_is_black`. -/
def ngxRbtIsBlack (m : RbMem) (x : Nat) : Bool := !ngxRbtIsRed m x

/-- `ngx_rbt_copy_color`. -/
def ngxRbtCopyColor (m : RbMem) (n1 n2 : Nat) : RbMem := m.setColor n1 (m n2).color

/-! ### Initialisation and rotations -/

/-- `mps_rbtree_init`, for an insert type it knows. The sentinel is made black and becomes
the root. -/
def mpsRbtreeInit (m : RbMem) (sentinel : Nat) (insertTypeId : InsertTypeId) : RbHeap :=
  { tree := { root := sentinel, sentinel := sentinel, insert := insertTypeId },
    node := ngxRbtBlack m sentinel }

/-- A rotation of `node` towards side `d`. The child on the other side comes up to the
place of the node, and the subtree between the two changes its parent; the parent link of
that subtree is only written when it is not the sentinel. -/
def mpsRbtreeRotate (d : Side) (h : RbHeap) (node : Nat) : RbHeap :=
  let m := h.node
  let temp := (m node).child d.other
  let m := m.setChild node ((m temp).child d) d.other
  let m := if (m temp).child d ≠ h.tree.sentinel
    then m.setParent ((m temp).child d) node else m
  let m := m.setParent temp (m node).parent
  let h := if node = h.tree.root then
      { h with tree.root := temp, node := m }
    else
      let nodeParent := (m node).parent
      if node = (m nodeParent).child d then
        { h with node := m.setChild nodeParent temp d }
      else
        { h with node := m.setChild nodeParent temp d.other }
  { h with node := (h.node.setChild temp node d).setParent node temp }

/-- `mps_rbtree_left_rotate`. -/
def mpsRbtreeLeftRotate : RbHeap → Nat → RbHeap := mpsRbtreeRotate .left

/-- `mps_rbtree_right_rotate`. -/
def mpsRbtreeRightRotate : RbHeap → Nat → RbHeap := mpsRbtreeRotate .right

/-! ### Insertion -/

/-- The end of the way down: `node` becomes the leaf on side `p` of `temp`, red and with
two sentinels for its children. -/
def hangNode (m : RbMem) (temp : Nat) (p : Side) (node sentinel : Nat) : RbMem :=
  let m := m.setChild temp node p
  let m := m.setParent node temp
  let m := m.setChild node sentinel .left
  let m := m.setChild node sentinel .right
  ngxRbtRed m node

/-- `mps_rbtree_insert_value`, `mps_rbtree_insert_timer_value` and
`mps_shdict_rbtree_insert_value`: the way down from `temp`, to the left where
`less node temp` says so, and the link at its end. -/
def insertValueBy (less : RbMem → Nat → Nat → Bool) :
    Nat → RbMem → Nat → Nat → Nat → Option RbMem
  | 0, _, _, _, _ => none
  | fuel + 1, m, temp, node, sentinel =>
    let p : Side := if less m node temp then .left else .right
    if (m temp).child p = sentinel then
      some (hangNode m temp p node sentinel)
    else
      insertValueBy less fuel m ((m temp).child p) node sentinel

/-- The test of `mps_rbtree_insert_value`. -/
def standardLess (m : RbMem) (node temp : Nat) : Bool := (m node).key < (m temp).key

/-- The test of `mps_rbtree_insert_timer_value`: the sign of the difference of the keys,
so that the order survives an overflow of the counter that the timers are measured with. -/
def timerLess (m : RbMem) (node temp : Nat) : Bool :=
  int64 (sub64 (m node).key (m temp).key) < 0

/-- The test of `mps_shdict_rbtree_insert_value`: the hashes decide, and between keys of
one hash the bytes do. `keyOf` gives the key bytes of the dictionary node at an offset. -/
def luadictLess (keyOf : Nat → Bytes) (m : RbMem) (node temp : Nat) : Bool :=
  if (m node).key < (m temp).key then true
  else if (m node).key > (m temp).key then false
  else ngxMemn2cmp (keyOf node) (keyOf temp) < 0

/-- The table `insert_values`. -/
def insertValues (keyOf : Nat → Bytes) : InsertTypeId → RbMem → Nat → Nat → Bool
  | .standard => standardLess
  | .timer => timerLess
  | .luadict => luadictLess keyOf

/-- One round of the rebalancing loop of `mps_rbtree_insert`, the parent hanging on side
`d` of the grandparent: the heap and the node of the next round. A red uncle passes the
trouble on to the grandparent; a black one ends it with one or two rotations. -/
def insertFixupSide (d : Side) (h : RbHeap) (node : Nat) : RbHeap × Nat :=
  let parent := (h.node node).parent
  let grandParent := (h.node parent).parent
  let temp := (h.node grandParent).child d.other
  if ngxRbtIsRed h.node temp then
    let m := ngxRbtBlack h.node parent
    let m := ngxRbtBlack m temp
    let m := ngxRbtRed m grandParent
    ({ h with node := m }, grandParent)
  else
    let (h, node, parent, grandParent) :=
      if node = (h.node parent).child d.other then
        let node := parent
        let h := mpsRbtreeRotate d h node
        let parent := (h.node node).parent
        (h, node, parent, (h.node parent).parent)
      else
        (h, node, parent, grandParent)
    let m := ngxRbtBlack h.node parent
    let m := ngxRbtRed m grandParent
    (mpsRbtreeRotate d.other { h with node := m } grandParent, node)

/-- The rebalancing loop of `mps_rbtree_insert`. It runs as long as the node is not the
root and its parent is red; the side on which the parent hangs selects the half of the
loop. -/
def insertFixup : Nat → RbHeap → Nat → Option RbHeap
  | 0, _, _ => none
  | fuel + 1, h, node =>
    if node ≠ h.tree.root ∧ ngxRbtIsRed h.node (h.node node).parent = true then
      let grandParent := (h.node (h.node node).parent).parent
      let d : Side := if (h.node node).parent = (h.node grandParent).left then .left else .right
      let (h, node) := insertFixupSide d h node
      insertFixup fuel h node
    else
      some h

/-- `mps_rbtree_insert`. The first node of a tree becomes its black root; any other is
hung below a leaf by the function of the tree's insert type and the tree is rebalanced. -/
def mpsRbtreeInsert (fuel : Nat) (keyOf : Nat → Bytes) (h : RbHeap) (node : Nat) :
    Option RbHeap :=
  let sentinel := h.tree.sentinel
  if h.tree.root = sentinel then
    let m := h.node.setParent node 0
    let m := m.setChild node sentinel .left
    let m := m.setChild node sentinel .right
    let m := ngxRbtBlack m node
    some { h with tree.root := node, node := m }
  else do
    let less := insertValues keyOf h.tree.insert
    let m ← insertValueBy less fuel h.node h.tree.root node sentinel
    let h ← insertFixup fuel { h with node := m } node
    some { h with node := ngxRbtBlack h.node h.tree.root }

/-! ### Deletion -/

/-- `mps_rbtree_min`: left links are followed as long as they lead to a node. -/
def mpsRbtreeMin : Nat → RbMem → Nat → Nat → Option Nat
  | 0, _, _, _ => none
  | fuel + 1, m, node, sentinel =>
    if (m node).left ≠ sentinel then mpsRbtreeMin fuel m (m node).left sentinel
    else some node

/-- The second half of a round of the fixup loop, `w` being the black sibling of `temp`:
the heap and `temp` of the next round. With two black children the sibling turns red and
the trouble moves up; otherwise at most two rotations end the loop. -/
def deleteFixupNephews (d : Side) (h : RbHeap) (temp tempParent w : Nat) : RbHeap × Nat :=
  let wNear := (h.node w).child d
  let wFar := (h.node w).child d.other
  if ngxRbtIsBlack h.node wNear && ngxRbtIsBlack h.node wFar then
    ({ h with node := ngxRbtRed h.node w }, tempParent)
  else
    let (h, tempParent, w, wFar) :=
      if ngxRbtIsBlack h.node wFar then
        let m := ngxRbtBlack h.node wNear
        let m := ngxRbtRed m w
        let h := mpsRbtreeRotate d.other { h with node := m } w
        let tempParent := (h.node temp).parent
        let w := (h.node tempParent).child d.other
        (h, tempParent, w, (h.node w).child d.other)
      else
        (h, tempParent, w, wFar)
    let m := ngxRbtCopyColor h.node w tempParent
    let m := ngxRbtBlack m tempParent
    let m := ngxRbtBlack m wFar
    let h := mpsRbtreeRotate d { h with node := m } tempParent
    (h, h.tree.root)

/-- One round of the fixup loop of `mps_rbtree_delete`, `temp` hanging on side `d` of its
parent: the heap and `temp` of the next round. A red sibling is rotated away first, so
that the second half finds a black one. -/
def deleteFixupSide (d : Side) (h : RbHeap) (temp : Nat) : RbHeap × Nat :=
  let tempParent := (h.node temp).parent
  let w := (h.node tempParent).child d.other
  let (h, tempParent, w) :=
    if ngxRbtIsRed h.node w then
      let m := ngxRbtBlack h.node w
      let m := ngxRbtRed m tempParent
      let h := mpsRbtreeRotate d { h with node := m } tempParent
      let tempParent := (h.node temp).parent
      (h, tempParent, (h.node tempParent).child d.other)
    else
      (h, tempParent, w)
  deleteFixupNephews d h temp tempParent w

/-- The fixup loop of `mps_rbtree_delete`, with the assignment behind it. -/
def deleteFixup : Nat → RbHeap → Nat → Option RbHeap
  | 0, _, _ => none
  | fuel + 1, h, temp =>
    if temp ≠ h.tree.root ∧ ngxRbtIsBlack h.node temp = true then
      let tempParent := (h.node temp).parent
      let d : Side := if temp = (h.node tempParent).left then .left else .right
      let (h, temp) := deleteFixupSide d h temp
      deleteFixup fuel h temp
    else
      some { h with node := ngxRbtBlack h.node temp }

/-- The marks `mps_rbtree_delete` leaves in the node it took out. -/
def debugStuff (m : RbMem) (node : Nat) : RbMem :=
  (((m.setChild node 0 .left).setChild node 0 .right).setParent node 0).setKey node 0

/-- The node that leaves its place and the one that takes it (`subst`, `temp`). A node
with two children is replaced by the least node of its right subtree. -/
def deleteTargets (fuel : Nat) (h : RbHeap) (node : Nat) : Option (Nat × Nat) :=
  let sentinel := h.tree.sentinel
  if (h.node node).left = sentinel then
    some (node, (h.node node).right)
  else if (h.node node).right = sentinel then
    some (node, (h.node node).left)
  else do
    let subst ← mpsRbtreeMin fuel h.node (h.node node).right sentinel
    some (subst, (h.node subst).right)

/-- The link to `node` from above is led to `subst`. -/
def replaceBelowParent (h : RbHeap) (node subst : Nat) : RbHeap :=
  let m := h.node
  if node = h.tree.root then
    { h with tree.root := subst }
  else
    let nodeParent := (m node).parent
    if node = (m nodeParent).left then { h with node := m.setChild nodeParent subst .left }
    else { h with node := m.setChild nodeParent subst .right }

/-- The children of `subst` get their parent links. -/
def adoptChildren (m : RbMem) (subst sentinel : Nat) : RbMem :=
  let m := if (m subst).left ≠ sentinel then m.setParent (m subst).left subst else m
  if (m subst).right ≠ sentinel then m.setParent (m subst).right subst else m

/-- The relinking of `mps_rbtree_delete`: `temp` comes to hang where `subst` hung, and
`subst`, if it is another node, where `node` hung. The parent link of `temp` is written
even if `temp` is the sentinel. -/
def deleteRelink (h : RbHeap) (node subst temp : Nat) : RbHeap :=
  let m := h.node
  let substParent := (m subst).parent
  let m := if subst = (m substParent).left then m.setChild substParent temp .left
    else m.setChild substParent temp .right
  if subst = node then
    { h with node := m.setParent temp (m subst).parent }
  else
    let m := if (m subst).parent = node then m.setParent temp subst
      else m.setParent temp (m subst).parent
    let m := m.setChild subst (m node).left .left
    let m := m.setChild subst (m node).right .right
    let m := m.setParent subst (m node).parent
    let m := ngxRbtCopyColor m subst node
    let h := replaceBelowParent { h with node := m } node subst
    { h with node := adoptChildren h.node subst h.tree.sentinel }

/-- `mps_rbtree_delete`. The tree becomes empty, or a red-black tree again after the fixup
loop, which only runs where a black node has left its place. -/
def mpsRbtreeDelete (fuel : Nat) (h : RbHeap) (node : Nat) : Option RbHeap := do
  let (subst, temp) ← deleteTargets fuel h node
  if subst = h.tree.root then
    some { h with tree.root := temp, node := debugStuff (ngxRbtBlack h.node temp) node }
  else
    let red := ngxRbtIsRed h.node subst
    let h := deleteRelink h node subst temp
    let h := { h with node := debugStuff h.node node }
    if red then some h else deleteFixup fuel h temp

/-! ### Traversal -/

/-- The climb of `mps_rbtree_next`: up as long as the path comes from the right, and the
first ancestor that it comes to from the left is the answer. -/
def nextClimb : Nat → RbHeap → Nat → Option (Option Nat)
  | 0, _, _ => none
  | fuel + 1, h, node =>
    let parent := (h.node node).parent
    if node = h.tree.root then some none
    else if node = (h.node parent).left then some (some parent)
    else nextClimb fuel h parent

/-- `mps_rbtree_next`: the least node of the right subtree if there is one, and otherwise
the climb. Behind the last node there is nothing. -/
def mpsRbtreeNext (fuel : Nat) (h : RbHeap) (node : Nat) : Option (Option Nat) :=
  if (h.node node).right ≠ h.tree.sentinel then
    (mpsRbtreeMin fuel h.node (h.node node).right h.tree.sentinel).map some
  else
    nextClimb fuel h node

end MpsShdict
