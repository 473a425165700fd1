import MpsShdict.Lib.RedBlack
import Mathlib.Data.Nat.Log
import Mathlib.Data.Nat.Bitwise

/-! # The height of a red-black tree

Every path of a tree of black height `n` has `n` black nodes, so the tree has `2 ^ n - 1`
elements at least; no red node has a red child, so no path has more than `2 * n` nodes if
the root is black. A path in a tree is shorter than the tree is high.

Together the three facts bound what a walk from the root costs by the logarithm of the
number of elements (`Valid.height_le_log`). The bound is stated for the height, since
every loop over the tree, down to a leaf or up to the root, makes at most as many steps as
the tree is high.
-/
namespace RedBlack

open RbTree

variable {α : Type*} {t : RbTree α} {c : Color} {n : Nat} {x : α}

/-- The number of nodes on the longest way down. The empty tree has height zero. -/
def RbTree.height : RbTree α → Nat
  | .nil => 0
  | .node _ l _ r => max l.height r.height + 1

theorem RbTree.height_on (d : Side) (c : Color) (a : RbTree α) (x : α) (b : RbTree α) :
    (on d c a x b).height = max a.height b.height + 1 := by
  cases d
  · rfl
  · rw [on, height, max_comm]

/-- The path and what hangs at its end fit into the tree: the frames of the context and
the height of the subtree add up to at most the height of the whole. -/
theorem length_add_height_le (fs : List (Frame α)) : fs.length + t.height ≤ (fill fs t).height := by
  induction fs generalizing t with
  | nil => exact (Nat.zero_add _).le
  | cons f fs ih =>
    have hup := ih (t := on f.side f.color t f.elem f.sibling)
    rw [height_on] at hup
    rw [fill_cons, List.length_cons]
    omega

/-- An element hangs above the bottom of the tree. -/
theorem length_lt_height {fs : List (Frame α)} {l r : RbTree α} :
    fs.length < (fill fs (.node c l x r)).height := by
  have h := length_add_height_le (t := .node c l x r) fs
  rw [height] at h
  omega

/-- A tree of black height `n` is no sparser than the complete one of that height. By
induction over the tree, where a black node doubles the bound and a red one keeps it. -/
theorem Valid.two_pow_le (h : Valid t c n) : 2 ^ n ≤ t.inorder.length + 1 := by
  induction h with
  | nil => exact le_rfl
  | red _ _ ihl ihr =>
    rw [inorder, List.length_append, List.length_cons]
    omega
  | black _ _ ihl ihr =>
    rw [inorder, List.length_append, List.length_cons, Nat.pow_succ]
    omega

/-- At most every second node of a way down is red. So the height is at most twice the
black height, and one more where the root itself is red. -/
theorem Valid.height_le (h : Valid t c n) : t.height ≤ 2 * n + if c = .red then 1 else 0 := by
  induction h with
  | nil => exact Nat.zero_le _
  | red _ _ ihl ihr =>
    rw [if_neg (by simp)] at ihl ihr
    rw [height, if_pos rfl]
    omega
  | @black l r x c c' n _ _ ihl ihr =>
    have hl : l.height ≤ 2 * n + 1 := ihl.trans (by split <;> omega)
    have hr : r.height ≤ 2 * n + 1 := ihr.trans (by split <;> omega)
    rw [height, if_neg (by simp)]
    omega

/-- **The height is logarithmic.** A tree with a black root and `k` elements is at most
twice as high as the binary logarithm of `k + 1`. -/
theorem Valid.height_le_log (h : Valid t .black n) :
    t.height ≤ 2 * Nat.log 2 (t.inorder.length + 1) := by
  have hn : n ≤ Nat.log 2 (t.inorder.length + 1) :=
    Nat.le_log_of_pow_le (by decide) h.two_pow_le
  have hh := h.height_le
  rw [if_neg (by simp)] at hh
  omega

end RedBlack
