import Mathlib.Data.List.Nodup
import Mathlib.Tactic.Common

/-! # Red-black trees and their contexts

Coloured binary trees over any type of elements, and the contexts a node of such a tree
stands in: the list of `Frame`s from the node up to the root, each with the side the path
comes from, the element and colour of the ancestor and its other subtree. `RbTree.on d`
builds a node from its subtree on side `d` and the other one, so that a statement about
one side is the statement about both.

A tree is `Valid` with a root colour and a black height; a context `Accepts` a black
height when any valid tree of that height (with a black root below a red ancestor)
completes it to a valid tree. Both are what a rebalancing loop that climbs from a node to
the root needs: while it runs, the tree is some context with something slightly wrong in
its hole, and the loop invariant says what the context accepts and what hangs in the hole.
One round shortens the context, so the induction is on the list of frames.

What the tree means is `inorder`, the list of its elements from left to right. A rotation
and a change of colour keep it (`inorder_rotate`, `inorder_recolor`), and filling a
context puts the elements of the hole between those `before` and those `after` it.
-/
namespace RedBlack

inductive Color where
  | red
  | black
  deriving DecidableEq, Repr

inductive Side where
  | left
  | right
  deriving DecidableEq, Repr

namespace Side

/-- The opposite side. -/
def other : Side → Side
  | left => right
  | right => left

@[simp] theorem other_other (d : Side) : d.other.other = d := by cases d <;> rfl

theorem other_ne (d : Side) : d.other ≠ d := by cases d <;> simp [other]

theorem eq_or_eq_other (d e : Side) : e = d ∨ e = d.other := by
  cases d <;> cases e <;> simp [other]

end Side

/-- A binary tree with a colour at every node. Nothing is required of the colours here;
the red-black conditions are `Valid`. -/
inductive RbTree (α : Type*) where
  | nil : RbTree α
  | node (c : Color) (l : RbTree α) (x : α) (r : RbTree α) : RbTree α

/-- One step of the way from a node to the root: the side on which the path arrives, the
ancestor with its colour, and the subtree that the path does not go through. -/
structure Frame (α : Type*) where
  side : Side
  color : Color
  elem : α
  sibling : RbTree α

variable {α : Type*}

namespace RbTree

/-- The node with subtree `a` on side `d` and `b` on the other. The code has two branches
for the two sides wherever it rebalances; with `on` both are one statement. -/
def on (d : Side) (c : Color) (a : RbTree α) (x : α) (b : RbTree α) : RbTree α :=
  match d with
  | .left => .node c a x b
  | .right => .node c b x a

theorem on_other (d : Side) (c : Color) (a : RbTree α) (x : α) (b : RbTree α) :
    on d.other c a x b = on d c b x a := by cases d <;> rfl

/-- The elements from left to right. This list is what a search tree stands for: insertion
puts one element into it, deletion takes one out, rebalancing leaves it alone. -/
def inorder : RbTree α → List α
  | nil => []
  | node _ l x r => inorder l ++ x :: inorder r

@[simp] theorem inorder_nil : (nil : RbTree α).inorder = [] := rfl

theorem mem_inorder_on {d : Side} {c : Color} {a b : RbTree α} {x y : α} :
    y ∈ (on d c a x b).inorder ↔ y = x ∨ y ∈ a.inorder ∨ y ∈ b.inorder := by
  cases d <;> simp [on, inorder] <;> tauto

/-- A rotation keeps the order of the elements, whatever the colours before and after it
are. -/
theorem inorder_rotate (d : Side) (c₁ c₂ c₃ c₄ : Color) (a b e : RbTree α) (x y : α) :
    (on d c₁ (on d c₂ a x b) y e).inorder = (on d c₃ a x (on d c₄ b y e)).inorder := by
  cases d <;> simp [on, inorder]

/-- A change of colour keeps the order of the elements too, so the two steps of
rebalancing never touch what the tree means. -/
theorem inorder_recolor (d : Side) (c c' : Color) (a b : RbTree α) (x : α) :
    (on d c a x b).inorder = (on d c' a x b).inorder := by cases d <;> rfl

theorem inorder_on_congr {d : Side} {c c' : Color} {a a' b b' : RbTree α} {x : α}
    (ha : a.inorder = a'.inorder) (hb : b.inorder = b'.inorder) :
    (on d c a x b).inorder = (on d c' a' x b').inorder := by
  cases d <;> simp [on, inorder, ha, hb]

end RbTree

open RbTree

/-! ### Contexts -/

/-- The tree with `t` in the hole of the context. Climbing one step moves the first frame
into the tree and leaves the result of `fill` as it is. -/
def fill : List (Frame α) → RbTree α → RbTree α
  | [], t => t
  | f :: fs, t => fill fs (on f.side f.color t f.elem f.sibling)

@[simp] theorem fill_nil (t : RbTree α) : fill [] t = t := rfl

@[simp] theorem fill_cons (f : Frame α) (fs : List (Frame α)) (t : RbTree α) :
    fill (f :: fs) t = fill fs (on f.side f.color t f.elem f.sibling) := rfl

theorem fill_append (fs gs : List (Frame α)) (t : RbTree α) :
    fill (fs ++ gs) t = fill gs (fill fs t) := by
  induction fs generalizing t with
  | nil => rfl
  | cons f fs ih => exact ih _

/-- The elements before the hole. -/
def before : List (Frame α) → List α
  | [] => []
  | f :: fs => before fs ++ match f.side with
    | .left => []
    | .right => f.sibling.inorder ++ [f.elem]

/-- The elements behind the hole. -/
def after : List (Frame α) → List α
  | [] => []
  | f :: fs => (match f.side with
    | .left => f.elem :: f.sibling.inorder
    | .right => []) ++ after fs

theorem inorder_fill (fs : List (Frame α)) (t : RbTree α) :
    (fill fs t).inorder = before fs ++ t.inorder ++ after fs := by
  induction fs generalizing t with
  | nil => simp [before, after]
  | cons f fs ih =>
    rw [fill_cons, ih]
    cases hs : f.side <;> simp [before, after, hs, on, inorder]

theorem inorder_fill_congr (fs : List (Frame α)) {t t' : RbTree α}
    (h : t.inorder = t'.inorder) : (fill fs t).inorder = (fill fs t').inorder := by
  rw [inorder_fill, inorder_fill, h]

/-- The elements of a context. -/
def elems (fs : List (Frame α)) : List α := before fs ++ after fs

theorem mem_elems_cons {f : Frame α} {fs : List (Frame α)} {y : α} :
    y ∈ elems (f :: fs) ↔ y = f.elem ∨ y ∈ f.sibling.inorder ∨ y ∈ elems fs := by
  cases hs : f.side <;> simp [elems, before, after, hs] <;> tauto

theorem elems_cons_perm (f : Frame α) (fs : List (Frame α)) :
    (elems (f :: fs)).Perm (f.elem :: (f.sibling.inorder ++ elems fs)) := by
  cases hs : f.side with
  | left =>
    simp only [elems, before, after, hs, List.append_nil, List.cons_append]
    refine List.perm_middle.trans (.cons _ ?_)
    rw [← List.append_assoc, ← List.append_assoc]
    exact List.perm_append_comm.append_right _
  | right =>
    simp only [elems, before, after, hs, List.nil_append]
    calc before fs ++ (f.sibling.inorder ++ [f.elem]) ++ after fs
        = (before fs ++ f.sibling.inorder) ++ f.elem :: after fs := by simp
      _ |>.Perm (f.elem :: ((before fs ++ f.sibling.inorder) ++ after fs)) := List.perm_middle
      _ |>.Perm (f.elem :: ((f.sibling.inorder ++ before fs) ++ after fs)) :=
          .cons _ (List.perm_append_comm.append_right _)
      _ = f.elem :: (f.sibling.inorder ++ (before fs ++ after fs)) := by simp

/-- The distinctness of the names in a context. -/
theorem nodup_elems_cons {f : Frame α} {fs : List (Frame α)} (hnd : (elems (f :: fs)).Nodup) :
    f.elem ∉ f.sibling.inorder ∧ f.elem ∉ elems fs ∧
      (∀ y ∈ f.sibling.inorder, y ∉ elems fs) ∧ f.sibling.inorder.Nodup ∧
      (elems fs).Nodup := by
  have h := (elems_cons_perm f fs).nodup_iff.mp hnd
  rw [List.nodup_cons, List.mem_append, not_or] at h
  obtain ⟨⟨n1, n2⟩, n3⟩ := h
  obtain ⟨n4, n5, n6⟩ := List.nodup_append.mp n3
  exact ⟨n1, n2, fun y hy hy' => n6 y hy y hy' rfl, n4, n5⟩

theorem nodup_elems {fs : List (Frame α)} {t : RbTree α} (hnd : (fill fs t).inorder.Nodup) :
    (elems fs).Nodup := by
  rw [inorder_fill, List.append_assoc] at hnd
  exact hnd.sublist ((List.Sublist.refl _).append (List.sublist_append_right _ _))

theorem before_append (fs gs : List (Frame α)) :
    before (fs ++ gs) = before gs ++ before fs := by
  induction fs with
  | nil => simp [before]
  | cons f fs ih => simp [before, ih]

theorem after_append (fs gs : List (Frame α)) : after (fs ++ gs) = after fs ++ after gs := by
  induction fs with
  | nil => simp [after]
  | cons f fs ih => simp [after, ih]

/-- Nothing is before the hole of a path that only turns left. -/
theorem before_eq_nil {fs : List (Frame α)} (hs : ∀ f ∈ fs, f.side = .left) : before fs = [] := by
  induction fs with
  | nil => rfl
  | cons f fs ih =>
    rw [before, ih fun g hg => hs g (List.mem_cons_of_mem _ hg), hs f (by simp)]
    rfl

/-- Taking out an element and putting the least one of its right subtree in its place only
drops the element. Deletion of a node with two children does this, and the path `gs` to
the least element turns left at every step. -/
theorem inorder_replace (fs : List (Frame α)) {gs : List (Frame α)}
    (hs : ∀ g ∈ gs, g.side = .left) (c cy : Color) (l B : RbTree α) (z y : α) :
    ∃ xs ys, (fill fs (.node c l z (fill gs (.node cy .nil y B)))).inorder = xs ++ z :: ys ∧
      (fill (gs ++ ⟨.right, c, y, l⟩ :: fs) B).inorder = xs ++ ys := by
  refine ⟨before fs ++ l.inorder, y :: B.inorder ++ after gs ++ after fs, ?_, ?_⟩
  · simp [inorder_fill, inorder, before_eq_nil hs]
  · simp [fill_append, inorder_fill, inorder, on, before_eq_nil hs]

/-- The distinctness of the names in a path of two parts. -/
theorem nodup_elems_append {fs gs : List (Frame α)} (hnd : (elems (fs ++ gs)).Nodup) :
    (elems fs).Nodup ∧ (elems gs).Nodup ∧ ∀ y ∈ elems fs, y ∉ elems gs := by
  have hp : (elems (fs ++ gs)).Perm (elems fs ++ elems gs) := by
    simp only [elems, before_append, after_append]
    calc before gs ++ before fs ++ (after fs ++ after gs)
        = before gs ++ ((before fs ++ after fs) ++ after gs) := by simp
      _ |>.Perm (((before fs ++ after fs) ++ after gs) ++ before gs) := List.perm_append_comm
      _ = (before fs ++ after fs) ++ (after gs ++ before gs) := by simp
      _ |>.Perm ((before fs ++ after fs) ++ (before gs ++ after gs)) :=
          List.perm_append_comm.append_left _
  obtain ⟨h1, h2, h3⟩ := List.nodup_append.mp (hp.nodup_iff.mp hnd)
  exact ⟨h1, h2, fun y hy hy' => h3 y hy y hy' rfl⟩

theorem mem_elems_append {fs gs : List (Frame α)} {y : α} :
    y ∈ elems (fs ++ gs) ↔ y ∈ elems fs ∨ y ∈ elems gs := by
  induction fs with
  | nil => simp [elems, before, after]
  | cons f fs ih => rw [List.cons_append, mem_elems_cons, mem_elems_cons, ih]; tauto

theorem mem_fill {fs : List (Frame α)} {t : RbTree α} {y : α} :
    y ∈ (fill fs t).inorder ↔ y ∈ elems fs ∨ y ∈ t.inorder := by
  rw [inorder_fill]
  simp [elems]
  tauto

/-- No element of a context occurs in its hole. -/
theorem disjoint_of_nodup {fs : List (Frame α)} {t : RbTree α}
    (hnd : (fill fs t).inorder.Nodup) {y : α} (hy : y ∈ elems fs) : y ∉ t.inorder := by
  rw [inorder_fill, List.append_assoc] at hnd
  obtain ⟨-, h2, h3⟩ := List.nodup_append.mp hnd
  obtain ⟨-, -, h4⟩ := List.nodup_append.mp h2
  rcases List.mem_append.mp hy with hb | ha
  · exact fun ht => h3 y hb y (List.mem_append_left _ ht) rfl
  · exact fun ht => h4 y ht y ha rfl

theorem nodup_hole {fs : List (Frame α)} {t : RbTree α} (hnd : (fill fs t).inorder.Nodup) :
    t.inorder.Nodup := by
  rw [inorder_fill] at hnd
  exact hnd.sublist ((List.sublist_append_right _ _).trans (List.sublist_append_left _ _))

/-- The distinctness of the names in a node. -/
theorem nodup_on {d : Side} {c : Color} {a b : RbTree α} {x : α}
    (hnd : (on d c a x b).inorder.Nodup) :
    x ∉ a.inorder ∧ x ∉ b.inorder ∧ (∀ y ∈ a.inorder, y ∉ b.inorder) ∧
      a.inorder.Nodup ∧ b.inorder.Nodup := by
  cases d <;> simp only [on, inorder, List.nodup_append, List.nodup_cons] at hnd <;>
    obtain ⟨h1, ⟨h2, h3⟩, h4⟩ := hnd
  · exact ⟨fun hx => h4 x hx x (by simp) rfl, h2, fun y hy hy' =>
      h4 y hy y (List.mem_cons_of_mem _ hy') rfl, h1, h3⟩
  · exact ⟨h2, fun hx => h4 x hx x (by simp) rfl, fun y hy hy' =>
      h4 y hy' y (List.mem_cons_of_mem _ hy) rfl, h3, h1⟩

/-- A path that turns left exactly where `P` holds has only elements with `P` behind it
and none before it, if `P` passes from each element to those behind. A search that
compares at each node walks such a path, so this says where in the order it ends. -/
theorem path_split {P : α → Prop} {fs : List (Frame α)} {t : RbTree α}
    (hs : ∀ f ∈ fs, f.side = .left ↔ P f.elem)
    (hm : (fill fs t).inorder.Pairwise fun a b => P a → P b) :
    (∀ a ∈ before fs, ¬ P a) ∧ ∀ b ∈ after fs, P b := by
  induction fs generalizing t with
  | nil => simp [before, after]
  | cons f fs ih =>
    obtain ⟨h1, h2⟩ := ih (fun g hg => hs g (List.mem_cons_of_mem _ hg)) hm
    have hin : (on f.side f.color t f.elem f.sibling).inorder.Pairwise fun a b => P a → P b := by
      rw [fill_cons, inorder_fill] at hm
      exact hm.sublist ((List.sublist_append_right _ _).trans (List.sublist_append_left _ _))
    have hf := hs f (by simp)
    cases hd : f.side with
    | left =>
      have hP := hf.mp hd
      rw [hd] at hin
      simp only [on, inorder, List.pairwise_append, List.pairwise_cons] at hin
      simp only [before, after, hd, List.append_nil, List.mem_append, List.mem_cons]
      refine ⟨h1, ?_⟩
      rintro b ((rfl | hb) | hb)
      · exact hP
      · exact hin.2.1.1 b hb hP
      · exact h2 b hb
    | right =>
      have hP : ¬ P f.elem := fun h => by simpa [hd] using hf.mpr h
      rw [hd] at hin
      simp only [on, inorder, List.pairwise_append] at hin
      simp only [before, after, hd, List.nil_append, List.mem_append, List.mem_singleton]
      refine ⟨?_, h2⟩
      rintro a (ha | ha | rfl)
      · exact h1 a ha
      · exact fun h => hP (hin.2.2 a ha f.elem (by simp) h)
      · exact hP

/-! ### The red-black conditions -/

/-- A red-black tree with its root colour and its black height: a red node has black
children, and both subtrees of any node have the same number of black nodes on every way
down. -/
inductive Valid : RbTree α → Color → Nat → Prop
  | nil : Valid .nil .black 0
  | red {l r : RbTree α} {x : α} {n : Nat} (hl : Valid l .black n) (hr : Valid r .black n) :
      Valid (.node .red l x r) .red n
  | black {l r : RbTree α} {x : α} {c c' : Color} {n : Nat} (hl : Valid l c n)
      (hr : Valid r c' n) : Valid (.node .black l x r) .black (n + 1)

namespace Valid
variable {d : Side} {a b t : RbTree α} {x : α} {c c' : Color} {n : Nat}

theorem onRed (ha : Valid a .black n) (hb : Valid b .black n) :
    Valid (on d .red a x b) .red n := by
  cases d
  · exact .red ha hb
  · exact .red hb ha

theorem onBlack (ha : Valid a c n) (hb : Valid b c' n) :
    Valid (on d .black a x b) .black (n + 1) := by
  cases d
  · exact .black ha hb
  · exact .black hb ha

theorem of_onRed (h : Valid (on d .red a x b) c n) :
    c = .red ∧ Valid a .black n ∧ Valid b .black n := by
  cases d <;> cases h with
  | red hl hr => exact ⟨rfl, by assumption, by assumption⟩

theorem of_onBlack (h : Valid (on d .black a x b) c n) :
    c = .black ∧ ∃ k c₁ c₂, n = k + 1 ∧ Valid a c₁ k ∧ Valid b c₂ k := by
  cases d
  · cases h with
    | black hl hr => exact ⟨rfl, _, _, _, rfl, hl, hr⟩
  · cases h with
    | black hl hr => exact ⟨rfl, _, _, _, rfl, hr, hl⟩

/-- A tree with a red root is a node with black children. -/
theorem exists_red (h : Valid t .red n) (d : Side) :
    ∃ a x b, t = on d .red a x b ∧ Valid a .black n ∧ Valid b .black n := by
  cases h with
  | @red l r x _ hl hr =>
    cases d
    · exact ⟨l, x, r, rfl, hl, hr⟩
    · exact ⟨r, x, l, rfl, hr, hl⟩

/-- A tree of positive black height with a black root is a node. -/
theorem exists_black (h : Valid t .black (n + 1)) (d : Side) :
    ∃ a x b c₁ c₂, t = on d .black a x b ∧ Valid a c₁ n ∧ Valid b c₂ n := by
  cases h with
  | @black l r x c c' _ hl hr =>
    cases d
    · exact ⟨l, x, r, _, _, rfl, hl, hr⟩
    · exact ⟨r, x, l, _, _, rfl, hr, hl⟩

/-- Blackening the root of a tree with a red root raises its black height. -/
theorem blacken (h : Valid (on d .red a x b) .red n) :
    Valid (on d .black a x b) .black (n + 1) :=
  have ⟨_, ha, hb⟩ := h.of_onRed
  .onBlack ha hb

end Valid

/-- The nearest ancestor exists and is black. In this case a red node may hang in the hole
of the context. -/
def HeadBlack : List (Frame α) → Prop
  | [] => False
  | f :: _ => f.color = .black

/-- Trees of black height `n` complete the context to a red-black tree. Each frame carries
what its own sibling has to be, so a climbing loop reads off what it needs at the frame it
is at. -/
def Accepts : List (Frame α) → Nat → Prop
  | [], _ => True
  | f :: fs, n => match f.color with
    | .red => Valid f.sibling .black n ∧ HeadBlack fs ∧ Accepts fs n
    | .black => (∃ c, Valid f.sibling c n) ∧ Accepts fs (n + 1)

theorem accepts_red {f : Frame α} {fs : List (Frame α)} {n : Nat} (hf : f.color = .red) :
    Accepts (f :: fs) n ↔ Valid f.sibling .black n ∧ HeadBlack fs ∧ Accepts fs n := by
  simp [Accepts, hf]

theorem accepts_black {f : Frame α} {fs : List (Frame α)} {n : Nat} (hf : f.color = .black) :
    Accepts (f :: fs) n ↔ (∃ c, Valid f.sibling c n) ∧ Accepts fs (n + 1) := by
  simp [Accepts, hf]

theorem headBlack_replace {gs fs : List (Frame α)} {d : Side} {c : Color} {x y : α}
    {s : RbTree α} : HeadBlack (gs ++ ⟨d, c, x, s⟩ :: fs) ↔
    HeadBlack (gs ++ ⟨d, c, y, s⟩ :: fs) := by
  cases gs <;> rfl

/-- The names of the ancestors do not matter. -/
theorem accepts_replace {gs fs : List (Frame α)} {d : Side} {c : Color} {x y : α} {s : RbTree α}
    {n : Nat} : Accepts (gs ++ ⟨d, c, x, s⟩ :: fs) n ↔ Accepts (gs ++ ⟨d, c, y, s⟩ :: fs) n := by
  induction gs generalizing n with
  | nil => cases c <;> rfl
  | cons g gs ih =>
    rw [List.cons_append, List.cons_append]
    cases hg : g.color with
    | red => rw [accepts_red hg, accepts_red hg, ih, headBlack_replace]
    | black => rw [accepts_black hg, accepts_black hg, ih]

/-- The length of a path is at most the number of its elements. -/
theorem length_le_elems (fs : List (Frame α)) : fs.length ≤ (elems fs).length := by
  induction fs with
  | nil => simp
  | cons f fs ih =>
    have := (elems_cons_perm f fs).length_eq
    simp only [List.length_cons, List.length_append] at this ⊢
    omega

/-- Completing a context that accepts the tree gives a red-black tree. A rebalancing loop
ends by applying this to the context that is left. -/
theorem fill_valid {fs : List (Frame α)} {t : RbTree α} {c : Color} {n : Nat}
    (ha : Accepts fs n) (ht : Valid t c n) (hc : c = .red → HeadBlack fs) :
    ∃ m, Valid (fill fs t) .black m := by
  induction fs generalizing t c n with
  | nil =>
    cases c with
    | red => exact (hc rfl).elim
    | black => exact ⟨n, ht⟩
  | cons f fs ih =>
    rw [fill_cons]
    cases hf : f.color with
    | red =>
      obtain ⟨hs, hb, hup⟩ := (accepts_red hf).mp ha
      cases c with
      | red => exact absurd (hc rfl) (by simp [HeadBlack, hf])
      | black => exact ih hup (.onRed ht hs) (fun _ => hb)
    | black =>
      obtain ⟨⟨c', hs⟩, hup⟩ := (accepts_black hf).mp ha
      exact ih hup (.onBlack ht hs) (fun h => nomatch h)

/-- Every subtree of a red-black tree is one, in a context that accepts it. This is how a
rebalancing loop starts: the tree before the change is taken apart at the place of the
change. -/
theorem of_fill_valid {fs : List (Frame α)} {t : RbTree α} {c₀ : Color} {m : Nat}
    (h : Valid (fill fs t) c₀ m) (h₀ : fs ≠ [] → c₀ = .black) :
    ∃ c n, Valid t c n ∧ Accepts fs n ∧ (c = .red → fs = [] ∨ HeadBlack fs) := by
  induction fs generalizing t with
  | nil => exact ⟨c₀, m, h, trivial, fun _ => .inl rfl⟩
  | cons f fs ih =>
    obtain ⟨c, n, hv, hup, hb⟩ := ih h (fun _ => h₀ (by simp))
    cases hf : f.color with
    | red =>
      rw [hf] at hv
      obtain ⟨rfl, ha, hs⟩ := hv.of_onRed
      refine ⟨.black, n, ha, (accepts_red hf).mpr ⟨hs, ?_, hup⟩, fun h => nomatch h⟩
      rcases hb rfl with rfl | hb
      · rw [fill_cons, fill_nil, hf] at h
        exact absurd (h.of_onRed.1.symm.trans (h₀ (by simp))) (by simp)
      · exact hb
    | black =>
      rw [hf] at hv
      obtain ⟨rfl, k, c₁, c₂, rfl, ha, hs⟩ := hv.of_onBlack
      exact ⟨c₁, k, ha, (accepts_black hf).mpr ⟨⟨c₂, hs⟩, hup⟩, fun _ => .inr hf⟩

/-- Every element hangs at the end of a path. So an operation that is handed a node can be
proved by induction on the context that the node stands in. -/
theorem exists_path {t : RbTree α} {x : α} (hx : x ∈ t.inorder) :
    ∃ (fs : List (Frame α)) (c : Color) (l r : RbTree α), t = fill fs (.node c l x r) := by
  induction t with
  | nil => simp at hx
  | node c l y r ihl ihr =>
    simp only [inorder, List.mem_append, List.mem_cons] at hx
    rcases hx with hx | rfl | hx
    · obtain ⟨fs, c', l', r', rfl⟩ := ihl hx
      exact ⟨fs ++ [⟨.left, c, y, r⟩], c', l', r', by rw [fill_append]; rfl⟩
    · exact ⟨[], c, l, r, rfl⟩
    · obtain ⟨fs, c', l', r', rfl⟩ := ihr hx
      exact ⟨fs ++ [⟨.right, c, y, l⟩], c', l', r', by rw [fill_append]; rfl⟩

end RedBlack
