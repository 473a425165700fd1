import MpsShdict.Rbtree

/-! # Trees in the pool

`IsTree m s p t r` says that the nodes of the pool spell out the tree `t`: its root is the
offset `r`, whose parent link is `p`, and `s` stands for its leaves. `IsSeg` says the same
of the way from a hole up to a root, and a `Zip` is a tree taken apart at one of its
nodes. Rotations and changes of colour act on a `Zip` where they happen.

Both predicates are recursive in the abstract tree or context, so that a proof about a
loop over the pool is an induction over what the loop has still to go through. Nothing is
said about the colour of the sentinel, its links, or the links of nodes that are not in
the tree: the frame lemmas (`IsTree.congr`, `IsSeg.frame`) name what a tree and a context
read, and everything else may change.
-/
namespace MpsShdict

open RedBlack RedBlack.RbTree

/-- The byte that stores a colour. Zero is black, so that a cleared sentinel is black
without being written. -/
def colorCode : Color → Nat
  | .red => 1
  | .black => 0

@[simp] theorem colorCode_eq_zero {c : Color} : colorCode c = 0 ↔ c = .black := by
  cases c <;> simp [colorCode]

/-- The pool spells out the tree `t` below the link `r` of the node `p`: the root has this
parent link and the colour of `t`, no node is the sentinel, and the two child links lead
to the subtrees. -/
def IsTree (m : RbMem) (s : Nat) : Nat → RbTree Nat → Nat → Prop
  | _, .nil, r => r = s
  | p, .node c l x rt, r => r = x ∧ x ≠ s ∧ (m x).parent = p ∧ (m x).color = colorCode c ∧
      IsTree m s x l ((m x).child .left) ∧ IsTree m s x rt ((m x).child .right)

/-- The pool spells out the way from a hole, the link `hole` of the node `p`, up to the
root `r` with parent link `pr`. Each frame of the context is one node on this way, with
its sibling subtree. -/
def IsSeg (m : RbMem) (s : Nat) : List (Frame Nat) → Nat → Nat → Nat → Nat → Prop
  | [], r, pr, hole, p => r = hole ∧ pr = p
  | f :: fs, r, pr, hole, p => p = f.elem ∧ f.elem ≠ s ∧
      (m f.elem).color = colorCode f.color ∧ (m f.elem).child f.side = hole ∧
      IsTree m s f.elem f.sibling ((m f.elem).child f.side.other) ∧
      IsSeg m s fs r pr f.elem (m f.elem).parent

variable {m m' : RbMem} {s p p' r pr hole x : Nat} {t : RbTree Nat} {fs gs : List (Frame Nat)}
  {d : Side} {c : Color} {a b : RbTree Nat}

theorem isTree_on : IsTree m s p (on d c a x b) r ↔
    r = x ∧ x ≠ s ∧ (m x).parent = p ∧ (m x).color = colorCode c ∧
      IsTree m s x a ((m x).child d) ∧ IsTree m s x b ((m x).child d.other) := by
  cases d <;> simp only [on, IsTree, Side.other]
  tauto

namespace IsTree

theorem root_ne (h : IsTree m s p t r) (ht : t ≠ .nil) : r ≠ s ∧ r ∈ t.inorder := by
  cases t with
  | nil => exact absurd rfl ht
  | node c l x rt =>
    obtain ⟨rfl, hne, -⟩ := h
    exact ⟨hne, by simp [inorder]⟩

theorem eq_nil (h : IsTree m s p t s) : t = .nil := by
  by_contra ht
  exact (h.root_ne ht).1 rfl

theorem root_mem (h : IsTree m s p t r) (hr : r ≠ s) : r ∈ t.inorder :=
  (h.root_ne (by rintro rfl; exact hr h)).2

theorem exists_node (h : IsTree m s p t r) (hr : r ≠ s) : ∃ c l rt, t = .node c l r rt := by
  cases t with
  | nil => exact absurd h hr
  | node c l x rt => exact ⟨c, l, rt, by rw [h.1]⟩

/-- A tree tells the offset of its root, so two pools that spell out the same tree have
the same root link. -/
theorem root_unique {r' : Nat} (h : IsTree m s p t r) (h' : IsTree m' s p' t r') : r = r' := by
  cases t with
  | nil => exact Eq.trans h (Eq.symm h')
  | node c l x rt => exact h.1.trans h'.1.symm

theorem sentinel_notMem (h : IsTree m s p t r) : s ∉ t.inorder := by
  induction t generalizing p r with
  | nil => simp
  | node c l x rt ihl ihr =>
    obtain ⟨-, hne, -, -, hl, hr⟩ := h
    simp only [inorder, List.mem_append, List.mem_cons, not_or]
    exact ⟨ihl hl, fun he => hne he.symm, ihr hr⟩

theorem parent (h : IsTree m s p t r) (hr : r ≠ s) : (m r).parent = p := by
  obtain ⟨c, l, rt, rfl⟩ := h.exists_node hr
  exact h.2.2.1

theorem parent_eq (h : IsTree m s p t r) {y : Nat} (hy : y ∈ t.inorder) :
    (m y).parent = if y = r then p else (m y).parent := by
  split
  · next he => exact he ▸ h.parent (fun he' => h.sentinel_notMem (he' ▸ he ▸ hy))
  · rfl

/-- Only the links and colours of its own nodes matter to a tree, and the parent
link of its root only as far as it is asked for. -/
theorem congr (h : IsTree m s p t r) (hnd : t.inorder.Nodup)
    (hm : ∀ y ∈ t.inorder, (∀ e, (m' y).child e = (m y).child e) ∧ (m' y).color = (m y).color ∧
      (m' y).parent = if y = r then p' else (m y).parent) : IsTree m' s p' t r := by
  induction t generalizing p p' r with
  | nil => exact h
  | node c l x rt ihl ihr =>
    obtain ⟨rfl, hne, hp, hc, hl, hr⟩ := h
    obtain ⟨h1, h2, h3⟩ := hm r (by simp [inorder])
    simp only [inorder, List.nodup_append, List.nodup_cons] at hnd
    obtain ⟨ndl, ⟨hxr, ndr⟩, hdis⟩ := hnd
    refine ⟨rfl, hne, by simpa using h3, h2.trans hc, ?_, ?_⟩
    · rw [h1]
      refine ihl hl ndl ?_
      intro y hy
      obtain ⟨k1, k2, k3⟩ := hm y (by simp [inorder, hy])
      have hyr : y ≠ r := fun he => hdis y hy r (by simp) he
      exact ⟨k1, k2, by rw [k3, if_neg hyr]; exact hl.parent_eq hy⟩
    · rw [h1]
      refine ihr hr ndr ?_
      intro y hy
      obtain ⟨k1, k2, k3⟩ := hm y (by simp [inorder, hy])
      have hyr : y ≠ r := fun he => hxr (he ▸ hy)
      exact ⟨k1, k2, by rw [k3, if_neg hyr]; exact hr.parent_eq hy⟩

theorem frame (h : IsTree m s p t r) (hnd : t.inorder.Nodup)
    (hm : ∀ y ∈ t.inorder, m' y = m y) : IsTree m' s p t r := by
  refine h.congr hnd fun y hy => ⟨fun e => by rw [hm y hy], by rw [hm y hy], ?_⟩
  rw [hm y hy]
  exact h.parent_eq hy

/-- The colour of the root, as the code reads it. For the empty tree this is the colour of
the sentinel, which therefore has to be black. -/
theorem isRed (h : IsTree m s p t r) (hs : (m s).color = 0) {n : Nat} (hv : Valid t c n) :
    ngxRbtIsRed m r = (c == .red) := by
  cases hv with
  | nil => rw [show r = s from h]; simp [ngxRbtIsRed, hs]
  | red => obtain ⟨rfl, -, -, hc, -⟩ := h; simp [ngxRbtIsRed, hc, colorCode]
  | black => obtain ⟨rfl, -, -, hc, -⟩ := h; simp [ngxRbtIsRed, hc, colorCode]

end IsTree

namespace IsSeg

theorem append : IsSeg m s (fs ++ gs) r pr hole p ↔
    ∃ h' q, IsSeg m s fs h' q hole p ∧ IsSeg m s gs r pr h' q := by
  induction fs generalizing hole p with
  | nil => simp [IsSeg]
  | cons f fs ih =>
    simp only [List.cons_append, IsSeg, ih]
    constructor
    · rintro ⟨h1, h2, h3, h4, h5, h', q, h6, h7⟩
      exact ⟨h', q, ⟨h1, h2, h3, h4, h5, h6⟩, h7⟩
    · rintro ⟨h', q, ⟨h1, h2, h3, h4, h5, h6⟩, h7⟩
      exact ⟨h1, h2, h3, h4, h5, h', q, h6, h7⟩

theorem sentinel_notMem (h : IsSeg m s fs r pr hole p) : s ∉ elems fs := by
  induction fs generalizing hole p with
  | nil => simp [elems, before, after]
  | cons f fs ih =>
    obtain ⟨-, hne, -, -, hsib, hup⟩ := h
    rw [mem_elems_cons]
    rintro (he | he | he)
    · exact hne he.symm
    · exact hsib.sentinel_notMem he
    · exact ih hup he

/-- The root of a tree whose hole is not its root is one of the context's nodes. -/
theorem root_mem (h : IsSeg m s fs r pr hole p) (hne : fs ≠ []) : r ∈ elems fs := by
  induction fs generalizing hole p with
  | nil => exact absurd rfl hne
  | cons f fs ih =>
    obtain ⟨-, -, -, -, -, hup⟩ := h
    rw [mem_elems_cons]
    cases fs with
    | nil => exact .inl hup.1
    | cons g gs => exact .inr (.inr (ih hup (by simp)))

theorem root_parent (h : IsSeg m s fs r pr hole p) (hne : fs ≠ []) : (m r).parent = pr := by
  induction fs generalizing hole p with
  | nil => exact absurd rfl hne
  | cons f fs ih =>
    obtain ⟨-, -, -, -, -, hup⟩ := h
    cases fs with
    | nil => rw [hup.1, hup.2]
    | cons g gs => exact ih hup (by simp)

/-- Only the links and colours of its nodes matter to a context; the link to the
hole and the parent link of the root may be led elsewhere. -/
theorem relocate {hole' pr' : Nat} (h : IsSeg m s fs r pr hole p) (hnd : (elems fs).Nodup)
    (hne : fs ≠ [])
    (hm : ∀ y ∈ elems fs, (m' y).color = (m y).color ∧
      (m' y).parent = (if y = r then pr' else (m y).parent) ∧ ∀ e, (m' y).child e =
        if y = p ∧ fs.head?.map Frame.side = some e then hole' else (m y).child e) :
    IsSeg m' s fs r pr' hole' p := by
  -- induction on the path from the hole up, the top node of which gets its new parent
  induction fs generalizing hole hole' p with
  | nil => exact absurd rfl hne
  | cons f fs ih =>
    obtain ⟨rfl, hfs, hc, hh, hsib, hup⟩ := h
    obtain ⟨n1, n2, n3, n4, n5⟩ := nodup_elems_cons hnd
    obtain ⟨e1, e2, e3⟩ := hm f.elem (by simp [mem_elems_cons])
    have hne' : ¬ f.side = f.side.other := fun he => Side.other_ne _ he.symm
    have hr : r ∉ f.sibling.inorder := by
      cases fs with
      | nil => rwa [hup.1]
      | cons g gs => exact fun hr => n3 r hr (hup.root_mem (by simp))
    refine ⟨rfl, hfs, e1.trans hc, by simp [e3], ?_, ?_⟩
    · rw [e3]
      simp only [List.head?_cons, Option.map_some, Option.some.injEq, hne', and_false,
        ↓reduceIte]
      refine hsib.congr n4 ?_
      intro y hy
      obtain ⟨y1, y2, y3⟩ := hm y (by simp [mem_elems_cons, hy])
      have hy' : y ≠ f.elem := fun he => n1 (he ▸ hy)
      have hyr : y ≠ r := fun he => hr (he ▸ hy)
      refine ⟨fun e => by rw [y3]; simp [hy'], y1, ?_⟩
      rw [y2, if_neg hyr]
      exact hsib.parent_eq hy
    · cases fs with
      | nil => exact ⟨hup.1, by rw [e2, if_pos hup.1.symm]⟩
      | cons g gs =>
        have hfr : f.elem ≠ r := fun he => n2 (he ▸ hup.root_mem (by simp))
        rw [e2, if_neg hfr]
        refine ih hup n5 (by simp) ?_
        intro y hy
        obtain ⟨y1, y2, y3⟩ := hm y (mem_elems_cons.mpr (.inr (.inr hy)))
        have hy' : y ≠ f.elem := fun he => n2 (he ▸ hy)
        refine ⟨y1, y2, ?_⟩
        intro e
        rw [y3]
        simp only [hy', false_and, ↓reduceIte]
        split
        · next hg =>
          obtain ⟨hg1, hg2⟩ := hg
          obtain ⟨k1, -, -, k2, -⟩ := hup
          simp only [List.head?_cons, Option.map_some, Option.some.injEq] at hg2
          rw [hg1, ← hg2, k1, k2]
        · rfl

/-- The link to the hole may be led elsewhere. -/
theorem redirect {hole' : Nat} (h : IsSeg m s fs r pr hole p) (hnd : (elems fs).Nodup)
    (hm : ∀ y ∈ elems fs, (m' y).color = (m y).color ∧ (m' y).parent = (m y).parent ∧
      ∀ e, (m' y).child e =
        if y = p ∧ fs.head?.map Frame.side = some e then hole' else (m y).child e) :
    IsSeg m' s fs (if fs = [] then hole' else r) pr hole' p := by
  by_cases hne : fs = []
  · subst hne
    exact ⟨rfl, h.2⟩
  · rw [if_neg hne]
    refine h.relocate hnd hne ?_
    intro y hy
    obtain ⟨y1, y2, y3⟩ := hm y hy
    refine ⟨y1, ?_, y3⟩
    rw [y2]
    split
    · next he => rw [he, h.root_parent hne]
    · rfl

/-- Only the links and colours of its nodes matter to a context. -/
theorem frame (h : IsSeg m s fs r pr hole p) (hnd : (elems fs).Nodup)
    (hm : ∀ y ∈ elems fs, (m' y).color = (m y).color ∧ (m' y).parent = (m y).parent ∧
      ∀ e, (m' y).child e = (m y).child e) : IsSeg m' s fs r pr hole p := by
  suffices h' : IsSeg m' s fs (if fs = [] then hole else r) pr hole p by
    by_cases hne : fs = []
    · subst hne
      exact h
    · rwa [if_neg hne] at h'
  refine h.redirect hnd fun y hy => ?_
  · obtain ⟨y1, y2, y3⟩ := hm y hy
    refine ⟨y1, y2, ?_⟩
    intro e
    rw [y3]
    split
    · next hg =>
      obtain ⟨hg1, hg2⟩ := hg
      cases fs with
      | nil => simp at hg2
      | cons f fs =>
        obtain ⟨k1, -, -, k2, -⟩ := h
        simp only [List.head?_cons, Option.map_some, Option.some.injEq] at hg2
        rw [hg1, ← hg2, k1, k2]
    · rfl

end IsSeg

end MpsShdict
