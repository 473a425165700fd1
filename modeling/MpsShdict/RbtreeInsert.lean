import MpsShdict.RbtreeRotate

/-! # Insertion into a red-black tree

The rebalancing loop runs on a tree whose only defect is a red node below a red one. A
round either recolours and takes the defect two levels up or removes it by rotations,
after which the loop ends.

`RbRep h t` is what the operations start from and lead to: the heap spells out `t`, whose
root is black, no node occurs twice, and the sentinel is black and none of the nodes. The
loop is proved by induction on the length of the context (`insertFixup_spec`), with one
round (`insertFixupSide_spec`) for the step. The way down is proved for any comparison,
since the three orders differ in nothing else; it says at which leaf the new node is hung,
and `mpsRbtreeInsert_spec` puts the two together: the new node stands in the list of nodes
between those it is not less than and those it is less than.
-/
namespace MpsShdict

open RedBlack RedBlack.RbTree

/-- The heap holds the red-black tree `t`. The parent link of the root is free: a deletion
may make a node the root without writing its link, and nothing in the source reads it. -/
structure RbRep (h : RbHeap) (t : RbTree Nat) : Prop where
  shape : ∃ pr, IsTree h.node h.tree.sentinel pr t h.tree.root
  black : (h.node h.tree.sentinel).color = 0
  nodup : t.inorder.Nodup
  valid : ∃ n, Valid t .black n

namespace RbRep
variable {h : RbHeap} {t : RbTree Nat}

theorem zip (hr : RbRep h t) : ∃ p, Zip h [] t h.tree.root p := by
  obtain ⟨pr, ht⟩ := hr.shape
  exact ⟨pr, Zip.of_root ht hr.nodup⟩

theorem sentinel_notMem (hr : RbRep h t) : h.tree.sentinel ∉ t.inorder := by
  obtain ⟨pr, ht⟩ := hr.shape
  exact ht.sentinel_notMem

theorem nil_iff (hr : RbRep h t) : h.tree.root = h.tree.sentinel ↔ t = .nil := by
  obtain ⟨pr, ht⟩ := hr.shape
  constructor
  · intro he
    exact IsTree.eq_nil (he ▸ ht)
  · rintro rfl
    exact ht

/-- A changed heap keeps its tree as long as its nodes and the sentinel are kept. -/
theorem frame {h' : RbHeap} (hr : RbRep h t) (htree : h'.tree = h.tree)
    (hm : ∀ y, y ∈ t.inorder ∨ y = h.tree.sentinel → h'.node y = h.node y) : RbRep h' t := by
  obtain ⟨pr, ht⟩ := hr.shape
  refine ⟨⟨pr, ?_⟩, ?_, hr.nodup, hr.valid⟩
  · rw [htree]
    exact ht.frame hr.nodup fun y hy => hm y (.inl hy)
  · rw [htree, hm _ (.inr rfl)]
    exact hr.black

end RbRep

namespace Keeps
variable {S : List Nat} {h h' : RbHeap}

/-- What stays within the tree leaves the sentinel as it was. -/
theorem black (k : Keeps S h h') (hs : h.tree.sentinel ∉ S)
    (hb : (h.node h.tree.sentinel).color = 0) : (h'.node h'.tree.sentinel).color = 0 := by
  rw [k.sentinel, k.off _ hs, hb]

end Keeps

/-- The side a node hangs on, as the loops find it. -/
theorem sideOf_eq {m : RbMem} {p x : Nat} {d : Side} (h₁ : (m p).child d = x)
    (h₂ : (m p).child d.other ≠ x) :
    (if x = (m p).left then Side.left else Side.right) = d := by
  cases d with
  | left => exact if_pos h₁.symm
  | right => exact if_neg fun he => h₂ he.symm

namespace Zip
variable {h : RbHeap} {fs : List (Frame Nat)} {f : Frame Nat} {t : RbTree Nat}
  {hole p : Nat} {c : Color} {n : Nat}

theorem side_eq (hz : Zip h (f :: fs) t hole p) (hs : hole ≠ h.tree.sentinel) :
    (if hole = (h.node p).left then Side.left else Side.right) = f.side :=
  sideOf_eq hz.up.2.1 (hz.other_ne hs)

theorem head_color (hz : Zip h (f :: fs) t hole p) :
    ngxRbtIsRed h.node p = (f.color == .red) := by
  obtain ⟨pr, rfl, -, hc, -⟩ := hz.seg
  cases hf : f.color <;> simp [ngxRbtIsRed, hc, hf, colorCode]

/-- A whole tree with a blackened root is a red-black tree. -/
theorem blackenRoot (hz : Zip h [] t hole p) (hv : Valid t c n) (hne : t ≠ .nil)
    (hb : (h.node h.tree.sentinel).color = 0) :
    ∃ t', RbRep { h with node := ngxRbtBlack h.node h.tree.root } t' ∧
      t'.inorder = t.inorder ∧
      Keeps t.inorder h { h with node := ngxRbtBlack h.node h.tree.root } := by
  obtain ⟨hroot, -⟩ := hz.root
  have hs : h.tree.sentinel ∉ t.inorder := hz.sub.sentinel_notMem
  obtain ⟨a, x, b, rfl⟩ : ∃ a x b, t = on .left c a x b := by
    cases hv with
    | nil => exact absurd rfl hne
    | red hl hr => exact ⟨_, _, _, rfl⟩
    | black hl hr => exact ⟨_, _, _, rfl⟩
  obtain ⟨rfl, -⟩ := hz.down
  obtain ⟨hz', hk⟩ := hz.recolor .black
  have hk' : Keeps (on .left c a hole b).inorder h
      { h with node := ngxRbtBlack h.node h.tree.root } := by
    rw [← hroot]
    exact hk.mono fun z hz' => by
      rw [List.mem_singleton.mp hz']
      exact mem_inorder_on.mpr (.inl rfl)
  refine ⟨on .left .black a hole b, ⟨⟨p, ?_⟩, hk'.black hs hb, ?_, ?_⟩,
    inorder_recolor _ _ _ _ _ _, hk'⟩
  · rw [← hroot]
    exact hroot ▸ hz'.sub
  · rw [inorder_recolor _ _ c]
    exact hz.nodup
  · cases c with
    | red => exact ⟨_, hv.blacken⟩
    | black => exact ⟨n, hv⟩

end Zip

/-! ### The rebalancing loop -/

section Fixup
variable {h : RbHeap} {fs : List (Frame Nat)} {t : RbTree Nat} {x p n fuel : Nat}

/-- The loop ends at the root and below a black node, which are the two places where a red
node does no harm. -/
theorem insertFixup_exit (hz : Zip h fs t x p) (hs : x ≠ h.tree.sentinel)
    (hh : fs = [] ∨ HeadBlack fs) : insertFixup (fuel + 1) h x = some h := by
  cases fs with
  | nil =>
    have hroot : x = h.tree.root := hz.root.1
    simp [insertFixup, hroot]
  | cons f fs =>
    have hf : f.color = .black := hh.resolve_left (by simp)
    have hp : (h.node x).parent = p := hz.sub.parent hs
    have hred := hz.head_color
    rw [hf] at hred
    simp [insertFixup, hp, hred]

/-- What the loop and the assignment behind it make of a tree: a red-black tree with the
same nodes in the same order, where nothing outside of it has been written. -/
def FixedBy (L : List Nat) (h : RbHeap) (r : Option RbHeap) : Prop :=
  ∃ h₁ t', r = some h₁ ∧ RbRep { h₁ with node := ngxRbtBlack h₁.node h₁.tree.root } t' ∧
    t'.inorder = L ∧ Keeps L h { h₁ with node := ngxRbtBlack h₁.node h₁.tree.root }

theorem FixedBy.of_keeps {L : List Nat} {h h' : RbHeap} {r : Option RbHeap}
    (k : Keeps L h h') (hf : FixedBy L h' r) : FixedBy L h r := by
  obtain ⟨h₁, t', h1, h2, h3, h4⟩ := hf
  exact ⟨h₁, t', h1, h2, h3, k.trans h4⟩

/-- At its end the loop leaves a valid tree, but for the colour of the root. -/
theorem fixedBy_exit {c : Color} (hz : Zip h fs t x p) (hs : x ≠ h.tree.sentinel)
    (hb : (h.node h.tree.sentinel).color = 0) (hv : Valid t c n) (hacc : Accepts fs n)
    (hh : fs = [] ∨ HeadBlack fs) :
    FixedBy (fill fs t).inorder h (insertFixup (fuel + 1) h x) := by
  rw [insertFixup_exit hz hs hh]
  obtain ⟨pr, hroot⟩ := hz.up_all
  have hz' : Zip h [] (fill fs t) h.tree.root pr := Zip.of_root hroot hz.nodup
  have hxt : x ∈ t.inorder := hz.sub.root_mem hs
  have hne : fill fs t ≠ .nil := by
    intro he
    have : x ∈ (fill fs t).inorder := mem_fill.mpr (.inr hxt)
    rw [he] at this
    simp at this
  obtain ⟨c', m, hval⟩ : ∃ c' m, Valid (fill fs t) c' m := by
    rcases hh with rfl | hh
    · exact ⟨c, n, hv⟩
    · obtain ⟨m, hm⟩ := fill_valid hacc hv (fun _ => hh)
      exact ⟨.black, m, hm⟩
  obtain ⟨t', h1, h2, h3⟩ := hz'.blackenRoot hval hne hb
  exact ⟨h, t', rfl, h1, h2, h3⟩

variable {gs : List (Frame Nat)} {d : Side} {A C S : RbTree Nat} {y G : Nat}

/-- The last rotation of a round, about the grandparent `G`. -/
theorem insertFixup_outer
    (hz : Zip h (⟨d, .red, y, C⟩ :: ⟨d, .black, G, S⟩ :: gs) A x p) :
    Zip (mpsRbtreeRotate d.other { h with node := ngxRbtRed (ngxRbtBlack h.node y) G } G)
        (⟨d, .black, y, on d .red C G S⟩ :: gs) A x y ∧
      Keeps (fill (⟨d, .red, y, C⟩ :: ⟨d, .black, G, S⟩ :: gs) A).inorder h
        (mpsRbtreeRotate d.other { h with node := ngxRbtRed (ngxRbtBlack h.node y) G } G) := by
  obtain ⟨rfl, hch, hz1⟩ := hz.up
  obtain ⟨hz2, k2⟩ := hz1.recolor .black
  obtain ⟨hG, -, hz3⟩ := hz2.up
  rw [hG] at hz3
  obtain ⟨hz4, k4⟩ := hz3.recolor .red
  have hz5 := hz4
  dsimp only at hz5
  rw [← on_other d .red, ← on_other d .black] at hz5
  obtain ⟨hz6, k6⟩ := hz5.rotate
  have hord : (fill gs (on d.other .red S G (on d.other .black C p A))).inorder =
      (fill gs (on d .black (on d .red A p C) G S)).inorder := by
    rw [on_other, on_other]
    exact inorder_fill_congr gs (inorder_on_congr (inorder_recolor _ _ _ _ _ _) rfl)
  rw [hord] at k6
  have hmem : ∀ z, z = p ∨ z = G →
      z ∈ (fill gs (on d .black (on d .red A p C) G S)).inorder := by
    rintro z (rfl | rfl)
    · exact mem_fill.mpr (.inr (by simp [mem_inorder_on]))
    · exact mem_fill.mpr (.inr (by simp [mem_inorder_on]))
  rw [on_other d .black (on d.other .red S G C), on_other d .red S] at hz6
  have hk := ((k2.mono fun z hz' => hmem z (.inl (List.mem_singleton.mp hz'))).trans
    (k4.mono fun z hz' => hmem z (.inr (List.mem_singleton.mp hz')))).trans k6
  obtain ⟨-, -, hz7⟩ := hz6.down
  have hx := (hk.sentinel ▸ hz7.sub).root_unique hz.sub
  exact ⟨hx ▸ hz7, hk⟩

/-- One round of the loop below a red parent: the defect is two levels up, or there is
none. A red uncle makes the first case; with a black one the grandparent is rotated down,
after the parent where the path turns. -/
theorem insertFixupSide_spec {f g : Frame Nat} {cs : Color}
    (hz : Zip h (f :: g :: gs) t x p) (hv : Valid t .red n)
    (hb : (h.node h.tree.sentinel).color = 0) (hfr : f.color = .red) (hgc : g.color = .black)
    (hfsib : Valid f.sibling .black n) (hgsib : Valid g.sibling cs n)
    (hacc : Accepts gs (n + 1)) :
    ∃ fs₁ t₁ p₁ n₁, Zip (insertFixupSide g.side h x).1 fs₁ t₁ (insertFixupSide g.side h x).2 p₁ ∧
      Valid t₁ .red n₁ ∧ Accepts fs₁ n₁ ∧ (fs₁ = gs ∨ HeadBlack fs₁) ∧
      (fill fs₁ t₁).inorder = (fill (f :: g :: gs) t).inorder ∧
      Keeps (fill (f :: g :: gs) t).inorder h (insertFixupSide g.side h x).1 := by
  obtain ⟨a, x, b, rfl, ha, hb'⟩ := hv.exists_red g.side
  obtain ⟨rfl, hp, -⟩ := hz.down
  obtain ⟨hpe, hch, hz1⟩ := hz.up
  obtain ⟨hG, hchG, hz2⟩ := hz1.up
  have hz3 := hz2
  rw [← on_other] at hz3
  obtain ⟨-, -, hz4⟩ := hz3.down
  have htemp := hz4.sub.isRed hb hgsib
  have hmem : ∀ z, z = p ∨ z = g.elem ∨ z ∈ g.sibling.inorder →
      z ∈ (fill (f :: g :: gs) (on g.side .red a x b)).inorder := by
    rintro z hz'
    refine mem_fill.mpr (.inl ?_)
    simp only [mem_elems_cons, ← hpe]
    tauto
  rw [hfr, hgc, ← hpe] at hz2
  cases cs with
  | red =>
    -- the uncle is red: three changes of colour
    obtain ⟨u, y, v, hgs, hu, hv'⟩ := hgsib.exists_red .left
    rw [hgs] at hz4
    obtain ⟨hy, -, -⟩ := hz4.down
    have hside : insertFixupSide g.side h x =
        ({ h with node := ngxRbtRed (ngxRbtBlack (ngxRbtBlack h.node p) y) g.elem }, g.elem) := by
      rw [hy] at htemp
      simp [insertFixupSide, hp, hG, hy, htemp]
    rw [hside]
    rw [hfr, ← hpe] at hz1
    obtain ⟨k1, c1⟩ := hz1.recolor .black
    obtain ⟨-, -, k2⟩ := k1.up
    rw [← on_other, hgs] at k2
    obtain ⟨-, -, k3⟩ := k2.down
    obtain ⟨k4, c4⟩ := k3.recolor .black
    obtain ⟨-, -, k5⟩ := k4.up
    dsimp only at k5
    rw [hgc, on_other] at k5
    obtain ⟨k6, c6⟩ := k5.recolor .red
    obtain ⟨hhole, -, -⟩ := k6.down
    rw [hhole] at k6
    refine ⟨gs, _, _, n + 1, k6, .onRed (.onBlack hv hfsib) (.onBlack hu hv'), hacc, .inl rfl,
      ?_, ?_⟩
    · rw [fill_cons, fill_cons, hgs]
      refine inorder_fill_congr gs (inorder_on_congr ?_ (inorder_recolor _ _ _ _ _ _))
      rw [hpe]
      exact inorder_recolor _ _ _ _ _ _
    · have hyg : y ∈ g.sibling.inorder := by
        rw [hgs]
        exact mem_inorder_on.mpr (.inl rfl)
      refine ((c1.mono fun z hz' => hmem z ?_).trans (c4.mono fun z hz' => hmem z ?_)).trans
        (c6.mono fun z hz' => hmem z ?_)
      · exact .inl (List.mem_singleton.mp hz')
      · exact .inr (.inr (List.mem_singleton.mp hz' ▸ hyg))
      · exact .inr (.inl (List.mem_singleton.mp hz'))
  | black =>
    have hxs : x ≠ h.tree.sentinel := (hz.sub.root_ne (by cases g.side <;> simp [on])).1
    obtain ⟨d, gc, G, S⟩ := g
    dsimp only at *
    subst hgc
    by_cases hside : f.side = d
    · -- the node hangs on the outer side
      have hno : ¬ x = (h.node p).child d.other := fun h' => hz.other_ne hxs (hside ▸ h'.symm)
      have hres : insertFixupSide d h x =
          (mpsRbtreeRotate d.other { h with node := ngxRbtRed (ngxRbtBlack h.node p) G } G, x) := by
        simp [insertFixupSide, hp, hG, htemp, hno]
      rw [hres]
      obtain ⟨fd, fc, fe, fS⟩ := f
      dsimp only at *
      subst hfr hside hpe
      obtain ⟨k1, c1⟩ := insertFixup_outer hz
      refine ⟨_, _, _, n, k1, hv, (accepts_black rfl).mpr ⟨⟨_, .onRed hfsib hgsib⟩, hacc⟩,
        .inr rfl, ?_, c1⟩
      exact inorder_fill_congr gs (inorder_rotate _ _ _ _ _ _ _ _ _ _).symm
    · -- it hangs on the inner side: a rotation about the parent comes first
      have hinner : f.side = d.other := (Side.eq_or_eq_other d f.side).resolve_left hside
      rw [hinner] at hch
      obtain ⟨fd, fc, fe, fS⟩ := f
      dsimp only at *
      subst hfr hinner hpe
      rw [on_other] at hz1
      obtain ⟨k1, c1⟩ := hz1.rotate
      obtain ⟨-, hG1, k2⟩ := k1.down
      rw [hG] at hG1
      have hp1 : ((mpsRbtreeRotate d h p).node p).parent = x :=
        (isTree_on.mp k2.sub).2.2.1
      obtain ⟨hp2, -⟩ := isTree_on.mp k2.sub
      rw [hp2] at k2
      obtain ⟨k3, c3⟩ := insertFixup_outer k2
      have hres : insertFixupSide d h x =
          (mpsRbtreeRotate d.other { mpsRbtreeRotate d h p with
            node := ngxRbtRed (ngxRbtBlack (mpsRbtreeRotate d h p).node x) G } G, p) := by
        simp [insertFixupSide, hp, hG, htemp, hch, hp1, hG1]
      have hord : (on d .red (on d .red fS p a) x b).inorder =
          (on d.other .red (on d .red a x b) p fS).inorder := by
        rw [on_other]
        exact inorder_rotate _ _ _ _ _ _ _ _ _ _
      rw [hres]
      refine ⟨_, _, _, n, k3, .onRed hfsib ha, (accepts_black rfl).mpr
        ⟨⟨_, .onRed hb' hgsib⟩, hacc⟩, .inr rfl, ?_, ?_⟩
      · calc (fill gs (on d .black (on d .red fS p a) x (on d .red b G S))).inorder
            = (fill gs (on d .black (on d .red (on d .red fS p a) x b) G S)).inorder :=
              inorder_fill_congr gs (inorder_rotate _ _ _ _ _ _ _ _ _ _).symm
          _ = _ := inorder_fill_congr gs (inorder_on_congr hord rfl)
      · have e : (fill (⟨d, .red, x, b⟩ :: ⟨d, .black, G, S⟩ :: gs) (on d .red fS p a)).inorder =
            (fill (⟨d.other, .red, p, fS⟩ :: ⟨d, .black, G, S⟩ :: gs)
              (on d .red a x b)).inorder :=
          inorder_fill_congr gs (inorder_on_congr hord rfl)
        rw [e] at c3
        have e' : (fill (⟨d, .black, G, S⟩ :: gs)
            (on d .red fS p (on d .red a x b))).inorder =
            (fill (⟨d.other, .red, p, fS⟩ :: ⟨d, .black, G, S⟩ :: gs)
              (on d .red a x b)).inorder := by
          rw [fill_cons, fill_cons, fill_cons]
          simp only [on_other]
        rw [e'] at c1
        exact c1.trans c3

/-- **The rebalancing loop** repairs a tree with a red node in the hole. The induction is
on the length of the path to the root, which every round shortens by two or ends. -/
theorem insertFixup_spec (k : Nat) : ∀ {h : RbHeap} {fs : List (Frame Nat)} {t : RbTree Nat}
    {x p n fuel : Nat}, fs.length ≤ k → k + 2 ≤ fuel → Zip h fs t x p → Valid t .red n →
    (h.node h.tree.sentinel).color = 0 → Accepts fs n →
    FixedBy (fill fs t).inorder h (insertFixup fuel h x) := by
  induction k using Nat.strong_induction_on with
  | _ k ih => ?_
  intro h fs t x p n fuel hlen hfuel hz hv hb hacc
  obtain ⟨fuel, rfl⟩ : ∃ k', fuel = k' + 1 := ⟨fuel - 1, by omega⟩
  have hxs : x ≠ h.tree.sentinel := by
    obtain ⟨a, y, b, rfl, -⟩ := hv.exists_red .left
    exact (hz.sub.root_ne (by simp [on])).1
  -- the loop ends at the root and at a black parent
  by_cases hh : fs = [] ∨ HeadBlack fs
  · exact fixedBy_exit hz hxs hb hv hacc hh
  push Not at hh
  obtain ⟨f, fs', rfl⟩ := List.exists_cons_of_ne_nil hh.1
  have hfr : f.color = .red := by
    cases hc : f.color with
    | red => rfl
    | black => exact absurd hc hh.2
  obtain ⟨hfsib, hgb, hacc'⟩ := (accepts_red hfr).mp hacc
  obtain ⟨g, gs, rfl⟩ : ∃ g gs, fs' = g :: gs := by
    cases fs' with
    | nil => exact absurd hgb (by simp [HeadBlack])
    | cons g gs => exact ⟨g, gs, rfl⟩
  have hgc : g.color = .black := hgb
  obtain ⟨⟨cs, hgsib⟩, haccg⟩ := (accepts_black hgc).mp hacc'
  -- one round, after which the node stands higher or its parent is black
  obtain ⟨fs₁, t₁, p₁, n₁, hz₁, hv₁, hacc₁, hor, hord, hk⟩ :=
    insertFixupSide_spec hz hv hb hfr hgc hfsib hgsib haccg
  have hround : insertFixup (fuel + 1) h x =
      insertFixup fuel (insertFixupSide g.side h x).1 (insertFixupSide g.side h x).2 := by
    have hp : (h.node x).parent = p := hz.sub.parent hxs
    have hred := hz.head_color
    rw [hfr] at hred
    obtain ⟨hpe, -, hz1⟩ := hz.up
    have hps : p ≠ h.tree.sentinel := (hz1.sub.root_ne (by cases f.side <;> simp [on])).1
    have hside := hz1.side_eq hps
    have hnr : x ≠ h.tree.root := hz.hole_ne_root
    simp only [insertFixup, hp, hred, hside]
    rw [if_pos ⟨hnr, rfl⟩]
  have hb₁ := hk.black hz.sentinel_notMem hb
  rw [hround, ← hord]
  rw [← hord] at hk
  apply FixedBy.of_keeps hk
  obtain ⟨fuel, rfl⟩ : ∃ k', fuel = k' + 1 := ⟨fuel - 1, by omega⟩
  have hxs₁ : (insertFixupSide g.side h x).2 ≠ (insertFixupSide g.side h x).1.tree.sentinel := by
    obtain ⟨a, y, b, rfl, -⟩ := hv₁.exists_red .left
    exact (hz₁.sub.root_ne (by simp [on])).1
  rcases hor with rfl | hor
  · simp only [List.length_cons] at hlen
    exact ih fs₁.length (by omega) le_rfl (by omega) hz₁ hv₁ hb₁ hacc₁
  · exact fixedBy_exit hz₁ hxs₁ hb₁ hv₁ hacc₁ (.inr hor)

end Fixup

/-! ### The way down -/

section Insert
variable {h : RbHeap} {gs : List (Frame Nat)} {hole p z : Nat}

/-- **A red leaf is hung below a node.** The link that led to the sentinel leads to it,
and its own children are the sentinel. -/
theorem Zip.hang {d : Side} {c : Color} {b : RbTree Nat} {y : Nat}
    (hz : Zip h (⟨d, c, hole, b⟩ :: gs) .nil y hole)
    (hzn : z ∉ (fill gs (on d c .nil hole b)).inorder) (hzs : z ≠ h.tree.sentinel) :
    Zip { h with node := hangNode h.node hole d z h.tree.sentinel } (⟨d, c, hole, b⟩ :: gs)
        (.node .red .nil z .nil) z hole ∧
      Keeps (z :: (fill gs (on d c .nil hole b)).inorder) h
        { h with node := hangNode h.node hole d z h.tree.sentinel } := by
  have hzx : z ≠ hole := fun he => hzn (mem_fill.mpr (.inr (mem_inorder_on.mpr (.inl he))))
  obtain ⟨pr, hseg⟩ := hz.seg
  have helems : ∀ y ∈ elems (⟨d, c, hole, b⟩ :: gs), y ≠ z := by
    rintro y hy rfl
    apply hzn
    apply mem_fill.mpr
    rcases mem_elems_cons.mp hy with hy | hy | hy
    · exact .inr (mem_inorder_on.mpr (.inl hy))
    · exact .inr (mem_inorder_on.mpr (.inr (.inr hy)))
    · exact .inl hy
  refine ⟨⟨⟨pr, ?_⟩, ?_, ?_⟩, rfl, rfl, ?_, fun y => ?_⟩
  · refine hseg.redirect (nodup_elems hz.nodup) ?_
    intro y hy
    have hyz := helems y hy
    refine ⟨by simp [hangNode, ngxRbtRed, hyz], by simp [hangNode, ngxRbtRed, hyz], ?_⟩
    intro e
    simp [hangNode, ngxRbtRed, hyz, eq_comm]
  · refine ⟨rfl, hzs, by simp [hangNode, ngxRbtRed], by simp [hangNode, ngxRbtRed, colorCode],
      ?_, ?_⟩
    · simp [hangNode, ngxRbtRed, IsTree]
    · simp [hangNode, ngxRbtRed, IsTree]
  -- hung up where there was nothing, the new node is the only one that is added
  · have hperm : (fill (⟨d, c, hole, b⟩ :: gs) (RbTree.node .red .nil z .nil)).inorder.Perm
        (z :: (fill gs (on d c .nil hole b)).inorder) := by
      rw [inorder_fill, show fill gs (on d c .nil hole b) =
        fill (⟨d, c, hole, b⟩ :: gs) .nil from rfl, inorder_fill]
      simp [inorder]
    rw [hperm.nodup_iff, List.nodup_cons]
    exact ⟨hzn, hz.nodup⟩
  · intro y hy
    rw [List.mem_cons, not_or] at hy
    have hyh : y ≠ hole := fun he =>
      hy.2 (mem_fill.mpr (.inr (mem_inorder_on.mpr (.inl he))))
    simp only [hangNode, ngxRbtRed]
    rw [RbMem.setColor_ne hy.1, RbMem.setChild_ne hy.1, RbMem.setChild_ne hy.1,
      RbMem.setParent_ne hy.1, RbMem.setChild_ne hyh]
  · simp [hangNode, ngxRbtRed]

/-- The way down turns at every node as the comparison says and ends at a leaf, where the
new node is hung. The path is given as a context, whose sides are those of the
comparisons. -/
theorem insertValueBy_spec (less : RbMem → Nat → Nat → Bool) (t : RbTree Nat) :
    ∀ {gs : List (Frame Nat)} {hole p fuel : Nat},
    t ≠ .nil → Zip h gs t hole p → z ∉ (fill gs t).inorder → z ≠ h.tree.sentinel →
    t.inorder.length ≤ fuel →
    ∃ ps m' q, t = fill ps .nil ∧ ps ≠ [] ∧
      (∀ f ∈ ps, f.side = if less h.node z f.elem then .left else .right) ∧
      insertValueBy less fuel h.node hole z h.tree.sentinel = some m' ∧
      Zip { h with node := m' } (ps ++ gs) (.node .red .nil z .nil) z q ∧
      Keeps (z :: (fill gs t).inorder) h { h with node := m' } := by
  induction t with
  | nil => exact fun hne => absurd rfl hne
  | node c l x r ihl ihr => ?_
  intro gs hole p fuel _ hz hzn hzs hfuel
  obtain ⟨fuel, rfl⟩ : ∃ k, fuel = k + 1 :=
    ⟨fuel - 1, by simp only [inorder, List.length_append, List.length_cons] at hfuel; omega⟩
  -- the loop goes to the side that `less` tells, and on from there by the hypothesis
  set d : Side := if less h.node z x then .left else .right with hd
  obtain ⟨a, b, hon, hlt, ih⟩ : ∃ a b, RbTree.node c l x r = on d c a x b ∧
      a.inorder.length ≤ fuel ∧ ∀ {gs : List (Frame Nat)} {hole p fuel : Nat},
      a ≠ .nil → Zip h gs a hole p → z ∉ (fill gs a).inorder → z ≠ h.tree.sentinel →
      a.inorder.length ≤ fuel →
      ∃ ps m' q, a = fill ps .nil ∧ ps ≠ [] ∧
        (∀ f ∈ ps, f.side = if less h.node z f.elem then .left else .right) ∧
        insertValueBy less fuel h.node hole z h.tree.sentinel = some m' ∧
        Zip { h with node := m' } (ps ++ gs) (.node .red .nil z .nil) z q ∧
        Keeps (z :: (fill gs a).inorder) h { h with node := m' } := by
    simp only [inorder, List.length_append, List.length_cons] at hfuel
    cases d
    · exact ⟨l, r, rfl, by omega, ihl⟩
    · exact ⟨r, l, rfl, by omega, ihr⟩
  rw [hon] at hz hzn ⊢
  obtain ⟨rfl, hpar, hz1⟩ := hz.down
  have hfd : ∀ ps : List (Frame Nat),
      (∀ f ∈ ps, f.side = if less h.node z f.elem then Side.left else .right) →
      ∀ f ∈ ps ++ [⟨d, c, hole, b⟩], f.side = if less h.node z f.elem then .left else .right := by
    intro ps hps f hf
    rcases List.mem_append.mp hf with hf | hf
    · exact hps f hf
    · rw [List.mem_singleton.mp hf]
  by_cases ha : a = .nil
  · subst ha
    have hch : (h.node hole).child d = h.tree.sentinel := hz1.sub
    obtain ⟨hz', hk⟩ := hz1.hang hzn hzs
    refine ⟨[⟨d, c, hole, b⟩], hangNode h.node hole d z h.tree.sentinel, hole, rfl, by simp,
      hfd [] (by simp), ?_, hz', hk⟩
    simp only [insertValueBy, ← hd, hch, ↓reduceIte]
  · have hch : (h.node hole).child d ≠ h.tree.sentinel := (hz1.sub.root_ne ha).1
    obtain ⟨ps, m', q, he, -, hps, hrun, hz', hk⟩ := ih ha hz1 hzn hzs hlt
    refine ⟨ps ++ [⟨d, c, hole, b⟩], m', q, ?_, by simp, hfd ps hps, ?_, ?_, hk⟩
    · rw [fill_append, ← he]
      rfl
    · simp only [insertValueBy, ← hd, hch, ↓reduceIte]
      exact hrun
    · simpa using hz'

/-- The nodes the new node `z` is less than stand behind all others. This is what it takes
for the way down to end at the right place, and every sorted tree has it. -/
def Parted (keyOf : Nat → Bytes) (h : RbHeap) (z : Nat) (L : List Nat) : Prop :=
  L.Pairwise fun a b => insertValues keyOf h.tree.insert h.node z a = true →
    insertValues keyOf h.tree.insert h.node z b = true

/-- **Insertion.**  The node is in a red-black tree again, with the other nodes in
the order they had.  If the tree is in order, the node comes to stand behind the
nodes it is not less than and before those it is less than. -/
theorem mpsRbtreeInsert_spec {t : RbTree Nat} {fuel : Nat} {keyOf : Nat → Bytes}
    (hr : RbRep h t) (hzn : z ∉ t.inorder) (hzs : z ≠ h.tree.sentinel)
    (hfuel : t.inorder.length + 2 ≤ fuel) :
    ∃ h' t' xs ys, mpsRbtreeInsert fuel keyOf h z = some h' ∧ RbRep h' t' ∧
      t.inorder = xs ++ ys ∧ t'.inorder = xs ++ z :: ys ∧
      (Parted keyOf h z t.inorder →
        (∀ x ∈ xs, insertValues keyOf h.tree.insert h.node z x = false) ∧
        ∀ y ∈ ys, insertValues keyOf h.tree.insert h.node z y = true) ∧
      Keeps (z :: t.inorder) h h' := by
  obtain ⟨p, hz⟩ := hr.zip
  by_cases ht : t = .nil
  · subst ht
    have hroot : h.tree.root = h.tree.sentinel := hr.nil_iff.mpr rfl
    refine ⟨{ h with
        tree.root := z
        node := ngxRbtBlack (((h.node.setParent z 0).setChild z h.tree.sentinel .left).setChild z
          h.tree.sentinel .right) z },
      .node .black .nil z .nil, [], [], ?_, ⟨⟨0, ?_⟩, ?_, ?_, 1, ?_⟩, rfl, rfl,
      by simp, rfl, rfl, ?_, fun y => ?_⟩
    · simp only [mpsRbtreeInsert, hroot, ↓reduceIte]
    · refine ⟨rfl, hzs, ?_, ?_, ?_, ?_⟩
      · simp [ngxRbtBlack]
      · simp [ngxRbtBlack, colorCode]
      · simp [ngxRbtBlack, IsTree]
      · simp [ngxRbtBlack, IsTree]
    · simp [ngxRbtBlack, hzs.symm, hr.black]
    · simp [inorder]
    · exact .black .nil .nil
    · intro y hy
      have hyz : y ≠ z := by simpa using hy
      simp only [ngxRbtBlack]
      rw [RbMem.setColor_ne hyz, RbMem.setChild_ne hyz, RbMem.setChild_ne hyz,
        RbMem.setParent_ne hyz]
    · simp [ngxRbtBlack]
  · have hroot : h.tree.root ≠ h.tree.sentinel := fun he => ht (hr.nil_iff.mp he)
    obtain ⟨ps, m', q, he, hne, hps, hrun, hz', hk⟩ :=
      insertValueBy_spec (insertValues keyOf h.tree.insert) t ht hz hzn hzs
        (show t.inorder.length ≤ fuel by omega)
    rw [List.append_nil] at hz'
    -- the leaf hangs in a context that accepts a red node with two leaves
    obtain ⟨n₀, hval⟩ := hr.valid
    obtain ⟨c, n, hnil, hacc, -⟩ := of_fill_valid (he ▸ hval) fun _ => rfl
    cases hnil
    have hs : h.tree.sentinel ∉ z :: t.inorder := by
      rw [List.mem_cons, not_or]
      exact ⟨hzs.symm, hr.sentinel_notMem⟩
    have hord : (fill ps (.node .red .nil z .nil)).inorder = before ps ++ z :: after ps := by
      rw [inorder_fill]
      simp [inorder]
    have hord₀ : t.inorder = before ps ++ after ps := by
      rw [he, inorder_fill]
      simp
    have hlen : ps.length ≤ t.inorder.length := by
      rw [hord₀]
      exact length_le_elems ps
    obtain ⟨h₁, t', hfix, hrep, hin, hk'⟩ := insertFixup_spec ps.length le_rfl
      (show ps.length + 2 ≤ fuel by omega) hz' (.red .nil .nil) (hk.black hs hr.black) hacc
    have hside : ∀ f ∈ ps, f.side = .left ↔
        insertValues keyOf h.tree.insert h.node z f.elem = true := by
      intro f hf
      rw [hps f hf]
      split <;> simp_all
    refine ⟨_, t', before ps, after ps, ?_, hrep, hord₀, hin.trans hord, ?_,
      hk.trans (hk'.mono ?_)⟩
    · simp only [mpsRbtreeInsert, hroot, ↓reduceIte, hrun, hfix, Option.bind_eq_bind,
        Option.bind_some]
    · intro hmono
      obtain ⟨hbef, haft⟩ := path_split hside (he ▸ hmono)
      exact ⟨fun x hx => by simpa using hbef x hx, haft⟩
    · intro y hy
      rw [hord] at hy
      rw [fill_nil, hord₀]
      simp only [List.mem_cons, List.mem_append] at hy ⊢
      tauto

end Insert

end MpsShdict
