import MpsShdict.RbtreeInsert

/-! # Deletion from a red-black tree

The fixup loop runs on a tree whose only defect is that the black height of the subtree at
`temp` is one short. The subtree may be a leaf; its place is then told by the parent link
that the relinking stored in the sentinel.

The proof follows the code in three parts. The fixup loop is an induction on the context
again: a round settles the tree or takes the defect one level up (`deleteFixupSide_spec`),
after a rotation that turns a red sibling into a black one. The relinking has three cases,
the root with at most one child, another node with at most one child, and a node with two
children, whose successor takes its place; each is computed assignment by assignment,
since the code reads links that it has just written. `mpsRbtreeDelete_spec` then joins
them: the tree loses the node and nothing else, and is a red-black tree again.

Keys are kept and nodes outside of the tree are not written (`Removes`); the node that is
taken out gets the marks that the source leaves in it.
-/
namespace MpsShdict

open RedBlack RedBlack.RbTree

/-- Writing the colour that is there. -/
theorem RbMem.setColor_self {m : RbMem} {x v : Nat} (hc : (m x).color = v) :
    m.setColor x v = m := by
  funext y
  by_cases hy : y = x
  · subst hy
    simp [RbMem.setColor, ← hc]
  · exact RbMem.setColor_ne hy

/-- The loop has nothing left to do but blacken `temp`: either `temp` is the root, or it
is a red node whose blackening restores the missing level. -/
inductive Settled : List (Frame Nat) → RbTree Nat → Prop
  | root {t : RbTree Nat} {c : Color} {n : Nat} (hv : Valid t c n) : Settled [] t
  | red {fs : List (Frame Nat)} {d : Side} {a b : RbTree Nat} {x n : Nat} {c₁ c₂ : Color}
      (ha : Valid a c₁ n) (hb : Valid b c₂ n) (hacc : Accepts fs (n + 1)) :
      Settled fs (on d .red a x b)

/-- A run that ends with a red-black tree of the nodes `L`, in this order, with nothing
else written. -/
def RestoredBy (L : List Nat) (h : RbHeap) (r : Option RbHeap) : Prop :=
  ∃ h' t', r = some h' ∧ RbRep h' t' ∧ t'.inorder = L ∧ Keeps L h h'

theorem RestoredBy.of_keeps {L : List Nat} {h h' : RbHeap} {r : Option RbHeap}
    (k : Keeps L h h') (hf : RestoredBy L h' r) : RestoredBy L h r := by
  obtain ⟨h₁, t', h1, h2, h3, h4⟩ := hf
  exact ⟨h₁, t', h1, h2, h3, k.trans h4⟩

section Fixup
variable {h : RbHeap} {fs : List (Frame Nat)} {t N F S : RbTree Nat} {temp p n fuel w P : Nat}
  {d : Side} {c : Color}

/-- The end of the loop. -/
theorem deleteFixup_exit (hz : Zip h fs t temp p) (hs : Settled fs t)
    (hb : (h.node h.tree.sentinel).color = 0) :
    RestoredBy (fill fs t).inorder h (deleteFixup (fuel + 1) h temp) := by
  -- at the root, or at a red node that is made black
  cases hs with
  | @root t c n hv =>
    obtain ⟨hroot, -⟩ := hz.root
    have hrun : deleteFixup (fuel + 1) h temp =
        some { h with node := ngxRbtBlack h.node h.tree.root } := by
      simp [deleteFixup, hroot]
    rw [hrun]
    by_cases ht : t = .nil
    · subst ht
      have hrs : h.tree.root = h.tree.sentinel := hroot ▸ hz.sub
      have hself : ngxRbtBlack h.node h.tree.root = h.node :=
        RbMem.setColor_self (by rw [hrs, hb])
      rw [hself]
      exact ⟨h, .nil, rfl, ⟨⟨p, hrs⟩, hb, by simp, 0, .nil⟩, rfl, .refl _ _⟩
    · obtain ⟨t', h1, h2, h3⟩ := hz.blackenRoot hv ht hb
      exact ⟨_, t', rfl, h1, h2, h3⟩
  | @red fs d a b x n c₁ c₂ ha hb' hacc =>
    obtain ⟨hx, -, -⟩ := hz.down
    have hcol : ngxRbtIsRed h.node temp = true := by
      obtain ⟨-, -, -, hc, -⟩ := isTree_on.mp hz.sub
      simp [ngxRbtIsRed, hx, hc, colorCode]
    have hrun : deleteFixup (fuel + 1) h temp =
        some { h with node := ngxRbtBlack h.node temp } := by
      simp [deleteFixup, ngxRbtIsBlack, hcol]
    obtain ⟨hz', hk⟩ := hz.recolor .black
    rw [← hx] at hz' hk
    obtain ⟨pr, hroot⟩ := hz'.up_all
    obtain ⟨m, hval⟩ := fill_valid hacc (.onBlack ha hb' (d := d) (x := temp))
      (fun h => absurd h (by decide))
    have hord : (fill fs (on d .black a temp b)).inorder =
        (fill fs (on d .red a x b)).inorder := by
      rw [← hx]
      exact inorder_fill_congr fs (inorder_recolor _ _ _ _ _ _)
    have hk' : Keeps (fill fs (on d .red a x b)).inorder h
        { h with node := ngxRbtBlack h.node temp } := by
      refine hk.mono ?_
      intro y hy
      rw [List.mem_singleton.mp hy, hx]
      exact mem_fill.mpr (.inr (mem_inorder_on.mpr (.inl rfl)))
    rw [hrun]
    exact ⟨_, _, rfl, ⟨⟨pr, hroot⟩, hk'.black hz.sentinel_notMem hb, hz'.nodup, m, hval⟩,
      hord, hk'⟩

/-- The last rotation of the loop, with a red far nephew. The sibling comes up with the
colour of the parent, and both its children are black: every way down has as many black
nodes as before the deletion. -/
theorem deleteFixup_last {d' : Side} {F₁ F₂ : RbTree Nat} {y : Nat} {cN : Color}
    (hz : Zip h (⟨d, c, P, on d .black N w (on d' .red F₁ y F₂)⟩ :: fs) t temp P)
    (hv : Valid t .black n) (hN : Valid N cN n) (h₁ : Valid F₁ .black n) (h₂ : Valid F₂ .black n)
    (hacc : Accepts (⟨d, c, P, on d .black N w (on d' .red F₁ y F₂)⟩ :: fs) (n + 1)) :
    let m := ngxRbtBlack (ngxRbtBlack (ngxRbtCopyColor h.node w P) P) y
    let h' := mpsRbtreeRotate d { h with node := m } P
    ∃ t' q, Zip h' [] t' h'.tree.root q ∧ Settled [] t' ∧
      t'.inorder = (fill (⟨d, c, P, on d .black N w (on d' .red F₁ y F₂)⟩ :: fs) t).inorder ∧
      Keeps (fill (⟨d, c, P, on d .black N w (on d' .red F₁ y F₂)⟩ :: fs) t).inorder h h' := by
  intro m h'
  obtain ⟨-, -, hz1⟩ := hz.up
  dsimp only at hz1
  have hPc : (h.node P).color = colorCode c := (isTree_on.mp hz1.sub).2.2.2.1
  -- three colours are written, then the parent is rotated over
  obtain ⟨hz2, k2⟩ := hz1.recolorFar c
  obtain ⟨hz3, k3⟩ := hz2.recolor .black
  obtain ⟨hz4, k4⟩ := hz3.recolorFar₂ .black
  obtain ⟨hz5, k5⟩ := hz4.rotate
  have hm : m = ((h.node.setColor w (colorCode c)).setColor P (colorCode .black)).setColor y
      (colorCode .black) := by
    simp only [m, ngxRbtBlack, ngxRbtCopyColor, hPc, colorCode]
  rw [show mpsRbtreeRotate d _ P = h' by simp only [h', hm]] at hz5 k5
  -- colours do not change the order of the nodes
  have hord : (fill fs (on d .black t P (on d c N w (on d' .black F₁ y F₂)))).inorder =
      (fill fs (on d c t P (on d .black N w (on d' .red F₁ y F₂)))).inorder :=
    inorder_fill_congr fs (inorder_on_congr rfl
      (inorder_on_congr rfl (inorder_recolor _ _ _ _ _ _)))
  rw [hord] at k5
  have hmem : ∀ z, z = w ∨ z = P ∨ z = y →
      z ∈ (fill fs (on d c t P (on d .black N w (on d' .red F₁ y F₂)))).inorder := by
    intro z hz'
    refine mem_fill.mpr (.inr ?_)
    simp only [mem_inorder_on]
    tauto
  have hk : Keeps (fill fs (on d c t P (on d .black N w (on d' .red F₁ y F₂)))).inorder h h' := by
    refine ((k2.mono fun z hz' => hmem z ?_).trans ((k3.mono fun z hz' => hmem z ?_).trans
      (k4.mono fun z hz' => hmem z ?_))).trans k5
    · exact .inl (List.mem_singleton.mp hz')
    · exact .inr (.inl (List.mem_singleton.mp hz'))
    · exact .inr (.inr (List.mem_singleton.mp hz'))
  obtain ⟨pr, hroot⟩ := hz5.up_all
  have hF : Valid (on d' .black F₁ y F₂) .black (n + 1) := .onBlack h₁ h₂
  have hsub : ∃ m, Valid (fill fs (on d c (on d .black t P N) w (on d' .black F₁ y F₂)))
      .black m := by
    cases c with
    | red =>
      obtain ⟨-, hh, hup⟩ := (accepts_red rfl).mp hacc
      exact fill_valid hup (.onRed (.onBlack hv hN) hF) (fun _ => hh)
    | black =>
      obtain ⟨-, hup⟩ := (accepts_black rfl).mp hacc
      exact fill_valid hup (.onBlack (.onBlack hv hN) hF) (fun h => absurd h (by decide))
  obtain ⟨k, hval⟩ := hsub
  refine ⟨_, pr, Zip.of_root hroot hz5.nodup, .root hval, ?_, hk⟩
  calc (fill fs (on d c (on d .black t P N) w (on d' .black F₁ y F₂))).inorder
      = (fill fs (on d .black t P (on d c N w (on d' .black F₁ y F₂)))).inorder :=
        inorder_fill_congr fs (inorder_rotate _ _ _ _ _ _ _ _ _ _)
    _ = _ := hord

/-- The place of `temp` stays told by its parent link, also when `temp` is the sentinel. A
rotation about the sibling must not write the parent link of the sentinel, and does not
since it tests for it. -/
theorem parent_keep {h' : RbHeap} {L : List Nat} {gs : List (Frame Nat)} {q : Nat}
    (hz : Zip h' gs t temp q) (hk : Keeps L h h') (hs : h.tree.sentinel ∉ L)
    (hpar : (h.node temp).parent = P) (hq : q = P) : (h'.node temp).parent = P := by
  by_cases ht : temp = h.tree.sentinel
  · rw [ht, hk.off _ hs, ← ht, hpar]
  · rw [hz.sub.parent (by rwa [hk.sentinel]), hq]

/-- The rotation about a black sibling with a red near child and a black far one. It makes
the near child the sibling, whose far child is now red, so that the last rotation applies. -/
theorem deleteFixup_near {e b : RbTree Nat} {x : Nat}
    (hz : Zip h (⟨d, c, P, on d .black (on d .red e x b) w F⟩ :: fs) t temp P) :
    let h' := mpsRbtreeRotate d.other { h with node := ngxRbtRed (ngxRbtBlack h.node x) w } w
    Zip h' (⟨d, c, P, on d .black e x (on d .red b w F)⟩ :: fs) t temp P ∧
      (fill (⟨d, c, P, on d .black e x (on d .red b w F)⟩ :: fs) t).inorder =
        (fill (⟨d, c, P, on d .black (on d .red e x b) w F⟩ :: fs) t).inorder ∧
      Keeps (fill (⟨d, c, P, on d .black (on d .red e x b) w F⟩ :: fs) t).inorder h h' := by
  intro h'
  obtain ⟨-, -, hz1⟩ := hz.up
  have hz2 : Zip h fs (on d c t P (on d.other .black F w (on d .red e x b))) P
      (h.node P).parent := by
    rw [on_other d .black]
    exact hz1
  -- two colours are written, then the sibling is rotated over, from its side
  obtain ⟨hz3, k3⟩ := hz2.recolorFar₂ .black
  obtain ⟨hz4, k4⟩ := hz3.recolorFar .red
  have hz5 := hz4
  rw [← on_other d c, ← on_other d .black] at hz5
  obtain ⟨-, -, hz6⟩ := hz5.down
  obtain ⟨hw, -, -⟩ := hz6.down
  obtain ⟨hz7, k7⟩ := hz6.rotate
  obtain ⟨-, -, hz8⟩ := hz7.up
  dsimp only at hz8
  rw [on_other d c, on_other d .black (on d.other .red F w b), on_other d .red F w b] at hz8
  obtain ⟨-, -, hz9⟩ := hz8.down
  have hord : (fill (⟨d, c, P, on d .black e x (on d .red b w F)⟩ :: fs) t).inorder =
      (fill (⟨d, c, P, on d .black (on d .red e x b) w F⟩ :: fs) t).inorder :=
    inorder_fill_congr fs (inorder_on_congr rfl (inorder_rotate _ _ _ _ _ _ _ _ _ _).symm)
  have hL : (fill (⟨d.other, c, P, t⟩ :: fs)
      (on d.other .red F w (on d.other .black b x e))).inorder =
      (fill (⟨d, c, P, on d .black (on d .red e x b) w F⟩ :: fs) t).inorder := by
    rw [fill_cons, fill_cons, on_other d c, on_other d .red F w, on_other d .black b]
    exact inorder_fill_congr fs (inorder_on_congr rfl
      (inorder_on_congr (inorder_recolor _ _ _ _ _ _) rfl))
  rw [hL] at k7
  have hmem : ∀ z, z = x ∨ z = w →
      z ∈ (fill (⟨d, c, P, on d .black (on d .red e x b) w F⟩ :: fs) t).inorder := by
    intro z hz'
    refine mem_fill.mpr (.inl ?_)
    simp only [mem_elems_cons, mem_inorder_on]
    tauto
  have hk : Keeps (fill (⟨d, c, P, on d .black (on d .red e x b) w F⟩ :: fs) t).inorder h h' :=
    ((k3.mono fun z hz' => hmem z (.inl (List.mem_singleton.mp hz'))).trans
      (k4.mono fun z hz' => hmem z (.inr (List.mem_singleton.mp hz')))).trans k7
  have htemp := (hk.sentinel ▸ hz9.sub).root_unique hz.sub
  exact ⟨htemp ▸ hz9, hord, hk⟩

/-- **The second half of a round**, below a black sibling: the defect is one level up, or
the loop has settled. The three cases are two black nephews, a red far one, and a red near
one. -/
theorem deleteFixupNephews_spec (hz : Zip h (⟨d, c, P, S⟩ :: fs) t temp P)
    (hpar : (h.node temp).parent = P) (hw : (h.node P).child d.other = w)
    (hb : (h.node h.tree.sentinel).color = 0) (hv : Valid t .black n)
    (hS : Valid S .black (n + 1)) (hacc : Accepts (⟨d, c, P, S⟩ :: fs) (n + 1)) :
    ∃ fs₁ t₁ p₁, Zip (deleteFixupNephews d h temp P w).1 fs₁ t₁
        (deleteFixupNephews d h temp P w).2 p₁ ∧
      (Settled fs₁ t₁ ∨ c = .black ∧ fs₁ = fs ∧ t₁ ≠ .nil ∧ Valid t₁ .black (n + 1) ∧
        Accepts fs (n + 2)) ∧
      (fill fs₁ t₁).inorder = (fill (⟨d, c, P, S⟩ :: fs) t).inorder ∧
      Keeps (fill (⟨d, c, P, S⟩ :: fs) t).inorder h (deleteFixupNephews d h temp P w).1 := by
  obtain ⟨N, x, F, cN, cF, rfl, hN, hF⟩ := hS.exists_black d
  obtain ⟨-, hch, hz1⟩ := hz.up
  dsimp only at hch hz1
  obtain ⟨-, -, -, -, -, hsib⟩ := isTree_on.mp hz1.sub
  obtain ⟨hwx, -, -, -, hNt, hFt⟩ := isTree_on.mp hsib
  rw [hw] at hwx
  subst hwx
  have hredN := hNt.isRed hb hN
  have hredF := hFt.isRed hb hF
  cases cF with
  | red =>
    -- the far nephew is red: one rotation ends the loop
    obtain ⟨F₁, y, F₂, rfl, h₁, h₂⟩ := hF.exists_red .left
    have hy : (h.node w).child d.other = y := (isTree_on.mp hFt).1
    obtain ⟨t', q, k1, k2, k3, k4⟩ := deleteFixup_last hz hv hN h₁ h₂ hacc
    have hres : deleteFixupNephews d h temp P w =
        (mpsRbtreeRotate d { h with
          node := ngxRbtBlack (ngxRbtBlack (ngxRbtCopyColor h.node w P) P) y } P,
        (mpsRbtreeRotate d { h with
          node := ngxRbtBlack (ngxRbtBlack (ngxRbtCopyColor h.node w P) P) y } P).tree.root) := by
      rw [hy] at hredF
      simp [deleteFixupNephews, ngxRbtIsBlack, hy, hredF]
    rw [hres]
    exact ⟨[], t', q, k1, .inl k2, k3, k4⟩
  | black =>
    cases cN with
    | black =>
      -- both nephews are black: the defect moves up
      have hres : deleteFixupNephews d h temp P w =
          ({ h with node := ngxRbtRed h.node w }, P) := by
        simp [deleteFixupNephews, ngxRbtIsBlack, hredN, hredF]
      obtain ⟨k1, c1⟩ := hz1.recolorFar .red
      have hw' : Valid (on d .red N w F) .red n := .onRed hN hF
      rw [hres]
      refine ⟨fs, _, _, k1, ?_,
        inorder_fill_congr fs (inorder_on_congr rfl (inorder_recolor _ _ _ _ _ _)), ?_⟩
      · cases c with
        | red => exact .inl (.red hv hw' ((accepts_red rfl).mp hacc).2.2)
        | black =>
          exact .inr ⟨rfl, rfl, by cases d <;> simp [on], .onBlack hv hw',
            ((accepts_black rfl).mp hacc).2⟩
      · refine c1.mono ?_
        intro z hz'
        rw [List.mem_singleton.mp hz']
        exact mem_fill.mpr (.inl (by simp [mem_elems_cons, mem_inorder_on]))
    | red =>
      -- the near nephew is red: a rotation about `w` makes the far one red
      obtain ⟨e, x, b, rfl, he, hb'⟩ := hN.exists_red d
      have hx : (h.node w).child d = x := (isTree_on.mp hNt).1
      obtain ⟨hz2, hord, hk2⟩ := deleteFixup_near hz
      have hp2 := parent_keep hz2 hk2 hz.sentinel_notMem hpar rfl
      obtain ⟨-, -, hz3⟩ := hz2.up
      obtain ⟨-, -, -, -, -, hsib2⟩ := isTree_on.mp hz3.sub
      obtain ⟨hw2, -, -, -, -, hFt2⟩ := isTree_on.mp hsib2
      have hwF := (isTree_on.mp hFt2).1
      have hacc2 : Accepts (⟨d, c, P, on d .black e x (on d .red b w F)⟩ :: fs) (n + 1) := by
        have hS2 : Valid (on d .black e x (on d .red b w F)) .black (n + 1) :=
          .onBlack he (.onRed hb' hF)
        cases c with
        | red => exact (accepts_red rfl).mpr ⟨hS2, ((accepts_red rfl).mp hacc).2⟩
        | black => exact (accepts_black rfl).mpr ⟨⟨_, hS2⟩, ((accepts_black rfl).mp hacc).2⟩
      obtain ⟨t', q, k1, k2, k3, k4⟩ := deleteFixup_last hz2 hv he hb' hF hacc2
      set h₂ := mpsRbtreeRotate d.other { h with node := ngxRbtRed (ngxRbtBlack h.node x) w } w
        with hh₂
      have hres : deleteFixupNephews d h temp P w =
          (mpsRbtreeRotate d { h₂ with
            node := ngxRbtBlack (ngxRbtBlack (ngxRbtCopyColor h₂.node x P) P) w } P,
          (mpsRbtreeRotate d { h₂ with
            node :=
              ngxRbtBlack (ngxRbtBlack (ngxRbtCopyColor h₂.node x P) P) w } P).tree.root) := by
        rw [hx] at hredN
        simp [deleteFixupNephews, ngxRbtIsBlack, hx, hredN, hredF, ← hh₂, hp2, hw2, hwF]
      rw [hres]
      rw [hord] at k3 k4
      exact ⟨[], t', q, k1, .inl k2, k3, hk2.trans k4⟩

/-- The rotation that gives `temp` a black sibling. The parent is red afterwards, so the
loop will end in this round. -/
theorem deleteFixup_sibling (hz : Zip h (⟨d, .black, P, on d .red N w F⟩ :: fs) t temp P) :
    let h' := mpsRbtreeRotate d { h with node := ngxRbtRed (ngxRbtBlack h.node w) P } P
    Zip h' (⟨d, .red, P, N⟩ :: ⟨d, .black, w, F⟩ :: fs) t temp P ∧
      (fill (⟨d, .red, P, N⟩ :: ⟨d, .black, w, F⟩ :: fs) t).inorder =
        (fill (⟨d, .black, P, on d .red N w F⟩ :: fs) t).inorder ∧
      Keeps (fill (⟨d, .black, P, on d .red N w F⟩ :: fs) t).inorder h h' := by
  intro h'
  obtain ⟨-, -, hz1⟩ := hz.up
  obtain ⟨hz2, k2⟩ := hz1.recolorFar .black
  obtain ⟨hz3, k3⟩ := hz2.recolor .red
  obtain ⟨hz4, k4⟩ := hz3.rotate
  obtain ⟨-, -, hz5⟩ := hz4.down
  obtain ⟨hP, -, hz6⟩ := hz5.down
  have hord : (fill (⟨d, .red, P, N⟩ :: ⟨d, .black, w, F⟩ :: fs) t).inorder =
      (fill (⟨d, .black, P, on d .red N w F⟩ :: fs) t).inorder :=
    inorder_fill_congr fs (inorder_rotate _ _ _ _ _ _ _ _ _ _)
  have hL : (fill fs (on d .red t P (on d .black N w F))).inorder =
      (fill (⟨d, .black, P, on d .red N w F⟩ :: fs) t).inorder :=
    inorder_fill_congr fs (inorder_on_congr rfl (inorder_recolor _ _ _ _ _ _))
  rw [hL] at k4
  have hmem : ∀ z, z = w ∨ z = P →
      z ∈ (fill (⟨d, .black, P, on d .red N w F⟩ :: fs) t).inorder := by
    intro z hz'
    refine mem_fill.mpr (.inl ?_)
    simp only [mem_elems_cons, mem_inorder_on]
    tauto
  have hk : Keeps (fill (⟨d, .black, P, on d .red N w F⟩ :: fs) t).inorder h h' :=
    ((k2.mono fun z hz' => hmem z (.inl (List.mem_singleton.mp hz'))).trans
      (k3.mono fun z hz' => hmem z (.inr (List.mem_singleton.mp hz')))).trans k4
  have htemp := (hk.sentinel ▸ hz6.sub).root_unique hz.sub
  exact ⟨htemp ▸ hz6, hord, hk⟩

/-- One round of the loop: it settles, or the defect is one level up. -/
theorem deleteFixupSide_spec (hz : Zip h (⟨d, c, P, S⟩ :: fs) t temp P)
    (hpar : (h.node temp).parent = P)
    (hb : (h.node h.tree.sentinel).color = 0) (hv : Valid t .black n)
    (hacc : Accepts (⟨d, c, P, S⟩ :: fs) (n + 1)) :
    ∃ fs₁ t₁ p₁, Zip (deleteFixupSide d h temp).1 fs₁ t₁ (deleteFixupSide d h temp).2 p₁ ∧
      (Settled fs₁ t₁ ∨ fs₁ = fs ∧ t₁ ≠ .nil ∧ Valid t₁ .black (n + 1) ∧
        Accepts fs (n + 2)) ∧
      (fill fs₁ t₁).inorder = (fill (⟨d, c, P, S⟩ :: fs) t).inorder ∧
      Keeps (fill (⟨d, c, P, S⟩ :: fs) t).inorder h (deleteFixupSide d h temp).1 := by
  obtain ⟨cs, hS⟩ : ∃ cs, Valid S cs (n + 1) := by
    cases c with
    | red => exact ⟨_, ((accepts_red rfl).mp hacc).1⟩
    | black => exact ((accepts_black rfl).mp hacc).1
  obtain ⟨-, -, hz1⟩ := hz.up
  obtain ⟨-, -, -, -, -, hSt⟩ := isTree_on.mp hz1.sub
  have hred := hSt.isRed hb hS
  cases cs with
  | black =>
    have hres : deleteFixupSide d h temp =
        deleteFixupNephews d h temp P ((h.node P).child d.other) := by
      simp [deleteFixupSide, hpar, hred]
    rw [hres]
    obtain ⟨fs₁, t₁, p₁, k1, k2, k3, k4⟩ := deleteFixupNephews_spec hz hpar rfl hb hv hS hacc
    exact ⟨fs₁, t₁, p₁, k1, k2.imp id (fun k => k.2), k3, k4⟩
  | red =>
    -- a red sibling has a black parent
    have hc : c = .black := by
      cases c with
      | red =>
        have h₁ : Valid S .black (n + 1) := ((accepts_red rfl).mp hacc).1
        obtain ⟨u, y, v, rfl, -⟩ := hS.exists_red .left
        cases h₁.of_onRed.1
      | black => rfl
    subst hc
    obtain ⟨N, w, F, rfl, hN, hF⟩ := hS.exists_red d
    have hw : (h.node P).child d.other = w := (isTree_on.mp hSt).1
    -- rotated over, the new sibling is a nephew and black
    obtain ⟨hz2, hord, hk2⟩ := deleteFixup_sibling hz
    set h₂ := mpsRbtreeRotate d { h with node := ngxRbtRed (ngxRbtBlack h.node w) P } P with hh₂
    have hp2 := parent_keep hz2 hk2 hz.sentinel_notMem hpar rfl
    have hb2 := hk2.black hz.sentinel_notMem hb
    have hres : deleteFixupSide d h temp =
        deleteFixupNephews d h₂ temp P ((h₂.node P).child d.other) := by
      rw [hw] at hred
      simp [deleteFixupSide, hpar, hw, hred, ← hh₂, hp2]
    have hacc2 : Accepts (⟨d, .red, P, N⟩ :: ⟨d, .black, w, F⟩ :: fs) (n + 1) :=
      (accepts_red rfl).mpr ⟨hN, rfl, (accepts_black rfl).mpr
        ⟨⟨_, hF⟩, ((accepts_black rfl).mp hacc).2⟩⟩
    obtain ⟨fs₁, t₁, p₁, k1, k2, k3, k4⟩ :=
      deleteFixupNephews_spec hz2 hp2 rfl hb2 hv hN hacc2
    rw [hres]
    rw [hord] at k3 k4
    exact ⟨fs₁, t₁, p₁, k1, k2.imp id (fun k => absurd k.1 (by simp)), k3, hk2.trans k4⟩

/-- **The fixup loop** makes up for a missing level of black nodes at `temp`. The
induction is on the length of the path to the root; what the invariant says besides is
that the parent link of `temp` leads to the node it hangs on, which matters when `temp` is
the sentinel. -/
theorem deleteFixup_spec (k : Nat) : ∀ {h : RbHeap} {fs : List (Frame Nat)} {t : RbTree Nat}
    {temp p n fuel : Nat}, fs.length ≤ k → k + 2 ≤ fuel → Zip h fs t temp p →
    (fs ≠ [] → (h.node temp).parent = p) → (h.node h.tree.sentinel).color = 0 →
    Valid t .black n → Accepts fs (n + 1) →
    RestoredBy (fill fs t).inorder h (deleteFixup fuel h temp) := by
  induction k with
  | zero =>
    intro h fs t temp p n fuel hlen hfuel hz _ hb hv _
    obtain ⟨fuel, rfl⟩ : ∃ k', fuel = k' + 1 := ⟨fuel - 1, by omega⟩
    obtain rfl : fs = [] := List.length_eq_zero_iff.mp (by omega)
    exact deleteFixup_exit hz (.root hv) hb
  | succ k ih =>
    intro h fs t temp p n fuel hlen hfuel hz hpar hb hv hacc
    obtain ⟨fuel, rfl⟩ : ∃ k', fuel = k' + 1 := ⟨fuel - 1, by omega⟩
    cases fs with
    | nil => exact deleteFixup_exit hz (.root hv) hb
    | cons f fs =>
      have hp := hpar (by simp)
      obtain ⟨d, c, P, S⟩ := f
      obtain ⟨rfl, hch, hz1⟩ := hz.up
      dsimp only at *
      -- `temp` hangs on side `d`, also when it is the sentinel
      have hside : (if temp = (h.node p).left then Side.left else Side.right) = d := by
        refine sideOf_eq hch ?_
        intro he
        by_cases hts : temp = h.tree.sentinel
        · obtain ⟨-, -, -, -, -, hSt⟩ := isTree_on.mp hz1.sub
          rw [he, hts] at hSt
          obtain rfl := hSt.eq_nil
          cases c with
          | red => nomatch ((accepts_red rfl).mp hacc).1
          | black => nomatch ((accepts_black rfl).mp hacc).1
        · exact hz.other_ne hts he
      obtain ⟨fs₁, t₁, p₁, hz₁, hor, hord, hk⟩ := deleteFixupSide_spec hz hp hb hv hacc
      have hround : deleteFixup (fuel + 1) h temp =
          deleteFixup fuel (deleteFixupSide d h temp).1 (deleteFixupSide d h temp).2 := by
        have hblack : ngxRbtIsBlack h.node temp = true := by
          simp [ngxRbtIsBlack, hz.sub.isRed hb hv]
        simp only [deleteFixup, hp, hside]
        rw [if_pos ⟨hz.hole_ne_root, hblack⟩]
      have hb₁ := hk.black hz.sentinel_notMem hb
      rw [hround, ← hord]
      rw [← hord] at hk
      apply RestoredBy.of_keeps hk
      rcases hor with hset | ⟨rfl, hne, hv₁, hacc₁⟩
      · obtain ⟨fuel, rfl⟩ : ∃ k', fuel = k' + 1 := ⟨fuel - 1, by omega⟩
        exact deleteFixup_exit hz₁ hset hb₁
      · simp only [List.length_cons] at hlen
        exact ih (by omega) (by omega) hz₁ (fun _ => hz₁.sub.parent (hz₁.sub.root_ne hne).1)
          hb₁ hv₁ hacc₁

end Fixup

/-! ### The way to the node -/

/-- **The leftmost node** of a subtree is what `mps_rbtree_min` finds. It is given with
its path, all of whose turns are to the left, and with its right subtree. -/
theorem mpsRbtreeMin_spec {m : RbMem} {s : Nat} {t : RbTree Nat} : ∀ {p r fuel : Nat},
    IsTree m s p t r → t ≠ .nil → t.inorder.length ≤ fuel →
    ∃ gs c y B, t = fill gs (.node c .nil y B) ∧ (∀ f ∈ gs, f.side = .left) ∧
      mpsRbtreeMin fuel m r s = some y := by
  -- induction on the tree: the least node is the last one to the left
  induction t with
  | nil => exact fun _ hne => absurd rfl hne
  | node c l x rt ihl ihr =>
    intro p r fuel ht _ hfuel
    obtain ⟨rfl, hne, -, -, hl, -⟩ := ht
    simp only [inorder, List.length_append, List.length_cons] at hfuel
    obtain ⟨fuel, rfl⟩ : ∃ k, fuel = k + 1 := ⟨fuel - 1, by omega⟩
    by_cases hln : l = .nil
    · subst hln
      have hleft : (m r).left = s := hl
      exact ⟨[], c, r, rt, rfl, by simp, by simp [mpsRbtreeMin, hleft]⟩
    · have hleft : (m r).left ≠ s := (hl.root_ne hln).1
      obtain ⟨gs, cy, y, B, he, hs, hrun⟩ := @ihl r ((m r).child .left) fuel hl hln (by omega)
      refine ⟨gs ++ [⟨.left, c, r, rt⟩], cy, y, B, ?_, ?_, ?_⟩
      · rw [fill_append, ← he]
        rfl
      · intro f hf
        rcases List.mem_append.mp hf with hf | hf
        · exact hs f hf
        · rw [List.mem_singleton.mp hf]
      · rw [mpsRbtreeMin, if_pos hleft]
        exact hrun

/-! ### Taking the node out -/

/-- What taking the node `z` out of a tree with the nodes `L` leaves alone: the keys of
the other nodes, the header but for the root, and every node that is not one of `L`. Of
the sentinel only the colour is kept, since its parent link is written. -/
structure Removes (L : List Nat) (z : Nat) (h h' : RbHeap) : Prop where
  sentinel : h'.tree.sentinel = h.tree.sentinel
  insert : h'.tree.insert = h.tree.insert
  off : ∀ y, y ∉ L → y ≠ h.tree.sentinel → h'.node y = h.node y
  black : (h'.node h.tree.sentinel).color = (h.node h.tree.sentinel).color
  key : ∀ y, y ≠ z → (h'.node y).key = (h.node y).key

theorem Removes.trans_keeps {L S : List Nat} {z : Nat} {h h₁ h₂ : RbHeap}
    (r : Removes L z h h₁) (k : Keeps S h₁ h₂) (hS : ∀ y ∈ S, y ∈ L)
    (hs : h.tree.sentinel ∉ L) : Removes L z h h₂ :=
  ⟨k.sentinel.trans r.sentinel, k.insert.trans r.insert,
    fun y hy hs => (k.off y (fun h' => hy (hS y h'))).trans (r.off y hy hs),
    (congrArg RbNode.color (k.off _ fun h' => hs (hS _ h'))).trans r.black,
    fun y hy => (k.key y).trans (r.key y hy)⟩

theorem debugStuff_ne {m : RbMem} {x a : Nat} (h : a ≠ x) : debugStuff m x a = m a := by
  rw [debugStuff, RbMem.setKey_ne h, RbMem.setParent_ne h, RbMem.setChild_ne h,
    RbMem.setChild_ne h]

section Delete
variable {h : RbHeap} {f : Frame Nat} {fs gs : List (Frame Nat)} {t a l B : RbTree Nat}
  {z y p q n k fuel temp : Nat} {d : Side} {c cy : Color}

/-- A run that ends with the tree without `z`. -/
def RemovedBy (L : List Nat) (z : Nat) (h : RbHeap) (r : Option RbHeap) : Prop :=
  ∃ h' t' xs ys, r = some h' ∧ RbRep h' t' ∧ L = xs ++ z :: ys ∧ t'.inorder = xs ++ ys ∧
    Removes L z h h'

/-- The root, with one child at most: the child becomes the root. -/
theorem mpsRbtreeDelete_root (hz : Zip h [] (on d c .nil z a) z p)
    (hb : (h.node h.tree.sentinel).color = 0) (hv : Valid (on d c .nil z a) .black n)
    (ht : temp = (h.node z).child d.other) :
    RemovedBy (on d c .nil z a).inorder z h
      (some { h with tree.root := temp, node := debugStuff (ngxRbtBlack h.node temp) z }) := by
  obtain ⟨-, hzs, -, -, -, ha⟩ := isTree_on.mp hz.sub
  rw [← ht] at ha
  obtain ⟨-, n2, -, -, n5⟩ := nodup_on hz.nodup
  set h₁ : RbHeap := { h with tree.root := temp } with hh₁
  have hz₁ : Zip h₁ [] a temp z := Zip.of_root ha n5
  have hva : ∃ ca m, Valid a ca m := by
    cases c with
    | red => cases hv.of_onRed.1
    | black =>
      obtain ⟨-, m, -, ca, -, -, ha'⟩ := hv.of_onBlack
      exact ⟨ca, m, ha'⟩
  -- the tree below with a blackened root
  obtain ⟨a', hrep, hin, hk⟩ : ∃ a', RbRep { h₁ with node := ngxRbtBlack h₁.node temp } a' ∧
      a'.inorder = a.inorder ∧ Keeps a.inorder h₁ { h₁ with node := ngxRbtBlack h₁.node temp } := by
    by_cases han : a = .nil
    · subst han
      have hts : temp = h.tree.sentinel := ha
      have hself : ngxRbtBlack h₁.node temp = h₁.node :=
        RbMem.setColor_self (by rw [hts]; exact hb)
      rw [hself]
      exact ⟨.nil, ⟨⟨z, hts⟩, hb, by simp, 0, .nil⟩, rfl, .refl _ _⟩
    · obtain ⟨ca, m, hva⟩ := hva
      exact hz₁.blackenRoot hva han hb
  have hord : ∃ xs ys, (on d c .nil z a).inorder = xs ++ z :: ys ∧ a.inorder = xs ++ ys := by
    cases d
    · exact ⟨[], a.inorder, rfl, rfl⟩
    · exact ⟨a.inorder, [], rfl, by simp⟩
  obtain ⟨xs, ys, hx, hy⟩ := hord
  refine ⟨_, a', xs, ys, rfl, hrep.frame rfl ?_, hx, hin.trans hy,
    rfl, rfl, ?_, ?_, ?_⟩
  · intro y hy
    apply debugStuff_ne
    rintro rfl
    rcases hy with hy | hy
    · exact n2 (hin ▸ hy)
    · exact hzs hy
  · intro y hy _
    rw [mem_inorder_on, not_or, not_or] at hy
    dsimp only
    rw [debugStuff_ne hy.1]
    exact hk.off y hy.2.2
  · dsimp only
    rw [debugStuff_ne (Ne.symm hzs)]
    exact congrArg RbNode.color (hk.off _ ha.sentinel_notMem)
  · intro y hy
    dsimp only
    rw [debugStuff_ne hy]
    exact hk.key y

/-- A node with one child at most, below another: the child takes its place. -/
theorem deleteRelink_self (hz : Zip h (f :: fs) (on d c .nil z a) z p)
    (ht : temp = (h.node z).child d.other) :
    let h' := { deleteRelink h z z temp with
      node := debugStuff (deleteRelink h z z temp).node z }
    Zip h' (f :: fs) a temp p ∧ (h'.node temp).parent = p ∧
      Removes (fill (f :: fs) (on d c .nil z a)).inorder z h h' := by
  intro h'
  obtain ⟨-, hzs, hpz, -, -, ha⟩ := isTree_on.mp hz.sub
  rw [← ht] at ha
  obtain ⟨n1, n2, n3, n4, n5⟩ := nodup_on (nodup_hole hz.nodup)
  have hside := hz.side_eq hzs
  obtain ⟨pr, hseg⟩ := hz.seg
  have hp : p = f.elem := hseg.1
  have hdis : ∀ w ∈ elems (f :: fs), w ≠ z ∧ w ∉ a.inorder := by
    intro w hw
    have := disjoint_of_nodup hz.nodup hw
    simp only [mem_inorder_on, not_or] at this
    exact ⟨this.1, this.2.2⟩
  have hpm : p ∈ elems (f :: fs) := mem_elems_cons.mpr (.inl hp)
  have hpz' : p ≠ z := (hdis p hpm).1
  have htz : temp ≠ z := by
    intro he
    exact n2 (he ▸ ha.root_mem (he ▸ hzs))
  -- what is written is the link of the parent on the side of `z`, and the way back
  have hrun : h' = { h with
      node := debugStuff ((h.node.setChild p temp f.side).setParent temp p) z } := by
    simp only [h', deleteRelink, hpz, ↓reduceIte, RbHeap.mk.injEq, true_and]
    cases hf : f.side with
    | left =>
      rw [hf] at hside
      have hleft : z = (h.node p).left := by by_contra hne; simp [hne] at hside
      simp [← hleft, hpz]
    | right =>
      rw [hf] at hside
      have hleft : z ≠ (h.node p).left := by intro he; simp [← he] at hside
      simp [hleft, hpz]
  have hnode : ∀ w, w ≠ z → h'.node w = (h.node.setChild p temp f.side).setParent temp p w := by
    intro w hw
    rw [hrun]
    exact debugStuff_ne hw
  have htree : h'.tree = h.tree := by rw [hrun]
  refine ⟨⟨⟨pr, ?_⟩, ?_, ?_⟩, by rw [hnode _ htz]; simp, by rw [htree], by rw [htree], ?_,
    by rw [hnode _ (Ne.symm hzs)]; simp, ?_⟩
  · rw [htree]
    suffices hs : IsSeg h'.node h.tree.sentinel (f :: fs)
        (if f :: fs = [] then temp else h.tree.root) pr temp p by simpa using hs
    refine hseg.redirect (nodup_elems hz.nodup) ?_
    intro w hw
    obtain ⟨w1, w2⟩ := hdis w hw
    have hwt : w ≠ temp := by
      rintro rfl
      exact w2 (ha.root_mem fun he => hseg.sentinel_notMem (he ▸ hw))
    rw [hnode w w1]
    refine ⟨by simp, by simp [hwt], ?_⟩
    intro e
    simp [eq_comm]
  · rw [htree]
    refine ha.congr n5 ?_
    intro w hw
    have hwz : w ≠ z := fun he => n2 (he ▸ hw)
    have hwp : w ≠ p := fun he => (hdis p hpm).2 (he ▸ hw)
    rw [hnode w hwz]
    exact ⟨fun e => by simp [hwp], by simp, by simp⟩
  · have hnd := hz.nodup
    rw [inorder_fill] at hnd ⊢
    refine hnd.sublist ((List.Sublist.append_left ?_ _).append_right _)
    cases d <;> simp [on, inorder]
  · intro w hw hws
    rw [mem_fill, not_or, mem_inorder_on, not_or, not_or] at hw
    obtain ⟨hw1, hw2, -, hw3⟩ := hw
    have hwp : w ≠ p := fun he => hw1 (he ▸ hpm)
    have hwt : w ≠ temp := by
      rintro rfl
      exact hw3 (ha.root_mem hws)
    rw [hnode w hw2, RbMem.setParent_ne hwt, RbMem.setChild_ne hwp]
  · intro w hw
    rw [hnode w hw]
    simp

/-- The assignments that put `y`, the least node of the right subtree, in the
place of `z`.  `q` is the parent of `y`, `p` the parent of `z` and `left` and
`right` the children that `y` takes over. -/
theorem deleteRelink_node {m : RbMem} {left right : Nat}
    (hyz : y ≠ z) (hpf : fs ≠ [] → p ≠ y ∧ p ≠ q) (htz : temp ≠ z)
    (hq : (h.node y).parent = q) (hp : (h.node z).parent = p)
    (hleft : y = (h.node q).child .left ↔ q ≠ z) (hroot : z = h.tree.root ↔ fs = [])
    (hside : ∀ f ∈ fs.head?, (h.node p).child f.side = z ∧ (h.node p).child f.side.other ≠ z)
    (hl : (h.node z).child .left = left)
    (hr : right = if q = z then temp else (h.node z).child .right)
    (hm : m = debugStuff (deleteRelink h z y temp).node z) :
    (deleteRelink h z y temp).tree =
        { h.tree with root := if fs = [] then y else h.tree.root } ∧
      ∀ w, w ≠ z → (m w).key = (h.node w).key ∧
        (m w).color = (if w = y then (h.node z).color else (h.node w).color) ∧
        (m w).parent = (if w ≠ h.tree.sentinel ∧ (w = left ∨ w = right) then y
          else if w = y then p
          else if w = temp then (if q = z then y else q) else (h.node w).parent) ∧
        (∀ e, (m w).child e = if w = p ∧ fs.head?.map Frame.side = some e then y
          else if w = y then (if e = .left then left else right)
          else if w = q ∧ e = .left then temp else (h.node w).child e) := by
  -- the memory before the links from above and from below are turned
  set m₆ : RbMem := (((((h.node.setChild q temp (if q = z then .right else .left)).setParent temp
    (if q = z then y else q)).setChild y left .left).setChild y right .right).setParent y
    p).setColor y (h.node z).color with hm₆
  set m₇ : RbMem := match fs with
    | [] => m₆
    | f :: _ => m₆.setChild p y f.side with hm₇
  have hrun : deleteRelink h z y temp =
      { tree := { h.tree with root := if fs = [] then y else h.tree.root },
        node := let m₈ := if left ≠ h.tree.sentinel then m₇.setParent left y else m₇
          if right ≠ h.tree.sentinel then m₈.setParent right y else m₈ } := by
    have hL : ∀ n : RbNode, n.left = n.child .left := fun _ => rfl
    have hR : ∀ n : RbNode, n.right = n.child .right := fun _ => rfl
    have hup : (if y = (h.node q).child .left then h.node.setChild q temp .left
        else h.node.setChild q temp .right) =
        h.node.setChild q temp (if q = z then .right else .left) := by
      by_cases hqz : q = z
      · rw [if_neg (by rw [hleft]; simp [hqz]), if_pos hqz]
      · rw [if_pos (hleft.mpr hqz), if_neg hqz]
    have hpar : ∀ n : RbMem, (if q = z then n.setParent temp y else n.setParent temp q) =
        n.setParent temp (if q = z then y else q) := by
      intro n
      split <;> rfl
    have hrz : (if z = q ∧ Side.right = (if q = z then Side.right else .left) then temp
        else (h.node z).child .right) = right := by
      rw [hr]
      by_cases hqz : q = z
      · simp [hqz]
      · simp [hqz, Ne.symm hqz]
    have hlz : (if z = q ∧ Side.left = (if q = z then Side.right else .left) then temp
        else (h.node z).child .left) = left := by
      rw [← hl]
      by_cases hqz : q = z
      · simp [hqz]
      · simp [hqz, Ne.symm hqz]
    have hzp : ((h.node.setChild q temp (if q = z then .right else .left)).setParent temp
        (if q = z then y else q) z).parent = p := by
      simp [Ne.symm htz, hp]
    have h₆ : ngxRbtCopyColor (((((h.node.setChild q temp (if q = z then .right
        else .left)).setParent temp (if q = z then y else q)).setChild y left .left).setChild y
        right .right).setParent y p) y z = m₆ := by
      simp [hm₆, ngxRbtCopyColor]
    have h₇ : replaceBelowParent { h with node := m₆ } z y =
        { tree := { h.tree with root := if fs = [] then y else h.tree.root }, node := m₇ } := by
      cases fs with
      | nil => simp [replaceBelowParent, hroot.mpr rfl, hm₇]
      | cons f fs =>
        obtain ⟨hpy, hpq⟩ := hpf (by simp)
        have hnr : z ≠ h.tree.root := fun he => by simpa using hroot.mp he
        have hzp' : (m₆ z).parent = p := by simp [hm₆, Ne.symm hyz, Ne.symm htz, hp]
        have hpc : ∀ e, (m₆ p).child e = (h.node p).child e := by
          intro e
          simp [hm₆, hpy, hpq]
        obtain ⟨hc, hc'⟩ := hside f rfl
        simp only [replaceBelowParent, hnr, ↓reduceIte, hzp', hL, hpc, hm₇, reduceCtorEq]
        cases hf : f.side with
        | left => rw [hf] at hc; rw [if_pos hc.symm]
        | right =>
          rw [hf] at hc'
          exact if_neg (Ne.symm hc')
    have hy₇ : (m₇ y).child .left = left ∧ (m₇ y).child .right = right := by
      rw [hm₇]
      cases fs with
      | nil => simp [hm₆]
      | cons f fs => simp [hm₆, Ne.symm (hpf (by simp)).1]
    simp only [deleteRelink, hyz, ↓reduceIte, hL, hR, hq, hup, hpar, RbMem.setChild_parent,
      RbMem.setParent_child, RbMem.setChild_child, Ne.symm hyz, false_and, hrz, hlz, hzp, h₆, h₇,
      adoptChildren, hy₇]
    by_cases hls : left = h.tree.sentinel <;> simp [hls, hy₇]
  rw [hrun] at hm ⊢
  refine ⟨rfl, ?_⟩
  intro w hw
  have hmw : m w = (let m₈ := if left ≠ h.tree.sentinel then m₇.setParent left y else m₇
      if right ≠ h.tree.sentinel then m₈.setParent right y else m₈) w := by
    rw [hm]
    exact debugStuff_ne hw
  rw [hmw]
  have h₇ : (m₇ w).key = (h.node w).key ∧
      (m₇ w).color = (if w = y then (h.node z).color else (h.node w).color) ∧
      (m₇ w).parent = (if w = y then p
        else if w = temp then (if q = z then y else q) else (h.node w).parent) ∧
      (∀ e, (m₇ w).child e = if w = p ∧ fs.head?.map Frame.side = some e then y
        else if w = y then (if e = .left then left else right)
        else if w = q ∧ e = .left then temp else (h.node w).child e) := by
    have hwq : ∀ e, (w = q ∧ e = (if q = z then Side.right else .left)) ↔ w = q ∧ e = .left := by
      intro e
      by_cases hqz : q = z
      · subst hqz
        simp [hw]
      · simp [hqz]
    have h₆ : ∀ e, (m₆ w).child e = if w = y then (if e = .left then left else right)
        else if w = q ∧ e = .left then temp else (h.node w).child e := by
      intro e
      simp only [hm₆, RbMem.setColor_child, RbMem.setParent_child, RbMem.setChild_child, hwq]
      cases e <;> by_cases hwy : w = y <;> simp [hwy]
    rw [hm₇]
    cases fs with
    | nil => exact ⟨by simp [hm₆], by simp [hm₆], by simp [hm₆], fun e => by simp [h₆]⟩
    | cons f fs =>
      refine ⟨by simp [hm₆], by simp [hm₆], by simp [hm₆], ?_⟩
      intro e
      simp only [RbMem.setChild_child, h₆, List.head?_cons, Option.map_some, Option.some.injEq]
      simp only [eq_comm (a := e)]
  obtain ⟨k1, k2, k3, k4⟩ := h₇
  by_cases hls : left = h.tree.sentinel <;> by_cases hrs : right = h.tree.sentinel <;>
    simp only [hls, hrs, ne_eq, not_true_eq_false, ↓reduceIte, not_false_eq_true,
      RbMem.setParent_key, RbMem.setParent_color, RbMem.setParent_parent, RbMem.setParent_child,
      k1, k2, k3, k4, implies_true, and_true, true_and]
  all_goals grind

/-- A node with two children: the least node of its right subtree takes its place, whose
right child in turn takes the place of that node. Where that least node is the right child
itself, it keeps its own right subtree. -/
theorem deleteRelink_other
    (hz : Zip h fs (.node c l z (fill gs (.node cy .nil y B))) z p) (hl : l ≠ .nil)
    (hgs : ∀ f ∈ gs, f.side = .left) (ht : temp = (h.node y).child .right) :
    let h' := { deleteRelink h z y temp with
      node := debugStuff (deleteRelink h z y temp).node z }
    ∃ q', Zip h' (gs ++ ⟨.right, c, y, l⟩ :: fs) B temp q' ∧ (h'.node temp).parent = q' ∧
      Removes (fill fs (.node c l z (fill gs (.node cy .nil y B)))).inorder z h h' := by
  intro h'
  set F : Frame Nat := ⟨.right, c, z, l⟩ with hF
  obtain ⟨-, hpz, hz₁⟩ := hz.down (d := .right)
  obtain ⟨hole, q, hz₂⟩ := hz₁.down_all
  obtain ⟨hy, hys, hqy, -, -, hB⟩ := hz₂.sub
  subst hole
  rw [← ht] at hB
  obtain ⟨pr, hseg⟩ := hz₂.seg
  obtain ⟨r₁, z', hsg, hzz, hzs, hzc, hzr, hzl, hsf⟩ := IsSeg.append.mp hseg
  have hzz : z' = z := hzz
  subst z'
  simp only [hpz] at hsf hzc hzr hzl hzs
  -- which names differ
  have hnd := hz₂.nodup
  obtain ⟨ndg, ndF, hgF⟩ := nodup_elems_append (nodup_elems hnd)
  obtain ⟨nzl, nzf, nlf, ndl, ndf⟩ := nodup_elems_cons ndF
  have hdis : ∀ w, w ∈ elems gs ∨ w ∈ elems (F :: fs) → w ≠ y ∧ w ∉ B.inorder := by
    intro w hw
    have := disjoint_of_nodup hnd (mem_elems_append.mpr hw)
    simpa [inorder] using this
  obtain ⟨-, nyB, -, -, ndB⟩ := nodup_on (d := .left) (nodup_hole hnd)
  have hmz : z ∈ elems (F :: fs) := mem_elems_cons.mpr (.inl rfl)
  have hml : ∀ w ∈ l.inorder, w ∈ elems (F :: fs) := fun w hw =>
    mem_elems_cons.mpr (.inr (.inl hw))
  have hmf : ∀ w ∈ elems fs, w ∈ elems (F :: fs) := fun w hw =>
    mem_elems_cons.mpr (.inr (.inr hw))
  have hyz : y ≠ z := fun he => (hdis z (.inr hmz)).1 he.symm
  have hleft := hzl.root_mem (hzl.root_ne hl).1
  have htemp : temp = h.tree.sentinel ∨ temp ∈ B.inorder := by
    by_cases he : temp = h.tree.sentinel
    · exact .inl he
    · exact .inr (hB.root_mem he)
  have hq : q = z ∧ gs = [] ∨ q ∈ elems gs ∧ gs ≠ [] := by
    cases gs with
    | nil => exact .inl ⟨hsg.2.symm, rfl⟩
    | cons g gs => exact .inr ⟨mem_elems_cons.mpr (.inl hsg.1), by simp⟩
  have hp : fs = [] ∨ p ∈ elems fs := by
    cases fs with
    | nil => exact .inl rfl
    | cons f fs => exact .inr (mem_elems_cons.mpr (.inl hsf.1))
  have htz : temp ≠ z := by
    rintro rfl
    exact htemp.elim hzs (hdis temp (.inr hmz)).2
  have hpq : p ∈ elems fs → p ≠ y ∧ p ≠ q := fun hpf =>
    ⟨(hdis p (.inr (hmf p hpf))).1, fun he => hq.elim
      (fun hq => nzf (hq.1 ▸ he ▸ hpf)) (fun hq => hgF q hq.1 (he ▸ hmf p hpf))⟩
  -- the child that `y` takes over on the right
  set right : Nat := if q = z then temp else (h.node z).child .right with hright
  have hqz : q = z ↔ gs = [] := by
    rcases hq with hq | hq
    · simp [hq]
    · simp only [hq.2, iff_false]
      rintro rfl
      exact hgF q hq.1 hmz
  have hr₁ : gs = [] ∧ right = temp ∨ gs ≠ [] ∧ right = r₁ ∧ r₁ ∈ elems gs := by
    by_cases hg : gs = []
    · exact .inl ⟨hg, by rw [hright, if_pos (hqz.mpr hg)]⟩
    · refine .inr ⟨hg, ?_, hsg.root_mem hg⟩
      rw [hright, if_neg fun he => hg (hqz.mp he)]
      exact hzr
  have hyl : y = (h.node q).child .left ↔ q ≠ z := by
    cases gs with
    | nil =>
      rw [hqz.mpr rfl]
      refine iff_of_false ?_ (fun he => he rfl)
      intro he
      exact (hdis y (.inr (he ▸ hml _ hleft))).1 rfl
    | cons g gs =>
      obtain ⟨hqg, -, -, hc, -⟩ := hsg
      rw [hgs g (by simp), ← hqg] at hc
      exact iff_of_true hc.symm (by simp [hqz])
  have hroot : z = h.tree.root ↔ fs = [] := by
    cases fs with
    | nil => exact iff_of_true hz.root.1 rfl
    | cons f fs => exact iff_of_false hz.hole_ne_root (by simp)
  have hside : ∀ f ∈ fs.head?, (h.node p).child f.side = z ∧
      (h.node p).child f.side.other ≠ z := by
    cases fs with
    | nil => simp
    | cons f fs =>
      simp only [List.head?_cons, Option.mem_some_iff, forall_eq']
      exact ⟨hz.up.2.1, hz.other_ne hzs⟩
  obtain ⟨htree, hw⟩ := deleteRelink_node hyz
    (fun hf => hpq (hp.resolve_left hf)) htz hqy hpz hyl hroot hside rfl
    hright (show h'.node = _ from rfl)
  have hsent : h'.tree.sentinel = h.tree.sentinel := by rw [show h'.tree = _ from htree]
  have hroot' : h'.tree.root = if fs = [] then y else h.tree.root := by
    rw [show h'.tree = _ from htree]
  have hrmem : right = h.tree.sentinel ∨ right ∈ B.inorder ∨ right ∈ elems gs := by
    rcases hr₁ with ⟨-, hr⟩ | ⟨-, hr, hr'⟩
    · exact htemp.elim (fun ht => .inl (hr.trans ht)) fun ht => .inr (.inl (hr ▸ ht))
    · exact .inr (.inr (hr ▸ hr'))
  have hsn := hz₂.sentinel_notMem
  have hsg' : ∀ w ∈ elems gs, w ≠ h.tree.sentinel := fun w hw he =>
    hsn (mem_fill.mpr (.inl (mem_elems_append.mpr (.inl (he ▸ hw)))))
  have hsF : ∀ w ∈ elems (F :: fs), w ≠ h.tree.sentinel := fun w hw he =>
    hsn (mem_fill.mpr (.inl (mem_elems_append.mpr (.inr (he ▸ hw)))))
  have hsB : ∀ w ∈ B.inorder, w ≠ h.tree.sentinel := fun w hw he =>
    hsn (mem_fill.mpr (.inr ((mem_inorder_on (d := .left)).mpr (.inr (.inr (he ▸ hw))))))
  have hpw : ∀ w, w ∉ elems fs → ∀ e, ¬ (w = p ∧ fs.head?.map Frame.side = some e) := by
    rintro w hwf e ⟨rfl, he⟩
    rcases hp with rfl | hp
    · simp at he
    · exact hwf hp
  have htF : ∀ w ∈ elems (F :: fs), w ≠ temp ∧ w ≠ right := by
    refine fun w hwF => ⟨?_, ?_⟩
    · intro he
      rw [← he] at htemp
      exact htemp.elim (hsF w hwF) (hdis w (.inr hwF)).2
    · intro he
      rw [← he] at hrmem
      exact hrmem.elim (hsF w hwF) fun hr => hr.elim (hdis w (.inr hwF)).2 fun hr => hgF w hr hwF
  -- the fields of the nodes above, below and beside
  have hgw : ∀ w ∈ elems gs, w ≠ z ∧ w ≠ y ∧ w ≠ temp ∧ w ≠ (h.node z).child .left ∧
      w ∉ elems fs := fun w hw =>
    ⟨fun he => hgF z (he ▸ hw) hmz, (hdis w (.inl hw)).1,
      fun he => htemp.elim (he ▸ hsg' w hw) (he ▸ (hdis w (.inl hw)).2),
      fun he => hgF w hw (he ▸ hml _ hleft), fun hf => hgF w hw (hmf w hf)⟩
  have hup : IsSeg h'.node h.tree.sentinel gs right y temp (if q = z then y else q) := by
    by_cases hg : gs = []
    · obtain ⟨-, hr⟩ | ⟨hne, -⟩ := hr₁
      · subst hg
        exact ⟨hr, (if_pos (hqz.mpr rfl)).symm⟩
      · exact absurd hg hne
    · obtain ⟨he, -⟩ | ⟨-, hr, hrm⟩ := hr₁
      · exact absurd he hg
      · rw [if_neg fun he => hg (hqz.mp he), hr]
        refine hsg.relocate ndg hg ?_
        intro w hwg
        obtain ⟨w1, w2, w3, w4, w5⟩ := hgw w hwg
        obtain ⟨-, k2, k3, k4⟩ := hw w w1
        refine ⟨by rw [k2, if_neg w2], ?_, ?_⟩
        · rw [k3, if_neg w2, if_neg w3, hr]
          simp [hsg' w hwg, w4]
        · intro e
          rw [k4, if_neg (hpw w w5 e), if_neg w2]
          cases gs with
          | nil => exact absurd rfl hg
          | cons g gs => simp [hgs g (by simp), eq_comm]
  have hright' : (h'.node y).child .right = right := by
    rw [(hw y hyz).2.2.2, if_neg (hpw y (fun hf => (hdis y (.inr (hmf y hf))).1 rfl) _), if_pos rfl,
      if_neg (by simp)]
  have hlw : ∀ w ∈ l.inorder, w ≠ z ∧ w ≠ y ∧ w ∉ elems fs ∧ w ≠ q := fun w hwl =>
    ⟨fun he => nzl (he ▸ hwl), (hdis w (.inr (hml w hwl))).1, nlf w hwl, fun he => hq.elim
      (fun hq => nzl (hq.1 ▸ he ▸ hwl)) fun hq => hgF q hq.1 (he ▸ hml w hwl)⟩
  have hside' : IsTree h'.node h.tree.sentinel y l ((h'.node y).child .left) := by
    rw [(hw y hyz).2.2.2, if_neg (hpw y (fun hf => (hdis y (.inr (hmf y hf))).1 rfl) _), if_pos rfl,
      if_pos rfl]
    refine hzl.congr ndl ?_
    intro w hwl
    obtain ⟨w1, w2, w3, w4⟩ := hlw w hwl
    obtain ⟨w5, w6⟩ := htF w (hml w hwl)
    obtain ⟨-, k2, k3, k4⟩ := hw w w1
    refine ⟨fun e => ?_, by rw [k2, if_neg w2], ?_⟩
    · rw [k4, if_neg (hpw w w3 e), if_neg w2, if_neg fun he => w4 he.1]
    · rw [k3, if_neg w2, if_neg w5]
      simp only [hsF w (hml w hwl), w6, or_false, ne_eq, not_false_eq_true, true_and]
      rfl
  have habove : IsSeg h'.node h.tree.sentinel fs h'.tree.root pr y p := by
    rw [hroot']
    refine hsf.redirect ndf ?_
    intro w hwf
    have w1 : w ≠ z := fun he => nzf (he ▸ hwf)
    have w2 : w ≠ y := (hdis w (.inr (hmf w hwf))).1
    have w3 : w ≠ (h.node z).child .left := fun he => nlf _ hleft (he ▸ hwf)
    have w4 : w ≠ q := fun he => hq.elim
      (fun hq => nzf (hq.1 ▸ he ▸ hwf)) fun hq => hgF q hq.1 (he ▸ hmf w hwf)
    obtain ⟨w5, w6⟩ := htF w (hmf w hwf)
    obtain ⟨-, k2, k3, k4⟩ := hw w w1
    refine ⟨by rw [k2, if_neg w2], ?_, ?_⟩
    · rw [k3, if_neg w2, if_neg w5]
      simp [w3, w6]
    · intro e
      rw [k4]
      simp only [w2, w4, false_and, ↓reduceIte]
  have hyr : y ≠ right := fun he => hrmem.elim (he ▸ hys) fun hr => hr.elim
    (he ▸ nyB) fun hr => (hdis y (.inl (he ▸ hr))).1 rfl
  have hyleft : y ≠ (h.node z).child .left := fun he =>
    (hdis y (.inr (he ▸ hml _ hleft))).1 rfl
  have hypar : (h'.node y).parent = p := by
    rw [(hw y hyz).2.2.1, if_neg (by simp [hyr, hyleft]), if_pos rfl]
  have hbw : ∀ w ∈ B.inorder, w ≠ z ∧ w ≠ y ∧ w ∉ elems fs ∧ w ≠ q ∧
      w ≠ (h.node z).child .left := fun w hwB =>
    ⟨fun he => (hdis z (.inr hmz)).2 (he ▸ hwB), fun he => nyB (he ▸ hwB),
      fun hf => (hdis w (.inr (hmf w hf))).2 hwB, fun he => hq.elim
        (fun hq => (hdis z (.inr hmz)).2 (hq.1 ▸ he ▸ hwB)) fun hq =>
          (hdis q (.inl hq.1)).2 (he ▸ hwB), fun he => (hdis _ (.inr (hml _ hleft))).2 (he ▸ hwB)⟩
  have hbelow : IsTree h'.node h.tree.sentinel (if q = z then y else q) B temp := by
    refine hB.congr ndB ?_
    intro w hwB
    obtain ⟨w1, w2, w3, w4, w5⟩ := hbw w hwB
    obtain ⟨-, k2, k3, k4⟩ := hw w w1
    refine ⟨fun e => ?_, by rw [k2, if_neg w2], ?_⟩
    · rw [k4, if_neg (hpw w w3 e), if_neg w2, if_neg fun he => w4 he.1]
    · rw [k3, if_neg w2]
      rcases hr₁ with ⟨hg, hr⟩ | ⟨hg, hr, hrm⟩
      · rw [if_pos (hqz.mpr hg), hr]
        simp only [hsB w hwB, w5, false_or, ne_eq, not_false_eq_true, true_and]
        split <;> rfl
      · have hwr : w ≠ right := fun he => (hdis r₁ (.inl hrm)).2 (hr ▸ he ▸ hwB)
        simp [w5, hwr]
  have htp : (h'.node temp).parent = if q = z then y else q := by
    rw [(hw temp htz).2.2.1]
    have w2 : temp ≠ y := fun he => htemp.elim (he ▸ hys) (he ▸ nyB)
    have w5 : temp ≠ (h.node z).child .left := fun he => htemp.elim
      (fun ht => hsF _ (hml _ hleft) (he ▸ ht)) (he ▸ (hdis _ (.inr (hml _ hleft))).2)
    rw [if_neg w2, if_pos rfl]
    rcases hr₁ with ⟨hg, hr⟩ | ⟨hg, hr, hrm⟩
    · simp [hqz.mpr hg]
    · have hwr : temp ≠ right := fun he => htemp.elim
        (fun ht => hsg' r₁ hrm (hr ▸ he ▸ ht)) (fun ht => (hdis r₁ (.inl hrm)).2 (hr ▸ he ▸ ht))
      simp [w5, hwr]
  refine ⟨if q = z then y else q, ⟨⟨pr, ?_⟩, ?_, ?_⟩, htp, hsent, ?_, ?_,
    by rw [(hw _ (Ne.symm hzs)).2.1, if_neg (Ne.symm hys)], ?_⟩
  · rw [hsent]
    refine IsSeg.append.mpr ⟨right, y, hup, rfl, hys, ?_, hright', hside', hypar ▸ habove⟩
    rw [(hw y hyz).2.1, if_pos rfl]
    exact hzc
  · rw [hsent]
    exact hbelow
  · obtain ⟨xs, ys, hx, hy⟩ := inorder_replace fs hgs c cy l B z y
    have hndz := hz.nodup
    rw [hx] at hndz
    rw [hy]
    exact hndz.sublist ((List.sublist_cons_self z ys).append_left xs)
  · rw [show h'.tree = _ from htree]
  · intro w hwL hws
    have hwm : w ∉ elems gs ∧ w ∉ elems (F :: fs) ∧ w ≠ y ∧ w ∉ B.inorder := by
      rw [show fill fs (.node c l z (fill gs (.node cy .nil y B))) =
        fill (gs ++ F :: fs) (.node cy .nil y B) from (fill_append gs (F :: fs) _).symm,
        mem_fill, mem_elems_append] at hwL
      simpa [inorder, not_or, and_assoc] using hwL
    obtain ⟨w1, w2, w3, w4⟩ := hwm
    have w5 : w ≠ temp := fun he => htemp.elim (he ▸ hws) (he ▸ w4)
    have w6 : w ≠ right := fun he =>
      hrmem.elim (he ▸ hws) fun hr => hr.elim (he ▸ w4) (he ▸ w1)
    have w7 : w ≠ q := fun he => hq.elim (fun hq => w2 (he ▸ hq.1 ▸ hmz)) fun hq => w1 (he ▸ hq.1)
    have w8 : w ≠ (h.node z).child .left := fun he => w2 (he ▸ hml _ hleft)
    obtain ⟨k1, k2, k3, k4⟩ := hw w fun he => w2 (he ▸ hmz)
    have hchild : ∀ e, (h'.node w).child e = (h.node w).child e := by
      intro e
      rw [k4, if_neg (hpw w (fun hf => w2 (hmf w hf)) e), if_neg w3, if_neg fun he => w7 he.1]
    refine RbNode.ext k1 (hchild .left) (hchild .right) ?_ ?_
    · rw [k3]
      simp [w8, w6, w3, w5]
    · rw [k2, if_neg w3]
  · exact fun w hwz => (hw w hwz).1

/-- The end of the deletion: a red node leaves a red-black tree, a black one a tree for
the fixup loop, one level of black nodes short at `temp`. -/
theorem mpsRbtreeDelete_finish {h₁ : RbHeap} {L xs ys : List Nat} {c' : Color}
    (hz : Zip h₁ fs B temp q) (hpar : (h₁.node temp).parent = q) (hr : Removes L z h h₁)
    (hs : h.tree.sentinel ∉ L) (hb : (h.node h.tree.sentinel).color = 0)
    (hL : L = xs ++ z :: ys) (hB : (fill fs B).inorder = xs ++ ys)
    (hv : Valid (on d c .nil y B) c' n) (hacc : Accepts fs n) (hhead : c' = .red → HeadBlack fs)
    (hfuel : L.length + 1 ≤ fuel) :
    RemovedBy L z h (if c = .red then some h₁ else deleteFixup fuel h₁ temp) := by
  have hb₁ : (h₁.node h₁.tree.sentinel).color = 0 := by rw [hr.sentinel, hr.black, hb]
  cases c with
  | red =>
    obtain ⟨rfl, -, hvB⟩ := hv.of_onRed
    obtain ⟨pr, hroot⟩ := hz.up_all
    exact ⟨h₁, _, xs, ys, rfl, ⟨⟨pr, hroot⟩, hb₁, hz.nodup,
      fill_valid hacc hvB fun h => nomatch h⟩, hL, hB, hr⟩
  | black =>
    obtain ⟨-, k, cn, cB, rfl, -, hvB⟩ := hv.of_onBlack
    have hsub : ∀ y ∈ (fill fs B).inorder, y ∈ L := by
      intro y hy
      rw [hB, List.mem_append] at hy
      simp only [hL, List.mem_append, List.mem_cons]
      tauto
    have hlen : fs.length + 2 ≤ fuel := by
      have h1 := length_le_elems fs
      have h2 := congrArg List.length hB
      rw [inorder_fill] at h2
      simp only [elems, List.length_append] at h1 h2
      rw [hL, List.length_append, List.length_cons] at hfuel
      omega
    have hfix : RestoredBy (fill fs B).inorder h₁ (deleteFixup fuel h₁ temp) := by
      cases cB with
      | red =>
        obtain ⟨fuel, rfl⟩ : ∃ j, fuel = j + 1 := ⟨fuel - 1, by omega⟩
        obtain ⟨a, x, b, rfl, ha, hb'⟩ := hvB.exists_red .left
        exact deleteFixup_exit hz (.red ha hb' hacc) hb₁
      | black => exact deleteFixup_spec fs.length le_rfl hlen hz (fun _ => hpar) hb₁ hvB hacc
    obtain ⟨h₂, t', hrun, hrep, hin, hk⟩ := hfix
    rw [if_neg (by simp)]
    exact ⟨h₂, t', xs, ys, hrun, hrep, hL, hin.trans hB, hr.trans_keeps hk hsub hs⟩

/-- **Deletion.** The tree loses the node and is a red-black tree again. This holds for
any node of any red-black tree, whatever its colour and however many children it has. -/
theorem mpsRbtreeDelete_spec (hr : RbRep h t) (hzt : z ∈ t.inorder)
    (hfuel : t.inorder.length + 1 ≤ fuel) :
    RemovedBy t.inorder z h (mpsRbtreeDelete fuel h z) := by
  obtain ⟨fs, c, l, r, rfl⟩ := exists_path hzt
  obtain ⟨m, hval⟩ := hr.valid
  obtain ⟨cz, n, hvz, haccz, hheadz⟩ := of_fill_valid hval fun _ => rfl
  obtain ⟨p₀, hz₀⟩ := hr.zip
  obtain ⟨hole, p, hz⟩ := hz₀.down_all
  rw [List.append_nil] at hz
  obtain ⟨he, hzs, hpz, hzc, hlt, hrt⟩ := hz.sub
  subst hole
  have hs := hr.sentinel_notMem
  -- the node has at most one child
  have one : ∀ (d : Side) (a : RbTree Nat), RbTree.node c l z r = on d c .nil z a →
      deleteTargets fuel h z = some (z, (h.node z).child d.other) →
      RemovedBy (fill fs (.node c l z r)).inorder z h (mpsRbtreeDelete fuel h z) := by
    intro d a hda htar
    rw [hda] at hz hvz
    have hord : ∃ xs ys, (fill fs (.node c l z r)).inorder = xs ++ z :: ys ∧
        (fill fs a).inorder = xs ++ ys := by
      rw [hda, inorder_fill, inorder_fill]
      cases d
      · exact ⟨before fs, a.inorder ++ after fs, by simp [on, inorder], by simp⟩
      · exact ⟨before fs ++ a.inorder, after fs, by simp [on, inorder], rfl⟩
    obtain ⟨xs, ys, hx, hy⟩ := hord
    have hcol : ngxRbtIsRed h.node z = (c == .red) := by
      simp only [ngxRbtIsRed, hzc]
      cases c <;> rfl
    cases fs with
    | nil =>
      have hroot : z = h.tree.root := hz.root.1
      have hrun : mpsRbtreeDelete fuel h z = some { h with
          tree.root := (h.node z).child d.other
          node := debugStuff (ngxRbtBlack h.node ((h.node z).child d.other)) z } := by
        simp [mpsRbtreeDelete, htar, ← hroot]
      rw [fill_nil, hda] at hval
      rw [hrun, fill_nil, hda]
      exact mpsRbtreeDelete_root hz hr.black hval rfl
    | cons f fs =>
      have hroot := hz.hole_ne_root
      obtain ⟨h1, h2, h3⟩ := deleteRelink_self hz rfl
      have hrun : mpsRbtreeDelete fuel h z = if c = .red then
          some { deleteRelink h z z ((h.node z).child d.other) with
            node := debugStuff (deleteRelink h z z ((h.node z).child d.other)).node z }
          else deleteFixup fuel { deleteRelink h z z ((h.node z).child d.other) with
            node := debugStuff (deleteRelink h z z ((h.node z).child d.other)).node z }
            ((h.node z).child d.other) := by
        cases c <;> simp [mpsRbtreeDelete, htar, hroot, hcol]
      rw [hrun]
      rw [← hda] at h3
      exact mpsRbtreeDelete_finish h1 h2 h3 hs hr.black hx hy hvz haccz
        (fun hc => (hheadz hc).resolve_left (by simp)) hfuel
  by_cases hl : l = .nil
  · subst hl
    have hleft : (h.node z).left = h.tree.sentinel := hlt
    exact one .left r rfl (by simp [deleteTargets, hleft, RbNode.child, Side.other])
  · have hleft : (h.node z).left ≠ h.tree.sentinel := (hlt.root_ne hl).1
    by_cases hrn : r = .nil
    · subst hrn
      have hright : (h.node z).right = h.tree.sentinel := hrt
      exact one .right l rfl (by simp [deleteTargets, hleft, hright, RbNode.child, Side.other])
    · -- the node has two children
      have hright : (h.node z).right ≠ h.tree.sentinel := (hrt.root_ne hrn).1
      have hlen : r.inorder.length ≤ fuel := by
        rw [inorder_fill] at hfuel
        simp only [inorder, List.length_append, List.length_cons] at hfuel
        omega
      obtain ⟨gs, cy, y, B, rfl, hgs, hmin⟩ := mpsRbtreeMin_spec hrt hrn hlen
      obtain ⟨q, h1, h2, h3⟩ := deleteRelink_other hz hl hgs rfl
      obtain ⟨xs, ys, hx, hy⟩ := inorder_replace fs hgs c cy l B z y
      have hfill : fill fs (.node c l z (fill gs (.node cy .nil y B))) =
          fill (gs ++ ⟨.right, c, z, l⟩ :: fs) (.node cy .nil y B) :=
        (fill_append gs (⟨.right, c, z, l⟩ :: fs) _).symm
      obtain ⟨cy', n', hvy, haccy, hheady⟩ := of_fill_valid (hfill ▸ hval) fun _ => rfl
      obtain ⟨hole', p', hz₂⟩ := (hz.down (d := .right)).2.2.down_all
      obtain ⟨he, hys, -, hyc, hyl, -⟩ := hz₂.sub
      subst hole'
      obtain ⟨g, gs', hg⟩ : ∃ g gs', gs ++ (⟨.right, c, z, l⟩ : Frame Nat) :: fs = g :: gs' := by
        cases gs with
        | nil => exact ⟨_, _, rfl⟩
        | cons g gs => exact ⟨_, _, rfl⟩
      have hroot : y ≠ h.tree.root := by
        rw [hg] at hz₂
        exact hz₂.hole_ne_root
      have hcol : ngxRbtIsRed h.node y = (cy == .red) := by
        simp only [ngxRbtIsRed, hyc]
        cases cy <;> rfl
      have hrun : mpsRbtreeDelete fuel h z = if cy = .red then
          some { deleteRelink h z y ((h.node y).child .right) with
            node := debugStuff (deleteRelink h z y ((h.node y).child .right)).node z }
          else deleteFixup fuel { deleteRelink h z y ((h.node y).child .right) with
            node := debugStuff (deleteRelink h z y ((h.node y).child .right)).node z }
            ((h.node y).child .right) := by
        have htar : deleteTargets fuel h z = some (y, (h.node y).child .right) := by
          simp [deleteTargets, hleft, hright, show mpsRbtreeMin fuel h.node (h.node z).right
            h.tree.sentinel = some y from hmin, RbNode.child]
        cases cy <;> simp [mpsRbtreeDelete, htar, hroot, hcol]
      rw [hrun]
      refine mpsRbtreeDelete_finish h1 h2 h3 hs hr.black hx hy (d := .left) hvy
        (accepts_replace.mp haccy) ?_ hfuel
      intro hc
      exact headBlack_replace.mp ((hheady hc).resolve_left (by simp))


end Delete

end MpsShdict
