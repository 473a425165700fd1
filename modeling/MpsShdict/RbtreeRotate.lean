import MpsShdict.RbtreeShape

/-! # Rotations and changes of colour

Each is local: it acts on a tree taken apart at the node where it happens and leaves every
node off the tree, every key and the sentinel alone. `Zip` is the tree taken apart,
`Keeps` what is left alone, and every lemma here takes a zip to a zip and gives a `Keeps`
beside it, so that a sequence of assignments is a chain of them.

Going up and down in a zip (`up`, `down`) changes nothing in the pool: it is the same
tree, looked at from another node. The fixup loops move between a node, its parent, its
grandparent and its sibling, and each of their assignments is made at the zip where it is
simplest to state.
-/
namespace MpsShdict

open RedBlack RedBlack.RbTree

/-- The tree of the heap taken apart: `t` hangs in the context `fs`, by the link `hole` of
the node `p`. The names of all nodes together are distinct, and whatever parent link the
root has is left open. -/
structure Zip (h : RbHeap) (fs : List (Frame Nat)) (t : RbTree Nat) (hole p : Nat) : Prop where
  seg : ∃ pr, IsSeg h.node h.tree.sentinel fs h.tree.root pr hole p
  sub : IsTree h.node h.tree.sentinel p t hole
  nodup : (fill fs t).inorder.Nodup

/-- What changes within the nodes `S` leaves alone: the keys of all nodes, every node
outside `S`, the sentinel, and the insert type of the tree. -/
structure Keeps (S : List Nat) (h h' : RbHeap) : Prop where
  sentinel : h'.tree.sentinel = h.tree.sentinel
  insert : h'.tree.insert = h.tree.insert
  off : ∀ z, z ∉ S → h'.node z = h.node z
  key : ∀ z, (h'.node z).key = (h.node z).key

namespace Keeps
variable {S T : List Nat} {h h₁ h₂ : RbHeap}

theorem refl (S : List Nat) (h : RbHeap) : Keeps S h h := ⟨rfl, rfl, fun _ _ => rfl, fun _ => rfl⟩

theorem trans (k₁ : Keeps S h h₁) (k₂ : Keeps S h₁ h₂) : Keeps S h h₂ :=
  ⟨k₂.sentinel.trans k₁.sentinel, k₂.insert.trans k₁.insert,
    fun z hz => (k₂.off z hz).trans (k₁.off z hz), fun z => (k₂.key z).trans (k₁.key z)⟩

theorem mono (k : Keeps S h h₁) (hS : ∀ z ∈ S, z ∈ T) : Keeps T h h₁ :=
  ⟨k.sentinel, k.insert, fun z hz => k.off z (fun h' => hz (hS z h')), k.key⟩

end Keeps

namespace Zip
variable {h : RbHeap} {fs : List (Frame Nat)} {f : Frame Nat} {t a b e : RbTree Nat}
  {hole p x y : Nat} {d : Side} {c cx cy : Color}

theorem sentinel_notMem (hz : Zip h fs t hole p) :
    h.tree.sentinel ∉ (fill fs t).inorder := by
  obtain ⟨pr, hs⟩ := hz.seg
  rw [mem_fill, not_or]
  exact ⟨hs.sentinel_notMem, hz.sub.sentinel_notMem⟩

/-- A tree as a whole is its own zip. -/
theorem of_root {pr : Nat} (ht : IsTree h.node h.tree.sentinel pr t h.tree.root)
    (hnd : t.inorder.Nodup) : Zip h [] t h.tree.root pr :=
  ⟨⟨pr, rfl, rfl⟩, ht, hnd⟩

theorem root (hz : Zip h [] t hole p) :
    hole = h.tree.root ∧ IsTree h.node h.tree.sentinel p t h.tree.root := by
  obtain ⟨pr, h1, -⟩ := hz.seg
  exact ⟨h1.symm, h1 ▸ hz.sub⟩

/-- One step towards the root: the first frame of the context becomes the top of the tree
in the hole. Nothing in the pool changes. -/
theorem up (hz : Zip h (f :: fs) t hole p) :
    p = f.elem ∧ (h.node p).child f.side = hole ∧
      Zip h fs (on f.side f.color t f.elem f.sibling) p (h.node p).parent := by
  obtain ⟨pr, rfl, hne, hc, hh, hsib, hup⟩ := hz.seg
  exact ⟨rfl, hh, ⟨pr, hup⟩, isTree_on.mpr ⟨rfl, hne, rfl, hc, hh ▸ hz.sub, hsib⟩, hz.nodup⟩

/-- One step down, to side `d`: the root of the tree in the hole becomes the first frame
of the context. -/
theorem down (hz : Zip h fs (on d c a x b) hole p) :
    hole = x ∧ (h.node x).parent = p ∧
      Zip h (⟨d, c, x, b⟩ :: fs) a ((h.node x).child d) x := by
  obtain ⟨pr, hs⟩ := hz.seg
  obtain ⟨rfl, hne, hp, hc, ha, hb⟩ := isTree_on.mp hz.sub
  exact ⟨rfl, hp, ⟨pr, rfl, hne, hc, rfl, hb, hp ▸ hs⟩, ha, hz.nodup⟩

theorem up_all (hz : Zip h fs t hole p) :
    ∃ pr, IsTree h.node h.tree.sentinel pr (fill fs t) h.tree.root := by
  induction fs generalizing t hole p with
  | nil => exact ⟨p, hz.root.2⟩
  | cons f fs ih => exact ih hz.up.2.2

theorem down_all {gs : List (Frame Nat)} (hz : Zip h gs (fill fs t) hole p) :
    ∃ hole' p', Zip h (fs ++ gs) t hole' p' := by
  induction fs generalizing t with
  | nil => exact ⟨hole, p, hz⟩
  | cons f fs ih =>
    obtain ⟨hole', p', hz'⟩ := ih hz
    exact ⟨_, _, hz'.down.2.2⟩

theorem hole_ne_root (hz : Zip h (f :: fs) t hole p) : hole ≠ h.tree.root := by
  obtain ⟨pr, hs⟩ := hz.seg
  have hr := hs.root_mem (by simp)
  intro he
  by_cases ht : hole = h.tree.sentinel
  · exact hs.sentinel_notMem (ht ▸ he ▸ hr)
  · exact disjoint_of_nodup hz.nodup (he ▸ hr) (hz.sub.root_mem ht)

/-- The parent's link on the other side does not lead to a node in the hole. -/
theorem other_ne (hz : Zip h (f :: fs) t hole p) (ht : hole ≠ h.tree.sentinel) :
    (h.node p).child f.side.other ≠ hole := by
  obtain ⟨pr, rfl, hne, hc, hh, hsib, hup⟩ := hz.seg
  intro he
  have h1 := hsib.root_mem (he ▸ ht)
  rw [he] at h1
  exact disjoint_of_nodup hz.nodup (mem_elems_cons.mpr (.inr (.inl h1))) (hz.sub.root_mem ht)

/-- Writing a colour at the node in the hole. The tree keeps its shape and its order. -/
theorem recolor (hz : Zip h fs (on d c a x b) hole p) (c' : Color) :
    Zip { h with node := h.node.setColor x (colorCode c') } fs (on d c' a x b) hole p ∧
      Keeps [x] h { h with node := h.node.setColor x (colorCode c') } := by
  obtain ⟨pr, hs⟩ := hz.seg
  obtain ⟨rfl, hne, hp, hc, ha, hb⟩ := isTree_on.mp hz.sub
  obtain ⟨n1, n2, n3, n4, n5⟩ := nodup_on (nodup_hole hz.nodup)
  refine ⟨⟨⟨pr, hs.frame (nodup_elems hz.nodup) ?_⟩, ?_, ?_⟩,
    rfl, rfl, fun z hz' => ?_, fun z => by simp⟩
  · intro y hy
    have hy' : y ≠ hole :=
      fun he => disjoint_of_nodup hz.nodup hy (mem_inorder_on.mpr (.inl he))
    simp [hy']
  · refine isTree_on.mpr ⟨rfl, hne, by simpa using hp, by simp, ?_, ?_⟩
    · simp only [RbMem.setColor_child]
      exact ha.frame n4 fun y hy => RbMem.setColor_ne (fun he => n1 (he ▸ hy))
    · simp only [RbMem.setColor_child]
      exact hb.frame n5 fun y hy => RbMem.setColor_ne (fun he => n2 (he ▸ hy))
  · rw [inorder_fill_congr fs (inorder_recolor d c' c a b hole)]
    exact hz.nodup
  · exact RbMem.setColor_ne (by simpa using hz')

/-- Writing a colour at the child on the side other than `d`. -/
theorem recolorFar {d' : Side} {c' : Color} {a' b' : RbTree Nat}
    (hz : Zip h fs (on d c a x (on d' c' a' y b')) hole p) (k : Color) :
    Zip { h with node := h.node.setColor y (colorCode k) } fs (on d c a x (on d' k a' y b'))
        hole p ∧
      Keeps [y] h { h with node := h.node.setColor y (colorCode k) } := by
  rw [← on_other] at hz
  obtain ⟨rfl, hp, hz1⟩ := hz.down
  obtain ⟨hz2, k2⟩ := hz1.recolor k
  obtain ⟨-, -, hz3⟩ := hz2.up
  simp only [RbMem.setColor_parent, hp, on_other] at hz3
  exact ⟨hz3, k2⟩

/-- Writing a colour at the grandchild on the sides other than `d` and `e`. -/
theorem recolorFar₂ {d' : Side} {c' e' : Color} {u b' a' : RbTree Nat} {w : Nat} {k' : Side}
    (hz : Zip h fs (on d c a x (on k' e' u w (on d' c' a' y b'))) hole p) (k : Color) :
    Zip { h with node := h.node.setColor y (colorCode k) } fs
        (on d c a x (on k' e' u w (on d' k a' y b'))) hole p ∧
      Keeps [y] h { h with node := h.node.setColor y (colorCode k) } := by
  rw [← on_other] at hz
  obtain ⟨rfl, hp, hz1⟩ := hz.down
  obtain ⟨hz2, k2⟩ := hz1.recolorFar k
  obtain ⟨-, -, hz3⟩ := hz2.up
  simp only [RbMem.setColor_parent, hp, on_other] at hz3
  exact ⟨hz3, k2⟩

/-- The assignments of a rotation, one by one: which node has which links afterwards. `y`
is the child that comes up and `link` the side on which `x` hangs, when it is not the
root. -/
theorem rotate_node (hz : Zip h fs (on d cx a x (on d cy b y e)) hole p) :
    (mpsRbtreeRotate d h x).tree =
        { h.tree with root := if fs = [] then y else h.tree.root } ∧
      (∀ z, ((mpsRbtreeRotate d h x).node z).key = (h.node z).key ∧
        ((mpsRbtreeRotate d h x).node z).color = (h.node z).color) ∧
      (∀ z, ((mpsRbtreeRotate d h x).node z).parent =
        if z = x then y else if z = y then p
        else if z = (h.node y).child d ∧ z ≠ h.tree.sentinel then x else (h.node z).parent) ∧
      (∀ z k, ((mpsRbtreeRotate d h x).node z).child k =
        if z = x ∧ k = d.other then (h.node y).child d else if z = y ∧ k = d then x
        else if z = p ∧ fs.head?.map Frame.side = some k then y else (h.node z).child k) ∧
      (∀ z, z ≠ x → z ≠ y → (z ≠ (h.node y).child d ∨ z = h.tree.sentinel) →
        (z ≠ p ∨ fs = []) → (mpsRbtreeRotate d h x).node z = h.node z) := by
  obtain ⟨pr, hs⟩ := hz.seg
  obtain ⟨rfl, hxs, hp, hcx, ha, hy⟩ := isTree_on.mp hz.sub
  obtain ⟨hxy, hys, hpy, hcy, hb, he⟩ := isTree_on.mp hy
  obtain ⟨n1, n2, n3, n4, n5⟩ := nodup_on (nodup_hole hz.nodup)
  have hyx : y ≠ hole := fun h' => n2 (mem_inorder_on.mpr (.inl h'.symm))
  have hdo : ¬ d = d.other := fun h' => Side.other_ne d h'.symm
  -- the memory before the link from above is turned
  set m₁ : RbMem := h.node.setChild hole ((h.node y).child d) d.other with hm₁
  have hd : (m₁ y).child d = (h.node y).child d := by simp [hm₁, hyx]
  set m₂ : RbMem := if (h.node y).child d ≠ h.tree.sentinel
    then m₁.setParent ((h.node y).child d) hole else m₁ with hm₂
  have hyx' : ∀ z, z = (h.node y).child d ∧ z ≠ h.tree.sentinel → z ≠ hole ∧ z ≠ y := by
    rintro z ⟨rfl, hzs⟩
    have hzb := hb.root_mem hzs
    exact ⟨fun h' => n2 (mem_inorder_on.mpr (.inr (.inl (h' ▸ hzb)))),
      fun h' => (nodup_on n5).1 (h' ▸ hzb)⟩
  have hm₂p : ∀ z, (m₂ z).parent =
      if z = (h.node y).child d ∧ z ≠ h.tree.sentinel then hole else (h.node z).parent := by
    intro z
    by_cases hs' : (h.node y).child d = h.tree.sentinel
    · have : ¬ (z = h.tree.sentinel ∧ z ≠ h.tree.sentinel) := fun h' => h'.2 h'.1
      simp [hm₂, hm₁, hs']
    · by_cases hz' : z = (h.node y).child d
      · simp [hm₂, hm₁, hs', hz']
      · simp [hm₂, hm₁, hs', hz']
  have hm₂c : ∀ z k, (m₂ z).child k =
      if z = hole ∧ k = d.other then (h.node y).child d else (h.node z).child k := by
    intro z k
    by_cases hs' : (h.node y).child d = h.tree.sentinel <;> simp [hm₂, hm₁, hs']
  have hm₂k : ∀ z, (m₂ z).key = (h.node z).key ∧ (m₂ z).color = (h.node z).color := by
    intro z
    by_cases hs' : (h.node y).child d = h.tree.sentinel <;> simp [hm₂, hm₁, hs']
  have hm₂o : ∀ z, z ≠ hole → (z ≠ (h.node y).child d ∨ z = h.tree.sentinel) →
      m₂ z = h.node z := by
    intro z h1 h2
    by_cases hs' : (h.node y).child d = h.tree.sentinel
    · simp [hm₂, hm₁, hs', RbMem.setChild_ne h1]
    · have h3 : z ≠ (h.node y).child d := by
        rcases h2 with h2 | h2
        · exact h2
        · exact fun h' => hs' (h' ▸ h2)
      simp [hm₂, hm₁, hs', RbMem.setParent_ne h3, RbMem.setChild_ne h1]
  have hm₂h : (m₂ hole).parent = p := by
    rw [hm₂p, if_neg (fun h' => (hyx' hole h').1 rfl), hp]
  have hres : mpsRbtreeRotate d h hole =
      { tree := { h.tree with root := if fs = [] then y else h.tree.root },
        node := ((match fs with
          | [] => m₂.setParent y p
          | f :: _ => (m₂.setParent y p).setChild p y f.side).setChild y hole d).setParent
            hole y } := by
    unfold mpsRbtreeRotate
    simp only [hxy, ← hm₁, hd, ← hm₂, hm₂h]
    cases fs with
    | nil =>
      have hroot : hole = h.tree.root := hz.root.1
      simp [hroot]
    | cons f fs =>
      obtain ⟨rfl, hch, -⟩ := hz.up
      have hnr := hz.hole_ne_root
      have hpx : f.elem ≠ hole := fun h' => disjoint_of_nodup hz.nodup
        (mem_elems_cons.mpr (.inl rfl)) (mem_inorder_on.mpr (.inl h'))
      have hpr : ((m₂.setParent y f.elem) hole).parent = f.elem := by
        simp [hyx.symm, hm₂h]
      simp only [hnr, ↓reduceIte, hpr, RbMem.setParent_child, hm₂c, hpx, false_and,
        reduceCtorEq]
      rcases Side.eq_or_eq_other d f.side with hfs | hfs
      · simp [← hfs, hch]
      · have hno := hz.other_ne hxs
        rw [hfs, Side.other_other] at hno
        simp [← hfs, hno.symm]
  rw [hres]
  refine ⟨rfl, fun z => ?_, fun z => ?_, ?_, ?_⟩
  · cases fs <;> simp [hm₂k z]
  · cases fs <;> simp only [RbMem.setParent_parent, RbMem.setChild_parent, hm₂p]
  · intro z k
    have hp' : ∀ f fs', fs = f :: fs' → p ≠ hole ∧ p ≠ y := by
      rintro f fs' rfl
      obtain ⟨rfl, -⟩ := hz.up
      have := disjoint_of_nodup hz.nodup (mem_elems_cons.mpr (.inl rfl))
      simp only [mem_inorder_on, not_or] at this
      exact ⟨this.1, this.2.2.1⟩
    cases fs with
    | nil =>
      rcases eq_or_ne z hole with rfl | hzh
      · simp [hm₂c, hyx.symm]
      · simp [hm₂c, hzh]
    | cons f fs =>
      obtain ⟨h1, h2⟩ := hp' f fs rfl
      rcases eq_or_ne z hole with rfl | hzh
      · simp [hm₂c, hyx.symm, h1.symm]
      · rcases eq_or_ne z y with rfl | hzy
        · simp [hm₂c, hzh, h2.symm]
        · simp [hm₂c, hzh, hzy, eq_comm]
  · intro z h1 h2 h3 h4
    cases fs with
    | nil =>
      dsimp only
      rw [RbMem.setParent_ne h1, RbMem.setChild_ne h2, RbMem.setParent_ne h2, hm₂o z h1 h3]
    | cons f fs =>
      have h5 : z ≠ p := h4.resolve_right (by simp)
      dsimp only
      rw [RbMem.setParent_ne h1, RbMem.setChild_ne h2, RbMem.setChild_ne h5,
        RbMem.setParent_ne h2, hm₂o z h1 h3]

/-- **A rotation.** The node in the hole goes down to side `d`, its child on the other
side comes up. The context is the same as before, and the root link of the tree is written
if the hole was at the root. -/
theorem rotate (hz : Zip h fs (on d cx a x (on d cy b y e)) hole p) :
    Zip (mpsRbtreeRotate d h x) fs (on d cy (on d cx a x b) y e) y p ∧
      Keeps (fill fs (on d cx a x (on d cy b y e))).inorder h (mpsRbtreeRotate d h x) := by
  obtain ⟨htree, hkc, hpar, hchild, hoff⟩ := hz.rotate_node
  obtain ⟨pr, hs⟩ := hz.seg
  obtain ⟨rfl, hxs, hp, hcx, ha, hy⟩ := isTree_on.mp hz.sub
  obtain ⟨hxy, hys, hpy, hcy, hb, he⟩ := isTree_on.mp hy
  obtain ⟨n1, n2, n3, n4, n5⟩ := nodup_on (nodup_hole hz.nodup)
  obtain ⟨m1, m2, m3, m4, m5⟩ := nodup_on n5
  -- the nodes of the context are neither of the two nodes that turn nor below them
  have hctx : ∀ z ∈ elems fs, z ≠ hole ∧ z ≠ y ∧ z ∉ b.inorder := by
    intro z hz'
    have := disjoint_of_nodup hz.nodup hz'
    simp only [mem_inorder_on, not_or] at this
    exact ⟨this.1, this.2.2.1, this.2.2.2.1⟩
  have hrb : ∀ z, z ∉ b.inorder → z = (h.node y).child d → z = h.tree.sentinel := by
    intro z hzb hze
    by_contra hne
    exact hzb (hze ▸ hb.root_mem (hze ▸ hne))
  have hpne : ∀ z, z ∈ (on d cx a hole (on d cy b y e)).inorder →
      ∀ k, ¬ (z = p ∧ fs.head?.map Frame.side = some k) := by
    rintro z hzt k ⟨rfl, hk⟩
    cases fs with
    | nil => simp at hk
    | cons f fs => exact disjoint_of_nodup hz.nodup (mem_elems_cons.mpr (.inl hs.1)) hzt
  have hyx : y ≠ hole := fun h' => n2 (mem_inorder_on.mpr (.inl h'.symm))
  have hdo : ¬ d.other = d := Side.other_ne d
  have hmem_a : ∀ z ∈ a.inorder, z ≠ hole ∧ z ≠ y ∧ z ∉ b.inorder := by
    intro z hza
    have := n3 z hza
    simp only [mem_inorder_on, not_or] at this
    exact ⟨fun h' => n1 (h' ▸ hza), this.1, this.2.1⟩
  have hmem_b : ∀ z ∈ b.inorder, z ≠ hole ∧ z ≠ y := fun z hzb =>
    ⟨fun h' => n2 (mem_inorder_on.mpr (.inr (.inl (h' ▸ hzb)))), fun h' => m1 (h' ▸ hzb)⟩
  have hmem_e : ∀ z ∈ e.inorder, z ≠ hole ∧ z ≠ y ∧ z ∉ b.inorder := fun z hze =>
    ⟨fun h' => n2 (mem_inorder_on.mpr (.inr (.inr (h' ▸ hze)))), fun h' => m2 (h' ▸ hze),
      fun hzb => m3 z hzb hze⟩
  -- off the tree between the two nodes nothing but the parent links below them is kept
  have hrest : ∀ z, z ∉ b.inorder → z ≠ hole → z ≠ y → z ≠ h.tree.sentinel →
      ((mpsRbtreeRotate d h hole).node z).parent = (h.node z).parent := by
    intro z hzb h1 h2 h3
    rw [hpar, if_neg h1, if_neg h2, if_neg (fun h' => h3 (hrb z hzb h'.1))]
  have hin : ∀ z ∈ (on d cx a hole (on d cy b y e)).inorder, z ≠ hole → z ≠ y → ∀ k,
      ((mpsRbtreeRotate d h hole).node z).child k = (h.node z).child k := by
    intro z hzt h1 h2 k
    rw [hchild, if_neg (fun h' => h1 h'.1), if_neg (fun h' => h2 h'.1), if_neg (hpne z hzt k)]
  have hsn := hz.sentinel_notMem
  have hst : ∀ z ∈ (on d cx a hole (on d cy b y e)).inorder, z ≠ h.tree.sentinel :=
    fun z hzt h' => hsn (mem_fill.mpr (.inr (h' ▸ hzt)))
  have hord : (on d cy (on d cx a hole b) y e).inorder =
      (on d cx a hole (on d cy b y e)).inorder := inorder_rotate d cy cx cx cy a b e hole y
  have hsent : (mpsRbtreeRotate d h hole).tree.sentinel = h.tree.sentinel := by rw [htree]
  have hroot : (mpsRbtreeRotate d h hole).tree.root = if fs = [] then y else h.tree.root := by
    rw [htree]
  refine ⟨⟨⟨pr, ?_⟩, ?_, ?_⟩, ⟨hsent, by rw [htree], ?_, fun z => (hkc z).1⟩⟩
  · rw [hsent, hroot]
    refine hs.redirect (nodup_elems hz.nodup) fun z hz' => ⟨(hkc z).2, ?_, ?_⟩
    · obtain ⟨h1, h2, h3⟩ := hctx z hz'
      exact hrest z h3 h1 h2 (fun h' => hs.sentinel_notMem (h' ▸ hz'))
    · intro k
      obtain ⟨h1, h2, -⟩ := hctx z hz'
      rw [hchild, if_neg (fun h' => h1 h'.1), if_neg (fun h' => h2 h'.1)]
  · rw [hsent]
    refine isTree_on.mpr ⟨rfl, hys, ?_, (hkc y).2.trans hcy, ?_, ?_⟩
    · rw [hpar, if_neg hyx, if_pos rfl]
    · rw [hchild, if_neg (fun h' => hyx h'.1), if_pos ⟨rfl, rfl⟩]
      refine isTree_on.mpr ⟨rfl, hxs, by rw [hpar, if_pos rfl], (hkc hole).2.trans hcx, ?_, ?_⟩
      · rw [hchild, if_neg (fun h' => hdo h'.2.symm), if_neg (fun h' => hyx h'.1.symm),
          if_neg (hpne hole (mem_inorder_on.mpr (.inl rfl)) _)]
        refine ha.congr n4 ?_
        intro z hza
        obtain ⟨h1, h2, h3⟩ := hmem_a z hza
        have hzt : z ∈ (on d cx a hole (on d cy b y e)).inorder :=
          mem_inorder_on.mpr (.inr (.inl hza))
        exact ⟨hin z hzt h1 h2, (hkc z).2,
          (hrest z h3 h1 h2 (hst z hzt)).trans (ha.parent_eq hza)⟩
      · rw [hchild, if_pos ⟨rfl, rfl⟩]
        refine hb.congr m4 ?_
        intro z hzb
        obtain ⟨h1, h2⟩ := hmem_b z hzb
        have hzt : z ∈ (on d cx a hole (on d cy b y e)).inorder :=
          mem_inorder_on.mpr (.inr (.inr (mem_inorder_on.mpr (.inr (.inl hzb)))))
        refine ⟨hin z hzt h1 h2, (hkc z).2, ?_⟩
        rw [hpar, if_neg h1, if_neg h2]
        simp [hst z hzt]
    · rw [hchild, if_neg (fun h' => hyx h'.1), if_neg (fun h' => hdo h'.2),
        if_neg (hpne y (mem_inorder_on.mpr (.inr (.inr (mem_inorder_on.mpr (.inl rfl))))) _)]
      refine he.congr m5 ?_
      intro z hze
      obtain ⟨h1, h2, h3⟩ := hmem_e z hze
      have hzt : z ∈ (on d cx a hole (on d cy b y e)).inorder :=
        mem_inorder_on.mpr (.inr (.inr (mem_inorder_on.mpr (.inr (.inr hze)))))
      exact ⟨hin z hzt h1 h2, (hkc z).2,
        (hrest z h3 h1 h2 (hst z hzt)).trans (he.parent_eq hze)⟩
  · rw [inorder_fill_congr fs hord]
    exact hz.nodup
  · intro z hz'
    rw [mem_fill, not_or] at hz'
    obtain ⟨hz1, hz2⟩ := hz'
    simp only [mem_inorder_on, not_or] at hz2
    refine hoff z hz2.1 hz2.2.2.1 ?_ ?_
    · by_cases h' : z = (h.node y).child d
      · exact .inr (hrb z hz2.2.2.2.1 h')
      · exact .inl h'
    · cases fs with
      | nil => exact .inr rfl
      | cons f fs => exact .inl fun h' => hz1 (mem_elems_cons.mpr (.inl (h'.trans hs.1)))

end Zip

end MpsShdict
