import MpsShdict.RbtreeDelete

/-! # The order of a tree

Every tree is kept in one of three orders, by the unsigned key, by the hash and then the
bytes of a dictionary key, or by the distance of a timer from an origin. The timers are
compared by a signed difference, which is the order of their distances as long as all of
them lie within half the range from that origin.

The two main theorems are about a single call in any tree. An insertion puts the node
right behind the last one that is not greater, so that nodes with equal keys stand in the
order in which they came; a deletion takes one node out and moves none of the others. Both
leave a valid red-black tree, and together they keep the order through any run
(`SortedTree.delete`). The comparison of the source has to agree with the order in
question, and `insertValues_iff` is the one place where that is looked at.
-/
namespace MpsShdict

open RedBlack RedBlack.RbTree
open Words

/-- The node `a` may stand before `b`: the order of a tree of each insert type.
`origin` is where a timer's distance is measured from. -/
def NotGreater (keyOf : Nat → Bytes) (origin : Nat) : InsertTypeId → RbMem → Nat → Nat → Prop
  | .standard, m, a, b => (m a).key ≤ (m b).key
  | .timer, m, a, b => sub64 (m a).key origin ≤ sub64 (m b).key origin
  | .luadict, m, a, b => (m a).key < (m b).key ∨ (m a).key = (m b).key ∧ keyOf a ≤ keyOf b

/-- The keys of the nodes lie within half the range from the origin. Timers beyond that
would be compared the wrong way round, whatever the tree looks like. -/
def InWindow (origin : Nat) (m : RbMem) (L : List Nat) : Prop :=
  ∀ y ∈ L, sub64 (m y).key origin < 2 ^ 63

/-- The nodes stand in the order of the tree: along the list none is greater than one
behind it. -/
def SortedTree (keyOf : Nat → Bytes) (origin : Nat) (h : RbHeap) (L : List Nat) : Prop :=
  L.Pairwise (NotGreater keyOf origin h.tree.insert h.node)

section Order
variable {keyOf : Nat → Bytes} {origin : Nat} {i : InsertTypeId} {m : RbMem} {a b c : Nat}

theorem NotGreater.trans (hab : NotGreater keyOf origin i m a b)
    (hbc : NotGreater keyOf origin i m b c) : NotGreater keyOf origin i m a c := by
  cases i with
  | standard => exact Nat.le_trans hab hbc
  | timer => exact Nat.le_trans hab hbc
  | luadict =>
    rcases hab with hab | ⟨hab, ka⟩ <;> rcases hbc with hbc | ⟨hbc, kb⟩
    · exact .inl (hab.trans hbc)
    · exact .inl (hbc ▸ hab)
    · exact .inl (hab ▸ hbc)
    · exact .inr ⟨hab.trans hbc, List.le_trans ka kb⟩

theorem NotGreater.total (h : ¬ NotGreater keyOf origin i m a b) :
    NotGreater keyOf origin i m b a := by
  cases i with
  | standard => exact Nat.le_of_not_le h
  | timer => exact Nat.le_of_not_le h
  | luadict =>
    simp only [NotGreater, not_or, not_lt, not_and] at h ⊢
    rcases h.1.lt_or_eq with hlt | he
    · exact .inl hlt
    · exact .inr ⟨he, (List.le_total _ _).resolve_left (h.2 he.symm)⟩

/-- The three comparisons of the source decide the three orders. For the timers this needs
both keys in the window, where the signed difference does not overflow. -/
theorem insertValues_iff
    (hw : i = .timer → sub64 (m a).key origin < 2 ^ 63 ∧ sub64 (m b).key origin < 2 ^ 63) :
    insertValues keyOf i m a b = true ↔ ¬ NotGreater keyOf origin i m b a := by
  cases i with
  | standard => simp [insertValues, standardLess, NotGreater]
  | timer =>
    obtain ⟨ha, hb⟩ := hw rfl
    have hlo : (sub64 (m a).key origin : Int) - sub64 (m b).key origin < 2 ^ 63 := by omega
    have hhi : -2 ^ 63 ≤ (sub64 (m a).key origin : Int) - sub64 (m b).key origin := by omega
    simp only [insertValues, timerLess, NotGreater, decide_eq_true_eq]
    rw [← sub64_sub64 _ _ origin, int64_sub64 hlo hhi]
    omega
  | luadict =>
    simp only [insertValues, luadictLess, NotGreater, not_or, not_lt, not_and]
    rcases Nat.lt_trichotomy (m a).key (m b).key with hlt | he | hgt
    · simp only [hlt, ↓reduceIte, true_iff]
      exact ⟨hlt.le, fun h => absurd h hlt.ne'⟩
    · simp [he, ngxMemn2cmp_neg]
    · simp only [hgt, hgt.not_gt, ↓reduceIte, Bool.false_eq_true, false_iff, not_and]
      exact fun hle => absurd hgt (not_lt_of_ge hle)

end Order

section Trees
variable {h : RbHeap} {t : RbTree Nat} {z origin fuel : Nat} {keyOf : Nat → Bytes}

/-- A tree with no node in it. -/
theorem RbRep.init (m : RbMem) (sentinel : Nat) (i : InsertTypeId) :
    RbRep (mpsRbtreeInit m sentinel i) .nil :=
  ⟨⟨0, rfl⟩, by simp [mpsRbtreeInit, ngxRbtBlack], by simp, 0, .nil⟩

theorem SortedTree.parted {L : List Nat} (hs : SortedTree keyOf origin h L)
    (hw : h.tree.insert = .timer → InWindow origin h.node (z :: L)) : Parted keyOf h z L := by
  refine hs.imp_of_mem fun {a b} ha hb hab => ?_
  have win : ∀ y ∈ L, h.tree.insert = .timer →
      sub64 (h.node z).key origin < 2 ^ 63 ∧ sub64 (h.node y).key origin < 2 ^ 63 :=
    fun y hy ht => ⟨hw ht z (by simp), hw ht y (by simp [hy])⟩
  rw [insertValues_iff (win a ha), insertValues_iff (win b hb)]
  exact fun hza hzb => hza (hab.trans hzb)

/-- **`mps_rbtree_insert` keeps a tree sorted.** For each of the three orders, a node that
is not in a valid tree comes to stand right behind the last node that is not greater, in a
valid tree again, and nothing else is written: no key, and no node that is neither the new
one nor one of the tree. -/
theorem mpsRbtreeInsert_sorted (hr : RbRep h t) (hs : SortedTree keyOf origin h t.inorder)
    (hw : h.tree.insert = .timer → InWindow origin h.node (z :: t.inorder))
    (hzn : z ∉ t.inorder) (hzs : z ≠ h.tree.sentinel) (hfuel : t.inorder.length + 2 ≤ fuel) :
    ∃ h' t' xs ys, mpsRbtreeInsert fuel keyOf h z = some h' ∧ RbRep h' t' ∧
      SortedTree keyOf origin h' t'.inorder ∧
      t.inorder = xs ++ ys ∧ t'.inorder = xs ++ z :: ys ∧
      (∀ x ∈ xs, NotGreater keyOf origin h.tree.insert h.node x z) ∧
      (∀ y ∈ ys, ¬ NotGreater keyOf origin h.tree.insert h.node y z) ∧
      (∀ y, y ∉ z :: t.inorder → h'.node y = h.node y) ∧
      (∀ y, (h'.node y).key = (h.node y).key) ∧ h'.tree.insert = h.tree.insert := by
  obtain ⟨h', t', xs, ys, hrun, hr', ht, ht', hless, hk⟩ :=
    mpsRbtreeInsert_spec hr hzn hzs hfuel
  obtain ⟨hxs, hys⟩ := hless (hs.parted hw)
  have win : ∀ y ∈ t.inorder, h.tree.insert = .timer →
      sub64 (h.node z).key origin < 2 ^ 63 ∧ sub64 (h.node y).key origin < 2 ^ 63 :=
    fun y hy he => ⟨hw he z (by simp), hw he y (by simp [hy])⟩
  have hle : ∀ x ∈ xs, NotGreater keyOf origin h.tree.insert h.node x z := by
    intro x hx
    have hz := hxs x hx
    rw [← Bool.not_eq_true, insertValues_iff (win x (by simp [ht, hx])), not_not] at hz
    exact hz
  have hgt : ∀ y ∈ ys, ¬ NotGreater keyOf origin h.tree.insert h.node y z :=
    fun y hy => (insertValues_iff (win y (by simp [ht, hy]))).mp (hys y hy)
  refine ⟨h', t', xs, ys, hrun, hr', ?_, ht, ht', hle, hgt, fun y hy => hk.off y hy, hk.key,
    hk.insert⟩
  have hcong : ∀ a b, NotGreater keyOf origin h.tree.insert h.node a b →
      NotGreater keyOf origin h'.tree.insert h'.node a b := by
    intro a b hab
    rw [hk.insert]
    cases hi : h.tree.insert <;> simpa only [NotGreater, hi, hk.key] using hab
  unfold SortedTree at hs ⊢
  rw [ht', List.pairwise_append, List.pairwise_cons]
  rw [ht, List.pairwise_append] at hs
  obtain ⟨sx, sy, sxy⟩ := hs
  refine ⟨sx.imp (hcong _ _),
    ⟨fun y hy => hcong _ _ (NotGreater.total (hgt y hy)), sy.imp (hcong _ _)⟩, ?_⟩
  intro x hx y hy
  rcases List.mem_cons.mp hy with rfl | hy
  · exact hcong _ _ (hle x hx)
  · exact hcong _ _ (sxy x hx y hy)

/-- Four timers in their tree, two of them due before the counter wraps around and two
after it; the node at 56 is none of the tree's, and its timer comes between the last two.
Its unsigned key is smaller than those of the first two. -/
def timerHeap : RbHeap where
  tree := ⟨24, 8, .timer⟩
  node
    | 16 => ⟨2 ^ 64 - 2, 8, 8, 24, 0⟩
    | 24 => ⟨2 ^ 64 - 1, 16, 40, 8, 0⟩
    | 40 => ⟨1, 8, 48, 24, 0⟩
    | 48 => ⟨4, 8, 8, 40, 1⟩
    | 56 => ⟨2, 8, 8, 0, 0⟩
    | _ => ⟨0, 8, 8, 0, 0⟩

theorem timerHeap_rep :
    RbRep timerHeap (.node .black (.node .black .nil 16 .nil) 24
      (.node .black .nil 40 (.node .red .nil 48 .nil))) := by
  refine ⟨⟨8, ?_⟩, rfl, by simp [inorder], 2,
    .black (.black .nil .nil) (.black .nil (.red .nil .nil))⟩
  simp [IsTree, timerHeap, RbNode.child, colorCode]

/-- The fifth timer is hung up below the red one.  Two rotations bring it above the nodes
at 40 and 48. -/
theorem mpsRbtreeInsert_sorted_timers :
    (mpsRbtreeInsert 6 (fun _ => []) timerHeap 56).map (fun h =>
        ((h.node 24).right, (h.node 56).left, (h.node 56).right)) = some (56, 40, 48) ∧
      ∃ h' t' xs ys, mpsRbtreeInsert 6 (fun _ => []) timerHeap 56 = some h' ∧ RbRep h' t' ∧
        SortedTree (fun _ => []) (2 ^ 64 - 2) h' t'.inorder ∧
        [16, 24, 40, 48] = xs ++ ys ∧ t'.inorder = xs ++ 56 :: ys ∧
        (∀ x ∈ xs, NotGreater (fun _ => []) (2 ^ 64 - 2) .timer timerHeap.node x 56) ∧
        (∀ y ∈ ys, ¬ NotGreater (fun _ => []) (2 ^ 64 - 2) .timer timerHeap.node y 56) ∧
        (∀ y, y ∉ [56, 16, 24, 40, 48] → h'.node y = timerHeap.node y) ∧
        (∀ y, (h'.node y).key = (timerHeap.node y).key) ∧ h'.tree.insert = .timer :=
  ⟨by decide, mpsRbtreeInsert_sorted timerHeap_rep
    (by simp [SortedTree, NotGreater, inorder, timerHeap, sub64])
    (fun _ y hy => by
      simp only [inorder, List.nil_append, List.cons_append,
        List.mem_cons, List.not_mem_nil, or_false] at hy
      rcases hy with rfl | rfl | rfl | rfl | rfl <;> decide)
    (by simp [inorder]) (by decide) (by decide)⟩

/-- **`mps_rbtree_delete` takes one node out.** The others keep their places, their keys
and their order in a valid tree, and the sentinel is black. Nodes outside of the tree are
not written. -/
theorem mpsRbtreeDelete_takes (hr : RbRep h t) (hz : z ∈ t.inorder)
    (hfuel : t.inorder.length + 1 ≤ fuel) :
    ∃ h' t' xs ys, mpsRbtreeDelete fuel h z = some h' ∧ RbRep h' t' ∧
      t.inorder = xs ++ z :: ys ∧ t'.inorder = xs ++ ys ∧
      (∀ y, y ≠ z → (h'.node y).key = (h.node y).key) ∧
      (∀ y, y ∉ t.inorder → y ≠ h.tree.sentinel → h'.node y = h.node y) ∧
      h'.tree.sentinel = h.tree.sentinel ∧ (h'.node h'.tree.sentinel).color = 0 ∧
      h'.tree.insert = h.tree.insert := by
  obtain ⟨h', t', xs, ys, hrun, hr', ht, ht', hm⟩ := mpsRbtreeDelete_spec hr hz hfuel
  exact ⟨h', t', xs, ys, hrun, hr', ht, ht', hm.key, hm.off, hm.sentinel, hr'.black, hm.insert⟩

/-- A tree of four nodes.  Its root, at 32, has two children. -/
def fourHeap : RbHeap where
  tree := ⟨32, 8, .standard⟩
  node
    | 16 => ⟨1, 8, 8, 24, 1⟩
    | 24 => ⟨2, 16, 8, 32, 0⟩
    | 32 => ⟨3, 24, 40, 8, 0⟩
    | 40 => ⟨4, 8, 8, 32, 0⟩
    | _ => ⟨0, 8, 8, 0, 0⟩

theorem fourHeap_rep :
    RbRep fourHeap (.node .black (.node .black (.node .red .nil 16 .nil) 24 .nil) 32
      (.node .black .nil 40 .nil)) := by
  refine ⟨⟨8, ?_⟩, rfl, by simp [inorder], 2,
    .black (.black (.red .nil .nil) .nil) (.black .nil .nil)⟩
  simp [IsTree, fourHeap, RbNode.child, colorCode]

/-- The root is deleted.  Its successor, at 40, takes its place and leaves a black node too
few behind, so that a rotation makes the node at 24 the root. -/
theorem mpsRbtreeDelete_takes_root :
    (mpsRbtreeDelete 5 fourHeap 32).map (fun h =>
        (h.tree.root, (h.node 24).left, (h.node 24).right)) = some (24, 16, 40) ∧
      ∃ h' t' xs ys, mpsRbtreeDelete 5 fourHeap 32 = some h' ∧ RbRep h' t' ∧
        [16, 24, 32, 40] = xs ++ 32 :: ys ∧ t'.inorder = xs ++ ys ∧
        (∀ y, y ≠ 32 → (h'.node y).key = (fourHeap.node y).key) ∧
        (∀ y, y ∉ [16, 24, 32, 40] → y ≠ 8 → h'.node y = fourHeap.node y) ∧
        h'.tree.sentinel = 8 ∧ (h'.node h'.tree.sentinel).color = 0 ∧
        h'.tree.insert = .standard :=
  ⟨by decide, mpsRbtreeDelete_takes fourHeap_rep (by simp [inorder]) (by decide)⟩

/-- A tree that is left in order by insertions is left in order by deletions. -/
theorem SortedTree.delete {h' : RbHeap} {xs ys : List Nat}
    (hs : SortedTree keyOf origin h (xs ++ z :: ys)) (hzn : z ∉ xs ++ ys)
    (hkey : ∀ y, y ≠ z → (h'.node y).key = (h.node y).key)
    (hi : h'.tree.insert = h.tree.insert) : SortedTree keyOf origin h' (xs ++ ys) := by
  have hsub : (xs ++ ys).Sublist (xs ++ z :: ys) :=
    (List.Sublist.refl xs).append (List.sublist_cons_self z ys)
  refine (List.Pairwise.sublist hsub hs).imp_of_mem fun {a b} ha hb hab => ?_
  have ea := hkey a fun he => hzn (he ▸ ha)
  have eb := hkey b fun he => hzn (he ▸ hb)
  rw [hi]
  cases hj : h.tree.insert <;> simpa only [NotGreater, hj, ea, eb] using hab

end Trees

end MpsShdict
