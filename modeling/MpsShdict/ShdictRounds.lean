import MpsShdict.RbtreeHeight
import MpsShdict.ShdictRuns

/-! # The cost of a lookup

A lookup goes down one path of the tree of the entries, which is no higher than
`2 * log2 (n + 1)` for `n` entries; hanging an entry up and taking one out go down one
path and up again. In the model these loops may run for as many rounds as the pool has
bytes.

So the fuel of the model is not what makes them end. With `logRounds n` rounds they come
to the same result as with all rounds that the model allows, after any run.
-/
namespace MpsShdict

open RedBlack RedBlack.RbTree Rounds

section Find
variable {d : Shdict} {hash : Nat} {kdata : Bytes} {t : RbTree Nat} {p r node : Nat}

theorem findNode_steady : Steady fun fuel => findNode d hash kdata fuel node := by
  intro fuel found hrun
  induction fuel generalizing node with
  | zero => cases hrun
  | succ fuel ih =>
    simp only [findNode] at hrun ⊢
    split at hrun
    · exact (if_pos ‹_›).trans hrun
    refine (if_neg ‹_›).trans ?_
    split at hrun
    · exact (if_pos ‹_›).trans (ih hrun)
    refine (if_neg ‹_›).trans ?_
    split at hrun
    · exact (if_pos ‹_›).trans (ih hrun)
    refine (if_neg ‹_›).trans ?_
    split at hrun
    · exact (if_pos ‹_›).trans hrun
    · exact (if_neg ‹_›).trans (ih hrun)

/-- The way down of a lookup. Each round goes one level down, and the last one finds the
key or the sentinel. -/
theorem findNode_height (ht : IsTree d.rbtree.node d.rbtree.tree.sentinel p t r) :
    EndsWithin (t.height + 1) fun fuel => findNode d hash kdata fuel r := by
  suffices h : ∃ found, findNode d hash kdata (t.height + 1) r = some found from
    findNode_steady.endsWithin h.choose_spec
  -- induction on the tree below the node that is looked at
  induction t generalizing p r with
  | nil =>
    have hr : r = d.rbtree.tree.sentinel := ht
    exact ⟨none, if_pos hr⟩
  | node c l x rt ihl ihr =>
    obtain ⟨rfl, hne, -, -, hl, hrt⟩ := ht
    obtain ⟨fl, hfl⟩ := ihl hl
    obtain ⟨fr, hfr⟩ := ihr hrt
    have hleft : findNode d hash kdata (max l.height rt.height + 1)
      (d.rbtree.node r).left = some fl :=
      findNode_steady.mono hfl (Nat.succ_le_succ (Nat.le_max_left _ _))
    have hright : findNode d hash kdata (max l.height rt.height + 1)
      (d.rbtree.node r).right = some fr :=
      findNode_steady.mono hfr (Nat.succ_le_succ (Nat.le_max_right _ _))
    rw [height, findNode, if_neg hne]
    split
    · exact ⟨fl, hleft⟩
    split
    · exact ⟨fr, hright⟩
    dsimp only
    split
    · exact ⟨some r, rfl⟩
    split
    · exact ⟨fl, hleft⟩
    · exact ⟨fr, hright⟩

end Find

/-- **Lookups take logarithmic time**, after every run: the way down for a key ends within
`2 * log2 (n + 1) + 2` steps, `n` being the number of entries, and so do the loops that hang
up another entry or take one out.  They end at what the model's rounds lead to. -/
theorem lookups_logarithmic {s : Nat} {xs : List Event} {d : Shdict} (hs : 12 ≤ s) (hs' : s ≤ 16)
    (run : Run s xs d) :
    (∀ hash kdata, ∃ found,
      findNode d hash kdata (logRounds d.entries.length) d.rbtree.tree.root = some found ∧
      findNode d hash kdata d.rounds d.rbtree.tree.root = some found) ∧
    (∀ x ∉ d.rbtree.tree.sentinel :: d.entries.map Entry.off, ∃ rbtree,
      mpsRbtreeInsert (logRounds d.entries.length) d.keyOf d.rbtree x = some rbtree ∧
      mpsRbtreeInsert d.rounds d.keyOf d.rbtree x = some rbtree) ∧
    ∀ e ∈ d.entries, ∃ rbtree,
      mpsRbtreeDelete (logRounds d.entries.length) d.rbtree e.off = some rbtree ∧
      mpsRbtreeDelete d.rounds d.rbtree e.off = some rbtree := by
  obtain ⟨L, spare, hrep⟩ := run.rep hs hs'
  rw [hrep.entries_eq]
  obtain ⟨t, hr, hperm, -⟩ := hrep.shape.hung.tree
  have hlog : t.height + 2 ≤ logRounds L.length := by
    have h := hr.height_add_two_le
    rwa [hperm.length_eq, List.length_map] at h
  have hrounds : t.inorder.length + 2 ≤ d.rounds := by
    have h := hrep.laid.length
    rw [hperm.length_eq, List.length_map, Shdict.rounds]
    omega
  refine ⟨?_, ?_, ?_⟩
  · intro hash kdata
    obtain ⟨pr, ht⟩ := hr.shape
    obtain ⟨found, hfound, -⟩ :=
      findNode_root hash kdata hr (show t.inorder.length < d.rounds by omega)
    exact ⟨found, findNode_steady.eq_of_endsWithin hfound
      ((findNode_height ht).mono (by omega)), hfound⟩
  · intro x hx
    simp only [List.mem_cons, not_or, ← hperm.mem_iff] at hx
    obtain ⟨rbtree, -, -, -, hrun, -⟩ := @mpsRbtreeInsert_spec _ _ t _ d.keyOf hr hx.2 hx.1 hrounds
    exact ⟨rbtree, mpsRbtreeInsert_steady.eq_of_endsWithin hrun
      ((mpsRbtreeInsert_height hr hx.2 hx.1).mono hlog), hrun⟩
  · intro e he
    have hx : e.off ∈ t.inorder := hperm.mem_iff.mpr (List.mem_map_of_mem he)
    obtain ⟨rbtree, -, -, -, hrun, -⟩ :=
      mpsRbtreeDelete_spec hr hx (show t.inorder.length + 1 ≤ d.rounds by omega)
    exact ⟨rbtree, mpsRbtreeDelete_steady.eq_of_endsWithin hrun
      ((mpsRbtreeDelete_height hr hx).mono (by omega)), hrun⟩

theorem lookups_logarithmic_two :
    (∀ hash kdata, ∃ found,
      findNode twoDict hash kdata (logRounds twoDict.entries.length) twoDict.rbtree.tree.root =
        some found ∧
      findNode twoDict hash kdata twoDict.rounds twoDict.rbtree.tree.root = some found) ∧
    (∀ x ∉ twoDict.rbtree.tree.sentinel :: twoDict.entries.map Entry.off, ∃ rbtree,
      mpsRbtreeInsert (logRounds twoDict.entries.length) twoDict.keyOf twoDict.rbtree x =
        some rbtree ∧
      mpsRbtreeInsert twoDict.rounds twoDict.keyOf twoDict.rbtree x = some rbtree) ∧
    ∀ e ∈ twoDict.entries, ∃ rbtree,
      mpsRbtreeDelete (logRounds twoDict.entries.length) twoDict.rbtree e.off = some rbtree ∧
      mpsRbtreeDelete twoDict.rounds twoDict.rbtree e.off = some rbtree :=
  lookups_logarithmic (by decide) (by decide) run_twoDict

end MpsShdict
