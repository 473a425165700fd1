import MpsShdict.ShdictCounts

/-! # The invariant of a dictionary

The tree and the LRU queue hold the same entries, the tree in the order of the hashes and
of the keys, and every list counts its elements.

The invariant is stated on the fields of the pool, without the entries of the model: this
is what one would check in a dump of the memory. It follows from the representation. Two
things keep it from holding in all runs. `mps_shdict_incr` inserts the node of a new
counter before it has copied the key, so that two counters with one hash may be hung up in
the wrong order, and the length of a list turns to zero at `2 ^ 32`.
-/
namespace MpsShdict

open RedBlack RedBlack.RbTree
open Words

/-- The field `value_len` of the list at `node` counts the elements, one at least, that
its queue has. -/
def ListOk (d : Shdict) (node : Nat) : Prop :=
  ∃ cells, IsQueue d.queue (mpsShdictGetListHead 0 node (d.sd node).keyLen) cells ∧
    1 ≤ (d.sd node).valueLen ∧ (d.sd node).valueLen = cells.length

/-- **The invariant**, for the tree `t` and the nodes `nodes` of the LRU queue. -/
structure InvariantFor (d : Shdict) (t : RbTree Nat) (nodes : List Nat) : Prop where
  tree : RbRep d.rbtree t
  lru : IsQueue d.queue d.lruQueue (nodes.map sdQueue)
  /-- The tree and the queue hold the same entries, each of them once. -/
  same : t.inorder.Perm nodes
  hash : ∀ x ∈ nodes, (d.rbtree.node x).key = ngxMurmurHash2 (d.keyOf x)
  /-- The tree is strictly increasing, by the hash and then by the key. -/
  sorted : t.inorder.Pairwise (Before d.keyOf d.rbtree.node)
  lists : ∀ x ∈ nodes, (d.sd x).valueType = .tlist → ListOk d x

/-- The invariant of a dictionary, for the tree and the nodes that the pool happens to
have. -/
def Shdict.Invariant (d : Shdict) : Prop := ∃ t nodes, InvariantFor d t nodes

section Invariant
variable {s : Nat} {d : Shdict} {L : List Entry} {spare : List Block} {t : RbTree Nat}
  {nodes : List Nat} {xs : List Event} {x : Nat}

/-- A list that is counted right is spelled out with its length. Below `2 ^ 32` the field
is the length itself. -/
theorem EntryOk.listOk {e : Entry} (h : EntryOk d e)
    (hcount : ∀ elems, e.value = .list elems → elems ≠ [] ∧ elems.length < 2 ^ 32)
    (ht : (d.sd e.off).valueType = .tlist) : ListOk d e.off := by
  have hval := h.value
  unfold ValueOk at hval
  cases hv : e.value with
  | plain valueType bytes =>
    rw [hv] at hval
    exact absurd (hval.1.symm.trans ht) hval.2.1
  | list elems =>
    rw [hv] at hval
    obtain ⟨hne, hlt⟩ := hcount elems hv
    obtain ⟨-, hlen, hq, -⟩ := hval
    have hpos : 0 < elems.length := List.length_pos_iff.mpr hne
    refine ⟨elems.map Elem.off, ?_, ?_, ?_⟩
    · rw [h.keyLen]
      exact hq
    · rw [hlen, u32_of_lt hlt]
      exact hpos
    · rw [hlen, u32_of_lt hlt, List.length_map]

/-- Entries that are in order and counted right meet the invariant. The nodes are the
chunks of the entries. -/
theorem Rep.invariant (h : Rep (mpsSlabSizesInit (2 ^ s)) s True d L spare) (hL : Counted L) :
    d.Invariant := by
  obtain ⟨t, hr, hperm, hsorted⟩ := h.shape.hung.tree
  refine ⟨t, L.map Entry.off, hr, h.shape.hung.lru, hperm, ?_, hsorted trivial, ?_⟩
  · intro x hx
    obtain ⟨e, he, rfl⟩ := List.mem_map.mp hx
    have hok := h.shape.entries e he
    rw [hok.hash, hok.keyOf]
  · intro x hx ht
    obtain ⟨e, he, rfl⟩ := List.mem_map.mp hx
    exact (h.shape.entries e he).listOk (hL e he) ht

/-- **No key occurs twice**, where the invariant holds. Two nodes with one key would have
one hash too, and neither could stand before the other. -/
theorem InvariantFor.key_inj (h : InvariantFor d t nodes) {y : Nat}
    (hx : x ∈ nodes) (hy : y ∈ nodes) (hk : d.keyOf x = d.keyOf y) : x = y := by
  by_contra hne
  have hsym : Std.Symm fun a b : Nat => d.keyOf a ≠ d.keyOf b := ⟨fun a b hab => hab.symm⟩
  have hdiff : t.inorder.Pairwise fun a b => d.keyOf a ≠ d.keyOf b := by
    refine h.sorted.imp_of_mem fun {a b} ha hb hab hkey => ?_
    have hhash : (d.rbtree.node a).key = (d.rbtree.node b).key := by
      rw [h.hash a (h.same.mem_iff.mp ha), h.hash b (h.same.mem_iff.mp hb), hkey]
    rcases hab with hlt | ⟨-, hlt⟩
    · omega
    · rw [hkey] at hlt
      exact List.lt_irrefl _ hlt
  exact hdiff.forall (h.same.mem_iff.mpr hx) (h.same.mem_iff.mpr hy) hne hk

/-- **A lookup finds every key**, where the invariant holds. The search goes by the hash
and then by the key, and the tree is in the order of both. -/
theorem InvariantFor.finds (h : InvariantFor d t nodes) (hx : x ∈ nodes)
    (hfuel : t.inorder.length < d.rounds) :
    findNode d (ngxMurmurHash2 (d.keyOf x)) (d.keyOf x) d.rounds d.rbtree.tree.root =
      some (some x) := by
  obtain ⟨found, hrun, hreach⟩ :=
    findNode_root (ngxMurmurHash2 (d.keyOf x)) (d.keyOf x) h.tree hfuel
  have hx' := h.same.mem_iff.mpr hx
  cases found with
  | none => exact absurd ⟨h.hash x hx, rfl⟩ (hreach.complete h.sorted rfl x hx')
  | some y =>
    obtain ⟨hy, -, hk⟩ := hreach.sound y rfl
    rw [hrun, h.key_inj (h.same.mem_iff.mp hy) hx hk]

/-- **The invariant holds in every run** in which each counter is hung up where the tree
stays in order, and no push gets to a list of `2 ^ 32 - 1` elements. -/
theorem invariant_of_safe (hs : 12 ≤ s) (hs' : s ≤ 16)
    (run : RunWith s (fun x L => x.call.Safe x.env L ∧ x.call.Counts x.env L) xs d) :
    d.Invariant := by
  obtain ⟨hrep, hL⟩ := RunWith.tidy True hs hs' (run.mono fun _ _ h => ⟨fun _ => h.1, h.2⟩)
  exact hrep.invariant hL

end Invariant

/-! ### Two keys with one hash -/

/-- A counter is started at the time `t`, in the chunk at `node`. It has an initial value,
so it is inserted where the key is absent. -/
def countEvent (t : Nat) (key : Bytes) (node : Nat) : Event :=
  ⟨0, calmEnv t, .incr ⟨key, Double.zero, some Double.zero, 0⟩, some node,
    .incr ⟨ngxOk, some Double.zero, none, 0⟩⟩

/-- The counter "01LV". -/
def oneCounter : Shdict := (countEvent 5 [48, 49, 76, 86] 4224).after 12 emptyDict

/-- The counters "01LV" and "4DG", whose hash is the same. -/
def twoCounters : Shdict := (countEvent 6 [52, 68, 71] 4352).after 12 oneCounter

theorem runs_oneCounter : (countEvent 5 [48, 49, 76, 86] 4224).Runs 12 emptyDict oneCounter :=
  Event.runs_after (by decide) ⟨⟨by decide, by decide⟩, by decide⟩ (by decide +kernel)

theorem run_twoCounters :
    Run 12 [countEvent 6 [52, 68, 71] 4352, countEvent 5 [48, 49, 76, 86] 4224] twoCounters :=
  .call (.call (.init fresh_emptyDict) runs_oneCounter)
    (Event.runs_after (by decide) ⟨⟨by decide, by decide⟩, by decide⟩ (by decide +kernel))

/-- **Two counters with one hash break the order of the tree**: the second one is hung up
before its key is written. -/
theorem not_invariant : ¬ ∀ (s : Nat) xs d, 12 ≤ s → s ≤ 16 → Run s xs d → d.Invariant := by
  intro h
  obtain ⟨t, nodes, hinv⟩ := h 12 _ twoCounters (by decide) (by decide) run_twoCounters
  have hwalk : walk twoCounters.queue twoCounters.lruQueue 4 (mpsQueueHead twoCounters.queue
      twoCounters.lruQueue) = (nodes.map sdQueue).take 4 := by
    rw [hinv.lru.first]
    exact walk_take 4 [] _ hinv.lru
  have hnodes : (nodes.map sdQueue).take 4 = [4352, 4224].map sdQueue :=
    hwalk.symm.trans (by decide +kernel)
  have hlen : nodes.length = 2 := by
    have := congrArg List.length hnodes
    simp only [List.length_take, List.length_map, List.length_cons, List.length_nil] at this
    omega
  rw [List.take_of_length_le (by simp [hlen])] at hnodes
  have hmem : 4352 ∈ nodes := by
    have hm : sdQueue 4352 ∈ nodes.map sdQueue := by rw [hnodes]; simp
    obtain ⟨x, hx, he⟩ := List.mem_map.mp hm
    obtain rfl : x = 4352 := by simpa [sdQueue] using he
    exact hx
  have hfind := hinv.finds hmem (by
    rw [hinv.same.length_eq, hlen]
    decide +kernel)
  exact absurd hfind (by decide +kernel)

/-- A counter and a string whose keys have different hashes. No key with the hash of the
counter is stored when it is hung up. -/
theorem invariant_of_safe_two : ((storeEvent 6 [67] [68] 4352).after 12 oneCounter).Invariant := by
  have hsafe : IncrSafe (calmEnv 5) ⟨[48, 49, 76, 86], Double.zero, some Double.zero, 0⟩
      emptyDict.entries := by
    rw [entries_emptyDict]
    exact .inr (.inr (by simp))
  exact invariant_of_safe (by decide) (by decide) (.call (.call (.init fresh_emptyDict)
    runs_oneCounter ⟨hsafe, trivial⟩)
    (storeEvent_runs 6 ⟨by decide, by decide⟩ (by decide) (by decide +kernel)) ⟨trivial, trivial⟩)

end MpsShdict
