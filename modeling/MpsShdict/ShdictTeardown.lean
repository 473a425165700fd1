import MpsShdict.ShdictLengths
import MpsShdict.SlabWrites

/-! # Taking a list down

Four loops free the nodes of a list, and each of them reads the link of a node that it has
just freed. That link is still there: a free writes to the books of the allocator, and
they are in no chunk that was live before it.

The loops are the same in `mps_shdict_expire`, `mps_shdict_store`, `mps_shdict_incr` and
`mps_shdict_push_helper`. What is shown of them is that they follow the links to the end,
that each node is freed once and in its order, and that at each free the node's block was
live, the allocator reports no error, and no byte is written of any chunk that is still in
use. A call gets to a loop in the middle of its work, so the states are those of `Midway`.
-/
namespace MpsShdict

open Words

/-- `mps_slab_free_locked` for the chunks at `offs`, one after another. The loop that
reads the links is shown to do the same. -/
def Shdict.freeNodes (sz : Sizes) (base : Nat) (d : Shdict) (offs : List Nat) : Shdict :=
  offs.foldl (fun d p => d.slabFree sz base p) d

/-- The states from which a call may get to one of the loops: those between two calls, and
what its steps make of them before it gets there. -/
inductive Midway (s : Nat) : Shdict → Prop where
  | call {xs : List Event} {d : Shdict} (run : Run s xs d) : Midway s d
  /-- `mps_shdict_lookup` moves an entry to the head. -/
  | lookup {d d' : Shdict} {now : Nat} {key : Bytes} {rc : Lookup} (h : Midway s d)
      (hl : mpsShdictLookup d now (ngxMurmurHash2 key) key = some (d', rc)) : Midway s d'
  /-- `mps_shdict_flush_all` has changed a deadline. -/
  | deadline {d : Shdict} {e : Entry} (expires : Nat) (h : Midway s d) (he : e ∈ d.entries) :
      Midway s (d.setSd e.off fun sd => { sd with expires := expires })
  /-- An entry has been taken out. -/
  | removed {d d' : Shdict} {base : Nat} {e : Entry} (h : Midway s d) (hbase : 2 ^ s ∣ base)
      (he : e ∈ d.entries)
      (hr : d.removeEntry (mpsSlabSizesInit (2 ^ s)) base e.off e.key.length = some d') :
      Midway s d'
  /-- There was no chunk for a new entry. -/
  | refused {d d' : Shdict} {env : Env} {i size : Nat} (h : Midway s d) (hsize : 0 < size)
      (ha : d.slabAlloc (mpsSlabSizesInit (2 ^ s)) env i size = some (d', none)) : Midway s d'

/-- The free of the node `x`, the nodes `done` having been freed from `d` on. -/
structure FreesNode (s base : Nat) (d : Shdict) (done : List Elem) (x : Elem)
    (p r : SlabPool) : Prop where
  before : p = (d.freeNodes (mpsSlabSizesInit (2 ^ s)) base (done.map Elem.off)).pool
  after : r = (d.freeNodes (mpsSlabSizesInit (2 ^ s)) base ((done ++ [x]).map Elem.off)).pool
  /-- Its chunk was live and is not any more. -/
  once : ∃ live, SlabInv (mpsSlabSizesInit (2 ^ s)) s p.pageTotal p (x.block :: live) ∧
    SlabInv (mpsSlabSizesInit (2 ^ s)) s r.pageTotal r live
  /-- No error is reported. -/
  accepted : r.log = p.log
  books : OnlyBooks s (mpsSlabSizesInit (2 ^ s)) p r
  /-- No byte is written of the chunk itself, nor of any other that has not been freed. -/
  clear : ∀ b ∈ dictBlocks d d.entries [], (∀ y ∈ done, b ≠ y.block) → ∀ i, b.off ≤ i →
    i < b.off + capacity (mpsSlabSizesInit (2 ^ s)) p b.size → ¬ SlabWritten p r i

/-- **The list `elems` of the entry `e` is taken down** by a process that has the pool
mapped at `base`. -/
structure TakesDown (s base : Nat) (d : Shdict) (e : Entry) (elems : List Elem) : Prop where
  /-- The nodes are those that the links lead to. -/
  nodes : IsQueue d.queue (mpsShdictGetListHead base e.off e.key.length) (elems.map Elem.off)
  distinct : (elems.map Elem.off).Nodup
  /-- The loop ends, and has freed the nodes in their order. -/
  loop : Shdict.freeListNodes (mpsSlabSizesInit (2 ^ s)) base
      (mpsShdictGetListHead base e.off e.key.length) d.rounds d
      (mpsQueueHead d.queue (mpsShdictGetListHead base e.off e.key.length)) =
    some (d.freeNodes (mpsSlabSizesInit (2 ^ s)) base (elems.map Elem.off))
  each : ∀ done x rest, elems = done ++ x :: rest → ∃ p r, FreesNode s base d done x p r
  /-- In `mps_shdict_expire`, which reads the length of the key from the entry. -/
  expire : d.removeEntry (mpsSlabSizesInit (2 ^ s)) base e.off (d.sd e.off).keyLen =
    (d.freeNodes (mpsSlabSizesInit (2 ^ s)) base (elems.map Elem.off)).unlink
      (mpsSlabSizesInit (2 ^ s)) base e.off
  /-- In `mps_shdict_store` and `mps_shdict_incr`. -/
  remove : d.removeEntry (mpsSlabSizesInit (2 ^ s)) base e.off e.key.length =
    (d.freeNodes (mpsSlabSizesInit (2 ^ s)) base (elems.map Elem.off)).unlink
      (mpsSlabSizesInit (2 ^ s)) base e.off
  /-- In `mps_shdict_push_helper`. -/
  reset : resetList (mpsSlabSizesInit (2 ^ s)) base e.key.length e.off d =
    let d' := (d.setSd e.off fun sd => { sd with expires := 0, valueLen := 0 }).freeNodes
      (mpsSlabSizesInit (2 ^ s)) base (elems.map Elem.off)
    let queue := mpsQueueInit d'.queue (mpsShdictGetListHead base e.off e.key.length)
    some (({ d' with queue := queue } : Shdict).touch e.off)

section Teardown
variable {sz : Sizes} {s base head : Nat} {ord : Prop} {d : Shdict} {L A B : List Entry} {e : Entry}
  {elems : List Elem} {spare live : List Block} {xs : List Event}

theorem freeNodes_append (xs ys : List Nat) :
    d.freeNodes sz base (xs ++ ys) = (d.freeNodes sz base xs).freeNodes sz base ys :=
  List.foldl_append

/-- **The loop** follows the links from any node on. The induction is on the nodes that
are left; those that have been freed, `xs`, are still linked as they were. -/
theorem freeListNodes_eq (ys : List Elem) : ∀ (xs : List Nat) (fuel : Nat) {d : Shdict},
    IsQueue d.queue head (xs ++ ys.map Elem.off) → ys.length < fuel →
    Shdict.freeListNodes sz base head fuel d ((ys.map Elem.off).head?.getD head) =
      some (d.freeNodes sz base (ys.map Elem.off)) := by
  induction ys with
  | nil =>
    intro xs fuel d _ hfuel
    obtain ⟨fuel, rfl⟩ : ∃ k, fuel = k + 1 := ⟨fuel - 1, by omega⟩
    simp [Shdict.freeListNodes, Shdict.freeNodes]
  | cons y ys ih =>
    intro xs fuel d hq hfuel
    obtain ⟨fuel, rfl⟩ : ∃ k, fuel = k + 1 := ⟨fuel - 1, by omega⟩
    have hnext : mpsQueueNext d.queue y.off = (ys.map Elem.off).head?.getD head := hq.next
    have hne : y.off ≠ head := by
      intro he
      exact (List.nodup_cons.mp hq.nodup).1 (by simp [← he])
    have hq' : IsQueue (d.slabFree sz base y.off).queue head
        ((xs ++ [y.off]) ++ ys.map Elem.off) := by
      show IsQueue d.queue head _
      simpa using hq
    have hrest := ih _ fuel hq' (by simp only [List.length_cons] at hfuel; omega)
    simp only [List.map_cons, List.head?_cons, Option.getD_some]
    rw [Shdict.freeListNodes, if_neg hne]
    show Shdict.freeListNodes sz base head fuel _ (mpsQueueNext d.queue y.off) = _
    rw [hnext]
    exact hrest

/-- The nodes that have been freed are live no longer, and the others still are. One free
after the other, each of a block that is owned. -/
theorem freeNodes_owns (hbase : 2 ^ s ∣ base) (done : List Elem) : ∀ {d : Shdict},
    Owns sz s d.pool (done.map Elem.block ++ live) →
    Owns sz s (d.freeNodes sz base (done.map Elem.off)).pool live := by
  induction done with
  | nil => exact fun hown => hown
  | cons y done ih =>
    intro d hown
    apply ih (d := d.slabFree sz base y.off)
    obtain ⟨hs, -, hinv⟩ := mpsSlabFreeLocked_spec hown hbase (b := y.block) (by simp)
    rw [List.map_cons, List.cons_append, List.erase_cons_head] at hinv
    show SlabInv sz s (mpsSlabFreeLocked sz base d.pool y.off).pageTotal
      (mpsSlabFreeLocked sz base d.pool y.off) _
    rw [show y.off = y.block.off from rfl, hs.pageTotal]
    exact hinv

/-- **Every free of the loop** takes one node and leaves the chunks alone. The nodes
before it have been freed, so its block is the first of those that are left. -/
theorem Rep.freesNode (h : Rep (mpsSlabSizesInit (2 ^ s)) s ord d (A ++ e :: B) spare)
    (hbase : 2 ^ s ∣ base) {done rest : List Elem}
    {x : Elem} (hv : e.value = .list (done ++ x :: rest)) :
    ∃ p r, FreesNode s base d done x p r := by
  set sz := mpsSlabSizesInit (2 ^ s) with hsz
  set others := rest.map Elem.block ++ (e.block :: dictBlocks d (A ++ B) spare) with hothers
  have hperm : (dictBlocks d (A ++ e :: B) spare).Perm
      (done.map Elem.block ++ (x.block :: others)) := by
    apply dictBlocks_middle.trans
    rw [Entry.blocks_of_list hv, List.cons_append]
    apply List.perm_middle.symm.trans
    simp [hothers]
  have hown : Owns sz s d.pool (done.map Elem.block ++ (x.block :: others)) := h.owns.perm hperm
  have hnow := freeNodes_owns hbase done hown
  set p := (d.freeNodes sz base (done.map Elem.off)).pool with hp
  have hafter : (d.freeNodes sz base ((done ++ [x]).map Elem.off)).pool =
      mpsSlabFreeLocked sz base p x.block.off := by
    rw [List.map_append, freeNodes_append]
    rfl
  obtain ⟨hs, hlog, hinv⟩ := mpsSlabFreeLocked_spec hnow hbase (b := x.block) (by simp)
  rw [List.erase_cons_head] at hinv
  have hbooks := SlabInv.free_books hnow hbase (b := x.block) (by simp)
  refine ⟨p, mpsSlabFreeLocked sz base p x.block.off, rfl,
    hafter.symm, ⟨others, hnow, ?_⟩, hlog, hbooks, ?_⟩
  · rw [hs.pageTotal]
    exact hinv
  · intro b hb hnot i h1 h2
    refine hbooks.clear hnow ?_ h1 h2
    -- a chunk of the dictionary that is not of the nodes freed so far
    have hspare : b ∈ dictBlocks d (A ++ e :: B) spare := by
      rw [h.entries_eq] at hb
      simp only [dictBlocks, List.mem_cons, List.append_nil, List.mem_append] at hb ⊢
      tauto
    rcases List.mem_append.mp (hperm.mem_iff.mp hspare) with hb | hb
    · obtain ⟨y, hy, rfl⟩ := List.mem_map.mp hb
      exact absurd rfl (hnot y hy)
    · exact hb

/-- **A list is taken down** as it should be, in whichever of the loops. -/
theorem Rep.takesDown (h : Rep (mpsSlabSizesInit (2 ^ s)) s ord d L spare) (hbase : 2 ^ s ∣ base)
    (he : e ∈ L) (hv : e.value = .list elems) : TakesDown s base d e elems := by
  obtain ⟨A, B, rfl⟩ := List.append_of_mem he
  have hok := h.shape.entries e mem_middle
  have hval := hok.value
  simp only [ValueOk, hv] at hval
  obtain ⟨htype, -, hq, -⟩ := hval
  have hhead : mpsShdictGetListHead base e.off e.key.length = e.listHead :=
    mpsShdictGetListHead_base (h.eight_dvd hbase) _ _
  have hlen : elems.length < d.rounds := by
    have := h.laid.elems e mem_middle
    rwa [hv] at this
  have hfirst : mpsQueueHead d.queue e.listHead =
    (elems.map Elem.off).head?.getD e.listHead := hq.first
  -- the loop goes by the links alone, so the fields of the entry do not matter
  have hloop : ∀ f, Shdict.freeListNodes
      (mpsSlabSizesInit (2 ^ s)) base e.listHead d.rounds (d.setSd e.off f)
      ((elems.map Elem.off).head?.getD e.listHead) =
        some ((d.setSd e.off f).freeNodes (mpsSlabSizesInit (2 ^ s)) base (elems.map Elem.off)) :=
    fun f => freeListNodes_eq elems [] _ hq hlen
  have hloop' := hloop id
  rw [Shdict.setSd_id] at hloop'
  have hremove : d.removeEntry (mpsSlabSizesInit (2 ^ s)) base e.off e.key.length =
      (d.freeNodes (mpsSlabSizesInit (2 ^ s)) base (elems.map Elem.off)).unlink
        (mpsSlabSizesInit (2 ^ s)) base e.off := by
    rw [Shdict.removeEntry, if_pos htype]
    simp only [hhead, hfirst, hloop']
    rfl
  refine ⟨hhead ▸ hq, (List.nodup_cons.mp hq.nodup).2,
    ?_, fun done x rest heq => ?_, ?_, hremove, ?_⟩
  · rw [hhead, hfirst]
    exact hloop'
  · exact h.freesNode hbase (heq ▸ hv)
  · rw [hok.keyLen]
    exact hremove
  · have hrounds : (d.setSd e.off fun sd => { sd with expires := 0, valueLen := 0 }).rounds =
      d.rounds := rfl
    have hqueue :
      (d.setSd e.off fun sd => { sd with expires := 0, valueLen := 0 }).queue = d.queue := rfl
    simp only [resetList, hhead, hrounds, hqueue, hfirst,
      hloop, Option.bind_eq_bind, Option.bind_some]

/-- Wherever a call gets to one of the loops, the pool spells out some entries. -/
theorem Midway.rep (hs : 12 ≤ s) (hs' : s ≤ 16) (h : Midway s d) :
    ∃ spare, Rep (mpsSlabSizesInit (2 ^ s)) s False d d.entries spare := by
  have hsome : ∃ L spare, Rep (mpsSlabSizesInit (2 ^ s)) s False d L spare := by
    -- induction on what has been done since the last call
    induction h with
    | call run => exact run.rep hs hs'
    | lookup h hl ih =>
      obtain ⟨L, spare, hrep⟩ := ih
      obtain ⟨found, d', -, hrun, hrep', -⟩ := mpsShdictLookup_spec hrep _ _
      obtain ⟨rfl, -⟩ := Prod.mk.inj (Option.some.inj (hrun.symm.trans hl))
      exact ⟨_, _, hrep'⟩
    | deadline expires h he ih =>
      obtain ⟨L, spare, hrep⟩ := ih
      rw [hrep.entries_eq] at he
      obtain ⟨A, B, rfl⟩ := List.append_of_mem he
      exact ⟨_, _, hrep.setExpires expires⟩
    | removed h hbase he hr ih =>
      obtain ⟨L, spare, hrep⟩ := ih
      rw [hrep.entries_eq] at he
      obtain ⟨A, B, rfl⟩ := List.append_of_mem he
      obtain ⟨d', hrun, hrep', -⟩ := hrep.removeEntry
      obtain rfl := Option.some.inj ((hrun _ hbase).symm.trans hr)
      exact ⟨_, _, hrep'⟩
    | refused h hsize ha ih =>
      obtain ⟨L, spare, hrep⟩ := ih
      obtain ⟨pool, p, hrun, -, hrep'⟩ := hrep.slabAlloc _ _ _
      obtain ⟨rfl, rfl⟩ := Prod.mk.inj (Option.some.inj (hrun.symm.trans ha))
      exact ⟨_, _, hrep'⟩
  obtain ⟨L, spare, hrep⟩ := hsome
  exact ⟨spare, by rwa [hrep.entries_eq]⟩

/-- **Each of the four loops frees every node of a list once, in order, and ends**,
wherever a call gets to it. -/
theorem teardown_exact (hs : 12 ≤ s) (hs' : s ≤ 16) (h : Midway s d) (hbase : 2 ^ s ∣ base)
    (he : e ∈ d.entries) (hv : e.value = .list elems) : TakesDown s base d e elems := by
  obtain ⟨spare, hrep⟩ := h.rep hs hs'
  exact hrep.takesDown hbase he hv

end Teardown

/-- The entry of a list to which "B" and then "C" have been pushed, both to the left. -/
def listEntry : Entry := ⟨4224, [65], 0, 0, .list [⟨8256, .tstring, [67]⟩, ⟨8224, .tstring, [66]⟩]⟩

/-- The loops on that list, in the state that its two pushes have left. It has two nodes,
so the second free reads a link that the first one has left behind. -/
theorem teardown_exact_two : TakesDown 12 0 ListClients.twoPushes listEntry
    [⟨8256, .tstring, [67]⟩, ⟨8224, .tstring, [66]⟩] :=
  teardown_exact (by decide) (by decide)
    (.call (.call (.call (.init fresh_emptyDict) ListClients.runs_oneDict)
      ListClients.runs_twoPushes))
    (by decide) (by decide +kernel) rfl

end MpsShdict
