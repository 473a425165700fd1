import MpsShdict.ShdictBlocks
import MpsShdict.ShdictErrors

/-! # Room

What `mps_shdict_free_space` tells are the pages that nothing is in, and there is room for
whatever is small as long as there is one. It does not count the room in pages that have
something in them, so a small entry may find room where it tells 0.

A call that finds no memory for an entry evicts others by force and tries again, up to 30
times. It gives up only where it has to: there is no room left for the entry, and either
each of the 30 rounds has evicted something or there is nothing left to evict.

Both rest on the same notion of room, that of the allocator (`NoRoom`), which depends on
the blocks that are live and not on the way they have come about.
-/
namespace MpsShdict

open Words

/-! ### Free space -/

instance {s : Nat} {sz : Sizes} {pool : SlabPool} {live : List Block} :
    DecidablePred (PageFree s sz pool live) :=
  fun _ => inferInstanceAs (Decidable (∀ b ∈ live, _ ≤ _ ∨ _ ≤ _))

/-- The pages with nothing live in them, found by looking at every block. -/
def freePages (s : Nat) (sz : Sizes) (pool : SlabPool) (live : List Block) : List Nat :=
  (List.range pool.pageTotal).filter fun i => PageFree s sz pool live i

/-- **What `mps_shdict_free_space` tells of a dictionary.** It is the size of the pages in
which there is nothing; it bounds the requests that are met above half a page, and says
nothing of smaller ones when it is 0. -/
structure SpaceExact (s : Nat) (d : Shdict) : Prop where
  /-- It counts the pages in which there is no block of the dictionary. -/
  pages : mpsShdictFreeSpace (mpsSlabSizesInit (2 ^ s)) d =
    (freePages s (mpsSlabSizesInit (2 ^ s)) d.pool (dictBlocks d d.entries [])).length * 2 ^ s
  lt_capacity : mpsShdictFreeSpace (mpsSlabSizesInit (2 ^ s)) d < mpsShdictCapacity d
  /-- While there is some, there is room for half a page. -/
  small : 0 < mpsShdictFreeSpace (mpsSlabSizesInit (2 ^ s)) d → ∀ size ≤ 2 ^ s / 2,
    ¬ NoRoom s (mpsSlabSizesInit (2 ^ s)) d.pool (dictBlocks d d.entries []) size
  /-- There is no room for more than it, if it is more than half a page. -/
  large : ∀ size, 2 ^ s / 2 < size → mpsShdictFreeSpace (mpsSlabSizesInit (2 ^ s)) d < size →
    NoRoom s (mpsSlabSizesInit (2 ^ s)) d.pool (dictBlocks d d.entries []) size

section Space
variable {sz : Sizes} {s P i size : Nat} {pool : SlabPool} {cells : List Cell}
  {lists : Option Nat → List Nat} {live : List Block} {d : Shdict} {xs : List Event}

/-- In a free page there is room for whatever is small. A request of up to half a page is
cut from a page. -/
theorem PageFree.room (h : PageFree s sz pool live i) (hi : i < pool.pageTotal)
    (hsize : ¬ sz.maxSize < size) :
    ¬ NoRoom s sz pool live size := by
  rw [NoRoom, if_neg hsize]
  exact fun hno => hno.2 i hi h

theorem mem_freePages : i ∈ freePages s sz pool live ↔ i < pool.pageTotal ∧
    PageFree s sz pool live i := by
  rw [freePages, List.mem_filter, List.mem_range, decide_eq_true_eq]

theorem nodup_freePages : (freePages s sz pool live).Nodup := List.nodup_range.filter _

/-- `pool->pfree` counts the pages with nothing live in them. The runs of free pages that
the allocator keeps are those pages. -/
theorem Holds.length_freePages (h : Holds sz s pool.pageTotal pool cells lists live) :
    (freePages s sz pool live).length = pool.pfree := by
  have hsh := h.inv.shelf
  have hpw := freeRuns_pairwise h.inv.contiguous h.inv.apart fun c hc => (hsh.bound c hc).1
  have hnodup : ((freeRuns cells).flatMap fun r => List.range' r.1 r.2).Nodup := by
    refine List.nodup_flatMap.mpr ⟨fun r _ => List.nodup_range', hpw.imp ?_⟩
    intro x y hxy i hx hy
    rw [List.mem_range'_1] at hx hy
    omega
  have hperm : (freePages s sz pool live).Perm
      ((freeRuns cells).flatMap fun r => List.range' r.1 r.2) := by
    refine (List.perm_ext_iff_of_nodup nodup_freePages hnodup).mpr ?_
    intro i
    simp only [mem_freePages, List.mem_flatMap, List.mem_range'_1]
    constructor
    · rintro ⟨hi, hfree⟩
      exact (page_free_iff h hi).mpr hfree
    · rintro ⟨r, hr, hi⟩
      have hlt : i < pool.pageTotal := by
        have := (hsh.bound _ (mem_freeRuns.mp hr)).2
        dsimp only at this
        omega
      exact ⟨hlt, (page_free_iff h hlt).mp ⟨r, hr, hi⟩⟩
  rw [hperm.length_eq, List.length_flatMap, h.inv.pfree, ← freeRuns_sum]
  simp only [List.length_range']

/-- Pages that are free one after the other are free pages. -/
theorem le_length_freePages {n : Nat} (hle : i + n ≤ pool.pageTotal)
    (hfree : ∀ j, i ≤ j → j < i + n → PageFree s sz pool live j) :
    n ≤ (freePages s sz pool live).length := by
  have hsub : List.range' i n ⊆ freePages s sz pool live := by
    intro j hj
    rw [List.mem_range'_1] at hj
    exact mem_freePages.mpr ⟨by omega, hfree j hj.1 hj.2⟩
  have := (List.subperm_of_subset List.nodup_range' hsub).length_le
  rwa [List.length_range'] at this

/-- **A dictionary that has lost track of nothing** tells its free space. -/
theorem Rep.spaceExact (h : Rep (mpsSlabSizesInit (2 ^ s)) s False d d.entries []) :
    SpaceExact s d := by
  obtain ⟨cells, lists, hholds⟩ := h.owns
  have hg := hholds.inv.shelf.geo
  have hlength := hholds.length_freePages
  have hle : d.pool.pfree ≤ d.pool.pageTotal := by
    rw [← hlength]
    exact (List.length_filter_le _ _).trans List.length_range.le
  have hmul := Nat.mul_le_mul_right (2 ^ s) hle
  have hstart := Owns.start_pos h.owns
  have hspace : mpsShdictFreeSpace (mpsSlabSizesInit (2 ^ s)) d = d.pool.pfree * 2 ^ s := by
    rw [mpsShdictFreeSpace, hg.pagesize]
    refine Nat.mod_eq_of_lt ?_
    have := hg.end_le
    have := hg.end_lt
    omega
  refine ⟨?_, ?_, ?_, ?_⟩
  · rw [hspace, hlength]
  · rw [hspace, mpsShdictCapacity]
    have := hg.end_le
    omega
  · intro hpos size hsize
    rw [hspace, ← hlength] at hpos
    obtain ⟨i, hi⟩ := List.exists_mem_of_length_pos (Nat.pos_of_mul_pos_right hpos)
    obtain ⟨hlt, hfree⟩ := mem_freePages.mp hi
    exact hfree.room hlt (Nat.not_lt.mpr hsize)
  · intro size hlarge hlt
    replace hlarge : (mpsSlabSizesInit (2 ^ s)).maxSize < size := hlarge
    rw [NoRoom, if_pos hlarge]
    rintro ⟨i, hi, hfree⟩
    have hcount := le_length_freePages hi hfree
    rw [← pageCount_eq hg.toSizing, hlength] at hcount
    have hsize := (pageCount_spec hg.toSizing hlarge).2
    rw [hg.pagesize] at hsize
    have := Nat.mul_le_mul_right (2 ^ s) hcount
    omega

/-- **`mps_shdict_free_space` is exact**, in every run in which no push gets to a list of
`2 ^ 32 - 1` elements. The condition is the one under which no block is lost. -/
theorem free_space_exact (hs : 12 ≤ s) (hs' : s ≤ 16)
    (run : RunWith s (fun x L => x.call.Counts x.env L) xs d) : SpaceExact s d :=
  (RunWith.tidy False hs hs' (run.mono fun _ _ h => ⟨False.elim, h⟩)).1.spaceExact

end Space

/-- "A" has its page in a pool of four. So has the header of the dictionary, and the other
pages are told. -/
theorem free_space_exact_one : SpaceExact 12 oneString :=
  free_space_exact (by decide) (by decide) (.call (.init fresh_emptyDict)
    (storeEvent_runs 5 ⟨by decide, by decide⟩ (by decide) (by decide +kernel)) trivial)

/-! ### Room -/

section Room
variable {sz : Sizes} {s base size i left rounds now : Nat} {ord : Prop} {p q : SlabPool}
  {live : List Block}
  {d d' : Shdict} {L : List Entry} {spare : List Block} {env : Env} {force : Bool}

/-- Room is a matter of the header of the pool, and of its live blocks. -/
theorem SameHeader.noRoom (hs : SameHeader p q) : NoRoom s sz q live size ↔
    NoRoom s sz p live size := by
  have hclass : ∀ n, sizeClass q n = sizeClass p n := by
    intro n
    simp only [sizeClass, hs.minSize, hs.minShift]
  have hcapacity : ∀ n, capacity sz q n = capacity sz p n := by
    intro n
    simp only [capacity, hclass]
  simp only [NoRoom, PageFree, ClassPage, HasFreeChunk, hclass, hcapacity, hs.start, hs.pageTotal]

/-- The dictionary has no room for `size` bytes beside its entries. Its pool spells them
out, and the blocks of it leave no place for such a request. -/
structure Packed (sz : Sizes) (s : Nat) (ord : Prop) (d : Shdict) (L : List Entry)
    (spare : List Block) (size : Nat) : Prop where
  rep : Rep sz s ord d L spare
  noRoom : NoRoom s sz d.pool (dictBlocks d L spare) size

/-- **An allocation that is not refused** finds no chunk only where there is no room. The
allocator looks everywhere it could. -/
theorem Rep.slabAlloc_full (h : Rep sz s ord d L spare) (hr : env.refuse i = false)
    (he : d.slabAlloc sz env i size = some (d', none)) : Packed sz s ord d' L spare size := by
  obtain ⟨pool, p, halloc, hs, hrep⟩ := h.slabAlloc env i size
  obtain ⟨rfl, rfl⟩ := Prod.mk.inj (Option.some.inj (he.symm.trans halloc))
  refine ⟨hrep, ?_⟩
  rw [dictBlocks_data (d := d) hs.data, hs.toSameHeader.noRoom]
  have hP := SlabInv.pages_pos h.owns (b := ⟨d.pool.data, sizeofTree⟩) List.mem_cons_self
  obtain ⟨cells, lists, hholds⟩ := h.owns
  rcases hholds.alloc_decides rfl size (SlabInv.pageTotal_lt ⟨_, _, hholds⟩ hP) with ⟨hno, -⟩ |
    ⟨-, pool', p, hrun⟩
  · exact hno
  · rw [Shdict.slabAlloc, if_neg (by simp [hr]), Shdict.rounds, hrun] at he
    cases he

/-- A small block lies in one page. Chunks are cut from pages and do not cross their ends. -/
theorem Owns.small_page {b : Block} (h : Owns sz s p live) (hb : b ∈ live)
    (hsmall : ¬ sz.maxSize < b.size) :
    ∃ i, ∀ j, j ≠ i → Clear (p.start + j * 2 ^ s) (2 ^ s) b.off (capacity sz p b.size) := by
  obtain ⟨cells, lists, h⟩ := h
  have hg := h.inv.shelf.geo
  obtain ⟨pre, c, post, rfl, hm⟩ := h.cell hb
  have hc : c ∈ pre ++ c :: post := Shelf.mem_middle.mpr (.inl rfl)
  have hlen : c.len ≤ 1 := by
    obtain ⟨i, kind, len⟩ := c
    cases kind with
    | free => simp [Cell.extents] at hm
    | chunks k used => exact (h.inv.shelf.ok _ hc).1.le
    | block =>
      -- no more than half a page has been asked for
      simp only [Cell.extents, List.mem_singleton, Prod.mk.injEq, hg.pagesize] at hm
      obtain ⟨k, hclass, -, hk, -⟩ := sizeClass_spec hg.toSizing (Nat.not_lt.mp hsmall)
      rw [capacity, if_neg hsmall, hclass, Nat.one_shiftLeft] at hm
      have hlt : len * 2 ^ s < 1 * 2 ^ s := by
        rw [← hm.2, Nat.one_mul]
        exact Nat.pow_lt_pow_right (by decide) hk
      exact (Nat.lt_of_mul_lt_mul_right hlt).le
  refine ⟨c.pos, ?_⟩
  intro j hj
  refine extents_off_page h.inv.shelf hc hm ?_
  rintro ⟨h1, h2⟩
  omega

/-- Beside the header there is room for whatever is small, if there are two pages. The
header of the dictionary takes one of them. -/
theorem Rep.room (h : Rep sz s ord d [] []) (hheader : ¬ sz.maxSize < sizeofTree)
    (hpages : 2 ≤ d.pool.pageTotal) (hsize : ¬ sz.maxSize < size) :
    ¬ NoRoom s sz d.pool (dictBlocks d [] []) size := by
  obtain ⟨i, hi⟩ := h.owns.small_page List.mem_cons_self hheader
  obtain ⟨j, hj, hne⟩ : ∃ j < d.pool.pageTotal, j ≠ i := by
    by_cases h0 : i = 0
    · exact ⟨1, hpages, by omega⟩
    · exact ⟨0, by omega, Ne.symm h0⟩
  refine PageFree.room (i := j) ?_ hj hsize
  intro b hb
  obtain rfl := List.mem_singleton.mp hb
  exact hi j hne

/-- What `mps_shdict_expire` takes and what it leaves are all there was. -/
theorem expireEntries_length (now left : Nat) (L : List Entry) :
    (expireEntries now left L).1.length + (expireEntries now left L).2 = L.length := by
  induction left generalizing L with
  | zero => rfl
  | succ left ih =>
    rw [expireEntries]
    cases hlast : L.getLast? with
    | none => rfl
    | some e =>
      simp only
      split
      · rfl
      · have hpos := List.length_pos_of_mem (List.mem_of_getLast? hlast)
        have := ih L.dropLast
        rw [List.length_dropLast] at this
        simp only
        omega

/-- The first entry goes by force. -/
theorem expireEntries_zero (h : (expireEntries now 3 L).2 = 0) : L = [] := by
  by_contra hne
  rw [expireEntries, List.getLast?_eq_some_getLast hne] at h
  simp at h

/-- **Rounds of evictions** that lead from `L` to `L'`, each of which takes one entry at least
from the end of what the one before has left. -/
inductive Evictions : Nat → List Entry → List Entry → Prop
  | none (L : List Entry) : Evictions 0 L L
  | round {rounds : Nat} {L L₁ L' : List Entry} (hfront : L₁ <+: L) (hfewer : L₁.length < L.length)
      (rest : Evictions rounds L₁ L') : Evictions (rounds + 1) L L'

/-- As many entries have gone as there were rounds, or more. So 30 rounds need 30 entries. -/
theorem Evictions.length_le {L' : List Entry} (h : Evictions rounds L L') :
    rounds + L'.length ≤ L.length := by
  induction h with
  | none L => omega
  | round hfront hfewer rest ih => omega

/-- **The loop that evicts gives up** after its last round, or when nothing is left. In
each round something has been evicted: a round that frees nothing ends the loop. -/
theorem evictLoop_full (hgrant : ∀ i, env.refuse i = false) (hbase : 2 ^ s ∣ base)
    (h : Packed sz s ord d L spare size)
    (he : evictLoop sz base env size left d = some (d', none, rounds)) :
    ∃ L', Packed sz s ord d' L' spare size ∧ Evictions rounds L L' ∧ (rounds = left ∨ L' = []) := by
  induction left generalizing d L rounds with
  | zero =>
    obtain ⟨rfl, -, rfl⟩ : d = d' ∧ (none : Option Nat) = none ∧ 0 = rounds := by
      simpa [evictLoop] using he
    exact ⟨L, h, .none L, .inl rfl⟩
  | succ left ih =>
    rw [evictLoop] at he
    obtain ⟨d₁, hrun, hrep, -, hs⟩ :=
      expireLoop_spec (env.mpsClockTimeMs (3 + (30 - (left + 1)))) 3 h.rep
    simp only [mpsShdictExpire, hrun base hbase, Option.bind_eq_bind, Option.bind_some] at he
    split at he
    · -- nothing is left
      next hfreed =>
      obtain rfl := expireEntries_zero hfreed
      obtain ⟨rfl, -, rfl⟩ : d₁ = d' ∧ (none : Option Nat) = none ∧ 0 = rounds := by simpa using he
      rw [expireEntries_nil] at hrep
      refine ⟨[], ⟨hrep, ?_⟩, .none [], .inr rfl⟩
      rw [dictBlocks_data (d := d) hs.data, hs.toSameHeader.noRoom]
      exact h.noRoom
    · next hfreed =>
      obtain ⟨⟨d₂, node⟩, halloc, he⟩ := Option.bind_eq_some_iff.mp he
      cases node with
      | some node => simp at he
      | none =>
        obtain ⟨⟨d₃, node, rounds'⟩, hloop, he⟩ := Option.bind_eq_some_iff.mp he
        obtain ⟨rfl, rfl, rfl⟩ : d₃ = d' ∧ node = none ∧ rounds' + 1 = rounds := by simpa using he
        obtain ⟨L', hfull, hrest, hlast⟩ := ih (hrep.slabAlloc_full (hgrant _) halloc) hloop
        have := expireEntries_length (env.mpsClockTimeMs (3 + (30 - (left + 1)))) 3 L
        refine ⟨L', hfull, .round (expireEntries_front _ _ _) (by omega) hrest, ?_⟩
        rcases hlast with rfl | hlast
        · exact .inl rfl
        · exact .inr hlast

/-- **An allocation for an entry gives up** only where there is no room, and where entries
may be evicted for it only when enough has been tried. -/
theorem allocEntry_full (hgrant : ∀ i, env.refuse i = false) (hbase : 2 ^ s ∣ base)
    (h : Rep sz s ord d L spare)
    (he : allocEntry sz base env size force d = some (d', none, rounds)) :
    ∃ L', Packed sz s ord d' L' spare size ∧ Evictions rounds L L' ∧
      (force = true → rounds = 30 ∨ L' = []) := by
  rw [allocEntry] at he
  obtain ⟨⟨d₁, node⟩, halloc, he⟩ := Option.bind_eq_some_iff.mp he
  cases node with
  | some node => simp at he
  | none =>
    have hfull := h.slabAlloc_full (hgrant 0) halloc
    cases force with
    | false =>
      obtain ⟨rfl, -, rfl⟩ : d₁ = d' ∧ (none : Option Nat) = none ∧ 0 = rounds := by simpa using he
      exact ⟨L, hfull, .none L, fun hforce => by cases hforce⟩
    | true =>
      obtain ⟨L', hfull', hevicts, hlast⟩ := evictLoop_full hgrant hbase hfull he
      exact ⟨L', hfull', hevicts, fun _ => hlast⟩

end Room

/-! ### Calls that give up -/

/-- A call asks for `size` bytes for an entry, beside some of the entries `M`, and gives
up. By then it may have reclaimed entries and removed its own, so that `L` is what is left
of them. -/
def GivesUp (sz : Sizes) (s : Nat) (ord : Prop) (env : Env) (base : Nat) (M : List Entry)
    (size : Nat) (force : Bool) (spare : List Block) (d' : Shdict) (rounds : Nat) : Prop :=
  ∃ d L, Rep sz s ord d L spare ∧ L.Sublist M ∧
    allocEntry sz base env size force d = some (d', none, rounds)

/-- `mps_shdict_store` gives up on an entry. -/
def StoreGivesUp (sz : Sizes) (s : Nat) (ord : Prop) (env : Env) (base : Nat) (M : List Entry)
    (op : Nat) (a : StoreArgs) (value : Option Bytes) (spare : List Block) (d' : Shdict)
    (rounds : Nat) : Prop :=
  ∃ v, value = some v ∧ GivesUp sz s ord env base M
    (intSize (offsetofColor + offsetofData + a.key.length + v.length))
    (decide (op &&& mpsShdictSafeStoreFlag = 0)) spare d' rounds

section Calls
variable {sz : Sizes} {s base hash : Nat} {ord : Prop} {d d' : Shdict}
  {e : Entry} {L M : List Entry}
  {spare : List Block} {env : Env} {op : Nat} {a : StoreArgs} {c : IncrArgs} {value : Option Bytes}
  {sd sd' : Option Nat} {r : StoreResult} {ir : IncrResult} {found : Option Entry} {num : Double}

/-- From the label `insert` on. -/
theorem storeInsert_full (h : Rep sz s ord d L spare) (hsub : L.Sublist M)
    (hrun : storeInsert sz base env op a hash value d sd = some (d', sd', r))
    (hfull : r.errmsg = some "no memory") :
    StoreGivesUp sz s ord env base M op a value spare d' r.rounds := by
  cases value with
  | none =>
    obtain ⟨-, -, rfl⟩ : d = d' ∧ sd = sd' ∧ (⟨ngxOk, none, 0⟩ : StoreResult) = r := by
      simpa [storeInsert] using hrun
    cases hfull
  | some v =>
    obtain ⟨⟨d₁, node, rounds⟩, halloc, hrun⟩ := Option.bind_eq_some_iff.mp hrun
    cases node with
    | none =>
      obtain ⟨rfl, -, rfl⟩ : d₁ = d' ∧ sd = sd' ∧
        (⟨ngxError, some "no memory", rounds⟩ : StoreResult) = r := by
        simpa using hrun
      exact ⟨v, rfl, d, L, h, hsub, halloc⟩
    | some node =>
      obtain ⟨d₂, -, hrun⟩ := Option.bind_eq_some_iff.mp hrun
      obtain ⟨-, -, rfl⟩ : d₂ = d' ∧ some node = sd' ∧
        (⟨ngxOk, none, rounds⟩ : StoreResult) = r := by
        simpa using hrun
      cases hfull

/-- From the label `remove` on. -/
theorem storeRemove_full (hbase : 2 ^ s ∣ base) (h : Rep sz s ord d (e :: L) spare)
    (hkey : e.key = a.key) (hsub : L.Sublist M)
    (hrun : storeRemove sz base env op a hash value d e.off = some (d', sd', r))
    (hfull : r.errmsg = some "no memory") :
    StoreGivesUp sz s ord env base M op a value spare d' r.rounds := by
  obtain ⟨d₁, hremove, hrep, -, -⟩ := Rep.removeEntry (A := []) h
  rw [storeRemove, ← hkey, hremove base hbase] at hrun
  exact storeInsert_full hrep hsub hrun hfull

/-- From the label `replace` on. If the value fits the old chunk nothing is asked for, so
the call has gone on to `remove`. -/
theorem storeReplace_full (hbase : 2 ^ s ∣ base) (h : Rep sz s ord d (e :: L) spare)
    (hkey : e.key = a.key) (hsub : L.Sublist M)
    (hrun : storeReplace sz base env op a hash value d e.off = some (d', sd', r))
    (hfull : r.errmsg = some "no memory") :
    StoreGivesUp sz s ord env base M op a value spare d' r.rounds := by
  cases value with
  | none => exact storeRemove_full hbase h hkey hsub hrun hfull
  | some v =>
    rw [storeReplace] at hrun
    split at hrun
    · -- the value is written over
      simp only [Option.some.injEq, Prod.mk.injEq] at hrun
      rw [← hrun.2.2] at hfull
      cases hfull
    · exact storeRemove_full hbase h hkey hsub hrun hfull

/-- `mps_shdict_store`, with what the lookup comes to. -/
theorem storeFound_full (now : Nat) (hbase : 2 ^ s ∣ base)
    (h : Rep sz s ord d (lookupEntries found L) spare) (hkey : ∀ e, found = some e → e.key = a.key)
    (hsub : L.Sublist M)
    (hrun : storeFound sz base env op a hash value d (hit now found).lookup = some (d', sd', r))
    (hfull : r.errmsg = some "no memory") :
    StoreGivesUp sz s ord env base M op a value spare d' r.rounds := by
  have declined : ∀ {x : Shdict} {y : Option Nat} {msg : String}, msg ≠ "no memory" →
      some (x, y, (⟨ngxDeclined, some msg, 0⟩ : StoreResult)) ≠ some (d', sd', r) := by
    intro x y msg hmsg he
    simp only [Option.some.injEq, Prod.mk.injEq] at he
    rw [← he.2.2] at hfull
    exact hmsg (Option.some.inj hfull)
  cases found with
  | none =>
    simp only [hit, Hit.lookup, storeFound] at hrun
    split at hrun
    · exact absurd hrun (declined (by decide +kernel))
    · split at hrun
      · exact storeInsert_full h hsub hrun hfull
      · exact storeInsert_full h hsub hrun hfull
  | some e =>
    have hsub' : (L.erase e).Sublist M := List.erase_sublist.trans hsub
    simp only [hit] at hrun
    split at hrun
    · simp only [Hit.lookup, storeFound] at hrun
      split at hrun
      · exact absurd hrun (declined (by decide +kernel))
      · split at hrun
        · exact storeReplace_full hbase h (hkey e rfl) hsub' hrun hfull
        · exact storeReplace_full hbase h (hkey e rfl) hsub' hrun hfull
    · simp only [Hit.lookup, storeFound] at hrun
      split at hrun
      · exact storeReplace_full hbase h (hkey e rfl) hsub' hrun hfull
      · split at hrun
        · exact absurd hrun (declined (by decide +kernel))
        · exact storeReplace_full hbase h (hkey e rfl) hsub' hrun hfull

/-- **A store that reports a lack of memory** has asked for an entry in vain. -/
theorem mpsShdictStore_full (hbase : 2 ^ s ∣ base) (h : Rep sz s ord d L spare)
    (hrun : mpsShdictStore sz base env op a d = some (d', sd', r))
    (hfull : r.errmsg = some "no memory") :
    ∃ value, storeValue op a = .ok value ∧
      StoreGivesUp sz s ord env base L op a value spare d' r.rounds := by
  obtain ⟨d₀, m, found, d₁, hexp, hlook, hway, hrep, -, -⟩ := way_spec env a.key h
  rw [mpsShdictStore] at hrun
  split at hrun
  · next msg hv =>
    -- the value is refused with a message of its own
    simp only [Option.some.injEq, Prod.mk.injEq] at hrun
    rw [← hrun.2.2] at hfull
    refine absurd (Option.some.inj hfull) ?_
    unfold storeValue at hv
    split at hv
    · cases hv
    · cases hv
    · cases hv
    · split at hv
      · cases hv
        decide +kernel
      · cases hv
    · cases hv
      decide +kernel
  · next value hv =>
    simp only [hexp base hbase, hlook, Option.bind_eq_bind, Option.bind_some] at hrun
    refine ⟨value, hv, storeFound_full _ hbase hrep
      (fun e he => (hway.finds.sound e he).2) ?_ hrun hfull⟩
    exact (expireEntries_front _ _ _).sublist

/-- From the label `insert` of `mps_shdict_incr` on. -/
theorem incrInsert_full (h : Rep sz s ord d L spare) (hsub : L.Sublist M)
    (hrun : incrInsert sz base env c hash num d sd = some (d', sd', ir))
    (hfull : ir.err = some "no memory") :
    GivesUp sz s ord env base M
      (intSize (offsetofColor + offsetofData + c.key.length + sizeofDouble)) true spare d'
      ir.rounds := by
  obtain ⟨⟨d₁, node, rounds⟩, halloc, hrun⟩ := Option.bind_eq_some_iff.mp hrun
  cases node with
  | none =>
    obtain ⟨rfl, -, rfl⟩ : d₁ = d' ∧ sd = sd' ∧
      (⟨ngxError, none, some "no memory", rounds⟩ : IncrResult) = ir := by
      simpa using hrun
    exact ⟨d, L, h, hsub, halloc⟩
  | some node =>
    obtain ⟨d₂, -, hrun⟩ := Option.bind_eq_some_iff.mp hrun
    simp only [Option.some.injEq, Prod.mk.injEq] at hrun
    rw [← hrun.2.2] at hfull
    cases hfull

/-- **A counter that reports a lack of memory** has asked for an entry in vain. -/
theorem mpsShdictIncr_full (hbase : 2 ^ s ∣ base) (h : Rep sz s ord d L spare)
    (hrun : mpsShdictIncr sz base env c d = some (d', sd', ir))
    (hfull : ir.err = some "no memory") :
    GivesUp sz s ord env base L
      (intSize (offsetofColor + offsetofData + c.key.length + sizeofDouble)) true
      spare d' ir.rounds := by
  obtain ⟨d₀, m, found, d₁, hexp, hlook, hway, hrep, -, -⟩ := way_spec env c.key h
  have hsub : (afterExpire env L).Sublist L := (expireEntries_front _ _ _).sublist
  -- an answer with another message, or none, is not the one in `hrun`
  have failed : ∀ {x : Shdict} {y : Option Nat} {r : IncrResult}, r.err ≠ some "no memory" →
      some (x, y, r) ≠ some (d', sd', ir) := by
    intro x y r hmsg he
    simp only [Option.some.injEq, Prod.mk.injEq] at he
    exact hmsg (he.2.2 ▸ hfull)
  simp only [mpsShdictIncr, hexp base hbase, hlook, Option.bind_eq_bind, Option.bind_some] at hrun
  cases found with
  | none =>
    simp only [hit, Hit.lookup] at hrun
    cases hinit : c.init with
    | none =>
      rw [hinit] at hrun
      exact absurd hrun (failed (by decide +kernel))
    | some init =>
      rw [hinit] at hrun
      exact incrInsert_full hrep hsub hrun hfull
  | some e =>
    have hsub' : ((afterExpire env L).erase e).Sublist L := List.erase_sublist.trans hsub
    by_cases hx : lookupExpired e.expires (env.mpsClockTimeMs 2) = true
    · simp only [hit, if_pos hx, Hit.lookup] at hrun
      cases hinit : c.init with
      | none =>
        rw [hinit] at hrun
        exact absurd hrun (failed (by decide +kernel))
      | some init =>
        rw [hinit] at hrun
        simp only at hrun
        split at hrun
        · exact absurd hrun (failed (Option.some_ne_none _).symm)
        · obtain ⟨d₂, hremove, hrep', -, -⟩ := Rep.removeEntry (A := []) hrep
          rw [← (hway.finds.sound e rfl).2, hremove base hbase] at hrun
          exact incrInsert_full hrep' hsub' hrun hfull
    · simp only [hit, if_neg hx, Hit.lookup, incrInPlace] at hrun
      split at hrun
      · exact absurd hrun (failed (by decide +kernel))
      · exact absurd hrun (failed (Option.some_ne_none _).symm)

end Calls

/-! ### What is so when a call gives up -/

/-- The bytes of the entry that a call makes, if it makes one. -/
def Call.entrySize : Call → Option Nat
  | .store op a =>
    match storeValue op a with
    | .ok (some v) => some (offsetofColor + offsetofData + a.key.length + v.length)
    | _ => none
  | .incr a => some (offsetofColor + offsetofData + a.key.length + sizeofDouble)
  | _ => none

/-- The call has found no memory for an entry. -/
def Answer.NoMemory : Answer → Prop
  | .store r => r.errmsg = some "no memory"
  | .incr r => r.err = some "no memory"
  | _ => False

/-- **What is so when a call has given up** on its entry: there is no room for it, every
round has evicted something from the end of the queue, and where it may evict it has done
so 30 times or to the last entry. -/
structure GaveUp (s : Nat) (x : Event) (d d' : Shdict) : Prop where
  /-- There is no room for it beside the entries that are left. -/
  full : ∃ size, x.call.entrySize = some size ∧
    NoRoom s (mpsSlabSizesInit (2 ^ s)) d'.pool (dictBlocks d' d'.entries []) size
  /-- Each round has evicted an entry from the end of the LRU queue, and nothing else has
  gone since the first one. -/
  evicted : ∃ L, L.Sublist d.entries ∧ Evictions x.answer.rounds L d'.entries
  /-- If entries may be evicted for it, that was done in each of 30 rounds, or none is left. -/
  tried : x.call.forces = true → x.answer.rounds = 30 ∨ d'.entries = []
  /-- So with fewer than 30 entries it is no small one, if there are two pages. -/
  few : x.call.forces = true → d.entries.length < 30 → 2 ≤ d.pool.pageTotal →
    ∀ size, x.call.entrySize = some size → 2 ^ s / 2 < size

section Runs
variable {s size : Nat} {xs : List Event} {d d' : Shdict} {x : Event}

/-- An allocation that gives up is one of a call that does. The pool it has left is the
one that the call leaves. -/
theorem GivesUp.gaveUp (hs : 12 ≤ s) (hx : x.Runs s d d')
    (h : Rep (mpsSlabSizesInit (2 ^ s)) s False d d.entries [])
      (hgrant : ∀ i, x.env.refuse i = false)
    (hsize : x.call.entrySize = some size)
    (hgives : GivesUp (mpsSlabSizesInit (2 ^ s)) s False
      x.env x.base d.entries size x.call.forces [] d'
      x.answer.rounds) : GaveUp s x d d' := by
  obtain ⟨d₁, L₁, hrep, hsub, he⟩ := hgives
  obtain ⟨L', hpacked, hevicts, htried⟩ := allocEntry_full hgrant hx.1 hrep he
  obtain rfl : d'.entries = L' := hpacked.rep.entries_eq
  have hrounds := hevicts.length_le
  have hlen := hsub.length_le
  refine ⟨⟨size, hsize, hpacked.noRoom⟩, ⟨L₁, hsub, hevicts⟩, htried, ?_⟩
  intro hforces hfew hpages size' hsize'
  obtain rfl : size = size' := Option.some.inj (hsize.symm.trans hsize')
  rcases htried hforces with h30 | hnil
  · omega
  · by_contra hle
    have hrep' := hpacked.rep
    have hno := hpacked.noRoom
    rw [hnil] at hrep' hno
    have hheader : ¬ 2 ^ s / 2 < sizeofTree := by
      have := Nat.pow_le_pow_right (show 0 < 2 by decide) hs
      simp only [sizeofTree]
      omega
    refine hrep'.room hheader ?_ hle hno
    rw [(hx.quiet h).pageTotal]
    exact hpages

/-- A call that gives up, on a dictionary that has lost track of nothing. -/
theorem Event.Runs.gaveUp (hs : 12 ≤ s) (hx : x.Runs s d d')
    (h : Rep (mpsSlabSizesInit (2 ^ s)) s False d d.entries [])
      (hgrant : ∀ i, x.env.refuse i = false)
    (hno : x.answer.NoMemory) : GaveUp s x d d' := by
  have hrun := hx.2.2
  have hok := hx.2.1
  cases hcall : x.call with
  | store op a =>
    rw [hcall] at hrun hok
    obtain ⟨⟨d₁, sd, r⟩, hstep, he⟩ := Option.map_eq_some_iff.mp hrun
    simp only [Prod.mk.injEq] at he
    obtain ⟨rfl, -, hanswer⟩ := he
    rw [← hanswer] at hno
    obtain ⟨value, hv, v, rfl, hgives⟩ := mpsShdictStore_full hx.1 h hstep hno
    rw [intSize_of_lt (StoreArgs.Ok.value hok.1 hv).1] at hgives
    have hsize : x.call.entrySize =
        some (offsetofColor + offsetofData + a.key.length + v.length) := by
      simp only [hcall, Call.entrySize, hv]
    refine GivesUp.gaveUp hs hx h hgrant hsize ?_
    rw [hcall, ← hanswer]
    exact hgives
  | incr a =>
    rw [hcall] at hrun hok
    obtain ⟨⟨d₁, sd, r⟩, hstep, he⟩ := Option.map_eq_some_iff.mp hrun
    simp only [Prod.mk.injEq] at he
    obtain ⟨rfl, -, hanswer⟩ := he
    rw [← hanswer] at hno
    have hgives := mpsShdictIncr_full hx.1 h hstep hno
    rw [intSize_of_lt] at hgives
    · refine GivesUp.gaveUp hs hx h hgrant (by rw [hcall, Call.entrySize]) ?_
      rw [hcall, ← hanswer]
      exact hgives
    · have := hok.1.2
      simp only [offsetofColor, offsetofData, sizeofDouble]
      omega
  | get | push | pop | llen | getTtl | setExpire | flushAll =>
    rw [hcall] at hrun
    obtain ⟨r, -, he⟩ := Option.map_eq_some_iff.mp hrun
    simp only [Prod.mk.injEq] at he
    rw [← he.2.2] at hno
    exact hno.elim

/-- **A call gives up only where it has to**, in every run in which no push gets to a list
of `2 ^ 32 - 1` elements. The allocator must not be made to refuse. -/
theorem gives_up_when_full (hs : 12 ≤ s) (hs' : s ≤ 16)
    (run : RunWith s (fun x L => x.call.Counts x.env L) xs d) (hx : x.Runs s d d')
    (hgrant : ∀ i, x.env.refuse i = false) (hno : x.answer.NoMemory) : GaveUp s x d d' :=
  hx.gaveUp hs (RunWith.tidy False hs hs' (run.mono fun _ _ h => ⟨False.elim, h⟩)).1 hgrant hno

end Runs

/-- A string of 12300 bytes is stored under "C", in a pool of four pages. -/
def hugeEvent : Event :=
  ⟨0, calmEnv 6, .set (stringArgs [67] (List.replicate 12300 0)),
    none, .store ⟨ngxError, some "no memory", 1⟩⟩

/-- For want of room "A" has gone, and there is none still, since the string is longer
than the free pages that can come together. -/
theorem gives_up_when_full_one : GaveUp 12 hugeEvent oneString (hugeEvent.after 12 oneString) :=
  gives_up_when_full (by decide) (by decide)
    (.call (.init fresh_emptyDict)
      (storeEvent_runs 5 ⟨by decide, by decide⟩ (by decide) (by decide +kernel)) trivial)
    (Event.runs_after (by decide)
      ⟨stringArgs_ok ⟨by decide, by decide⟩ (by rw [List.length_replicate]; decide),
        Int.pow_pos (by decide)⟩
      (by decide +kernel))
    (fun _ => rfl) rfl

end MpsShdict
