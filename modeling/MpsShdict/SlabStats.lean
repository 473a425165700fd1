import MpsShdict.SlabSafety
import MpsShdict.SlabCount

/-! # The statistics are exact

`RequestRun` is a run of the allocator together with the requests that have been made, the
latest first. In every run the four counters of a slot are what their names say: the live
chunks, the chunks that the pages of the slot can give, the requests, and those of them
that were refused.

The first two are part of the allocator's invariant and are translated here into counts
over the live blocks and the pages; the other two are counted along the run by induction,
each call by one lemma (`alloc_requests`). Requests and refusals are counted modulo the
width of the counters, so what is stated for every run is their difference as the code
computes it, and both of them exactly as long as they fit.
-/
namespace MpsShdict

open Words Links

/-! ### Requests -/

/-- A request for `size` bytes, and whether it was granted. The run keeps them all, since
the counters speak of the past. -/
structure SlabRequest where
  size : Nat
  granted : Bool
  deriving DecidableEq, Repr

/-- A pool as `mps_slab_init` leaves it, with room for its header, slots and statistics. -/
def FreshPool (s : Nat) (pool : SlabPool) : Prop :=
  ∃ (base poolSize minShift : Nat) (desc : DescMem) (stat : Nat → SlabStat) (word : Nat → Nat),
    2 ^ s ∣ base ∧ minShift < s ∧
    slotOff (s - minShift) + sizeofStat * (s - minShift) ≤ poolSize ∧ poolSize < 2 ^ 64 ∧
    mpsSlabInit (mpsSlabSizesInit (2 ^ s)) base desc stat word poolSize minShift 0 = .ok pool

/-- **A run with its requests.** The calls are those of `SlabRun`; every allocation adds a
request, whether it is granted or not. -/
inductive RequestRun (s : Nat) : SlabPool → List Block → List SlabRequest → Prop where
  | init {pool : SlabPool} (fresh : FreshPool s pool) : RequestRun s pool [] []
  | alloc {pool pool' : SlabPool} {live : List Block} {requests : List SlabRequest} {size p : Nat}
      (run : RequestRun s pool live requests)
      (h : mpsSlabAllocLocked (mpsSlabSizesInit (2 ^ s)) pool.poolEnd pool size =
        some (pool', some p)) : RequestRun s pool' (⟨p, size⟩ :: live) (⟨size, true⟩ :: requests)
  | allocFail {pool pool' : SlabPool} {live : List Block} {requests : List SlabRequest} {size : Nat}
      (run : RequestRun s pool live requests)
      (h : mpsSlabAllocLocked (mpsSlabSizesInit (2 ^ s)) pool.poolEnd pool size =
        some (pool', none)) : RequestRun s pool' live (⟨size, false⟩ :: requests)
  | free {pool : SlabPool} {live : List Block} {requests : List SlabRequest}
      {b : Block} {base : Nat} (run : RequestRun s pool live requests) (hb : b ∈ live)
      (hbase : 2 ^ s ∣ base) :
      RequestRun s (mpsSlabFreeLocked (mpsSlabSizesInit (2 ^ s)) base pool b.off) (live.erase b)
        requests

/-- A request that slot `q` answers: one of at most half a page, with the chunk size of
the slot. -/
def InSlot (sz : Sizes) (pool : SlabPool) (q size : Nat) : Prop :=
  size ≤ sz.maxSize ∧ (sizeClass pool size).2 = q

instance (sz : Sizes) (pool : SlabPool) (q size : Nat) : Decidable (InSlot sz pool q size) :=
  inferInstanceAs (Decidable (_ ∧ _))

/-- The requests that slot `q` answered. -/
def requestsOf (sz : Sizes) (pool : SlabPool) (q : Nat) (requests : List SlabRequest) :
    List SlabRequest :=
  requests.filter fun r => InSlot sz pool q r.size

/-- Page `i` is one of chunks of `2 ^ k` bytes, by its descriptor. -/
def HasClass (sz : Sizes) (pool : SlabPool) (k i : Nat) : Prop :=
  mpsSlabPageType pool.desc (pool.pageDesc i) = chunkType sz k ∧
    (k = sz.exactShift ∨ (pool.desc (pool.pageDesc i)).slab &&& mpsSlabShiftMask = k)

instance (sz : Sizes) (pool : SlabPool) (k i : Nat) : Decidable (HasClass sz pool k i) :=
  inferInstanceAs (Decidable (_ ∧ _))

/-! ### Chunks and pages -/

section Count
variable {sz : Sizes} {s P i k q size : Nat} {pool : SlabPool} {cells : List Cell}
  {lists : Option Nat → List Nat} {live : List Block}

/-- The class of a page is that of its cell. -/
theorem CellOk.hasClass_iff {c : Cell} (g : Geometry sz s P pool) (h : CellOk sz P pool c)
    (hi : c.Has i) : HasClass sz pool k i ↔ ∃ used, c.kind = .chunks k used := by
  obtain ⟨pos, kind, len⟩ := c
  obtain ⟨h1, h2⟩ := hi
  replace h1 : pos ≤ i := h1
  replace h2 : i < pos + len := h2
  rw [HasClass, mpsSlabPageType, and_three]
  cases kind with
  | free =>
    refine iff_of_false ?_ (by simp)
    intro hc
    exact chunkType_ne_page (hc.1.symm.trans (h.2.1 i h1 h2))
  | block =>
    refine iff_of_false ?_ (by simp)
    intro hc
    have htype := congrArg (· % 4) (h.block_prev h1 h2)
    exact chunkType_ne_page (hc.1.symm.trans htype)
  | chunks k' used =>
    obtain ⟨hlen, ⟨-, hks⟩, htype, -, hbits, -⟩ := h
    replace hlen : len = 1 := hlen
    obtain rfl : pos = i := by omega
    replace htype : (pool.desc (pool.pageDesc pos)).prev % 4 = chunkType sz k' := htype
    simp only [htype, CellKind.chunks.injEq, exists_and_left, exists_eq', and_true]
    by_cases heq : k' = sz.exactShift
    · -- the type alone tells the exact size
      rw [chunkType_eq_exact.mpr heq, eq_comm, chunkType_eq_exact, heq]
      exact ⟨fun hc => hc.1.symm, fun hc => ⟨hc.symm, .inl hc.symm⟩⟩
    · rw [hbits.shiftMask g (g.pagesizeShift ▸ hks) heq]
      constructor
      · rintro ⟨ht, hk | hk⟩
        · exact absurd (chunkType_eq_exact.mp (ht.trans (chunkType_eq_exact.mpr hk))) heq
        · exact hk
      · rintro rfl
        exact ⟨rfl, .inr rfl⟩

/-- The pages of a class are counted cell by cell. -/
theorem countP_pages {a e : Nat} (g : Geometry sz s P pool) (h : Contiguous a cells e)
    (hok : ∀ c ∈ cells, CellOk sz P pool c) :
    (List.range' a (e - a)).countP (fun i => HasClass sz pool k i) = pagesOf k cells := by
  induction cells generalizing a with
  | nil =>
    obtain rfl : a = e := h
    simp
  | cons c cells ih =>
    obtain ⟨rfl, h⟩ := h
    have hle := h.le
    rw [show e - c.pos = c.len + (e - (c.pos + c.len)) by omega, ← List.range'_append_1,
      List.countP_append, ih h fun c' hc' => hok c' (List.mem_cons_of_mem _ hc'), pagesOf_cons]
    congr 1
    have hcell : ∀ i ∈ List.range' c.pos c.len,
        (decide (HasClass sz pool k i) = true ↔ ∃ used, c.kind = .chunks k used) := by
      intro i hi
      rw [List.mem_range'_1] at hi
      rw [decide_eq_true_iff]
      exact (hok c List.mem_cons_self).hasClass_iff g hi
    have hc := hok c List.mem_cons_self
    unfold Cell.pagesOf
    split
    · next k' used hk =>
      have hlen : c.len = 1 := by
        obtain ⟨pos, kind, len⟩ := c
        obtain rfl : kind = _ := hk
        exact hc.1
      simp only [hk, CellKind.chunks.injEq, exists_and_left, exists_eq', and_true] at hcell
      split
      · next he =>
        rw [List.countP_eq_length.mpr fun i hi => (hcell i hi).mpr he, List.length_range', hlen]
      · next hne => exact List.countP_eq_zero.mpr fun i hi ht => hne ((hcell i hi).mp ht)
    · next hk =>
      refine List.countP_eq_zero.mpr ?_
      intro i hi ht
      obtain ⟨used, he⟩ := (hcell i hi).mp ht
      exact hk k used he

/-- The size of a block tells its slot. -/
theorem inSlot_iff (g : Sizing sz s pool) (hq : q < s - pool.minShift) :
    InSlot sz pool q size ↔ capacity sz pool size = 2 ^ (pool.minShift + q) := by
  rw [InSlot, capacity]
  by_cases hsize : sz.maxSize < size
  · rw [if_pos hsize]
    refine iff_of_false (fun h => by omega) ?_
    intro he
    have h1 := Nat.mul_le_mul_right (2 ^ s) (pageCount_spec g hsize).1
    have h2 : 2 ^ (pool.minShift + q) < 2 ^ s := Nat.pow_lt_pow_right (by decide) (by omega)
    rw [g.pagesize] at he
    rw [Nat.succ_mul] at h1
    omega
  · obtain ⟨k, hclass, hk, hks, -⟩ := sizeClass_spec g (Nat.not_lt.mp hsize)
    rw [if_neg hsize, hclass, Nat.one_shiftLeft]
    constructor
    · rintro ⟨-, hkq⟩
      congr 1
      replace hkq : k - pool.minShift = q := hkq
      omega
    · intro he
      have := Nat.pow_right_injective le_rfl he
      exact ⟨Nat.not_lt.mp hsize, by show k - pool.minShift = q; omega⟩

/-- The chunks of a size among the bytes given out. -/
theorem countP_extents (g : Geometry sz s P pool) (hok : ∀ c ∈ cells, CellOk sz P pool c)
    (hlen : ∀ c ∈ cells, 0 < c.len) (hk : k < s) :
    (extents sz pool.start cells).countP (fun e => e.2 = 2 ^ k) = chunksOf k cells := by
  -- induction on the cells; a block of pages is longer than any chunk
  induction cells with
  | nil => rfl
  | cons c cells ih =>
    rw [extents_cons, List.countP_append, chunksOf_cons,
      ih (fun c' hc' => hok c' (List.mem_cons_of_mem _ hc'))
        fun c' hc' => hlen c' (List.mem_cons_of_mem _ hc')]
    congr 1
    have hpos := hlen c List.mem_cons_self
    obtain ⟨pos, kind, len⟩ := c
    replace hpos : 0 < len := hpos
    cases kind with
    | free => rfl
    | block =>
      rw [chunksOf_block]
      refine List.countP_eq_zero.mpr ?_
      intro e he ht
      simp only [Cell.extents, List.mem_singleton] at he
      rw [decide_eq_true_iff, he, g.pagesize] at ht
      have h1 := Nat.mul_le_mul_right (2 ^ s) hpos
      have h2 : 2 ^ k < 2 ^ s := Nat.pow_lt_pow_right (by decide) hk
      replace ht : len * 2 ^ s = 2 ^ k := ht
      rw [Nat.succ_mul] at h1
      omega
    | chunks k' used =>
      rw [chunksOf_chunks]
      have hcap : ∀ e ∈ (⟨pos, .chunks k' used, len⟩ : Cell).extents sz pool.start,
          (decide (e.2 = 2 ^ k) = true ↔ k' = k) := by
        intro e he
        simp only [Cell.extents, List.mem_map] at he
        obtain ⟨j, -, rfl⟩ := he
        rw [decide_eq_true_iff, Nat.one_shiftLeft]
        exact (Nat.pow_right_injective (le_refl 2)).eq_iff
      split
      · next he =>
        rw [List.countP_eq_length.mpr fun e hm => (hcap e hm).mpr he]
        simp [Cell.extents]
      · next hne => exact List.countP_eq_zero.mpr fun e hm ht => hne ((hcap e hm).mp ht)

/-- The live chunks of a slot. -/
theorem Holds.countP_live (h : Holds sz s P pool cells lists live) (hq : q < s - pool.minShift) :
    live.countP (fun b => InSlot sz pool q b.size) = chunksOf (pool.minShift + q) cells := by
  have hg := h.inv.shelf.geo
  rw [← countP_extents hg h.inv.shelf.ok (fun c hc => (h.inv.shelf.bound c hc).1) (by omega),
    h.exact.countP_eq, List.countP_map]
  refine List.countP_congr ?_
  intro b _
  rw [decide_eq_true_iff, inSlot_iff hg.toSizing hq]
  simp

/-- A size with no live chunk has no page. -/
theorem Holds.pagesOf_zero (h : Holds sz s P pool cells lists live) (hz : chunksOf k cells = 0) :
    pagesOf k cells = 0 := by
  refine List.sum_eq_zero_iff_forall_eq_nat.mpr ?_
  intro n hn
  obtain ⟨⟨pos, kind, len⟩, hc, rfl⟩ := List.mem_map.mp hn
  have hcz := List.sum_eq_zero_iff_forall_eq_nat.mp hz _ (List.mem_map.mpr ⟨_, hc, rfl⟩)
  cases kind with
  | free => rfl
  | block => rfl
  | chunks k' used =>
    rw [chunksOf_chunks] at hcz
    rw [pagesOf_chunks]
    split
    · next he =>
      rw [if_pos he] at hcz
      refine absurd ?_ (h.inUse _ hc k')
      rw [List.length_eq_zero_iff.mp hcz]
    · rfl

end Count

/-! ### What is counted of requests -/

section Requests
variable {sz : Sizes} {base p page slot shift pages fuel size : Nat} {pool pool' : SlabPool}
  {r : Option Nat}

/-- A new page is no request. -/
theorem newPage_requests (q : Nat) :
    ((newPage sz pool page slot shift).1.stat q).reqs = (pool.stat q).reqs ∧
      ((newPage sz pool page slot shift).1.stat q).fails = (pool.stat q).fails := by
  rw [newPage]
  by_cases hq : q = slot
  · subst hq
    split
    · simp [SlabPool.setStat, SlabPool.fillBitmap, SlabPool.setBitmap]
    · split <;> simp [SlabPool.setStat]
  · split
    · simp [SlabPool.setStat, SlabPool.fillBitmap, SlabPool.setBitmap, hq]
    · split <;> simp [SlabPool.setStat, hq]

/-- A block that comes back is not counted as a request, nor as a failure. -/
theorem freeDone_requests (pool : SlabPool) (slot q : Nat) :
    ((freeDone pool slot).stat q).reqs = (pool.stat q).reqs ∧
      ((freeDone pool slot).stat q).fails = (pool.stat q).fails := by
  by_cases hq : q = slot <;> simp [freeDone, SlabPool.setStat, hq]

theorem freeChunkPage_requests (pool : SlabPool) (page slot n q : Nat) :
    ((freeChunkPage pool page slot n).stat q).reqs = (pool.stat q).reqs ∧
      ((freeChunkPage pool page slot n).stat q).fails = (pool.stat q).fails := by
  by_cases hq : q = slot <;> simp [freeChunkPage, mpsSlabFreePages, SlabPool.setStat, hq]

/-- The end of the three ways of giving a chunk back. -/
theorem takenBack_requests {c : Prop} [Decidable c] {pool₁ : SlabPool} (q n : Nat)
    (hst : pool₁.stat = pool.stat) :
    ((if c then freeDone pool₁ slot
      else freeDone (freeChunkPage pool₁ page slot n) slot).stat q).reqs = (pool.stat q).reqs ∧
    ((if c then freeDone pool₁ slot
      else freeDone (freeChunkPage pool₁ page slot n) slot).stat q).fails =
        (pool.stat q).fails := by
  rw [← hst]
  split
  · exact freeDone_requests pool₁ slot q
  · obtain ⟨h1, h2⟩ := freeDone_requests (freeChunkPage pool₁ page slot n) slot q
    obtain ⟨h3, h4⟩ := freeChunkPage_requests pool₁ page slot n q
    exact ⟨h1.trans h3, h2.trans h4⟩

theorem free_requests (q : Nat) :
    ((mpsSlabFreeLocked sz base pool p).stat q).reqs = (pool.stat q).reqs ∧
      ((mpsSlabFreeLocked sz base pool p).stat q).fails = (pool.stat q).fails := by
  rw [mpsSlabFreeLocked]
  split
  · exact ⟨rfl, rfl⟩
  · simp only
    split
    · simp only [freeSmall]
      split
      · exact ⟨rfl, rfl⟩
      · split
        · apply takenBack_requests q _
          split <;> rfl
        · exact ⟨rfl, rfl⟩
    · split
      · simp only [freeExact]
        split
        · exact ⟨rfl, rfl⟩
        · split
          · exact takenBack_requests q _ rfl
          · exact ⟨rfl, rfl⟩
      · split
        · simp only [freeBig]
          split
          · exact ⟨rfl, rfl⟩
          · split
            · exact takenBack_requests q _ rfl
            · exact ⟨rfl, rfl⟩
        · simp only [freeBlock]
          split
          · exact ⟨rfl, rfl⟩
          · split
            · exact ⟨rfl, rfl⟩
            · split <;> exact ⟨rfl, rfl⟩

/-- **A request is counted** in its slot, and so is its refusal; no other slot sees it,
and a large request is counted nowhere. -/
theorem alloc_requests (q : Nat) (h : mpsSlabAllocLocked sz fuel pool size = some (pool', r)) :
    (pool'.stat q).reqs =
        (if InSlot sz pool q size then u64 ((pool.stat q).reqs + 1) else (pool.stat q).reqs) ∧
      (pool'.stat q).fails =
        if InSlot sz pool q size ∧ r = none then u64 ((pool.stat q).fails + 1)
        else (pool.stat q).fails := by
  rw [mpsSlabAllocLocked] at h
  -- a request for whole pages is not counted in any slot
  by_cases hsize : sz.maxSize < size
  · have hno : ¬ InSlot sz pool q size := fun hin => absurd hin.1 (Nat.not_le.mpr hsize)
    rw [if_pos hsize] at h
    simp only [Option.bind_eq_bind, Option.bind_eq_some_iff] at h
    obtain ⟨⟨pool₁, page⟩, he, h⟩ := h
    obtain ⟨rfl, -⟩ := Prod.mk.inj (Option.some.inj h)
    rw [if_neg hno, if_neg fun hn => hno hn.1,
      show pool₁.stat = pool.stat from allocPagesLoop_stat he]
    exact ⟨rfl, rfl⟩
  · rw [if_neg hsize] at h
    simp only at h
    have hin : InSlot sz pool q size ↔ q = (sizeClass pool size).2 :=
      ⟨fun hq => hq.2.symm, fun hq => ⟨Nat.not_lt.mp hsize, hq.symm⟩⟩
    generalize sizeClass pool size = c at h hin
    obtain ⟨shift, slot⟩ := c
    simp only [hin] at h ⊢
    set pool₀ := pool.setStat slot fun s => { s with reqs := u64 (s.reqs + 1) } with hpool₀
    -- the request is counted before anything is looked for
    have h₀ : (pool₀.stat q).reqs = (if q = slot then u64 ((pool.stat q).reqs + 1)
        else (pool.stat q).reqs) ∧ (pool₀.stat q).fails = (pool.stat q).fails := by
      by_cases hq : q = slot <;> simp [hpool₀, SlabPool.setStat, hq]
    -- from here on only a failure may still be counted
    clear_value pool₀
    rw [← h₀.1, ← h₀.2]
    split at h
    · split at h
      · next x he =>
        obtain ⟨rfl, rfl⟩ := Prod.mk.inj (Option.some.inj h)
        rw [allocChunk_stat he, if_neg (by simp)]
        by_cases hq : q = slot <;> simp [SlabPool.setStat, SlabStat.take, hq]
      · obtain ⟨rfl, rfl⟩ := Prod.mk.inj (Option.some.inj h)
        by_cases hq : q = slot <;> simp [allocFail, SlabPool.setStat, SlabPool.logError, hq]
    · simp only [Option.bind_eq_bind, Option.bind_eq_some_iff] at h
      obtain ⟨⟨pool₁, page⟩, he, h⟩ := h
      rw [← show pool₁.stat = pool₀.stat from allocPagesLoop_stat he]
      cases page with
      | some page =>
        obtain ⟨rfl, rfl⟩ := Prod.mk.inj (Option.some.inj h)
        rw [if_neg (by simp)]
        exact newPage_requests q
      | none =>
        obtain ⟨rfl, rfl⟩ := Prod.mk.inj (Option.some.inj h)
        by_cases hq : q = slot <;> simp [allocFail, SlabPool.setStat, hq]

end Requests

/-! ### The counters of a slot -/

/-- **The statistics of slot `q` are exact.** Each counter is a count over the live
blocks, the pages or the requests of the run. -/
structure StatsExact (sz : Sizes) (pool : SlabPool) (live : List Block)
    (requests : List SlabRequest) (q : Nat) : Prop where
  /-- `used` is the number of live chunks. -/
  used : (pool.stat q).used = live.countP fun b => InSlot sz pool q b.size
  /-- `total` is the number of chunks that do not hold a bitmap in the pages of the class. -/
  total : (pool.stat q).total =
    ((List.range pool.pageTotal).countP fun i => HasClass sz pool (pool.minShift + q) i) *
      usable sz (pool.minShift + q)
  used_le : (pool.stat q).used ≤ (pool.stat q).total
  /-- A class with no live chunk has no page. -/
  emptied : (∀ b ∈ live, ¬ InSlot sz pool q b.size) → (pool.stat q).total = 0
  reqs : (pool.stat q).reqs = u64 (requestsOf sz pool q requests).length
  fails : (pool.stat q).fails = u64 ((requestsOf sz pool q requests).countP fun r => !r.granted)
  /-- The difference is the number of requests that were granted. -/
  granted : sub64 (pool.stat q).reqs (pool.stat q).fails =
    u64 ((requestsOf sz pool q requests).countP SlabRequest.granted)

section Run
variable {s q size : Nat} {pool pool' : SlabPool} {live : List Block} {requests : List SlabRequest}

/-- The requests of a run are left out. -/
theorem RequestRun.run (run : RequestRun s pool live requests) : SlabRun s pool live := by
  induction run with
  | init fresh =>
    obtain ⟨base, poolSize, minShift, desc, stat, word, hbase, hm, hroom, hlt, h⟩ := fresh
    exact .init base poolSize minShift desc stat word hbase hm hroom hlt h
  | alloc _ h ih => exact .alloc ih h
  | allocFail _ h ih => exact .allocFail ih h
  | free _ hb hbase ih => exact .free ih hb hbase

theorem inSlot_same {sz : Sizes} (hs : SameHeader pool pool') :
    InSlot sz pool' q size ↔ InSlot sz pool q size := by
  rw [InSlot, InSlot, sizeClass, sizeClass, hs.minSize, hs.minShift]

/-- No call changes the header. -/
theorem RunInv.alloc_same {r : Option Nat} (h : RunInv s pool live)
    (he : mpsSlabAllocLocked (mpsSlabSizesInit (2 ^ s)) pool.poolEnd pool size =
      some (pool', r)) : SameHeader pool pool' := by
  rcases h with ⟨hempty, -, hend⟩ | ⟨hP, h⟩
  · obtain ⟨he', -, hs⟩ := hempty.alloc size hend
    obtain ⟨rfl, -⟩ := Prod.mk.inj (Option.some.inj (he'.symm.trans he))
    exact hs
  · rcases mpsSlabAllocLocked_spec h size (h.pageTotal_lt hP) with
      ⟨pool₁, p, he', hs, -⟩ | ⟨pool₁, he', hs, -⟩
    · obtain ⟨rfl, -⟩ := Prod.mk.inj (Option.some.inj (he'.symm.trans he))
      exact hs
    · obtain ⟨rfl, -⟩ := Prod.mk.inj (Option.some.inj (he'.symm.trans he))
      exact hs

theorem requestsOf_same {sz : Sizes} (hs : SameHeader pool pool') (requests : List SlabRequest) :
    requestsOf sz pool' q requests = requestsOf sz pool q requests := by
  rw [requestsOf, requestsOf]
  simp only [inSlot_same hs]

theorem u64_succ (n : Nat) : u64 (u64 n + 1) = u64 (n + 1) := by
  unfold u64
  omega

/-- The requests and the refusals, modulo the width of the counters. -/
theorem RequestRun.counted (hs : 12 ≤ s) (hs' : s ≤ 16) (run : RequestRun s pool live requests)
    (hq : q < s - pool.minShift) :
    (pool.stat q).reqs =
        u64 (requestsOf (mpsSlabSizesInit (2 ^ s)) pool q requests).length ∧
      (pool.stat q).fails =
        u64 ((requestsOf (mpsSlabSizesInit (2 ^ s)) pool q requests).countP fun r =>
          !r.granted) := by
  -- induction on the run: each request adds to its own slot, each free to none
  induction run with
  | @init pool fresh =>
    obtain ⟨base, poolSize, minShift, desc, stat, word, hbase, hm, hroom, hlt, h⟩ := fresh
    have hmin : pool.minShift = minShift := by
      obtain ⟨-, -, h1, -⟩ := mpsSlabInit_ok rfl hs hs' hm hbase hroom hlt h
      exact h1
    rw [mpsSlabInit_stat hs' hm h q (hmin ▸ hq)]
    exact ⟨rfl, rfl⟩
  | @alloc pool pool' live requests size p run h ih =>
    have hsame := (run.run.inv hs hs').alloc_same h
    obtain ⟨h1, h2⟩ := ih (hsame.minShift ▸ hq)
    obtain ⟨h3, h4⟩ := alloc_requests q h
    rw [requestsOf_same hsame, h3, h4, h1, h2]
    by_cases hin : InSlot (mpsSlabSizesInit (2 ^ s)) pool q size <;>
      simp [requestsOf, hin, u64_succ]
  | @allocFail pool pool' live requests size run h ih =>
    have hsame := (run.run.inv hs hs').alloc_same h
    obtain ⟨h1, h2⟩ := ih (hsame.minShift ▸ hq)
    obtain ⟨h3, h4⟩ := alloc_requests q h
    rw [requestsOf_same hsame, h3, h4, h1, h2]
    by_cases hin : InSlot (mpsSlabSizesInit (2 ^ s)) pool q size <;>
      simp [requestsOf, hin, u64_succ]
  | @free pool live requests b base run hb hbase ih =>
    have hsame : SameHeader pool
        (mpsSlabFreeLocked (mpsSlabSizesInit (2 ^ s)) base pool b.off) := by
      rcases run.run.inv hs hs' with ⟨-, rfl, -⟩ | ⟨hP, hinv⟩
      · simp at hb
      · exact (mpsSlabFreeLocked_spec hinv hbase hb).1
    obtain ⟨h1, h2⟩ := ih (hsame.minShift ▸ hq)
    obtain ⟨h3, h4⟩ := free_requests q
    rw [requestsOf_same hsame]
    exact ⟨h3.trans h1, h4.trans h2⟩

/-- What is left of the requests without the refusals. -/
theorem sub64_refused (l : List SlabRequest) :
    sub64 (u64 l.length) (u64 (l.countP fun r => !r.granted)) =
      u64 (l.countP SlabRequest.granted) := by
  have hsum : l.length = l.countP SlabRequest.granted + l.countP fun r => !r.granted := by
    rw [List.length_eq_countP_add_countP SlabRequest.granted]
    simp
  rw [hsum]
  generalize l.countP SlabRequest.granted = a
  generalize (l.countP fun r => !r.granted) = b
  unfold sub64 u64
  omega

/-- **The statistics are exact** in every run of the allocator, for every slot of the
pool: the chunks in use and those there are, as well as the requests and the failures,
each as its field can count them. -/
theorem stats_exact (hs : 12 ≤ s) (hs' : s ≤ 16) (run : RequestRun s pool live requests)
    (hq : q < s - pool.minShift) :
    StatsExact (mpsSlabSizesInit (2 ^ s)) pool live requests q := by
  set sz := mpsSlabSizesInit (2 ^ s)
  obtain ⟨hreqs, hfails⟩ := run.counted hs hs' hq
  have hgranted := sub64_refused (requestsOf sz pool q requests)
  rw [← hreqs, ← hfails] at hgranted
  rcases run.run.inv hs hs' with ⟨hempty, rfl, -⟩ | ⟨-, cells, lists, h⟩
  · obtain ⟨h1, h2⟩ := hempty.stats q hq
    refine ⟨h1, ?_, ?_, fun _ => h2, hreqs, hfails, hgranted⟩
    · rw [h2, hempty.total]
      simp
    · rw [h1, h2]
  · have hg := h.inv.shelf.geo
    obtain ⟨h1, h2⟩ := h.stats q hq
    obtain ⟨h3, -⟩ := h.inv.chunksOf_le (k := pool.minShift + q) (by omega)
    refine ⟨?_, ?_, ?_, ?_, hreqs, hfails, hgranted⟩
    · rw [h1, h.countP_live hq]
    · rw [h2, ← countP_pages hg h.inv.contiguous h.inv.shelf.ok, Nat.sub_zero, List.range_eq_range']
    · rw [h1, h2]
      exact h3
    · intro hnone
      have hzero : chunksOf (pool.minShift + q) cells = 0 := by
        rw [← h.countP_live hq]
        refine List.countP_eq_zero.mpr fun b hb ht => hnone b hb ?_
        exact of_decide_eq_true ht
      rw [h2, h.pagesOf_zero hzero, Nat.zero_mul]

end Run

/-- In a pool of four pages, after a request of 8 bytes that is granted and one of 100
that is granted and given back. -/
theorem stats_exact_two : ∃ pool live requests,
    StatsExact (mpsSlabSizesInit (2 ^ 12)) pool live requests 0 ∧
      StatsExact (mpsSlabSizesInit (2 ^ 12)) pool live requests 4 := by
  have run : RequestRun 12 _ (([⟨8192, 100⟩, ⟨4160, 8⟩] : List Block).erase ⟨8192, 100⟩)
      [⟨100, true⟩, ⟨8, true⟩] :=
    .free (.alloc (.alloc (.init ⟨0, 20480, 3, fun _ => ⟨0, 0, 0⟩, fun _ => ⟨0, 0, 0, 0⟩,
      fun _ => 0, by decide, by decide, by decide, by decide, rfl⟩) rfl) rfl) (by decide)
      (show 2 ^ 12 ∣ 0 by decide)
  exact ⟨_, _, _, stats_exact (by decide) (by decide) run (by decide),
    stats_exact (by decide) (by decide) run (by decide)⟩

end MpsShdict
