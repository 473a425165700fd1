import MpsShdict.SlabLive

/-! # What holds of every run of the allocator

`SlabRun` is every pool that a sequence of calls leads to from a fresh one, with the
blocks that are live then. In a pool of one page or more the blocks are those that the
cells give out; a pool too small for a page never gives anything out.

The run lemma `SlabRun.inv` is by induction over the calls, from `mpsSlabInit_spec` and
the specifications of the two operations. Each call may come from another process, with
the pool mapped somewhere else; what is fixed for the run is the page size, between 4 and
64 KiB, and the size of the pool. Every allocation of a run returns, with a block or
without one (`RunInv.alloc_step`), so that the number of rounds which the model gives to
the search is never the reason for a failure.
-/
namespace MpsShdict

open Words Links

/-- The number of pages, which never changes: it is fixed by the header that
`mps_slab_init` writes. -/
def SlabPool.pageTotal (pool : SlabPool) : Nat := (pool.last - pool.pages) / sizeofPage

/-! ### A fresh pool -/

/-- A pool with no page: its one free run is empty and so are its slots. `mps_slab_init`
makes one of any memory that is large enough for the header alone. -/
structure EmptyPool (sz : Sizes) (s : Nat) (pool : SlabPool) : Prop where
  sizing : Sizing sz s pool
  total : pool.pageTotal = 0
  last : pool.last = pool.pages
  run : (pool.desc freeOff).next ≠ freeOff
  slab : (pool.desc (pool.desc freeOff).next).slab = 0
  next : (pool.desc (pool.desc freeOff).next).next = freeOff
  slots : ∀ q < s - pool.minShift, (pool.desc (slotOff q)).next = slotOff q
  stats : ∀ q < s - pool.minShift, (pool.stat q).used = 0 ∧ (pool.stat q).total = 0

section Init
variable {sz : Sizes} {s base poolSize minShift P start : Nat} {desc : DescMem}
  {stat : Nat → SlabStat} {word : Nat → Nat} {mutexErr : Int} {pool : SlabPool}

/-- The page descriptors and list heads of a fresh pool of `P` pages. -/
def freshDesc (m : DescMem) (n page pages P : Nat) : DescMem :=
  (initRun (initSlots m n) page pages).setSlab page P

theorem freshDesc_free {n page pages P : Nat} (hp : page = slotOff n + sizeofStat * n) :
    (freshDesc desc n page pages P freeOff).next = page := by
  have : freeOff ≠ page := by
    simp only [hp, freeOff, slotOff, sizeofPool, sizeofPage]
    omega
  simp [freshDesc, initRun, this]

theorem freshDesc_slot {n page pages P q : Nat} (hp : page = slotOff n + sizeofStat * n)
    (hq : q < n) : (freshDesc desc n page pages P (slotOff q)).next = slotOff q ∧
      (freshDesc desc n page pages P (slotOff q)).prev = 0 := by
  have h1 : slotOff q < page := by
    simp only [hp, slotOff, sizeofPool, sizeofPage, sizeofStat]
    omega
  have h2 : slotOff q ≠ freeOff := by
    simp only [freeOff, slotOff, sizeofPool, sizeofPage]
    omega
  have h3 : sizeofPool ≤ slotOff q ∧ slotOff q < sizeofPool + sizeofPage * n ∧
      (slotOff q - sizeofPool) % sizeofPage = 0 := by
    simp only [slotOff, sizeofPool, sizeofPage]
    omega
  simp [freshDesc, initRun, initSlots, DescMem.zero, DescMem.fill, h1.ne, h2, h3, Nat.not_le.mpr h1]

theorem freshDesc_page {n page pages P i : Nat} (hp : page = slotOff n + sizeofStat * n)
    (hi : i < pages ∨ i = 0) :
    freshDesc desc n page pages P (page + sizeofPage * i) =
      if i = 0 then ⟨P, freeOff, freeOff⟩ else ⟨0, 0, 0⟩ := by
  have h1 : page + sizeofPage * i ≠ freeOff := by
    simp only [hp, freeOff, slotOff, sizeofPool, sizeofPage, sizeofStat]
    omega
  split
  · next h0 =>
    subst h0
    simp [freshDesc, initRun, DescMem.setSlab, DescMem.setNext, DescMem.setPrev]
  · next h0 =>
    have h2 : page + sizeofPage * i ≠ page := by
      simp only [sizeofPage]
      omega
    have h3 : page ≤ page + sizeofPage * i ∧ page + sizeofPage * i < page + sizeofPage * pages ∧
        (page + sizeofPage * i - page) % sizeofPage = 0 := by
      simp only [sizeofPage]
      omega
    rw [freshDesc, DescMem.setSlab_ne h2, initRun, DescMem.setPrev_ne h2, DescMem.setNext_ne h2,
      DescMem.setSlab_ne h2, DescMem.setPrev_ne h1, DescMem.setNext_ne h1, DescMem.setSlab_ne h1]
    exact if_pos h3

/-- **The header that `mps_slab_init` writes.** The pages fit between `start` and the end
of the pool, and the descriptors between the statistics and `start`. -/
theorem mpsSlabInit_ok (hsz : sz = mpsSlabSizesInit (2 ^ s)) (hs : 12 ≤ s) (hs' : s ≤ 16)
    (hm : minShift < s) (hbase : 2 ^ s ∣ base)
    (hroom : slotOff (s - minShift) + sizeofStat * (s - minShift) ≤ poolSize)
    (hlt : poolSize < 2 ^ 64)
    (h : mpsSlabInit sz base desc stat word poolSize minShift mutexErr = .ok pool) :
    ∃ pages P, pool.minShift = minShift ∧ pool.minSize = 2 ^ minShift ∧
      pool.pages = slotOff (s - minShift) + sizeofStat * (s - minShift) ∧
      pool.last = pool.pageDesc P ∧ pool.pfree = P ∧ pool.poolEnd = poolSize ∧ pool.log = [] ∧
      pool.desc = freshDesc desc (s - minShift) pool.pages pages P ∧ P ≤ pages ∧
      (0 < P → pool.last ≤ pool.start ∧ 2 ^ s ∣ pool.start ∧ pool.start + P * 2 ^ s ≤ poolSize) ∧
      pool.stats = slotOff (s - minShift) := by
  have hps : sz.pagesizeShift = s := by
    rw [hsz]
    simp [mpsSlabSizesInit, shiftRounds]
  have hpg : sz.pagesize = 2 ^ s := by
    rw [hsz]
    rfl
  have hs64 : 2 ^ 12 ≤ 2 ^ s := Nat.pow_le_pow_right (by decide) hs
  set n := s - minShift with hn
  set page := slotOff n + sizeofStat * n with hpage
  have hn' : sub64 sz.pagesizeShift minShift = n := by
    rw [hps, sub64_of_le (by omega) hm.le]
  have hslots : u64 (sizeofPool + n * sizeofPage) = slotOff n := by
    rw [Nat.mul_comm n]
    exact u64_of_lt (by simp only [hpage, slotOff] at hroom ⊢; omega)
  have hstats : u64 (slotOff n + n * sizeofStat) = page := by
    rw [Nat.mul_comm n]
    exact u64_of_lt (by omega)
  have hsize : sub64 (sub64 poolSize sizeofPool) (n * (sizeofPage + sizeofStat)) =
      poolSize - page := by
    simp only [hpage, slotOff, sizeofPool, sizeofPage, sizeofStat] at hroom ⊢
    rw [sub64_of_le hlt (by omega), sub64_of_le (by omega) (by omega)]
    omega
  set pages := (poolSize - page) / (2 ^ s + sizeofPage) with hpages
  have hfit : pages * (2 ^ s + sizeofPage) ≤ poolSize - page := Nat.div_mul_le_self _ _
  rw [Nat.mul_add, Nat.mul_comm pages sizeofPage] at hfit
  rw [mpsSlabInit] at h
  split at h
  · cases h
  · simp only [hn', hslots, hstats, hsize, hpg, ← hpages] at h
    set start := u64 (alignUp (base + page + pages * sizeofPage) (2 ^ s) - base) with hstart
    set q := sub64 poolSize start / 2 ^ s with hq
    -- both counts are small
    have hpages' : pages < 2 ^ 53 := by
      have h1 : pages * 2 ^ 12 ≤ pages * 2 ^ s := Nat.mul_le_mul_left _ hs64
      omega
    have hq' : q < 2 ^ 53 := by
      have h1 : q * 2 ^ 12 ≤ q * 2 ^ s := Nat.mul_le_mul_left _ hs64
      have h2 : q * 2 ^ s ≤ sub64 poolSize start := Nat.div_mul_le_self _ _
      have h3 : sub64 poolSize start < 2 ^ 64 := Nat.mod_lt _ (by decide)
      omega
    clear_value pages q
    have hm' : int64 (sub64 pages q) = (pages : Int) - q := int64_sub64 (by omega) (by omega)
    set P := if 0 < int64 (sub64 pages q) then sub64 pages (int64 (sub64 pages q)).toNat else pages
      with hP
    have hPmin : P = min pages q := by
      rw [hP, hm']
      split
      · rw [sub64_of_le (by omega) (by omega)]
        omega
      · omega
    have hfits : 0 < P → page + sizeofPage * pages ≤ start ∧ 2 ^ s ∣ start ∧
        start + P * 2 ^ s ≤ poolSize := by
      intro hpos
      have hal : alignUp (base + page + pages * sizeofPage) (2 ^ s) - base =
          alignUp (page + pages * sizeofPage) (2 ^ s) := by
        rw [Nat.add_assoc, alignUp_add hbase, Nat.add_sub_cancel_left]
      have h1 := le_alignUp (page + pages * sizeofPage) s
      have h2 := alignUp_lt (page + pages * sizeofPage) s
      have h3 : 1 * 2 ^ s ≤ pages * 2 ^ s := Nat.mul_le_mul_right _ (by omega)
      rw [Nat.mul_comm pages sizeofPage] at h1 h2 hal hstart
      have hst : start = alignUp (page + sizeofPage * pages) (2 ^ s) := by
        rw [hstart, hal, u64_of_lt (by omega)]
      have h4 : P * 2 ^ s ≤ q * 2 ^ s := Nat.mul_le_mul_right _ (by omega)
      have h5 : q * 2 ^ s ≤ sub64 poolSize start := hq ▸ Nat.div_mul_le_self _ _
      rw [sub64_of_le hlt (by omega)] at h5
      exact ⟨by omega, hst ▸ dvd_alignUp _ _, by omega⟩
    obtain rfl := Except.ok.inj h
    refine ⟨pages, P, rfl, Nat.one_shiftLeft _, rfl, rfl, rfl, rfl, rfl, ?_, by omega,
      ?_, rfl⟩
    · show (if 0 < int64 (sub64 pages q) then _ else _) = freshDesc desc n page pages P
      rw [freshDesc, hP]
      split
      · rfl
      · refine funext fun o => SlabPage.ext ?_ ?_ ?_
        · by_cases ho : o = page <;> simp [initRun, ho]
        · simp
        · simp
    · intro hpos
      obtain ⟨h1, h2, h3⟩ := hfits hpos
      refine ⟨?_, h2, h3⟩
      show page + sizeofPage * P ≤ start
      have := Nat.mul_le_mul_left sizeofPage (show P ≤ pages by omega)
      omega

/-- Nothing is counted in a fresh pool. -/
theorem mpsSlabInit_stat (hs' : s ≤ 16) (hm : minShift < s)
    (h : mpsSlabInit (mpsSlabSizesInit (2 ^ s)) base desc stat word poolSize minShift mutexErr =
      .ok pool) : ∀ q < s - minShift, pool.stat q = ⟨0, 0, 0, 0⟩ := by
  intro q hq
  have hn : sub64 (mpsSlabSizesInit (2 ^ s)).pagesizeShift minShift = s - minShift := by
    have hps : (mpsSlabSizesInit (2 ^ s)).pagesizeShift = s := by
      simp [mpsSlabSizesInit, shiftRounds]
    rw [hps, sub64_of_le (by omega) hm.le]
  rw [mpsSlabInit] at h
  split at h
  · cases h
  · obtain rfl := Except.ok.inj h
    apply if_pos
    rw [hn]
    exact hq

/-- The lists of a fresh pool. -/
def freshLists (pool : SlabPool) (a : Option Nat) : List Nat :=
  if a = none then [pool.pageDesc 0] else []

/-- **A fresh pool** of one page or more is one free run, and any other is empty. Nothing
is live in either. -/
theorem mpsSlabInit_spec (hsz : sz = mpsSlabSizesInit (2 ^ s)) (hs : 12 ≤ s) (hs' : s ≤ 16)
    (hm : minShift < s) (hbase : 2 ^ s ∣ base)
    (hroom : slotOff (s - minShift) + sizeofStat * (s - minShift) ≤ poolSize)
    (hlt : poolSize < 2 ^ 64)
    (h : mpsSlabInit sz base desc stat word poolSize minShift mutexErr = .ok pool) :
    pool.log = [] ∧ pool.pageTotal = pool.pfree ∧ (EmptyPool sz s pool ∨ 0 < pool.pageTotal ∧
      Holds sz s pool.pageTotal pool [⟨0, .free, pool.pageTotal⟩] (freshLists pool) []) := by
  obtain ⟨pages, P, h1, h2, h3, h4, h5, h6, h7, h8, h9, h10, hstats⟩ :=
    mpsSlabInit_ok hsz hs hs' hm hbase hroom hlt h
  have htotal : pool.pageTotal = P := by
    rw [SlabPool.pageTotal, h4, SlabPool.pageDesc, Nat.add_sub_cancel_left]
    exact Nat.mul_div_cancel_left _ (by decide)
  have hsizing : Sizing sz s pool := ⟨hsz, hs, hs', h1 ▸ hm, by rw [h1, h2]⟩
  have hfree : (pool.desc freeOff).next = pool.pages := by rw [h8, freshDesc_free h3]
  have hpage : ∀ i, i < pages ∨ i = 0 → pool.desc (pool.pageDesc i) =
      if i = 0 then ⟨P, freeOff, freeOff⟩ else ⟨0, 0, 0⟩ := by
    intro i hi
    rw [h8, SlabPool.pageDesc, freshDesc_page h3 hi]
  have hfirst : pool.pageDesc 0 = pool.pages := rfl
  have hhead : pool.desc pool.pages = ⟨P, freeOff, freeOff⟩ := by
    rw [← hfirst, hpage 0 (.inr rfl), if_pos rfl]
  have hslots : ∀ q < s - pool.minShift, (pool.desc (slotOff q)).next = slotOff q := by
    intro q hq
    rw [h8]
    exact (freshDesc_slot h3 (h1 ▸ hq)).1
  refine ⟨h7, htotal.trans h5.symm, ?_⟩
  rw [htotal]
  rcases Nat.eq_zero_or_pos P with rfl | hP
  · -- without a page the list of free runs still leads to the first descriptor
    refine .inl ⟨hsizing, htotal, h4, ?_, ?_, ?_, hslots, ?_⟩
    · rw [hfree, h3]
      simp only [freeOff, slotOff, sizeofPool, sizeofPage]
      omega
    · rw [hfree, hhead]
    · rw [hfree, hhead]
    · intro q hq
      rw [mpsSlabInit_stat hs' hm (hsz ▸ h) q (h1 ▸ hq)]
      exact ⟨rfl, rfl⟩
  · obtain ⟨h11, h12, h13⟩ := h10 hP
    have hgeo : Geometry sz s P pool :=
      ⟨hsizing, by rw [h1, h3], h4, h11, h12, h6.symm ▸ h13, h6.symm ▸ hlt, h1.symm ▸ hstats⟩
    have hcounts : StatsOk sz s pool [⟨0, .free, P⟩] := by
      intro q hq
      rw [mpsSlabInit_stat hs' hm (hsz ▸ h) q (h1 ▸ hq)]
      simp
    -- the one cell, the rings of the lists, and what is on them
    refine .inr ⟨hP, ⟨⟨hgeo, by simp, by simp [hP], ?_, ?_, ?_⟩,
      ⟨rfl, by simp [Contiguous]⟩, by simp [Apart], by simp [h5]⟩, by simp,
      by simp [extents, Cell.extents], hcounts⟩
    · intro c hc
      rw [List.mem_singleton.mp hc]
      refine ⟨?_, ?_, ?_, ?_⟩
      · show (pool.desc (pool.pageDesc 0)).slab = P
        rw [hfirst, hhead]
      · intro j _ hj
        replace hj : j < 0 + P := hj
        show (pool.desc (pool.pageDesc j)).prev % 4 = _
        rw [hpage j (.inl (by omega))]
        split
        · exact Nat.mod_eq_zero_of_dvd (Geometry.dvd_header (a := none))
        · rfl
      · intro _ hlast
        replace hlast : 0 + P < P := hlast
        omega
      · intro j hj hj'
        replace hj : 0 < j := hj
        replace hj' : j < 0 + P := hj'
        show (pool.desc (pool.pageDesc j)).slab = _
        rw [hpage j (.inl (by omega)), if_neg (Nat.ne_of_gt hj)]
        rfl
    · intro a ha
      cases a with
      | none =>
        have hne : pool.pages ≠ freeOff := hgeo.pageDesc_ne_header (i := 0) (a := none) trivial
        refine ⟨?_, by simp [freshLists, header, hfirst, Ne.symm hne]⟩
        simp only [freshLists, header, hfirst, ↓reduceIte, List.cons_append, List.nil_append,
          List.isChain_cons_cons, List.isChain_singleton, and_true]
        refine ⟨⟨hfree, fun _ => ?_⟩, ?_, fun hn => absurd rfl hn⟩
        · rw [mpsSlabPagePrev, hhead]
          exact andNot_three_of_dvd (Geometry.dvd_header (a := none))
        · exact congrArg SlabPage.next hhead
      | some q => exact ring_nil (hslots q ha) fun hn => absurd rfl hn
    · intro a ha x
      cases a with
      | none => simp [freshLists, Cell.list]
      | some q => simp [freshLists, Cell.list]

end Init

/-! ### A pool with no page -/

section Empty
variable {sz : Sizes} {s fuel size : Nat} {pool pool' : SlabPool}

/-- Only the requests and the messages of an empty pool are counted. -/
theorem EmptyPool.same (h : EmptyPool sz s pool) (hs : SameHeader pool pool')
    (hd : pool'.desc = pool.desc)
    (hst : ∀ q, (pool'.stat q).used = (pool.stat q).used ∧
      (pool'.stat q).total = (pool.stat q).total) : EmptyPool sz s pool' := by
  obtain ⟨h1, h2, h3, h4, h5, h6, h7, h8⟩ := h
  refine ⟨h1.same hs, ?_, ?_, hd ▸ h4, hd ▸ h5, hd ▸ h6, ?_, ?_⟩
  · rw [SlabPool.pageTotal, hs.last, hs.pages]
    exact h2
  · rw [hs.last, hs.pages]
    exact h3
  · rw [hs.minShift, hd]
    exact h7
  · intro q hq
    rw [hs.minShift] at hq
    rw [(hst q).1, (hst q).2]
    exact h8 q hq

theorem EmptyPool.allocPages (h : EmptyPool sz s pool) {n : Nat} (hn : 0 < n) (hfuel : 1 < fuel) :
    mpsSlabAllocPages fuel pool n = some (noRun pool, none) := by
  obtain ⟨fuel, rfl⟩ : ∃ k, fuel = k + 2 := ⟨fuel - 2, by omega⟩
  have hlen : ¬ n ≤ (pool.desc (pool.desc freeOff).next).slab := by rw [h.slab]; omega
  rw [mpsSlabAllocPages, allocPagesLoop, if_neg h.run,
    if_neg hlen, h.next, allocPagesLoop, if_pos rfl]
  rfl

/-- An empty pool gives nothing out and stays empty. -/
theorem EmptyPool.alloc (h : EmptyPool sz s pool) (size : Nat) (hfuel : 1 < fuel) :
    mpsSlabAllocLocked sz fuel pool size = some (refused sz pool size, none) ∧
      EmptyPool sz s (refused sz pool size) ∧ SameHeader pool (refused sz pool size) := by
  have hnr : ∀ p : SlabPool, SameHeader p (noRun p) ∧ (noRun p).desc = p.desc ∧
      (noRun p).stat = p.stat := by
    intro p
    rw [noRun]
    split <;> exact ⟨⟨rfl, rfl, rfl, rfl, rfl, rfl, rfl, rfl, rfl⟩, rfl, rfl⟩
  by_cases hsize : sz.maxSize < size
  · obtain ⟨hn, -⟩ := pageCount_spec h.sizing hsize
    rw [refused, if_pos hsize]
    refine ⟨?_, h.same (hnr pool).1 (hnr pool).2.1 fun q => ?_, (hnr pool).1⟩
    swap
    · rw [(hnr pool).2.2]
      exact ⟨rfl, rfl⟩
    rw [mpsSlabAllocLocked, if_pos hsize, ← pageCount, h.allocPages hn hfuel]
    rfl
  · obtain ⟨k, hclass, hk, hks, -⟩ := sizeClass_spec h.sizing (Nat.not_lt.mp hsize)
    set pool₀ := pool.setStat (k - pool.minShift) fun s => { s with reqs := u64 (s.reqs + 1) }
      with hpool₀
    have hs₀ : SameHeader pool pool₀ := ⟨rfl, rfl, rfl, rfl, rfl, rfl, rfl, rfl, rfl⟩
    have h₀ : EmptyPool sz s pool₀ := h.same hs₀ rfl fun q => by
      by_cases hq : q = k - pool.minShift <;> simp [hpool₀, SlabPool.setStat, hq]
    have hhead : (pool₀.desc (slotOff (k - pool.minShift))).next = slotOff (k - pool.minShift) :=
      h.slots _ (by have := h.sizing.minShift_lt; omega)
    have hfail : SameHeader (noRun pool₀) (allocFail (noRun pool₀) (k - pool.minShift)) :=
      ⟨rfl, rfl, rfl, rfl, rfl, rfl, rfl, rfl, rfl⟩
    have hs : SameHeader pool (allocFail (noRun pool₀) (k - pool.minShift)) :=
      hs₀.trans ((hnr pool₀).1.trans hfail)
    rw [refused, if_neg hsize, hclass]
    refine ⟨?_, h₀.same ((hnr pool₀).1.trans hfail) (hnr pool₀).2.1 (allocFail_counts _ _), hs⟩
    rw [mpsSlabAllocLocked, if_neg hsize]
    simp only [hclass, ← hpool₀]
    rw [hhead, hhead, if_neg (not_not.mpr rfl), h₀.allocPages Nat.one_pos hfuel]
    rfl

end Empty

/-! ### Runs -/

/-- **The pools that calls lead to from a fresh one**, with the blocks that are live. Each
call may come from a process of its own, which has the pool mapped at a page boundary
`base`. A free is of a live block; the others are the business of a later module. -/
inductive SlabRun (s : Nat) : SlabPool → List Block → Prop where
  | init (base poolSize minShift : Nat) (desc : DescMem) (stat : Nat → SlabStat)
      (word : Nat → Nat) {pool : SlabPool} (hbase : 2 ^ s ∣ base) (hm : minShift < s)
      (hroom : slotOff (s - minShift) + sizeofStat * (s - minShift) ≤ poolSize)
      (hlt : poolSize < 2 ^ 64)
      (h : mpsSlabInit (mpsSlabSizesInit (2 ^ s)) base desc stat word poolSize minShift 0 =
        .ok pool) : SlabRun s pool []
  | alloc {pool pool' : SlabPool} {live : List Block} {size p : Nat} (run : SlabRun s pool live)
      (h : mpsSlabAllocLocked (mpsSlabSizesInit (2 ^ s)) pool.poolEnd pool size =
        some (pool', some p)) : SlabRun s pool' (⟨p, size⟩ :: live)
  | allocFail {pool pool' : SlabPool} {live : List Block} {size : Nat} (run : SlabRun s pool live)
      (h : mpsSlabAllocLocked (mpsSlabSizesInit (2 ^ s)) pool.poolEnd pool size =
        some (pool', none)) : SlabRun s pool' live
  | free {pool : SlabPool} {live : List Block} {b : Block} {base : Nat} (run : SlabRun s pool live)
      (hb : b ∈ live) (hbase : 2 ^ s ∣ base) :
      SlabRun s (mpsSlabFreeLocked (mpsSlabSizesInit (2 ^ s)) base pool b.off) (live.erase b)

/-- What holds of every pool in a run: the invariant of the allocator, or no page and no
block. -/
def RunInv (s : Nat) (pool : SlabPool) (live : List Block) : Prop :=
  (EmptyPool (mpsSlabSizesInit (2 ^ s)) s pool ∧ live = [] ∧ 1 < pool.poolEnd) ∨
    (0 < pool.pageTotal ∧ SlabInv (mpsSlabSizesInit (2 ^ s)) s pool.pageTotal pool live)

section Runs
variable {s size base : Nat} {pool pool' : SlabPool} {live : List Block} {b : Block}

theorem SameHeader.pageTotal (h : SameHeader pool pool') : pool'.pageTotal = pool.pageTotal := by
  rw [SlabPool.pageTotal, SlabPool.pageTotal, h.last, h.pages]

/-- There are fewer pages than bytes. -/
theorem SlabInv.pageTotal_lt {sz : Sizes} {P : Nat} (h : SlabInv sz s P pool live) (hP : 0 < P) :
    P < pool.poolEnd := by
  obtain ⟨cells, lists, h⟩ := h
  have hg := h.inv.shelf.geo
  have h1 := hg.end_le
  have h2 : P * 2 ^ 12 ≤ P * 2 ^ s :=
    Nat.mul_le_mul_left _ (Nat.pow_le_pow_right (by decide) hg.le_s)
  omega

/-- One allocation keeps the invariant, and returns: the block is one more live one, or
there is none. -/
theorem RunInv.alloc_step (h : RunInv s pool live) (size : Nat) :
    ∃ pool' p, mpsSlabAllocLocked (mpsSlabSizesInit (2 ^ s)) pool.poolEnd pool size =
        some (pool', p) ∧
      RunInv s pool' ((p.map fun p => ⟨p, size⟩).toList ++ live) := by
  rcases h with ⟨hempty, rfl, hend⟩ | ⟨hP, h⟩
  · obtain ⟨he, h', hs⟩ := hempty.alloc size hend
    exact ⟨_, none, he, .inl ⟨h', rfl, by rw [hs.poolEnd]; exact hend⟩⟩
  · rcases mpsSlabAllocLocked_spec h size (h.pageTotal_lt hP) with
      ⟨pool', p, he, hs, -, h'⟩ | ⟨pool', he, hs, -, -, h'⟩
    · refine ⟨pool', some p, he, .inr ?_⟩
      rw [hs.pageTotal]
      exact ⟨hP, h'⟩
    · refine ⟨pool', none, he, .inr ?_⟩
      rw [hs.pageTotal]
      exact ⟨hP, h'⟩

/-- **Every pool in a run** keeps the invariant. By induction over the calls, with the
specification of each for the step. -/
theorem SlabRun.inv (hs : 12 ≤ s) (hs' : s ≤ 16) (run : SlabRun s pool live) :
    RunInv s pool live := by
  -- induction on the run, with one lemma for each kind of step
  induction run with
  | init base poolSize minShift desc stat word hbase hm hroom hlt h =>
    obtain ⟨-, -, hempty | ⟨hP, hinv⟩⟩ := mpsSlabInit_spec rfl hs hs' hm hbase hroom hlt h
    · obtain ⟨-, -, -, -, -, -, -, hend, -⟩ := mpsSlabInit_ok rfl hs hs' hm hbase hroom hlt h
      refine .inl ⟨hempty, rfl, ?_⟩
      rw [hend]
      simp only [slotOff, sizeofPool] at hroom
      omega
    · exact .inr ⟨hP, _, _, hinv⟩
  | alloc run h ih =>
    obtain ⟨pool'', p', he, hinv⟩ := ih.alloc_step _
    obtain ⟨rfl, rfl⟩ := Prod.mk.inj (Option.some.inj (he.symm.trans h))
    exact hinv
  | allocFail run h ih =>
    obtain ⟨pool'', p', he, hinv⟩ := ih.alloc_step _
    obtain ⟨rfl, rfl⟩ := Prod.mk.inj (Option.some.inj (he.symm.trans h))
    exact hinv
  | free run hb hbase ih =>
    rcases ih with ⟨-, rfl, -⟩ | ⟨hP, hinv⟩
    · simp at hb
    · obtain ⟨hsame, -, hinv'⟩ := mpsSlabFreeLocked_spec hinv hbase hb
      refine .inr ?_
      rw [hsame.pageTotal]
      exact ⟨hP, hinv'⟩

end Runs

end MpsShdict
