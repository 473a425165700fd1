import MpsShdict.SlabRuns

/-! # The layout of a fresh pool

`mps_slab_init` estimates the number of pages before it knows where they begin, and takes
the estimate back by what does not fit. It does not check that anything fits: with a pool
that does not reach to the first page boundary behind its header the difference of the two
wraps around, and the pages lie behind the end of the pool.

So the layout is right exactly when the pool reaches that far (`mpsSlabInit_layout_iff`),
for every page size, every least chunk size and every pool. The number of pages is the
lesser of the estimate and of what fits, which is the arithmetic in the middle of the
module.
-/
namespace MpsShdict

open Words

/-- The parts of a pool of `poolSize` bytes lie one after another: the slots behind the
header, the statistics, the page descriptors and the pages, which end with the pool. -/
structure InitLayout (s base minShift poolSize : Nat) (pool : SlabPool) : Prop where
  slots : slotOff (s - minShift) = pool.stats
  stats : pool.stats + sizeofStat * (s - minShift) = pool.pages
  descriptors : pool.pages + sizeofPage * pool.pfree = pool.last
  last : pool.last ≤ pool.start
  start : 2 ^ s ∣ base + pool.start
  pages : pool.start + pool.pfree * 2 ^ s ≤ pool.poolEnd
  poolEnd : pool.poolEnd = poolSize

/-- Where the page descriptors begin. -/
def initPages (s minShift : Nat) : Nat := slotOff (s - minShift) + sizeofStat * (s - minShift)

section Layout
variable {s base minShift poolSize pages start : Nat} {desc : DescMem} {stat : Nat → SlabStat}
  {word : Nat → Nat} {mutexErr : Int} {pool : SlabPool}

theorem initPages_lt (hs : s < 64) : initPages s minShift < 2 ^ 12 := by
  simp only [initPages, slotOff, sizeofPool, sizeofPage, sizeofStat]
  omega

/-- The number of pages is corrected to what fits behind `start`. The difference is
computed as an unsigned word and read as a signed one. -/
def correctedPages (pages start poolSize s : Nat) : Nat :=
  let m := int64 (sub64 pages (sub64 poolSize start / 2 ^ s))
  if 0 < m then sub64 pages m.toNat else pages

/-- The fields that `mps_slab_init` computes. -/
theorem mpsSlabInit_fields (hs : s < 64) (hm : minShift < s)
    (h : mpsSlabInit (mpsSlabSizesInit (2 ^ s)) base desc stat word poolSize minShift mutexErr =
      .ok pool) :
    let pages := sub64 (sub64 poolSize sizeofPool) ((s - minShift) * (sizeofPage + sizeofStat)) /
      (2 ^ s + sizeofPage)
    let start := u64 (alignUp (base + initPages s minShift + pages * sizeofPage) (2 ^ s) - base)
    pool.stats = slotOff (s - minShift) ∧ pool.pages = initPages s minShift ∧ pool.start = start ∧
      pool.pfree = correctedPages pages start poolSize s ∧
      pool.last = pool.pages + sizeofPage * pool.pfree ∧ pool.poolEnd = poolSize := by
  have hps : (mpsSlabSizesInit (2 ^ s)).pagesizeShift = s := by simp [mpsSlabSizesInit, shiftRounds]
  have hpg : (mpsSlabSizesInit (2 ^ s)).pagesize = 2 ^ s := rfl
  have hlt : initPages s minShift < 2 ^ 12 := initPages_lt hs
  have hn : sub64 (mpsSlabSizesInit (2 ^ s)).pagesizeShift minShift = s - minShift := by
    rw [hps, sub64_of_le (by omega) hm.le]
  have hstats : u64 (sizeofPool + (s - minShift) * sizeofPage) = slotOff (s - minShift) := by
    rw [Nat.mul_comm]
    apply u64_of_lt
    simp only [initPages, slotOff] at hlt ⊢
    omega
  have hpages : u64 (slotOff (s - minShift) + (s - minShift) * sizeofStat) =
      initPages s minShift := by
    rw [Nat.mul_comm]
    exact u64_of_lt (hlt.trans (by decide))
  rw [mpsSlabInit] at h
  split at h
  · cases h
  · simp only [hn, hstats, hpages, hpg] at h
    obtain rfl := Except.ok.inj h
    exact ⟨rfl, rfl, rfl, rfl, rfl, rfl⟩

/-- The estimate is corrected to the lesser of the two counts. -/
theorem correctedPages_eq (hstart : start ≤ poolSize) (hlt : poolSize < 2 ^ 64) (hs : 0 < s)
    (hpages : pages < 2 ^ 63) :
    correctedPages pages start poolSize s = min pages ((poolSize - start) / 2 ^ s) := by
  have hq : (poolSize - start) / 2 ^ s < 2 ^ 63 := by
    apply Nat.div_lt_of_lt_mul
    have htwo : 2 ^ 1 * 2 ^ 63 ≤ 2 ^ s * 2 ^ 63 :=
      Nat.mul_le_mul_right _ (Nat.pow_le_pow_right (by decide) hs)
    omega
  rw [correctedPages, sub64_of_le hlt hstart]
  generalize (poolSize - start) / 2 ^ s = q at hq ⊢
  rw [int64_sub64 (by omega) (by omega)]
  split
  · rw [sub64_of_le (by omega) (by omega)]
    omega
  · omega

/-- **The parts of a fresh pool are laid out right** exactly where the pool reaches to the
first page boundary behind its header, slots and statistics. Nothing is assumed of the
memory, and the base is any multiple of the page size. -/
theorem mpsSlabInit_layout_iff (hs : s < 64) (hm : minShift < s) (hbase : 2 ^ s ∣ base)
    (hlt : poolSize < 2 ^ 64)
    (h : mpsSlabInit (mpsSlabSizesInit (2 ^ s)) base desc stat word poolSize minShift mutexErr =
      .ok pool) :
    InitLayout s base minShift poolSize pool ↔
    alignUp (initPages s minShift) (2 ^ s) ≤ poolSize := by
  obtain ⟨hstats, hpages, hstart, hpfree, hlast, hend⟩ := mpsSlabInit_fields hs hm h
  constructor
  · intro hl
    have hdvd : 2 ^ s ∣ pool.start := (Nat.dvd_add_right hbase).mp hl.start
    have hle : initPages s minShift ≤ pool.start := by
      have h1 := hl.descriptors
      have h2 := hl.last
      omega
    have hup : alignUp (initPages s minShift) (2 ^ s) ≤ pool.start := alignUp_le hle hdvd
    have h1 := hl.pages
    have h2 := hl.poolEnd
    omega
  · intro hroom
    have hpage := le_alignUp (initPages s minShift) s
    have hsize : sub64 (sub64 poolSize sizeofPool) ((s - minShift) * (sizeofPage + sizeofStat)) =
        poolSize - initPages s minShift := by
      have hin : initPages s minShift ≤ poolSize := hpage.trans hroom
      simp only [initPages, slotOff, sizeofPool, sizeofPage, sizeofStat] at hin ⊢
      rw [sub64_of_le hlt (by omega), sub64_of_le (by omega) (by omega)]
      omega
    rw [hsize] at hstart hpfree
    set pages := (poolSize - initPages s minShift) / (2 ^ s + sizeofPage) with hest
    have hfit : pages * (2 ^ s + sizeofPage) ≤ poolSize - initPages s minShift :=
      Nat.div_mul_le_self _ _
    rw [Nat.mul_add] at hfit
    have hal : alignUp (base + initPages s minShift + pages * sizeofPage) (2 ^ s) - base =
        alignUp (initPages s minShift + pages * sizeofPage) (2 ^ s) := by
      rw [Nat.add_assoc, alignUp_add hbase, Nat.add_sub_cancel_left]
    -- the pages begin in the pool: a page or more is left to round up, or the estimate is zero
    have hbegin : alignUp (initPages s minShift + pages * sizeofPage) (2 ^ s) ≤ poolSize := by
      rcases Nat.eq_zero_or_pos pages with hzero | hpos
      · rw [hzero, Nat.zero_mul, Nat.add_zero]
        exact hroom
      · have h1 := alignUp_lt (initPages s minShift + pages * sizeofPage) s
        have h2 : 1 * 2 ^ s ≤ pages * 2 ^ s := Nat.mul_le_mul_right _ hpos
        omega
    rw [hal, u64_of_lt (by omega)] at hstart
    have hcount : pool.pfree = min pages ((poolSize - pool.start) / 2 ^ s) := by
      rw [hpfree, hal, u64_of_lt (by omega), ← hstart]
      apply correctedPages_eq (hstart ▸ hbegin) hlt (by omega)
      have h1 : pages * 2 ^ 1 ≤ pages * 2 ^ s :=
        Nat.mul_le_mul_left _ (Nat.pow_le_pow_right (by decide) (by omega))
      omega
    have htable : initPages s minShift + pages * sizeofPage ≤ pool.start := hstart ▸ le_alignUp _ s
    have hpages' : pool.pfree * 2 ^ s ≤ poolSize - pool.start := by
      refine (Nat.mul_le_mul_right _ (hcount ▸ Nat.min_le_right _ _)).trans
        (Nat.div_mul_le_self _ _)
    refine ⟨hstats.symm, ?_, hlast.symm, ?_, ?_, ?_, hend⟩
    · rw [hstats, hpages]
      rfl
    · have h1 : sizeofPage * pool.pfree ≤ sizeofPage * pages :=
        Nat.mul_le_mul_left _ (hcount ▸ Nat.min_le_left _ _)
      rw [hlast, hpages]
      rw [Nat.mul_comm] at htable
      omega
    · rw [hstart]
      exact Nat.dvd_add hbase (dvd_alignUp _ _)
    · rw [hend]
      rw [← hstart] at hbegin
      omega

end Layout

/-- A pool on memory of zeros, or none where `mps_slab_init` fails. -/
def initPool (s poolSize minShift : Nat) : Except Int SlabPool :=
  mpsSlabInit (mpsSlabSizesInit (2 ^ s)) 0 (fun _ => ⟨0, 0, 0⟩) (fun _ => ⟨0, 0, 0, 0⟩) (fun _ => 0)
    poolSize minShift 0

/-- **A pool of 1000 bytes has its pages behind its end.** The start is rounded up to the
next page boundary, and the end of the pool lies before it. -/
theorem not_initLayout : ¬ ∀ (s base minShift poolSize : Nat) desc stat word mutexErr pool, s < 64 →
    minShift < s → 2 ^ s ∣ base → poolSize < 2 ^ 64 →
    mpsSlabInit (mpsSlabSizesInit (2 ^ s)) base desc stat word poolSize minShift mutexErr =
      .ok pool →
    InitLayout s base minShift poolSize pool := by
  intro h
  obtain ⟨pool, hpool⟩ : ∃ pool, initPool 12 1000 3 = .ok pool := ⟨_, rfl⟩
  have hlayout := h 12 0 3 1000 _ _ _ 0 pool (by decide) (by decide) (by decide) (by decide) hpool
  have hstart : (initPool 12 1000 3).map SlabPool.start = .ok 4096 := rfl
  have hend : (initPool 12 1000 3).map SlabPool.poolEnd = .ok 1000 := rfl
  rw [hpool] at hstart hend
  have h1 := hlayout.pages
  rw [Except.ok.inj hstart, Except.ok.inj hend] at h1
  omega

/-- A pool of five times the page size. The header takes the first page, and the layout is
as it should be. -/
theorem mpsSlabInit_layout_iff_four : ∃ pool, initPool 12 20480 3 = .ok pool ∧
    (InitLayout 12 0 3 20480 pool ↔ alignUp (initPages 12 3) (2 ^ 12) ≤ 20480) := by
  obtain ⟨pool, hpool⟩ : ∃ pool, initPool 12 20480 3 = .ok pool := ⟨_, rfl⟩
  exact ⟨pool, hpool, mpsSlabInit_layout_iff (by decide) (by decide) (by decide) (by decide) hpool⟩

end MpsShdict
