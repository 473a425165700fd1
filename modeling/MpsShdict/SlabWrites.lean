import MpsShdict.SlabSafety

/-! # What a free writes

A free writes to the header of the pool, to list heads and page descriptors, to the
statistics and to the bitmap of a page of small chunks. None of it is in a chunk that
somebody holds, nor in the one that is given back.

The last point is one that the dictionary relies on: it walks a list of elements and frees
each one before it reads the link in it to the next. Since a free does not write to the
chunk, the link is still there (`OnlyBooks.clear`), as long as nobody else allocates in
between.
-/
namespace MpsShdict

open Words Links

/-- A call has written the byte at `x`. Any byte of the header may have been, and of the
other memory a word that differs afterwards. -/
def SlabWritten (pool r : SlabPool) (x : Nat) : Prop :=
  x < sizeofPool ∨
    (∃ z, r.desc z ≠ pool.desc z ∧ z ≤ x ∧ x < z + sizeofPage) ∨
    (∃ q, r.stat q ≠ pool.stat q ∧ pool.stats + sizeofStat * q ≤ x ∧
      x < pool.stats + sizeofStat * (q + 1)) ∨
    ∃ o, r.word o ≠ pool.word o ∧ o ≤ x ∧ x < o + 8

/-- Nothing is written but the books of the allocator: what differs afterwards is the
header, a list head, a descriptor, a record of the statistics, or a word of the bitmap of
a page of small chunks. -/
structure OnlyBooks (s : Nat) (sz : Sizes) (pool r : SlabPool) : Prop where
  /-- Of the header no more than the count of the free pages changes. -/
  header : SameHeader pool r
  /-- List heads and page descriptors. -/
  descs : ∀ z, r.desc z ≠ pool.desc z → IsDesc s pool.pageTotal pool z
  /-- The statistics of the slots. -/
  stats : ∀ q, r.stat q ≠ pool.stat q → q < s - pool.minShift
  /-- The chunks that hold the bitmap of a page of small chunks. -/
  bitmaps : ∀ o, r.word o ≠ pool.word o → ∃ i < pool.pageTotal,
    mpsSlabPageType pool.desc (pool.pageDesc i) = mpsSlabSmall ∧
      let shift := (pool.desc (pool.pageDesc i)).slab &&& mpsSlabShiftMask
      pool.pageAddr sz (pool.pageDesc i) ≤ o ∧
        o + 8 ≤ pool.pageAddr sz (pool.pageDesc i) + bitmapChunks sz shift <<< shift

section Writes
variable {sz : Sizes} {s P i j k base x : Nat} {pool r : SlabPool} {pre post cells : List Cell}
  {used : List Nat} {lists : Option Nat → List Nat} {live : List Block} {b b' : Block}

/-- The bitmap fits the chunks that are reserved for it. -/
theorem bitmapWords_fit (g : Geometry sz s P pool) (hk : k < sz.exactShift) :
    8 * bitmapWords sz k ≤ bitmapChunks sz k <<< k := by
  have hks : k ≤ s := by
    have := g.exactShift
    omega
  have hcount : 64 * bitmapWords sz k = 2 ^ (s - k) :=
    (bitmapWords_mul g hk).trans (chunkCount_eq g hks)
  have hall : sz.pagesize >>> k = 2 ^ (s - k) := chunkCount_eq g hks
  have hpow : 2 ^ k * 8 = 2 ^ (k + 3) := (Nat.pow_add 2 k 3).symm
  simp only [bitmapChunks, Nat.shiftLeft_eq, Nat.one_mul]
  rw [hall, hpow]
  split
  · next hzero =>
    have hlt : 2 ^ (s - k) < 2 ^ (k + 3) := (Nat.div_eq_zero_iff.mp hzero).resolve_left
      (Nat.ne_of_gt (Nat.two_pow_pos _))
    omega
  · next hne =>
    have hle : k + 3 ≤ s - k := by
      by_contra hlt
      exact hne (Nat.div_eq_of_lt (Nat.pow_lt_pow_right (by decide) (by omega)))
    have hdiv : 2 ^ (s - k) / 2 ^ (k + 3) * 2 ^ (k + 3) = 2 ^ (s - k) :=
      Nat.div_mul_cancel (Nat.pow_dvd_pow 2 hle)
    rw [← hpow, ← Nat.mul_assoc, hpow] at hdiv
    omega

/-- The list heads end before the descriptors. -/
theorem header_end {a : Option Nat} (g : Geometry sz s P pool) (ha : IsList (s - pool.minShift) a) :
    header a + sizeofPage ≤ pool.pages := by
  have hpages := g.pages
  cases a with
  | none =>
    simp only [header, freeOff, slotOff, sizeofPool, sizeofPage, sizeofStat] at *
    omega
  | some q =>
    replace ha : q < s - pool.minShift := ha
    simp only [header, slotOff, sizeofPool, sizeofPage, sizeofStat] at *
    omega

/-- A chunk goes back. -/
theorem freeChunk_books
    (h : Holds sz s pool.pageTotal pool (pre ++ ⟨i, .chunks k used, 1⟩ :: post) lists live)
    (hr : GivesChunk sz s pool.pageTotal pool pre post i k used j r) : OnlyBooks s sz pool r := by
  obtain ⟨hs, -, -, hw, -⟩ := hr
  have hc : (⟨i, .chunks k used, 1⟩ : Cell) ∈ pre ++ ⟨i, .chunks k used, 1⟩ :: post :=
    Shelf.mem_middle.mpr (.inl rfl)
  have hg := h.inv.shelf.geo
  have hb := h.inv.shelf.bound _ hc
  obtain ⟨-, hshift, htype, -, hbits, -⟩ := h.inv.shelf.ok _ hc
  refine ⟨hs, ?_, ?_, ?_⟩
  · intro z hz
    by_contra hn
    exact hz (hw.desc z hn)
  · intro q hq
    have hslot : q = k - pool.minShift := by
      by_contra hn
      exact hq (hw.stat q hn)
    rw [hslot]
    exact hg.slot_lt hshift
  · intro o ho
    have hword : ¬ (k < sz.exactShift → ∀ n < bitmapWords sz k,
        o ≠ pool.pageAddr sz (pool.pageDesc i) + 8 * n) := fun hn => ho (hw.word o hn)
    push Not at hword
    obtain ⟨hk, n, hn, rfl⟩ := hword
    have ht : mpsSlabPageType pool.desc (pool.pageDesc i) = mpsSlabSmall := by
      rw [mpsSlabPageType, and_three]
      exact htype.trans (if_pos hk)
    have hmask : (pool.desc (pool.pageDesc i)).slab &&& mpsSlabShiftMask = k :=
      hbits.shiftMask hg (hg.pagesizeShift ▸ hshift.2) hk.ne
    have hfit := bitmapWords_fit hg hk
    refine ⟨i, Nat.lt_of_succ_le hb.2, ht, ?_⟩
    simp only [hmask]
    omega

/-- A block of pages goes back. -/
theorem freePages_books {n : Nat}
    (h : Holds sz s pool.pageTotal pool (pre ++ ⟨i, .block, n⟩ :: post) lists live) :
    OnlyBooks s sz pool (mpsSlabFreePages pool (pool.pageDesc i) n) := by
  have hdescs := mpsSlabFreePages_descsOnly h.inv (by simp)
  refine ⟨⟨rfl, rfl, rfl, rfl, rfl, rfl, rfl, rfl, rfl⟩, ?_, fun q hq => absurd rfl hq,
    fun o ho => absurd rfl ho⟩
  intro z hz
  by_contra hn
  exact hz (hdescs z hn)

/-- **A free keeps to the books of the allocator**, for every live block and wherever the
pool is mapped. -/
theorem SlabInv.free_books (h : SlabInv sz s pool.pageTotal pool live) (hbase : 2 ^ s ∣ base)
    (hb : b ∈ live) : OnlyBooks s sz pool (mpsSlabFreeLocked sz base pool b.off) := by
  obtain ⟨cells, lists, h⟩ := h
  obtain ⟨pre, ⟨i, kind, len⟩, post, rfl, hm⟩ := h.cell hb
  have hok := h.inv.shelf.ok _ (Shelf.mem_middle.mpr (.inl rfl))
  cases kind with
  | free => simp [Cell.extents] at hm
  | block =>
    simp only [Cell.extents, List.mem_singleton, Prod.mk.injEq] at hm
    rw [h.givesPages hbase (hm.1.trans Geometry.pageAddr_eq.symm)]
    exact freePages_books h
  | chunks k used =>
    obtain ⟨rfl, -⟩ := hok
    simp only [Cell.extents, List.mem_map, Prod.mk.injEq] at hm
    obtain ⟨j, hj, hoff, -⟩ := hm
    exact freeChunk_books h (h.givesChunk hbase hj (hoff.symm.trans (by rw [Geometry.pageAddr_eq])))

/-- **The books are in no chunk that is live.** The block that is given back counts as
live here: its bytes are the same before and after. -/
theorem OnlyBooks.clear (hr : OnlyBooks s sz pool r) (h : SlabInv sz s pool.pageTotal pool live)
    (hb : b ∈ live) (h1 : b.off ≤ x) (h2 : x < b.off + capacity sz pool b.size) :
    ¬ SlabWritten pool r x := by
  obtain ⟨cells, lists, h⟩ := h
  have hg := h.inv.shelf.geo
  have hstart := (h.bounds hb).1
  have hlast := hg.last
  have hle := hg.last_le
  have hpages := hg.pages
  have hstats := hg.stats
  rintro (hx | ⟨z, hz, hz1, hz2⟩ | ⟨q, hq, hq1, hq2⟩ | ⟨o, ho, ho1, ho2⟩)
  · simp only [SlabPool.pageDesc, slotOff, sizeofPool] at *
    omega
  · rcases hr.descs z hz with ⟨a, ha, rfl⟩ | ⟨i, hi, rfl⟩
    · have hhead := header_end hg ha
      simp only [SlabPool.pageDesc] at hlast
      omega
    · simp only [SlabPool.pageDesc, sizeofPage] at *
      omega
  · have hslot := hr.stats q hq
    simp only [SlabPool.pageDesc, slotOff, sizeofPool, sizeofPage, sizeofStat] at *
    omega
  · obtain ⟨i, hi, ht, hin⟩ := hr.bitmaps o ho
    obtain ⟨k, used, hc, hk, hslab⟩ := small_page h.inv hi ht
    rw [hslab] at hin
    have hclear := bitmap_clear h.inv.shelf hc hk
      (h.exact.mem_iff.mpr (List.mem_map.mpr ⟨b, hb, rfl⟩))
    simp only [Clear] at hclear
    omega

end Writes

end MpsShdict
