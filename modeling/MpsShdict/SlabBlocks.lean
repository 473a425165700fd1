import MpsShdict.SlabSafety

/-! # Blocks for a client

What a client of the allocator needs: the order of the live blocks does not matter, the
blocks are apart, and giving one back does not depend on where the pool is mapped.

These are the facts through which the dictionary uses the allocator. It never looks at
cells, lists or bitmaps; it knows a list of live blocks, and that each of its nodes and
list elements is one of them. The last part is why processes with different mappings can
share one pool: `mps_slab_free_locked` computes with addresses, and for a live block the
base drops out of all of them (`SlabInv.free_base`).
-/
namespace MpsShdict

open Words Links

section Blocks
variable {sz : Sizes} {s P i j k n base : Nat} {pool : SlabPool} {live live' : List Block}
  {b : Block} {pre post cells : List Cell} {lists : Option Nat → List Nat} {used : List Nat}

theorem SlabInv.perm (h : SlabInv sz s P pool live) (hp : live.Perm live') :
    SlabInv sz s P pool live' := by
  obtain ⟨cells, lists, h⟩ := h
  exact ⟨cells, lists, h.inv, h.inUse, h.exact.trans (hp.map _), h.stats⟩

/-- A request for nothing is one for a byte. -/
theorem capacity_max (g : Sizing sz s pool) (size : Nat) :
    capacity sz pool (max 1 size) = capacity sz pool size := by
  have hmin : 0 < pool.minSize := g.minSize ▸ Nat.two_pow_pos _
  rcases Nat.eq_zero_or_pos size with rfl | hpos
  · rw [Nat.max_eq_left (Nat.zero_le 1), capacity, capacity, sizeClass, sizeClass, g.maxSize]
    have hmax := Nat.one_le_two_pow (n := s - 1)
    rw [if_neg (by omega), if_neg (by omega), if_neg (by omega), if_neg (by omega)]
  · rw [Nat.max_eq_right hpos]

theorem SlabInv.atLeastOne {p size : Nat} (h : SlabInv sz s P pool (⟨p, size⟩ :: live)) :
    SlabInv sz s P pool (⟨p, max 1 size⟩ :: live) := by
  obtain ⟨cells, lists, h⟩ := h
  refine ⟨cells, lists, h.inv, h.inUse, ?_, h.stats⟩
  have hexact := h.exact
  simp only [List.map_cons] at hexact ⊢
  rwa [capacity_max h.inv.shelf.geo.toSizing]

/-- A change of the header that the allocator does not look at. -/
theorem SlabInv.setData (h : SlabInv sz s P pool live) (data : Nat) (logNomem : Bool) :
    SlabInv sz s P { pool with data := data, logNomem := logNomem } live := by
  obtain ⟨cells, lists, h⟩ := h
  obtain ⟨⟨⟨hg, h1, h2, h3, h4, h5⟩, h6, h7, h8⟩, h9, h10, h11⟩ := h
  obtain ⟨⟨g1, g2, g3, g4, g5⟩, g6, g7, g8, g9, g10, g11, g12⟩ := hg
  exact ⟨cells, lists, ⟨⟨⟨⟨g1, g2, g3, g4, g5⟩, g6, g7, g8, g9, g10, g11, g12⟩, h1, h2, h3, h4, h5⟩,
    h6, h7, h8⟩, h9, h10, h11⟩

/-- The byte at `x` is in the block. -/
def Block.Has (b : Block) (x : Nat) : Prop := b.off ≤ x ∧ x < b.off + b.size

/-- What the live blocks are to their owner: they lie between the start of the page area
and the end of the pool, and no two of them share a byte. -/
structure BlocksApart (poolEnd start : Nat) (live : List Block) : Prop where
  inside : ∀ b ∈ live, start ≤ b.off ∧ b.off + b.size ≤ poolEnd
  apart : live.Pairwise fun a b => Clear a.off a.size b.off b.size

theorem SlabInv.apart (h : SlabInv sz s P pool live) :
    BlocksApart pool.poolEnd pool.start live := by
  obtain ⟨cells, lists, h⟩ := h
  have hend := h.inv.shelf.geo.end_le
  constructor
  · intro b hb
    obtain ⟨h1, h2, h3⟩ := h.bounds hb
    exact ⟨h1, by omega⟩
  · refine h.pairwise_clear.imp_of_mem fun {a b} ha hb hab => ?_
    obtain ⟨-, -, h1⟩ := h.bounds ha
    obtain ⟨-, -, h2⟩ := h.bounds hb
    unfold Clear at hab ⊢
    omega

/-- A block of `2 ^ j` bytes or more lies at a multiple of that. -/
theorem SlabInv.aligned (h : SlabInv sz s P pool live) (hb : b ∈ live) (hj : j ≤ s)
    (hsize : 2 ^ j ≤ b.size) : 2 ^ j ∣ b.off := by
  obtain ⟨cells, lists, h⟩ := h
  have hg := h.inv.shelf.geo
  refine Nat.dvd_trans ?_ (alignment_dvd h hb)
  rw [alignment]
  split
  · rw [hg.pagesize]
    exact Nat.pow_dvd_pow 2 hj
  · next hle =>
    obtain ⟨k, hclass, -, -, hk⟩ := sizeClass_spec hg.toSizing (Nat.not_lt.mp hle)
    rw [capacity, if_neg hle, hclass, Nat.one_shiftLeft]
    exact Nat.pow_dvd_pow 2 ((Nat.pow_le_pow_iff_right (by decide)).mp (hsize.trans hk))

theorem SlabInv.pages_pos (h : SlabInv sz s P pool live) (hb : b ∈ live) : 0 < P := by
  obtain ⟨cells, lists, h⟩ := h
  obtain ⟨pre, c, post, rfl, -⟩ := h.cell hb
  have := h.inv.shelf.bound c (Shelf.mem_middle.mpr (.inl rfl))
  omega

/-! ### Position -/

/-- A chunk goes back the same way wherever the pool is mapped. -/
theorem freeChunk_base (h : Holds sz s P pool (pre ++ ⟨i, .chunks k used, 1⟩ :: post) lists live)
    (hbase : 2 ^ s ∣ base) (hj : j ∈ used)
    (hp : b.off = pool.pageAddr sz (pool.pageDesc i) + (j <<< k)) :
    mpsSlabFreeLocked sz base pool b.off = mpsSlabFreeLocked sz 0 pool b.off := by
  have hg := h.inv.shelf.geo
  obtain ⟨-, hshift, htype, hused, hbits, -⟩ :=
    h.inv.shelf.ok (⟨i, .chunks k used, 1⟩ : Cell) (Shelf.mem_middle.mpr (.inl rfl))
  replace htype : (pool.desc (pool.pageDesc i)).prev % 4 = chunkType sz k := htype
  have hks : k < s := hg.pagesizeShift ▸ hshift.2
  have hr : j <<< k < 2 ^ s := by
    rw [Nat.shiftLeft_eq, ← chunkCount_mul hg hks.le]
    exact Nat.mul_lt_mul_of_pos_right (hused.2 j hj).2 (Nat.two_pow_pos k)
  obtain ⟨hin, hpage⟩ := free_page h hr hp
  obtain ⟨a1, a2, a3⟩ := chunk_addr hg hbase hks.le (hused.2 j hj).2 hp
  obtain ⟨b1, b2, b3⟩ := chunk_addr hg (Nat.dvd_zero (2 ^ s)) hks.le (hused.2 j hj).2 hp
  have hmask := hbits.shiftMask hg hks
  simp only [ChunkBits] at hbits
  rw [mpsSlabFreeLocked, mpsSlabFreeLocked, if_neg hin, if_neg hin]
  simp only [hpage, mpsSlabPageType, and_three, htype]
  rcases Nat.lt_trichotomy k sz.exactShift with hlt | heq | hgt
  · rw [show chunkType sz k = mpsSlabSmall from if_pos hlt, if_pos rfl, if_pos rfl]
    simp only [freeSmall, hmask hlt.ne, a1, a2, a3, b1, b2, b3]
  · have hnlt : ¬ k < sz.exactShift := by omega
    rw [show chunkType sz k = mpsSlabExact from (if_neg hnlt).trans (if_pos heq),
      if_neg (by decide), if_pos rfl, if_neg (by decide), if_pos rfl]
    have hsize : sz.exactSize = 1 <<< k := by
      rw [hg.exactSize, Nat.one_shiftLeft, heq, hg.exactShift]
    simp only [freeExact, hsize, ← heq, a1, a2, b1, b2]
  · have hnlt : ¬ k < sz.exactShift := by omega
    have hne : k ≠ sz.exactShift := by omega
    rw [show chunkType sz k = mpsSlabBig from (if_neg hnlt).trans (if_neg hne), if_neg (by decide),
      if_neg (by decide), if_pos rfl, if_neg (by decide), if_neg (by decide), if_pos rfl]
    rw [if_neg hnlt, if_neg hne] at hbits
    simp only [freeBig, hmask hne, a1, a2, b1, b2]

/-- A block of pages goes back the same way wherever the pool is mapped. -/
theorem freeBlock_base (h : Holds sz s P pool (pre ++ ⟨i, .block, n⟩ :: post) lists live)
    (hbase : 2 ^ s ∣ base) (hp : b.off = pool.pageAddr sz (pool.pageDesc i)) :
    mpsSlabFreeLocked sz base pool b.off = mpsSlabFreeLocked sz 0 pool b.off := by
  have hg := h.inv.shelf.geo
  obtain ⟨hhead, -⟩ : CellOk sz P pool ⟨i, .block, n⟩ :=
    h.inv.shelf.ok _ (Shelf.mem_middle.mpr (.inl rfl))
  replace hhead : pool.desc (pool.pageDesc i) = ⟨n ||| mpsSlabPageStart, 0, mpsSlabPage⟩ := hhead
  obtain ⟨hin, hpage⟩ := free_page (r := 0) h (Nat.two_pow_pos s) hp
  have haddr : (base + b.off) &&& (sz.pagesize - 1) = b.off &&& (sz.pagesize - 1) := by
    obtain ⟨c, rfl⟩ := hbase
    rw [hg.pagesize, Nat.and_two_pow_sub_one_eq_mod, Nat.and_two_pow_sub_one_eq_mod,
      Nat.mul_add_mod]
  have htype : mpsSlabPageType pool.desc (pool.pageDesc i) = mpsSlabPage := by
    rw [mpsSlabPageType, and_three, hhead]
    rfl
  have hblock : freeBlock sz base pool b.off (pool.pageDesc i) =
      freeBlock sz 0 pool b.off (pool.pageDesc i) := by
    simp only [freeBlock, haddr, Nat.zero_add]
  rw [mpsSlabFreeLocked, mpsSlabFreeLocked, if_neg hin, if_neg hin]
  simp only [hpage, htype]
  rw [if_neg (by decide), if_neg (by decide), if_neg (by decide), if_neg (by decide),
    if_neg (by decide), if_neg (by decide), hblock]

/-- **A live block goes back the same way wherever the pool is mapped**, as long as it is
mapped at a page boundary. So a free by one process is a free by any other. -/
theorem SlabInv.free_base (h : SlabInv sz s P pool live) (hbase : 2 ^ s ∣ base) (hb : b ∈ live) :
    mpsSlabFreeLocked sz base pool b.off = mpsSlabFreeLocked sz 0 pool b.off := by
  obtain ⟨cells, lists, h⟩ := h
  obtain ⟨pre, ⟨i, kind, len⟩, post, rfl, hm⟩ := h.cell hb
  have hok := h.inv.shelf.ok _ (Shelf.mem_middle.mpr (.inl rfl))
  cases kind with
  | free => simp [Cell.extents] at hm
  | block =>
    simp only [Cell.extents, List.mem_singleton, Prod.mk.injEq] at hm
    exact freeBlock_base h hbase (hm.1.trans Geometry.pageAddr_eq.symm)
  | chunks k used =>
    obtain ⟨rfl, -⟩ := hok
    simp only [Cell.extents, List.mem_map, Prod.mk.injEq] at hm
    obtain ⟨j, hj, hoff, -⟩ := hm
    exact freeChunk_base h hbase hj (hoff.symm.trans (by rw [Geometry.pageAddr_eq]))

end Blocks

end MpsShdict
