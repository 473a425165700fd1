import MpsShdict.SlabBlocks

/-! # How long a block is

The descriptor of a page tells how long the chunks are that it is cut into, or how many
pages a block has. What is given out is never shorter than what was asked for, and not
much longer.

The reader of `SlabPool.usable` is the code that gives a block back, which knows nothing
of the request. It finds the length that the request was rounded up to, so that a block
which is too short for its owner's data shows in the descriptor. Results about sizes that
overflow use this.
-/
namespace MpsShdict

open Words Links

/-- The bytes of the block at offset `p`, as `mps_slab_free_locked` reads them from the
descriptor of its page. -/
def SlabPool.usable (sz : Sizes) (pool : SlabPool) (p : Nat) : Nat :=
  let page := pool.pageDesc ((p - pool.start) >>> sz.pagesizeShift)
  let type := mpsSlabPageType pool.desc page
  let slab := (pool.desc page).slab
  if type = mpsSlabExact then sz.exactSize
  else if type = mpsSlabPage then andNot slab mpsSlabPageStart * sz.pagesize
  else 1 <<< (slab &&& mpsSlabShiftMask)

section Capacity
variable {sz : Sizes} {s P i k n size : Nat} {pool : SlabPool} {pre post : List Cell}
  {used : List Nat} {lists : Option Nat → List Nat} {live : List Block} {b : Block}

/-- The page of a chunk tells how long it is. -/
theorem usable_chunk (h : Holds sz s P pool (pre ++ ⟨i, .chunks k used, 1⟩ :: post) lists live)
    {j : Nat} (hj : j ∈ used) (hp : b.off = pool.pageAddr sz (pool.pageDesc i) + (j <<< k)) :
    pool.usable sz b.off = 1 <<< k := by
  have hg := h.inv.shelf.geo
  obtain ⟨-, hshift, htype, hused, hbits, -⟩ :=
    h.inv.shelf.ok (⟨i, .chunks k used, 1⟩ : Cell) (Shelf.mem_middle.mpr (.inl rfl))
  replace htype : (pool.desc (pool.pageDesc i)).prev % 4 = chunkType sz k := htype
  have hks : k < s := hg.pagesizeShift ▸ hshift.2
  have hr : j <<< k < 2 ^ s := by
    rw [Nat.shiftLeft_eq, ← chunkCount_mul hg hks.le]
    exact Nat.mul_lt_mul_of_pos_right (hused.2 j hj).2 (Nat.two_pow_pos k)
  obtain ⟨-, hpage⟩ := free_page h hr hp
  replace hpage : (b.off - pool.start) >>> sz.pagesizeShift = i := hpage
  simp only [SlabPool.usable, hpage, mpsSlabPageType, and_three, htype]
  by_cases heq : k = sz.exactShift
  · rw [if_pos (chunkType_eq_exact.mpr heq), hg.exactSize, Nat.one_shiftLeft, heq, hg.exactShift]
  · rw [if_neg (mt chunkType_eq_exact.mp heq), if_neg chunkType_ne_page, hbits.shiftMask hg hks heq]

/-- The first page of a block tells how many it has. -/
theorem usable_block (h : Holds sz s P pool (pre ++ ⟨i, .block, n⟩ :: post) lists live)
    (hp : b.off = pool.pageAddr sz (pool.pageDesc i)) : pool.usable sz b.off = n * sz.pagesize := by
  have hcm : (⟨i, .block, n⟩ : Cell) ∈ pre ++ ⟨i, .block, n⟩ :: post :=
    Shelf.mem_middle.mpr (.inl rfl)
  have hd : pool.desc (pool.pageDesc i) = ⟨n ||| mpsSlabPageStart, 0, mpsSlabPage⟩ :=
    (h.inv.shelf.ok _ hcm).1
  have hbnd : 0 < n ∧ i + n ≤ P := h.inv.shelf.bound _ hcm
  have hn := h.inv.shelf.geo.pages_lt hbnd.2
  obtain ⟨-, hpage⟩ := free_page h (r := 0) (Nat.two_pow_pos s) hp
  replace hpage : (b.off - pool.start) >>> sz.pagesizeShift = i := hpage
  simp only [SlabPool.usable, hpage, mpsSlabPageType, hd]
  rw [if_neg (by decide), if_pos (by decide), andNot_pageStart (by omega)]

/-- What is given out is longer by less than a page. -/
theorem capacity_lt (g : Sizing sz s pool) (size : Nat) : capacity sz pool size < size + 2 ^ s := by
  rw [capacity]
  split
  · have hdm := Nat.div_add_mod' size (2 ^ s)
    have hmod := Nat.mod_lt size (Nat.two_pow_pos s)
    rw [pageCount, g.pagesize, g.pagesizeShift, Nat.shiftRight_eq_div_pow]
    generalize size / 2 ^ s = q at hdm ⊢
    split
    · rw [Nat.add_mul]
      omega
    · rw [Nat.add_zero]
      omega
  · next h =>
    obtain ⟨k, he, -, hk, -⟩ := sizeClass_spec g (Nat.not_lt.mp h)
    rw [he, Nat.one_shiftLeft]
    have hpow : 2 ^ k < 2 ^ s := Nat.pow_lt_pow_right (by decide) hk
    exact Nat.lt_of_lt_of_le hpow (Nat.le_add_left _ _)

/-- **A live block is as long as its request was rounded up to**, by its page's
descriptor. -/
theorem SlabInv.usable (h : SlabInv sz s P pool live) (hb : b ∈ live) :
    pool.usable sz b.off = capacity sz pool b.size := by
  obtain ⟨cells, lists, h⟩ := h
  obtain ⟨pre, ⟨i, kind, len⟩, post, rfl, hm⟩ := h.cell hb
  have hok := h.inv.shelf.ok _ (Shelf.mem_middle.mpr (.inl rfl))
  cases kind with
  | free => simp [Cell.extents] at hm
  | block =>
    simp only [Cell.extents, List.mem_singleton, Prod.mk.injEq] at hm
    exact (usable_block h (hm.1.trans Geometry.pageAddr_eq.symm)).trans hm.2.symm
  | chunks k used =>
    obtain ⟨rfl, -⟩ := hok
    simp only [Cell.extents, List.mem_map, Prod.mk.injEq] at hm
    obtain ⟨j, hj, hoff, hcap⟩ := hm
    exact (usable_chunk h hj (hoff.symm.trans (by rw [Geometry.pageAddr_eq]))).trans hcap

end Capacity

end MpsShdict
