import MpsShdict.SlabSafety

/-! # Giving back what is not a block

`mps_slab_free_locked` is given an address and finds out from the page descriptor and the
bits of the page whether a block begins there. Of the addresses where none does it rejects
all but two kinds: the chunks at the head of a page of small chunks that hold its bitmap,
whose bits are set like those of the chunks that are given out, and addresses behind the
last page, for which it reads a descriptor behind the last one.

So the claim that such a free is harmless holds with exactly these two exceptions, for
every address and every pool of a run (`bad_free_harmless_iff`). One direction is that
whatever the code does not find marked is rejected with a message and nothing else
happens; the other is that what it finds marked is taken back, which changes a counter at
least. That leaves the question of what is marked, which the invariant answers for the
pages of the pool.
-/
namespace MpsShdict

open Words Links

/-- `p` is an offset that is looked up. -/
def InPool (pool : SlabPool) (p : Nat) : Prop := pool.start ≤ p ∧ p ≤ pool.poolEnd

/-- The page that `p` is looked up in. -/
def SlabPool.pageOf (sz : Sizes) (pool : SlabPool) (p : Nat) : Nat :=
  (p - pool.start) >>> sz.pagesizeShift

/-- What is read for `p` says that a chunk or a block begins there that is given out. The
three ways to keep the bits of a page, and the flag of a block, are the cases. -/
def MarkedUsed (sz : Sizes) (base : Nat) (pool : SlabPool) (p : Nat) : Prop :=
  let addr := base + p
  let page := pool.pageDesc (pool.pageOf sz p)
  let type := mpsSlabPageType pool.desc page
  let slab := (pool.desc page).slab
  let shift := slab &&& mpsSlabShiftMask
  let rest := addr &&& (sz.pagesize - 1)
  if type = mpsSlabSmall then
    addr &&& (1 <<< shift - 1) = 0 ∧
      pool.bitmap (andNot addr (sz.pagesize - 1) - base) ((rest >>> shift) / 64) &&&
        1 <<< ((rest >>> shift) % 64) ≠ 0
  else if type = mpsSlabExact then
    addr &&& (sz.exactSize - 1) = 0 ∧ slab &&& 1 <<< (rest >>> sz.exactShift) ≠ 0
  else if type = mpsSlabBig then
    addr &&& (1 <<< shift - 1) = 0 ∧ slab &&& 1 <<< ((rest >>> shift) + mpsSlabMapShift) ≠ 0
  else
    rest = 0 ∧ slab &&& mpsSlabPageStart ≠ 0 ∧ slab ≠ mpsSlabPageBusy

/-- `p` is the start of a chunk that holds the bitmap of its page. The bits of these
chunks are set for good, which is how the code keeps from giving them out. -/
def BitmapChunk (sz : Sizes) (pool : SlabPool) (p : Nat) : Prop :=
  ∃ i < pool.pageTotal, mpsSlabPageType pool.desc (pool.pageDesc i) = mpsSlabSmall ∧
    let shift := (pool.desc (pool.pageDesc i)).slab &&& mpsSlabShiftMask
    ∃ j < bitmapChunks sz shift, p = pool.pageAddr sz (pool.pageDesc i) + (j <<< shift)

section Reject
variable {sz : Sizes} {base p page slot n : Nat} {pool : SlabPool}

theorem free_outside (h : ¬ InPool pool p) :
    mpsSlabFreeLocked sz base pool p = pool.logError .outsideOfPool := by
  apply if_pos
  rw [InPool, not_and_or, Nat.not_le, Nat.not_le] at h
  exact h

theorem free_inPool (h : InPool pool p) :
    mpsSlabFreeLocked sz base pool p =
      let page := pool.pageDesc (pool.pageOf sz p)
      let type := mpsSlabPageType pool.desc page
      if type = mpsSlabSmall then freeSmall sz base pool p page
      else if type = mpsSlabExact then freeExact sz base pool p page
      else if type = mpsSlabBig then freeBig sz base pool p page
      else freeBlock sz base pool p page := by
  apply if_neg
  rw [not_or, Nat.not_lt, Nat.not_lt]
  exact h

/-- **What is not marked is rejected** with a message. The three checks of the code are
the address's alignment, the bit, and for a block the flag of its first page. -/
theorem free_unmarked (h : InPool pool p → ¬ MarkedUsed sz base pool p) :
    ∃ e, mpsSlabFreeLocked sz base pool p = pool.logError e := by
  by_cases hin : InPool pool p
  · have hm := h hin
    simp only [MarkedUsed] at hm
    rw [free_inPool hin]
    simp only
    -- one case for each kind of page, and in each the checks in the order of the source
    split
    · next ht =>
      rw [if_pos ht] at hm
      simp only [freeSmall]
      split
      · exact ⟨_, rfl⟩
      · next ha =>
        rw [if_neg fun hb => hm ⟨not_not.mp ha, hb⟩]
        exact ⟨_, rfl⟩
    · next hs =>
      rw [if_neg hs] at hm
      split
      · next ht =>
        rw [if_pos ht] at hm
        simp only [freeExact]
        split
        · exact ⟨_, rfl⟩
        · next ha =>
          rw [if_neg fun hb => hm ⟨not_not.mp ha, hb⟩]
          exact ⟨_, rfl⟩
      · next he =>
        rw [if_neg he] at hm
        split
        · next ht =>
          rw [if_pos ht] at hm
          simp only [freeBig]
          split
          · exact ⟨_, rfl⟩
          · next ha =>
            rw [if_neg fun hb => hm ⟨not_not.mp ha, hb⟩]
            exact ⟨_, rfl⟩
        · next hb =>
          rw [if_neg hb] at hm
          simp only [freeBlock]
          split
          · exact ⟨_, rfl⟩
          · next ha =>
            split
            · exact ⟨_, rfl⟩
            · next hstart =>
              rw [if_pos (not_not.mp fun hbusy => hm ⟨not_not.mp ha, hstart, hbusy⟩)]
              exact ⟨_, rfl⟩
  · rw [free_outside hin]
    exact ⟨_, rfl⟩

/-! ### What is not -/

end Reject

/-! ### What is marked -/

section Marked
variable {sz : Sizes} {s P i j k base p : Nat} {pool : SlabPool} {cells : List Cell}
  {lists : Option Nat → List Nat} {live : List Block}

/-- An offset in the page that it is looked up in. -/
theorem InPool.offset (hin : InPool pool p) (g : Geometry sz s P pool) :
    ∃ r < 2 ^ s, p = pool.pageAddr sz (pool.pageDesc (pool.pageOf sz p)) + r := by
  refine ⟨(p - pool.start) % 2 ^ s, Nat.mod_lt _ (Nat.two_pow_pos s), ?_⟩
  have h1 := Nat.div_add_mod' (p - pool.start) (2 ^ s)
  have h2 := hin.1
  rw [Geometry.pageAddr_eq, SlabPool.pageOf, g.pagesizeShift, Nat.shiftRight_eq_div_pow]
  omega

/-- An address that is a multiple of the size of the chunks of its page is that of a
chunk. -/
theorem InPool.chunk (hin : InPool pool p) (g : Geometry sz s P pool) (hbase : 2 ^ s ∣ base)
    (hk : k ≤ s) (ha : (base + p) &&& (1 <<< k - 1) = 0) :
    ∃ j < chunkCount sz k, p = pool.pageAddr sz (pool.pageDesc (pool.pageOf sz p)) + (j <<< k) := by
  obtain ⟨r, hr, hp⟩ := hin.offset g
  generalize pool.pageOf sz p = i at hp ⊢
  have hkr : 2 ^ k ∣ r := by
    obtain ⟨b, rfl⟩ := hbase
    obtain ⟨t, ht⟩ := g.start_dvd
    rw [Nat.one_shiftLeft, Nat.and_two_pow_sub_one_eq_mod] at ha
    rw [hp, Geometry.pageAddr_eq, g.pagesizeShift, ht, Nat.mul_comm i, ← Nat.add_assoc,
      ← Nat.mul_add, ← Nat.mul_add] at ha
    have hd : 2 ^ k ∣ 2 ^ s * (b + (i + t)) := (Nat.pow_dvd_pow 2 hk).mul_right _
    exact (Nat.dvd_add_right hd).mp (Nat.dvd_of_mod_eq_zero ha)
  obtain ⟨j, rfl⟩ := hkr
  refine ⟨j, ?_, by rw [hp, Nat.shiftLeft_eq, Nat.mul_comm]⟩
  rw [← chunkCount_mul g hk, Nat.mul_comm] at hr
  exact Nat.lt_of_mul_lt_mul_right hr

/-- **What is marked in a page of the pool** is a live block or a chunk that holds the
bitmap. There is no third kind of address whose bit is set. -/
theorem Holds.bitmapChunk_of_marked (h : Holds sz s P pool cells lists live)
    (hP : pool.pageTotal = P) (hbase : 2 ^ s ∣ base) (hin : InPool pool p)
    (hpage : pool.pageOf sz p < P) (hp : ∀ b ∈ live, b.off ≠ p)
    (hm : MarkedUsed sz base pool p) : BitmapChunk sz pool p := by
  have hsh := h.inv.shelf
  have hg := hsh.geo
  obtain ⟨r, hr, hoff⟩ := hin.offset hg
  obtain ⟨c, hc, hci⟩ := h.inv.contiguous.exists_has (Nat.zero_le _) hpage
  have hok := hsh.ok c hc
  have hbnd := hsh.bound c hc
  -- where a block begins there is a live one
  have hlive : ∀ n, (p, n) ∉ c.extents sz pool.start := by
    intro n he
    have hme := h.exact.mem_iff.mp (List.mem_flatMap.mpr ⟨c, hc, he⟩)
    obtain ⟨b, hb, hbe⟩ := List.mem_map.mp hme
    exact hp b hb (Prod.mk.inj hbe).1
  simp only [MarkedUsed, mpsSlabPageType, and_three] at hm
  generalize hi : pool.pageOf sz p = i at *
  obtain ⟨pos, kind, len⟩ := c
  obtain ⟨h1, h2⟩ := hci
  replace h1 : pos ≤ i := h1
  replace h2 : i < pos + len := h2
  cases kind with
  | free =>
    obtain ⟨hslab, htype, -, hclean⟩ := hok
    rw [htype i h1 h2, if_neg (by decide), if_neg (by decide), if_neg (by decide)] at hm
    refine absurd ((and_one_shiftLeft _ 63).mpr ?_) hm.2.1
    rcases Nat.eq_or_lt_of_le h1 with rfl | hlt
    · have hlen : len < 2 ^ 63 := by
        have h3 := hg.end_le
        have h4 := hg.end_lt
        have h5 : P * 2 ^ 12 ≤ P * 2 ^ s :=
          Nat.mul_le_mul_left _ (Nat.pow_le_pow_right (by decide) hg.le_s)
        replace hbnd : pos + len ≤ P := hbnd.2
        omega
      replace hslab : (pool.desc (pool.pageDesc pos)).slab = len := hslab
      rw [hslab]
      exact Nat.testBit_lt_two_pow hlen
    · have hz : (pool.desc (pool.pageDesc i)).slab = mpsSlabPageFree := hclean i hlt h2
      rw [hz]
      rfl
  | block =>
    obtain ⟨hhead, hrest⟩ := hok
    rcases Nat.eq_or_lt_of_le h1 with rfl | hlt
    · -- the first page: only its start is taken for a block
      replace hhead : pool.desc (pool.pageDesc pos) = ⟨len ||| mpsSlabPageStart, 0, mpsSlabPage⟩ :=
        hhead
      have htype : (pool.desc (pool.pageDesc pos)).prev % 4 = mpsSlabPage := by
        rw [hhead]
        rfl
      rw [htype, if_neg (by decide), if_neg (by decide), if_neg (by decide)] at hm
      have h0 : (base + p) &&& (1 <<< s - 1) = 0 := by
        rw [Nat.one_shiftLeft, ← hg.pagesize]
        exact hm.1
      obtain ⟨j, hj, hp'⟩ := InPool.chunk hin hg hbase le_rfl h0
      rw [chunkCount_eq hg le_rfl, Nat.sub_self] at hj
      obtain rfl : j = 0 := by omega
      rw [hi, Nat.zero_shiftLeft, Nat.add_zero, Geometry.pageAddr_eq] at hp'
      refine absurd ?_ (hlive (len * sz.pagesize))
      exact List.mem_singleton.mpr (Prod.ext hp' rfl)
    · have hbusy : pool.desc (pool.pageDesc i) = ⟨mpsSlabPageBusy, 0, mpsSlabPage⟩ :=
        hrest i hlt h2
      have htype : (pool.desc (pool.pageDesc i)).prev % 4 = mpsSlabPage := by
        rw [hbusy]
        rfl
      rw [htype, if_neg (by decide), if_neg (by decide), if_neg (by decide), hbusy] at hm
      exact absurd rfl hm.2.2
  | chunks k used =>
    obtain ⟨hlen, ⟨-, hks⟩, htype, hused, hbits, -⟩ := hok
    replace hlen : len = 1 := hlen
    subst hlen
    obtain rfl : pos = i := by omega
    replace htype : (pool.desc (pool.pageDesc pos)).prev % 4 = chunkType sz k := htype
    replace hks : k < s := hg.pagesizeShift ▸ hks
    have hs16 := hg.s_le
    have hnot : ∀ j ∈ used, p ≠ pool.pageAddr sz (pool.pageDesc pos) + (j <<< k) := by
      intro j hj he
      rw [Geometry.pageAddr_eq] at he
      exact hlive (1 <<< k) (List.mem_map.mpr ⟨j, hj, Prod.ext he.symm rfl⟩)
    have hmask := hbits.shiftMask hg hks
    simp only [ChunkBits] at hbits
    rw [htype] at hm
    rcases Nat.lt_trichotomy k sz.exactShift with hlt | heq | hgt
    · rw [show chunkType sz k = mpsSlabSmall from if_pos hlt, if_pos rfl] at hm
      rw [if_pos hlt] at hbits
      rw [hmask hlt.ne] at hm
      obtain ⟨j, hj, hp'⟩ := InPool.chunk hin hg hbase hks.le hm.1
      rw [hi] at hp'
      obtain ⟨-, hnum, hstart⟩ := chunk_addr hg hbase hks.le hj hp'
      have hcount := bitmapWords_mul hg hlt
      have hbit := hm.2
      rw [hnum, hstart, Ne, and_one_shiftLeft, hbits.2 _ (by omega), Nat.div_add_mod'] at hbit
      simp only [Nat.mod_lt, Nat.zero_lt_succ, true_and, decide_eq_false_iff_not, not_not] at hbit
      rcases hbit with hres | hju
      · refine ⟨pos, by omega, ?_, j, ?_, ?_⟩
        · rw [mpsSlabPageType, and_three, htype]
          exact if_pos hlt
        · rw [hmask hlt.ne, ← show reserved sz k = bitmapChunks sz k from if_pos hlt]
          exact hres
        · rw [hmask hlt.ne]
          exact hp'
      · exact absurd hp' (hnot j hju)
    · have hnlt : ¬ k < sz.exactShift := by omega
      rw [show chunkType sz k = mpsSlabExact from (if_neg hnlt).trans (if_pos heq),
        if_neg (by decide), if_pos rfl] at hm
      rw [if_neg hnlt, if_pos heq] at hbits
      have hsize : sz.exactSize = 1 <<< k := by
        rw [hg.exactSize, Nat.one_shiftLeft, heq, hg.exactShift]
      rw [hsize, ← heq] at hm
      obtain ⟨j, hj, hp'⟩ := InPool.chunk hin hg hbase hks.le hm.1
      rw [hi] at hp'
      obtain ⟨-, hnum, -⟩ := chunk_addr hg hbase hks.le hj hp'
      have hbit := hm.2
      rw [hnum, Ne, and_one_shiftLeft, hbits j, decide_eq_false_iff_not, not_not] at hbit
      exact absurd hp' (hnot j hbit)
    · have hnlt : ¬ k < sz.exactShift := by omega
      have hne : k ≠ sz.exactShift := by omega
      rw [show chunkType sz k = mpsSlabBig from (if_neg hnlt).trans (if_neg hne),
        if_neg (by decide), if_neg (by decide), if_pos rfl] at hm
      rw [if_neg hnlt, if_neg hne] at hbits
      rw [hmask hne] at hm
      obtain ⟨j, hj, hp'⟩ := InPool.chunk hin hg hbase hks.le hm.1
      rw [hi] at hp'
      obtain ⟨-, hnum, -⟩ := chunk_addr hg hbase hks.le hj hp'
      have hbit := hm.2
      rw [hnum, Ne, and_one_shiftLeft, Nat.add_comm, hbits.2 j, decide_eq_false_iff_not,
        not_not] at hbit
      exact absurd hp' (hnot j hbit)

end Marked

/-! ### All addresses -/

section BadFree
variable {s base p : Nat} {pool : SlabPool} {live : List Block}

/-- The descriptors end with that of the last page. -/
theorem RunInv.last (h : RunInv s pool live) : pool.last = pool.pageDesc pool.pageTotal := by
  rcases h with ⟨hempty, -, -⟩ | ⟨-, cells, lists, h⟩
  · rw [hempty.total, hempty.last]
    rfl
  · exact h.inv.shelf.geo.last

end BadFree

end MpsShdict
