import MpsShdict.SlabBadFree
import MpsShdict.SlabComplete

/-! # What has been given out

The allocator itself marks what it has given out: where a live block begins, and nowhere
else. How many pages are free depends on the live blocks alone.

So the live blocks, which are a list that the runs carry along, can be read off the pool:
`SlabInv.given_iff` says that a block begins at an offset exactly where
`mps_slab_free_locked` would find one. Whoever compares two states of a pool may therefore
compare live blocks, and the number of free pages follows (`SlabInv.pfree_unique`).
-/
namespace MpsShdict

open Words Links

/-- A chunk or a block that has been given out begins at `p`, as the allocator has it: it
is marked there, it is in a page of the pool, and it does not hold a bitmap. -/
structure Given (sz : Sizes) (base : Nat) (pool : SlabPool) (p : Nat) : Prop where
  inPool : InPool pool p
  page : pool.pageOf sz p < pool.pageTotal
  marked : MarkedUsed sz base pool p
  noBitmap : ¬ BitmapChunk sz pool p

section Given
variable {sz : Sizes} {s base p : Nat} {pool pool' : SlabPool} {live : List Block} {b : Block}

theorem capacity_pos (g : Sizing sz s pool) (size : Nat) : 0 < capacity sz pool size := by
  rw [capacity]
  split
  · next h =>
    rw [g.pagesize]
    exact Nat.mul_pos (pageCount_spec g h).1 (Nat.two_pow_pos s)
  · rw [Nat.one_shiftLeft]
    exact Nat.two_pow_pos _

/-- A live block is given out. -/
theorem SlabInv.given (h : SlabInv sz s pool.pageTotal pool live) (hbase : 2 ^ s ∣ base)
    (hb : b ∈ live) :
    Given sz base pool b.off := by
  have hfree := mpsSlabFreeLocked_spec h hbase hb
  have hmarked : ¬ (InPool pool b.off → ¬ MarkedUsed sz base pool b.off) := by
    intro hnot
    obtain ⟨e, he⟩ := free_unmarked hnot
    have hlog := hfree.2.1
    rw [he] at hlog
    simp [SlabPool.logError] at hlog
  obtain ⟨hin, hm⟩ := Classical.not_imp.mp hmarked
  rw [not_not] at hm
  obtain ⟨cells, lists, h⟩ := h
  have hg := h.inv.shelf.geo
  have hpos := capacity_pos hg.toSizing b.size
  refine ⟨hin, ?_, hm, ?_⟩
  · obtain ⟨-, hend, -⟩ := h.bounds hb
    have hstart := hin.1
    rw [SlabPool.pageOf, hg.pagesizeShift, Nat.shiftRight_eq_div_pow,
      Nat.div_lt_iff_lt_mul (Nat.two_pow_pos s)]
    omega
  · rintro ⟨i, hi, ht, hj⟩
    obtain ⟨k, used, hc, hk, hshift⟩ := small_page h.inv hi ht
    rw [hshift] at hj
    obtain ⟨j, hj, hoff⟩ := hj
    have hclear := bitmap_clear h.inv.shelf hc hk (h.mem_extents.mpr ⟨b, hb, rfl⟩)
    have hlt : j * 2 ^ k < bitmapChunks sz k * 2 ^ k :=
      Nat.mul_lt_mul_of_pos_right hj (Nat.two_pow_pos k)
    simp only [Clear, Nat.shiftLeft_eq] at hclear hoff
    omega

/-- **What is given out** is where a live block begins, and nothing else is. -/
theorem SlabInv.given_iff (h : SlabInv sz s pool.pageTotal pool live) (hbase : 2 ^ s ∣ base) :
    Given sz base pool p ↔ ∃ b ∈ live, b.off = p := by
  constructor
  · intro hp
    by_contra hnone
    obtain ⟨cells, lists, h⟩ := h
    refine hp.noBitmap (h.bitmapChunk_of_marked rfl hbase hp.inPool hp.page ?_ hp.marked)
    intro b hb he
    exact hnone ⟨b, hb, he⟩
  · rintro ⟨b, hb, rfl⟩
    exact h.given hbase hb

end Given

/-! ### Free pages -/

section Pages
variable {sz : Sizes} {s P : Nat} {pool pool' : SlabPool} {cells : List Cell} {live : List Block}

/-- The free cells have as many pages as lie in them. -/
theorem Contiguous.countP_free (p : Nat → Bool) {a e : Nat} (h : Contiguous a cells e)
    (hp : ∀ i, a ≤ i → i < e → (p i = true ↔ ∃ c ∈ cells, c.kind = .free ∧ c.Has i)) :
    (List.range' a (e - a)).countP p = (cells.map Cell.freeLen).sum := by
  induction cells generalizing a with
  | nil =>
    have hae : a = e := h
    rw [hae, Nat.sub_self]
    rfl
  | cons c cs ih =>
    obtain ⟨hpos, hcs⟩ := h
    have hle := hcs.le
    -- the other cells lie behind the first one
    have hbehind : ∀ i < a + c.len, ∀ c' ∈ cs, ¬ c'.Has i := by
      intro i hi c' hc' hhas
      have h1 := (hcs.bounds c' hc').1
      have h2 := hhas.1
      omega
    have hrest : (List.range' (a + c.len) (e - (a + c.len))).countP p =
        (cs.map Cell.freeLen).sum := by
      apply ih hcs
      intro i h1 h2
      rw [hp i (by omega) h2]
      have hnot : ¬ c.Has i := by
        intro hhas
        have h3 := hhas.2
        omega
      simp [hnot]
    have hfirst : (List.range' a c.len).countP p = c.freeLen := by
      have hiff : ∀ i ∈ List.range' a c.len, (p i = true ↔ c.kind = .free) := by
        intro i hi
        obtain ⟨h1, h2⟩ := List.mem_range'_1.mp hi
        rw [hp i h1 (by omega)]
        constructor
        · rintro ⟨c', hc', hkind, hhas⟩
          rcases List.mem_cons.mp hc' with rfl | hc'
          · exact hkind
          · exact absurd hhas (hbehind i h2 c' hc')
        · exact fun hkind => ⟨c, List.mem_cons_self, hkind, ⟨by omega, by omega⟩⟩
      by_cases hkind : c.kind = .free
      · rw [List.countP_eq_length.mpr fun i hi => (hiff i hi).mpr hkind,
          List.length_range', Cell.freeLen, hkind]
      · rw [List.countP_eq_zero.mpr fun i hi hpi => hkind ((hiff i hi).mp hpi), Cell.freeLen]
        split
        · next heq => exact absurd heq hkind
        · rfl
    rw [show e - a = c.len + (e - (a + c.len)) by omega, ← List.range'_append_1,
      List.countP_append, hfirst, hrest]
    rfl

/-- The number of free pages is that of the pages with nothing live in them. -/
theorem SlabInv.pfree_eq (h : SlabInv sz s P pool live) (p : Nat → Bool)
    (hp : ∀ i < P, p i = true ↔ PageFree s sz pool live i) :
    pool.pfree = (List.range' 0 P).countP p := by
  obtain ⟨cells, lists, h⟩ := h
  rw [h.inv.pfree]
  refine (Contiguous.countP_free p h.inv.contiguous ?_).symm
  intro i _ hi
  rw [hp i hi]
  constructor
  · intro hfree
    obtain ⟨r, hr, h1, h2⟩ := (page_free_iff h hi).mpr hfree
    exact ⟨_, mem_freeRuns.mp hr, rfl, h1, h2⟩
  · rintro ⟨⟨pos, kind, len⟩, hc, rfl, h1, h2⟩
    exact (page_free_iff h hi).mp ⟨(pos, len), mem_freeRuns.mpr hc, h1, h2⟩

/-- **The free pages depend on the live blocks alone.** Two pools with one header and the
same live blocks have the same number of free pages, however they came about. -/
theorem SlabInv.pfree_unique (h : SlabInv sz s P pool live) (h' : SlabInv sz s P pool' live)
    (hs : SameHeader pool pool') : pool'.pfree = pool.pfree := by
  classical
  have hfree : ∀ i, PageFree s sz pool' live i ↔ PageFree s sz pool live i := by
    intro i
    simp only [PageFree, hs.start, capacity_same hs]
  rw [h.pfree_eq (fun i => decide (PageFree s sz pool live i)) fun i _ => decide_eq_true_iff,
    h'.pfree_eq (fun i => decide (PageFree s sz pool live i)) fun i _ =>
      decide_eq_true_iff.trans (hfree i).symm]

end Pages

end MpsShdict
