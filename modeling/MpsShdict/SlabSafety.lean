import MpsShdict.SlabRuns

/-! # Blocks apart, pages together

Two results about every run of the allocator. The live blocks lie in the page area, are
large enough and aligned, and overlap neither one another nor a bitmap. The runs on
`pool->free` are apart and cover exactly the pages in which nothing is live.

Both are read off the cells of the invariant. For the blocks, a cell gives out bytes of
its own pages only, and within a page the chunks are apart from each other and from the
chunks that hold the bitmap. For the free pages, the cells cover the area, and a cell that
is not free has something live in it; so a page is in a free run if and only if no live
block meets it, and the number `pfree` is the sum over the runs.
-/
namespace MpsShdict

open Words Links

/-- The bytes from `a` on, `la` of them, and those from `b` on do not meet. -/
def Clear (a la b lb : Nat) : Prop := a + la ≤ b ∨ b + lb ≤ a

theorem Clear.symm {a la b lb : Nat} (h : Clear a la b lb) : Clear b lb a la := Or.symm h

/-- What is clear of an area is clear of its parts. -/
theorem Clear.part {a la a' la' b lb : Nat} (h : Clear a la b lb) (h1 : a ≤ a')
    (h2 : a' + la' ≤ a + la) :
    Clear a' la' b lb := by
  rcases h with h | h
  · exact .inl (h2.trans h)
  · exact .inr (h.trans h1)

section Extents
variable {sz : Sizes} {s P i : Nat} {pool : SlabPool} {cells : List Cell}
  {lists : Option Nat → List Nat} {live : List Block} {c : Cell} {e : Nat × Nat}

/-- What a cell gives out lies in its pages and is aligned. -/
theorem extents_bounds (h : Shelf sz s P pool cells lists) (hc : c ∈ cells)
    (he : e ∈ c.extents sz pool.start) :
    pool.start + c.pos * 2 ^ s ≤ e.1 ∧
    e.1 + e.2 ≤ pool.start + (c.pos + c.len) * 2 ^ s ∧ 0 < e.2 := by
  have hg := h.geo
  have hb := h.bound c hc
  have hok := h.ok c hc
  obtain ⟨pos, kind, len⟩ := c
  replace hb : 0 < len ∧ pos + len ≤ P := hb
  show pool.start + pos * 2 ^ s ≤ e.1 ∧ e.1 + e.2 ≤ pool.start + (pos + len) * 2 ^ s ∧ 0 < e.2
  rw [Nat.add_mul]
  cases kind with
  | free => simp [Cell.extents] at he
  | block =>
    simp only [Cell.extents, hg.pagesizeShift, hg.pagesize, List.mem_singleton] at he
    subst he
    have := Nat.mul_pos hb.1 (Nat.two_pow_pos s)
    exact ⟨by omega, by omega, this⟩
  | chunks k used =>
    obtain ⟨hlen, hk, -, hused, -, -⟩ := hok
    replace hlen : len = 1 := hlen
    simp only [Cell.extents, hg.pagesizeShift, List.mem_map] at he
    obtain ⟨j, hj, rfl⟩ := he
    have hks : k ≤ s := by
      have := hg.pagesizeShift
      omega
    have h1 := Nat.mul_le_mul_right (2 ^ k) (hused.2 j hj).2
    rw [chunkCount_mul hg hks, Nat.succ_mul] at h1
    have h2 := Nat.two_pow_pos k
    simp only [Nat.shiftLeft_eq, Nat.one_mul, hlen]
    omega

/-- What a cell gives out is clear of the pages of other cells. -/
theorem extents_off_page (h : Shelf sz s P pool cells lists) (hc : c ∈ cells)
    (he : e ∈ c.extents sz pool.start) (hno : ¬ c.Has i) :
    Clear (pool.start + i * 2 ^ s) (2 ^ s) e.1 e.2 := by
  obtain ⟨h1, h2, -⟩ := extents_bounds h hc he
  rw [Cell.Has, not_and_or, Nat.not_le, Nat.not_lt] at hno
  rcases hno with hlt | hge
  · have := Nat.mul_le_mul_right (2 ^ s) hlt
    rw [Nat.succ_mul] at this
    exact .inl (by omega)
  · have := Nat.mul_le_mul_right (2 ^ s) hge
    exact .inr (by omega)

/-- Nothing is given out twice. -/
theorem extents_pairwise (h : Shelf sz s P pool cells lists) :
    (extents sz pool.start cells).Pairwise fun a b => Clear a.1 a.2 b.1 b.2 := by
  refine List.pairwise_flatMap.mpr ⟨?_, ?_⟩
  · intro c hc
    have hok := h.ok c hc
    obtain ⟨pos, kind, len⟩ := c
    cases kind with
    | free => exact List.Pairwise.nil
    | block => exact List.pairwise_singleton _ _
    | chunks k used =>
      obtain ⟨-, -, -, hused, -, -⟩ := hok
      refine List.pairwise_map.mpr (hused.1.imp fun {j j'} hne => ?_)
      have hk := Nat.two_pow_pos k
      simp only [Clear, Nat.shiftLeft_eq, Nat.one_mul]
      rcases Nat.lt_or_gt_of_ne hne with hlt | hlt
      · have := Nat.mul_le_mul_right (2 ^ k) hlt
        rw [Nat.succ_mul] at this
        omega
      · have := Nat.mul_le_mul_right (2 ^ k) hlt
        rw [Nat.succ_mul] at this
        omega
  · refine h.sep.imp_of_mem fun {c c'} hc hc' hsep => ?_
    intro a ha b hb
    have h1 := extents_bounds h hc ha
    have h2 := extents_bounds h hc' hb
    have h3 := Nat.mul_le_mul_right (2 ^ s) hsep
    exact .inl (by omega)

/-- Every page is in a cell. -/
theorem Contiguous.exists_has {a e : Nat} (h : Contiguous a cells e) (h1 : a ≤ i) (h2 : i < e) :
    ∃ c ∈ cells, c.Has i := by
  induction cells generalizing a with
  | nil =>
    have : a = e := h
    omega
  | cons c cs ih =>
    obtain ⟨hpos, hcs⟩ := h
    by_cases hi : i < a + c.len
    · exact ⟨c, List.mem_cons_self, by rw [Cell.Has]; omega⟩
    · obtain ⟨c', hc', hi'⟩ := ih hcs (by omega)
      exact ⟨c', List.mem_cons_of_mem _ hc', hi'⟩

/-- A page with the type bits of small chunks is one. -/
theorem small_page (h : PageInv sz s P pool cells lists) (hi : i < P)
    (ht : mpsSlabPageType pool.desc (pool.pageDesc i) = mpsSlabSmall) :
    ∃ k used, (⟨i, .chunks k used, 1⟩ : Cell) ∈ cells ∧ k < sz.exactShift ∧
      (pool.desc (pool.pageDesc i)).slab &&& mpsSlabShiftMask = k := by
  obtain ⟨c, hc, hci⟩ := h.contiguous.exists_has (Nat.zero_le i) hi
  have hok := h.shelf.ok c hc
  obtain ⟨pos, kind, len⟩ := c
  obtain ⟨h1, h2⟩ := hci
  replace h1 : pos ≤ i := h1
  replace h2 : i < pos + len := h2
  rw [mpsSlabPageType, and_three] at ht
  cases kind with
  | free => cases (hok.2.1 i h1 h2).symm.trans ht
  | block =>
    rw [hok.block_prev h1 h2] at ht
    cases ht
  | chunks k used =>
    obtain ⟨hlen, hshift, htype, -, hbits, -⟩ := hok
    replace hlen : len = 1 := hlen
    subst hlen
    obtain rfl : pos = i := by omega
    have hk : k < sz.exactShift := chunkType_eq_small.mp (htype.symm.trans ht)
    refine ⟨k, used, hc, hk, ?_⟩
    exact hbits.shiftMask h.shelf.geo (h.shelf.geo.pagesizeShift ▸ hshift.2) hk.ne

/-- The bitmap of a page meets nothing that is given out. -/
theorem bitmap_clear {k : Nat} {used : List Nat} (h : Shelf sz s P pool cells lists)
    (hc : (⟨i, .chunks k used, 1⟩ : Cell) ∈ cells) (hk : k < sz.exactShift)
    (he : e ∈ extents sz pool.start cells) :
    Clear (pool.pageAddr sz (pool.pageDesc i)) (bitmapChunks sz k <<< k) e.1 e.2 := by
  have hg := h.geo
  have hks : k < s := by
    have := hg.exactShift
    omega
  have hr : bitmapChunks sz k = reserved sz k := (if_pos hk).symm
  have hin : reserved sz k * 2 ^ k ≤ 2 ^ s := by
    rw [← chunkCount_mul hg hks.le]
    exact Nat.mul_le_mul_right _ (by have := reserved_lt hg hks; omega)
  obtain ⟨c, hc', he'⟩ := List.mem_flatMap.mp he
  rw [hr, Nat.shiftLeft_eq, Geometry.pageAddr_eq, hg.pagesizeShift]
  by_cases hcc : c = ⟨i, .chunks k used, 1⟩
  · subst hcc
    obtain ⟨-, -, -, hused, -, -⟩ := h.ok _ hc
    simp only [Cell.extents, hg.pagesizeShift, List.mem_map] at he'
    obtain ⟨j, hj, rfl⟩ := he'
    have := Nat.mul_le_mul_right (2 ^ k) (hused.2 j hj).1
    left
    simp only [Nat.shiftLeft_eq]
    omega
  · have hnot : ¬ c.Has i := fun hi => hcc (h.unique hc' hc hi (h.has_pos hc))
    exact (extents_off_page h hc' he' hnot).part (by omega) (by omega)

/-- What a block of `size` bytes is aligned to: its chunk size, or the page size. -/
def alignment (sz : Sizes) (pool : SlabPool) (size : Nat) : Nat :=
  if sz.maxSize < size then sz.pagesize else capacity sz pool size

theorem alignment_dvd (h : Holds sz s P pool cells lists live) {b : Block} (hb : b ∈ live) :
    alignment sz pool b.size ∣ b.off := by
  have hg := h.inv.shelf.geo
  obtain ⟨pre, ⟨i, kind, len⟩, post, rfl, hm⟩ := h.cell hb
  have hok := h.inv.shelf.ok _ (Shelf.mem_middle.mpr (.inl rfl))
  have hstart := hg.start_dvd
  cases kind with
  | free => simp [Cell.extents] at hm
  | block =>
    simp only [Cell.extents, List.mem_singleton, Prod.mk.injEq, hg.pagesizeShift, hg.pagesize] at hm
    have hoff : 2 ^ s ∣ b.off := hm.1 ▸ Nat.dvd_add (Nat.dvd_mul_left _ _) hstart
    rw [alignment]
    split
    · rw [hg.pagesize]
      exact hoff
    · next hsize =>
      obtain ⟨k, hclass, -, hk, -⟩ := sizeClass_spec hg.toSizing (Nat.not_lt.mp hsize)
      rw [capacity, if_neg hsize, hclass, Nat.one_shiftLeft]
      exact (Nat.pow_dvd_pow 2 hk.le).trans hoff
  | chunks k used =>
    obtain ⟨-, ⟨-, hk⟩, -, -, -, -⟩ := hok
    simp only [Cell.extents, List.mem_map, Prod.mk.injEq, hg.pagesizeShift] at hm
    obtain ⟨j, -, hoff, hcap⟩ := hm
    have hks : k < s := hg.pagesizeShift ▸ hk
    have hdvd : 2 ^ k ∣ 2 ^ s := Nat.pow_dvd_pow 2 hks.le
    have hsmall : ¬ sz.maxSize < b.size := by
      intro hsize
      rw [capacity, if_pos hsize, Nat.one_shiftLeft, hg.pagesize] at hcap
      have h1 := Nat.mul_le_mul_right (2 ^ s) (pageCount_spec hg.toSizing hsize).1
      have h2 := Nat.pow_lt_pow_right (show 1 < 2 by decide) hks
      rw [Nat.succ_mul] at h1
      omega
    rw [alignment, if_neg hsmall, ← hcap, Nat.one_shiftLeft, ← hoff, Nat.shiftLeft_eq]
    exact Nat.dvd_add (Nat.dvd_add (hdvd.mul_left _) (hdvd.trans hstart)) (Nat.dvd_mul_left _ _)

theorem alignment_le (g : Geometry sz s P pool) (size : Nat) : alignment sz pool size ∣ 2 ^ s := by
  rw [alignment]
  split
  · rw [g.pagesize]
  · next hsize =>
    obtain ⟨k, hclass, -, hk, -⟩ := sizeClass_spec g.toSizing (Nat.not_lt.mp hsize)
    rw [capacity, if_neg hsize, hclass, Nat.one_shiftLeft]
    exact Nat.pow_dvd_pow 2 hk.le

/-- A live block lies in the pages and has room for what was asked for. -/
theorem Holds.bounds (h : Holds sz s P pool cells lists live) {b : Block} (hb : b ∈ live) :
    pool.start ≤ b.off ∧ b.off + capacity sz pool b.size ≤ pool.start + P * 2 ^ s ∧
      b.size ≤ capacity sz pool b.size := by
  have hsh := h.inv.shelf
  have hmem : (b.off, capacity sz pool b.size) ∈ extents sz pool.start cells :=
    h.exact.mem_iff.mpr (List.mem_map.mpr ⟨b, hb, rfl⟩)
  obtain ⟨c, hc, he⟩ := List.mem_flatMap.mp hmem
  obtain ⟨h1, h2, -⟩ := extents_bounds hsh hc he
  have h3 := Nat.mul_le_mul_right (2 ^ s) (hsh.bound c hc).2
  exact ⟨by omega, by omega, size_le_capacity hsh.geo.toSizing _⟩

/-- Live blocks do not overlap. -/
theorem Holds.pairwise_clear (h : Holds sz s P pool cells lists live) :
    live.Pairwise fun a b => Clear a.off
      (capacity sz pool a.size) b.off (capacity sz pool b.size) := by
  have hpw := (h.exact.pairwise_iff (fun {a b} hab => Clear.symm hab)).mp
    (extents_pairwise h.inv.shelf)
  exact List.pairwise_map.mp hpw

end Extents

/-! ### Live blocks -/

/-- The live blocks of a pool are what they should be, and a call always returns: each has
the room it was asked for, inside the pages, aligned, and apart from all others and from
the bitmaps. -/
structure BlocksSound (s : Nat) (sz : Sizes) (pool : SlabPool) (live : List Block) : Prop where
  /-- A block lies in the page area, is as large as requested, and is aligned
  wherever the pool is mapped. -/
  placed : ∀ b ∈ live, pool.start ≤ b.off ∧
    b.off + capacity sz pool b.size ≤ pool.start + pool.pageTotal * 2 ^ s ∧
    b.size ≤ capacity sz pool b.size ∧
    ∀ base, 2 ^ s ∣ base → alignment sz pool b.size ∣ base + b.off
  /-- No two blocks overlap. -/
  apart : live.Pairwise fun a b =>
    Clear a.off (capacity sz pool a.size) b.off (capacity sz pool b.size)
  /-- No block overlaps the bitmap of a page of small chunks. -/
  bitmaps : ∀ i < pool.pageTotal, mpsSlabPageType pool.desc (pool.pageDesc i) = mpsSlabSmall →
    let shift := (pool.desc (pool.pageDesc i)).slab &&& mpsSlabShiftMask
    ∀ b ∈ live, Clear (pool.pageAddr sz (pool.pageDesc i)) (bitmapChunks sz shift <<< shift)
      b.off (capacity sz pool b.size)
  /-- The search for pages ends. -/
  returns : ∀ size, (mpsSlabAllocLocked sz pool.poolEnd pool size).isSome

/-- **Live blocks are sound** in every run of the allocator, for every page size from 4 to
64 KiB. -/
theorem live_blocks_sound {s : Nat} {pool : SlabPool} {live : List Block} (hs : 12 ≤ s)
    (hs' : s ≤ 16) (run : SlabRun s pool live) :
    BlocksSound s (mpsSlabSizesInit (2 ^ s)) pool live := by
  set sz := mpsSlabSizesInit (2 ^ s)
  have hinv := run.inv hs hs'
  have hreturns : ∀ size, (mpsSlabAllocLocked sz pool.poolEnd pool size).isSome := by
    intro size
    obtain ⟨pool', p, he, -⟩ := hinv.alloc_step size
    rw [he]
    rfl
  rcases hinv with ⟨-, rfl, -⟩ | ⟨-, cells, lists, h⟩
  · exact ⟨by simp, by simp, by simp, hreturns⟩
  · have hsh := h.inv.shelf
    have hg := hsh.geo
    have hmem : ∀ b ∈ live, (b.off, capacity sz pool b.size) ∈ extents sz pool.start cells :=
      fun b hb => h.exact.mem_iff.mpr (List.mem_map.mpr ⟨b, hb, rfl⟩)
    refine ⟨?_, h.pairwise_clear, ?_, hreturns⟩
    · intro b hb
      obtain ⟨h1, h2, h3⟩ := h.bounds hb
      refine ⟨h1, h2, h3, ?_⟩
      intro base hbase
      exact Nat.dvd_add ((alignment_le hg _).trans hbase) (alignment_dvd h hb)
    · intro i hi ht
      obtain ⟨k, used, hc, hk, hslab⟩ := small_page h.inv hi ht
      rw [hslab]
      exact fun b hb => bitmap_clear hsh hc hk (hmem b hb)

/-- In a pool of four pages, after requests of 100 and of 5000 bytes. The first block is a
chunk, the second one has two pages. -/
theorem live_blocks_sound_two : ∃ pool,
    BlocksSound 12 (mpsSlabSizesInit (2 ^ 12)) pool [⟨8192, 5000⟩, ⟨4096, 100⟩] :=
  ⟨_, live_blocks_sound (by decide) (by decide)
    (.alloc (.alloc (.init 0 20480 3 (fun _ => ⟨0, 0, 0⟩) (fun _ => ⟨0, 0, 0, 0⟩) (fun _ => 0)
      (by decide) (by decide) (by decide) (by decide) rfl) rfl) rfl)⟩

/-! ### Free runs -/

section FreeRuns
variable {sz : Sizes} {s P : Nat} {pool : SlabPool} {cells : List Cell}
  {lists : Option Nat → List Nat} {live : List Block}

/-- The free runs of the cells, by position and length. -/
def freeRuns (cells : List Cell) : List (Nat × Nat) :=
  cells.filterMap fun c => match c.kind with
    | .free => some (c.pos, c.len)
    | _ => none

theorem mem_freeRuns {r : Nat × Nat} : r ∈ freeRuns cells ↔ (⟨r.1, .free, r.2⟩ : Cell) ∈ cells := by
  obtain ⟨i, n⟩ := r
  rw [freeRuns, List.mem_filterMap]
  constructor
  · rintro ⟨⟨pos, kind, len⟩, hc, he⟩
    cases kind <;> simp at he
    obtain ⟨rfl, rfl⟩ := he
    exact hc
  · intro hc
    exact ⟨_, hc, rfl⟩

/-- A run ends before the next one begins, with a page in between. -/
theorem freeRuns_pairwise {a e : Nat} (h : Contiguous a cells e) (hap : Apart cells)
    (hlen : ∀ c ∈ cells, 0 < c.len) : (freeRuns cells).Pairwise fun x y => x.1 + x.2 < y.1 := by
  -- induction on the cells, which lie one behind the other
  induction cells generalizing a with
  | nil => exact List.Pairwise.nil
  | cons c cs ih =>
    obtain ⟨hpos, hcs⟩ := h
    have htail := ih hcs hap.of_cons fun c' hc' => hlen c' (List.mem_cons_of_mem _ hc')
    obtain ⟨pos, kind, len⟩ := c
    cases kind with
    | block => exact htail
    | chunks k used => exact htail
    | free =>
      refine List.pairwise_cons.mpr ⟨?_, htail⟩
      intro r hr
      replace hr := mem_freeRuns.mp hr
      show pos + len < r.1
      replace hpos : pos = a := hpos
      subst hpos
      cases cs with
      | nil => simp at hr
      | cons c' cs' =>
        have hnf := (List.isChain_cons_cons.mp hap).1
        obtain ⟨hpos', hcs'⟩ := hcs
        rcases List.mem_cons.mp hr with rfl | hr
        · exact absurd ⟨rfl, rfl⟩ hnf
        · have h1 := (hcs'.bounds _ hr).1
          have h2 := hlen c' (by simp)
          replace h1 : pos + len + c'.len ≤ r.1 := h1
          omega

theorem freeRuns_sum : ((freeRuns cells).map Prod.snd).sum = (cells.map Cell.freeLen).sum := by
  induction cells with
  | nil => rfl
  | cons c cs ih =>
    obtain ⟨pos, kind, len⟩ := c
    rw [freeRuns] at ih
    cases kind <;> simp [freeRuns, ih]

/-- The list `pool->free` names the free runs. -/
theorem freeRuns_perm (h : PageInv sz s P pool cells lists) :
    (lists none).Perm ((freeRuns cells).map fun r => pool.pageDesc r.1) := by
  have hnd : (lists none).Nodup := (List.nodup_cons.mp (h.shelf.ring none trivial).nodup).2
  have hpw := freeRuns_pairwise h.contiguous h.apart fun c hc => (h.shelf.bound c hc).1
  have hnd' : ((freeRuns cells).map fun r => pool.pageDesc r.1).Nodup := by
    refine List.pairwise_map.mpr (hpw.imp fun {x y} hxy he => ?_)
    have := Geometry.pageDesc_inj.mp he
    omega
  refine (List.perm_ext_iff_of_nodup hnd hnd').mpr ?_
  intro x
  rw [h.shelf.mem none trivial, List.mem_map]
  constructor
  · rintro ⟨⟨pos, kind, len⟩, hc, hl, rfl⟩
    cases kind with
    | free => exact ⟨(pos, len), mem_freeRuns.mpr hc, rfl⟩
    | block => simp [Cell.list] at hl
    | chunks k used =>
      simp only [Cell.list] at hl
      split at hl <;> simp at hl
  · rintro ⟨r, hr, rfl⟩
    exact ⟨_, mem_freeRuns.mp hr, rfl, rfl⟩

/-- A page is free when nothing live is in it, and only then. The allocator keeps no page
for later use. -/
theorem page_free_iff (h : Holds sz s P pool cells lists live) {i : Nat} (hi : i < P) :
    (∃ r ∈ freeRuns cells, r.1 ≤ i ∧ i < r.1 + r.2) ↔
      ∀ b ∈ live, Clear (pool.start + i * 2 ^ s) (2 ^ s) b.off (capacity sz pool b.size) := by
  have hsh := h.inv.shelf
  have hmem : ∀ e, e ∈ extents sz pool.start cells ↔
      ∃ b ∈ live, (b.off, capacity sz pool b.size) = e := by
    intro e
    rw [h.exact.mem_iff, List.mem_map]
  constructor
  · rintro ⟨r, hr, h1, h2⟩ b hb
    have hrc := mem_freeRuns.mp hr
    obtain ⟨c, hc, he⟩ := List.mem_flatMap.mp ((hmem _).mpr ⟨b, hb, rfl⟩)
    refine extents_off_page hsh hc he ?_
    intro hci
    have := hsh.unique hc hrc hci ⟨h1, h2⟩
    rw [this] at he
    simp [Cell.extents] at he
  · intro hall
    obtain ⟨c, hc, hci⟩ := h.inv.contiguous.exists_has (Nat.zero_le i) hi
    have hg := hsh.geo
    have hok := hsh.ok c hc
    have huse := h.inUse c hc
    -- something of a cell that is not free lies in the page
    have hnone : ∀ e ∈ c.extents sz pool.start,
        Clear (pool.start + i * 2 ^ s) (2 ^ s) e.1 e.2 := by
      intro e he
      obtain ⟨b, hb, rfl⟩ := (hmem e).mp (List.mem_flatMap.mpr ⟨c, hc, he⟩)
      exact hall b hb
    obtain ⟨pos, kind, len⟩ := c
    obtain ⟨h1, h2⟩ := hci
    replace h1 : pos ≤ i := h1
    replace h2 : i < pos + len := h2
    have hpos := Nat.two_pow_pos s
    cases kind with
    | free => exact ⟨(pos, len), mem_freeRuns.mpr hc, h1, h2⟩
    | block =>
      have := hnone _ (List.mem_singleton.mpr rfl)
      simp only [Clear, hg.pagesizeShift, hg.pagesize] at this
      have k1 := Nat.mul_le_mul_right (2 ^ s) h1
      have k2 := Nat.mul_le_mul_right (2 ^ s) h2
      rw [Nat.succ_mul, Nat.add_mul] at k2
      omega
    | chunks k used =>
      obtain ⟨hlen, -⟩ := hok
      replace hlen : len = 1 := hlen
      obtain ⟨j, used', rfl⟩ : ∃ j used', used = j :: used' := by
        cases used with
        | nil => exact absurd rfl (huse k)
        | cons j used' => exact ⟨j, used', rfl⟩
      have he : (pos * 2 ^ sz.pagesizeShift + pool.start + (j <<< k), 1 <<< k) ∈
          (⟨pos, .chunks k (j :: used'), len⟩ : Cell).extents sz pool.start :=
        List.mem_cons_self
      have hclear := hnone _ he
      obtain ⟨k1, k2, k3⟩ := extents_bounds hsh hc he
      obtain rfl : pos = i := by omega
      replace k1 : pool.start + pos * 2 ^ s ≤
        pos * 2 ^ sz.pagesizeShift + pool.start + (j <<< k) := k1
      replace k2 : pos * 2 ^ sz.pagesizeShift + pool.start + (j <<< k) + 1 <<< k ≤
        pool.start + (pos + len) * 2 ^ s := k2
      rw [hlen, Nat.succ_mul] at k2
      simp only [Clear] at hclear
      omega

/-- With nothing live there is one free run. -/
theorem freeRuns_of_nil (h : Holds sz s P pool cells lists []) (hP : 0 < P) :
    cells = [⟨0, .free, P⟩] := by
  have hfree : ∀ c ∈ cells, c.kind = .free := by
    intro c hc
    have hnil : extents sz pool.start cells = [] := List.perm_nil.mp h.exact
    have hce : c.extents sz pool.start = [] := List.flatMap_eq_nil_iff.mp hnil c hc
    have huse := h.inUse c hc
    obtain ⟨pos, kind, len⟩ := c
    cases kind with
    | free => rfl
    | block => simp [Cell.extents] at hce
    | chunks k used =>
      simp only [Cell.extents, List.map_eq_nil_iff] at hce
      exact absurd (by rw [hce]) (huse k)
  have hcont := h.inv.contiguous
  have hap := h.inv.apart
  cases cells with
  | nil =>
    have : 0 = P := hcont
    omega
  | cons c cs =>
    obtain ⟨hpos, hcs⟩ := hcont
    have hkind := hfree c (by simp)
    cases cs with
    | nil =>
      have hlen : 0 + c.len = P := hcs
      obtain ⟨pos, kind, len⟩ := c
      simp only at hpos hkind hlen
      rw [hpos, hkind, ← hlen, Nat.zero_add]
    | cons c' cs' => exact absurd ⟨hkind, hfree c' (by simp)⟩ (List.isChain_cons_cons.mp hap).1

end FreeRuns

/-- The list `pool->free` and `pool->pfree` are exact: `runs` gives the position and the
length of each run on the list. No two of them meet, together they are the pages in which
nothing is live, and with nothing live there is one run of all pages. -/
structure PagesExact (s : Nat) (sz : Sizes) (pool : SlabPool) (live : List Block)
    (runs : List (Nat × Nat)) : Prop where
  /-- The runs are those on the list, in its order. -/
  listed : Ring (fun x => x ≠ freeOff) (fun x => (pool.desc x).next) (mpsSlabPagePrev pool.desc)
    freeOff (runs.map fun r => pool.pageDesc r.1)
  length : ∀ r ∈ runs, (pool.desc (pool.pageDesc r.1)).slab = r.2 ∧ 0 < r.2 ∧
    r.1 + r.2 ≤ pool.pageTotal
  /-- No two runs meet, and none begins where another ends. -/
  apart : runs.Pairwise fun x y => x.1 + x.2 < y.1 ∨ y.1 + y.2 < x.1
  /-- They cover the pages with nothing live in them, and only these. -/
  covers : ∀ i < pool.pageTotal, (∃ r ∈ runs, r.1 ≤ i ∧ i < r.1 + r.2) ↔
    ∀ b ∈ live, Clear (pool.start + i * 2 ^ s) (2 ^ s) b.off (capacity sz pool b.size)
  sum : (runs.map Prod.snd).sum = pool.pfree
  /-- When everything has been freed there is one run, and it can be had at once. -/
  whole : live = [] → runs = [(0, pool.pageTotal)] ∧
    ∃ pool' p, mpsSlabAllocLocked sz pool.poolEnd pool (pool.pageTotal * sz.pagesize) =
      some (pool', some p)

/-- **Page bookkeeping is exact** in every run on a pool of one page or more, and free
runs are merged as far as possible. -/
theorem pages_exact {s : Nat} {pool : SlabPool} {live : List Block} (hs : 12 ≤ s) (hs' : s ≤ 16)
    (run : SlabRun s pool live) (hP : 0 < pool.pageTotal) :
    ∃ runs, PagesExact s (mpsSlabSizesInit (2 ^ s)) pool live runs := by
  set sz := mpsSlabSizesInit (2 ^ s)
  rcases run.inv hs hs' with ⟨hempty, -, -⟩ | ⟨-, cells, lists, h⟩
  · have := hempty.total
    omega
  · have hsh := h.inv.shelf
    have hg := hsh.geo
    have hperm := freeRuns_perm h.inv
    set f : Nat × Nat → Nat := fun r => pool.pageDesc r.1 with hf
    set g : Nat → Nat × Nat := fun x => ((x - pool.pages) / sizeofPage, (pool.desc x).slab) with hgd
    -- the descriptor and its length give the run back
    have hgf : ∀ r ∈ freeRuns cells, g (f r) = r := by
      intro r hr
      have hslab : (pool.desc (pool.pageDesc r.1)).slab = r.2 := (hsh.ok _ (mem_freeRuns.mp hr)).1
      refine Prod.ext ?_ hslab
      show (pool.pages + sizeofPage * r.1 - pool.pages) / sizeofPage = r.1
      rw [Nat.add_sub_cancel_left, Nat.mul_div_cancel_left _ (by decide)]
    have hruns : ((lists none).map g).Perm (freeRuns cells) := by
      have hid : (freeRuns cells).map (g ∘ f) = freeRuns cells :=
        (List.map_congr_left (g := id) hgf).trans (List.map_id _)
      have := hperm.map g
      rwa [List.map_map, hid] at this
    -- so the runs are read off the list of free pages
    have hlist : ((lists none).map g).map f = lists none := by
      rw [List.map_map]
      refine (List.map_congr_left (g := id) ?_).trans (List.map_id _)
      intro x hx
      obtain ⟨r, hr, rfl⟩ := List.mem_map.mp (hperm.mem_iff.mp hx)
      exact congrArg f (hgf r hr)
    have hpw := freeRuns_pairwise h.inv.contiguous h.inv.apart fun c hc => (hsh.bound c hc).1
    refine ⟨(lists none).map g, hlist.symm ▸ hsh.ring none trivial, ?_, ?_,
      ?_, ?_, ?_⟩
    · intro r hr
      have hc := mem_freeRuns.mp (hruns.mem_iff.mp hr)
      exact ⟨(hsh.ok _ hc).1, hsh.bound _ hc⟩
    · refine (hruns.pairwise_iff fun {x y} hxy => Or.symm hxy).mpr (hpw.imp fun hxy => .inl hxy)
    · intro i hi
      rw [← page_free_iff h hi]
      simp only [hruns.mem_iff]
    · rw [List.Perm.sum_nat (hruns.map Prod.snd), freeRuns_sum, h.inv.pfree]
    · intro hnil
      subst hnil
      -- with nothing live, the free runs are not adjacent and cover the pool: there is one
      have hcells := freeRuns_of_nil h hP
      rw [hcells] at hruns
      refine ⟨List.perm_singleton.mp hruns, ?_⟩
      have hsize : sz.maxSize < pool.pageTotal * sz.pagesize := by
        rw [hg.maxSize, hg.pagesize]
        have h1 := Nat.pow_lt_pow_right (show 1 < 2 by decide) (show s - 1 < s by omega)
        have h2 := Nat.mul_le_mul_right (2 ^ s) hP
        omega
      have hcount : pageCount sz (pool.pageTotal * sz.pagesize) = pool.pageTotal := by
        rw [pageCount, hg.pagesize, hg.pagesizeShift, Nat.shiftRight_eq_div_pow,
          Nat.mul_div_cancel _ (Nat.two_pow_pos s), Nat.mul_mod_left]
        simp
      have hfuel : pool.pageTotal < pool.poolEnd := SlabInv.pageTotal_lt ⟨_, _, h⟩ hP
      rw [mpsSlabAllocLocked, if_pos hsize, ← pageCount, hcount]
      rcases mpsSlabAllocPages_spec (n := pool.pageTotal) h.inv hfuel with
        ⟨i, m, pre, post, -, -, he⟩ | ⟨hnone, -⟩
      · rw [he]
        exact ⟨_, _, rfl⟩
      · exact absurd (hnone 0 pool.pageTotal (by rw [hcells]; simp)) (lt_irrefl _)

/-! ### Four pages that are taken and given back -/

/-- A pool of four pages. -/
def fourPages : SlabPool :=
  (mpsSlabInit (mpsSlabSizesInit (2 ^ 12)) 0 (fun _ => ⟨0, 0, 0⟩) (fun _ => ⟨0, 0, 0, 0⟩)
    (fun _ => 0) 20480 4 0).toOption.get rfl

/-- The pool that an allocation leaves. -/
def SlabPool.afterAlloc (pool : SlabPool) (size : Nat) : SlabPool :=
  match mpsSlabAllocLocked (mpsSlabSizesInit (2 ^ 12)) pool.poolEnd pool size with
  | some (pool', _) => pool'
  | none => pool

theorem SlabRun.afterAlloc {pool : SlabPool} {live : List Block} {size p : Nat}
    (run : SlabRun 12 pool live)
    (h : (mpsSlabAllocLocked (mpsSlabSizesInit (2 ^ 12)) pool.poolEnd pool size).map Prod.snd =
      some (some p)) : SlabRun 12 (pool.afterAlloc size) (⟨p, size⟩ :: live) := by
  obtain ⟨⟨pool', q⟩, hrun, rfl⟩ := Option.map_eq_some_iff.mp h
  refine .alloc run ?_
  rw [SlabPool.afterAlloc, hrun]

/-- A chunk of 128 bytes and three whole pages. -/
def takenPages : SlabPool :=
  (((fourPages.afterAlloc 100).afterAlloc 3000).afterAlloc 3000).afterAlloc 3000

theorem run_takenPages : SlabRun 12 takenPages
    [⟨16384, 3000⟩, ⟨12288, 3000⟩, ⟨8192, 3000⟩, ⟨4096, 100⟩] := by
  have run : SlabRun 12 fourPages [] :=
    .init 0 20480 4 (fun _ => ⟨0, 0, 0⟩) (fun _ => ⟨0, 0, 0, 0⟩) (fun _ => 0)
      (by decide) (by decide) (by decide) (by decide) rfl
  exact (((run.afterAlloc (by decide +kernel)).afterAlloc (by decide +kernel)).afterAlloc
    (by decide +kernel)).afterAlloc (by decide +kernel)

/-- **All four pages are given back.**  The one that is freed last but one has a free page on
either side, and the last one has the chunk on it: in the end all are merged into one run. -/
theorem pages_exact_merged :
    ∃ pool, PagesExact 12 (mpsSlabSizesInit (2 ^ 12)) pool [] [(0, 4)] := by
  have run : SlabRun 12
      (mpsSlabFreeLocked (mpsSlabSizesInit (2 ^ 12)) 0
        (mpsSlabFreeLocked (mpsSlabSizesInit (2 ^ 12)) 0
          (mpsSlabFreeLocked (mpsSlabSizesInit (2 ^ 12)) 0
            (mpsSlabFreeLocked (mpsSlabSizesInit (2 ^ 12)) 0 takenPages 8192) 16384) 12288)
        4096) [] :=
    .free (b := ⟨4096, 100⟩) (.free (b := ⟨12288, 3000⟩) (.free (b := ⟨16384, 3000⟩)
      (.free (b := ⟨8192, 3000⟩) run_takenPages (by decide) (by decide))
      (by decide) (by decide)) (by decide) (by decide)) (by decide) (by decide)
  obtain ⟨runs, hexact⟩ := pages_exact (by decide) (by decide) run (by decide +kernel)
  have hwhole : runs = [(0, 4)] :=
    (hexact.whole rfl).1.trans (congrArg (fun n => [(0, n)]) (by decide +kernel))
  exact ⟨_, hwhole ▸ hexact⟩

end MpsShdict
