import MpsShdict.Slab
import MpsShdict.Lib.Links

/-! # The cells of a pool

The page area is a sequence of **cells**: free runs, blocks of pages, and single pages of
chunks of one size. A `Shelf` says that the descriptors and bitmaps of the pool describe a
given set of cells, and that each list head starts the list of the cells that belong on
it: the free runs on `pool->free`, the pages with a free chunk on the slot of their size.

The allocator takes cells off the shelf, writes to the pages that then belong to nobody,
and puts other cells on it. So a shelf need not cover the whole area: in the middle of an
operation some pages are in no cell, and nothing is said of their descriptors. That the
cells do cover everything between two calls is added in `PageInv`.

The cells are the abstract state of the allocator. `CellOk` is what a cell asks of the
descriptors and bitmap words of its own pages, and it reads nothing else (`CellOk.frame`),
so a write to other pages leaves it in force.
-/
namespace MpsShdict

open Words Links

/-! ### Cells -/

/-- What a cell is for: a free run, a block of pages that somebody holds, or a page of
chunks of one size. `used` are the numbers of the live chunks of a page. -/
inductive CellKind where
  | free
  | block
  | chunks (shift : Nat) (used : List Nat)

/-- `len` pages from page `pos` on. A page of chunks is a cell of one page. -/
structure Cell where
  pos : Nat
  kind : CellKind
  len : Nat

/-- The chunks of a page. -/
def chunkCount (sz : Sizes) (shift : Nat) : Nat := sz.pagesize >>> shift

/-- The chunks that hold the bitmap of their page. Only pages of small chunks have any;
the bits of larger chunks fit into the descriptor. -/
def reserved (sz : Sizes) (shift : Nat) : Nat :=
  if shift < sz.exactShift then bitmapChunks sz shift else 0

/-- The chunks that a page can give out. -/
def usable (sz : Sizes) (shift : Nat) : Nat := chunkCount sz shift - reserved sz shift

/-- The type bits of a page of chunks. -/
def chunkType (sz : Sizes) (shift : Nat) : Nat :=
  if shift < sz.exactShift then mpsSlabSmall
  else if shift = sz.exactShift then mpsSlabExact else mpsSlabBig

theorem chunkType_lt {sz : Sizes} {shift : Nat} : chunkType sz shift < 4 := by
  unfold chunkType mpsSlabSmall mpsSlabExact mpsSlabBig
  split
  · omega
  · split <;> omega

/-- A page of chunks is not taken for one of a block. -/
theorem chunkType_ne_page {sz : Sizes} {shift : Nat} : chunkType sz shift ≠ mpsSlabPage := by
  unfold chunkType
  split
  · decide
  · split <;> decide

theorem chunkType_eq_small {sz : Sizes} {shift : Nat} :
    chunkType sz shift = mpsSlabSmall ↔ shift < sz.exactShift := by
  unfold chunkType
  split
  · next hlt => exact iff_of_true rfl hlt
  · next hlt => exact iff_of_false (by split <;> decide) hlt

theorem chunkType_eq_exact {sz : Sizes} {shift : Nat} :
    chunkType sz shift = mpsSlabExact ↔ shift = sz.exactShift := by
  unfold chunkType
  split
  · next hlt => exact iff_of_false (by decide) (Nat.ne_of_lt hlt)
  · split
    · next heq => exact iff_of_true rfl heq
    · next hne => exact iff_of_false (by decide) hne

/-- Every chunk of the page is taken. -/
def Full (sz : Sizes) (shift : Nat) (used : List Nat) : Prop :=
  ∀ j < chunkCount sz shift, j < reserved sz shift ∨ j ∈ used

instance (sz : Sizes) (shift : Nat) (used : List Nat) : Decidable (Full sz shift used) :=
  Nat.decidableBallLT _ _

/-- The bits of page `pos` tell which of its chunks are taken, in the three ways of the
source: in bitmap words at the head of the page, in the field `slab`, or in the upper half
of that field with the chunk size in the lower one. -/
def ChunkBits (sz : Sizes) (pool : SlabPool) (pos shift : Nat) (used : List Nat) : Prop :=
  let slab := (pool.desc (pool.pageDesc pos)).slab
  if shift < sz.exactShift then
    slab = shift ∧ ∀ n < bitmapWords sz shift, ∀ b,
      (pool.bitmap (pool.pageAddr sz (pool.pageDesc pos)) n).testBit b =
        decide (b < 64 ∧ (n * 64 + b < reserved sz shift ∨ n * 64 + b ∈ used))
  else if shift = sz.exactShift then
    ∀ j, slab.testBit j = decide (j ∈ used)
  else
    slab % 2 ^ 32 = shift ∧ ∀ j, slab.testBit (mpsSlabMapShift + j) = decide (j ∈ used)

/-- The lists of the allocator: `none` is `pool->free`, `some q` the slot `q`. -/
def header : Option Nat → Nat
  | none => freeOff
  | some q => slotOff q

/-- A list of a pool with `n` slots. -/
def IsList (n : Nat) : Option Nat → Prop
  | none => True
  | some q => q < n

/-- The type bits of the pages on a list. -/
def listType (sz : Sizes) (minShift : Nat) : Option Nat → Nat
  | none => mpsSlabPage
  | some q => chunkType sz (minShift + q)

/-- The list a cell is on, if it is on one. A block is on none, nor is a page all of whose
chunks are taken. -/
def Cell.list (sz : Sizes) (minShift : Nat) (c : Cell) : Option (Option Nat) :=
  match c.kind with
  | .free => some none
  | .block => none
  | .chunks shift used => if Full sz shift used then none else some (some (shift - minShift))

/-- The descriptors of a cell describe it. For a free run these are the first and the last
of its pages and the clean ones in between, for a block the count at its head, and for a
page of chunks its bits. -/
def CellOk (sz : Sizes) (P : Nat) (pool : SlabPool) (c : Cell) : Prop :=
  let d := fun i => pool.desc (pool.pageDesc i)
  match c.kind with
  | .free => (d c.pos).slab = c.len ∧
      (∀ j, c.pos ≤ j → j < c.pos + c.len → (d j).prev % 4 = mpsSlabPage) ∧
      (1 < c.len → c.pos + c.len < P → (d (c.pos + c.len - 1)).prev = pool.pageDesc c.pos) ∧
      (∀ j, c.pos < j → j < c.pos + c.len → (d j).slab = mpsSlabPageFree)
  | .block => d c.pos = ⟨c.len ||| mpsSlabPageStart, 0, mpsSlabPage⟩ ∧
      ∀ j, c.pos < j → j < c.pos + c.len → d j = ⟨mpsSlabPageBusy, 0, mpsSlabPage⟩
  | .chunks shift used => c.len = 1 ∧ (pool.minShift ≤ shift ∧ shift < sz.pagesizeShift) ∧
      (d c.pos).prev % 4 = chunkType sz shift ∧
      (used.Nodup ∧ ∀ j ∈ used, reserved sz shift ≤ j ∧ j < chunkCount sz shift) ∧
      ChunkBits sz pool c.pos shift used ∧ (Full sz shift used → (d c.pos).next = 0)

/-! ### Geometry -/

/-- The sizes of a pool with pages of size `2 ^ s`: those that the source computes for
pages of 4 to 64 KiB, with a power of two below the page size for the least chunk. -/
structure Sizing (sz : Sizes) (s : Nat) (pool : SlabPool) : Prop where
  sizes : sz = mpsSlabSizesInit (2 ^ s)
  le_s : 12 ≤ s
  s_le : s ≤ 16
  minShift_lt : pool.minShift < s
  minSize : pool.minSize = 2 ^ pool.minShift

/-- The header of a pool of `P` pages of size `2 ^ s`: where the descriptors and the pages
begin and end, and that nothing of it overlaps or overflows. -/
structure Geometry (sz : Sizes) (s P : Nat) (pool : SlabPool) : Prop extends Sizing sz s pool where
  pages : pool.pages = slotOff (s - pool.minShift) + sizeofStat * (s - pool.minShift)
  last : pool.last = pool.pageDesc P
  last_le : pool.last ≤ pool.start
  start_dvd : 2 ^ s ∣ pool.start
  end_le : pool.start + P * 2 ^ s ≤ pool.poolEnd
  end_lt : pool.poolEnd < 2 ^ 64
  stats : pool.stats = slotOff (s - pool.minShift)

/-- The parts of the header that no call changes. What is stated in terms of offsets and
sizes carries over from one pool to the other. -/
structure SameHeader (p q : SlabPool) : Prop where
  data : q.data = p.data
  minSize : q.minSize = p.minSize
  minShift : q.minShift = p.minShift
  pages : q.pages = p.pages
  last : q.last = p.last
  stats : q.stats = p.stats
  start : q.start = p.start
  poolEnd : q.poolEnd = p.poolEnd
  logNomem : q.logNomem = p.logNomem

theorem SameHeader.refl (p : SlabPool) : SameHeader p p :=
  ⟨rfl, rfl, rfl, rfl, rfl, rfl, rfl, rfl, rfl⟩

theorem SameHeader.trans {p q r : SlabPool} (h₁ : SameHeader p q) (h₂ : SameHeader q r) :
    SameHeader p r :=
  ⟨h₂.data.trans h₁.data, h₂.minSize.trans h₁.minSize, h₂.minShift.trans h₁.minShift,
    h₂.pages.trans h₁.pages, h₂.last.trans h₁.last, h₂.stats.trans h₁.stats,
    h₂.start.trans h₁.start, h₂.poolEnd.trans h₁.poolEnd, h₂.logNomem.trans h₁.logNomem⟩

namespace Sizing
variable {sz : Sizes} {s : Nat} {pool pool' : SlabPool}

theorem same (g : Sizing sz s pool) (h : SameHeader pool pool') : Sizing sz s pool' := by
  obtain ⟨g1, g2, g3, g4, g5⟩ := g
  refine ⟨g1, g2, g3, h.minShift ▸ g4, ?_⟩
  rw [h.minSize, h.minShift, g5]

theorem pagesize (g : Sizing sz s pool) : sz.pagesize = 2 ^ s := by rw [g.sizes]; rfl

theorem pagesizeShift (g : Sizing sz s pool) : sz.pagesizeShift = s := by
  rw [g.sizes]
  simp [mpsSlabSizesInit, shiftRounds]

theorem maxSize (g : Sizing sz s pool) : sz.maxSize = 2 ^ (s - 1) := by
  have := g.le_s
  rw [g.sizes]
  obtain ⟨k, rfl⟩ : ∃ k, s = k + 1 := ⟨s - 1, by omega⟩
  simp [mpsSlabSizesInit, Nat.pow_succ]

theorem exactSize (g : Sizing sz s pool) : sz.exactSize = 2 ^ (s - 6) := by
  have := g.le_s
  rw [g.sizes]
  obtain ⟨k, rfl⟩ : ∃ k, s = k + 6 := ⟨s - 6, by omega⟩
  simp [mpsSlabSizesInit, Nat.pow_add]

theorem exactShift (g : Sizing sz s pool) : sz.exactShift = s - 6 := by
  have h := g.exactSize
  rw [g.sizes] at h ⊢
  simp only [mpsSlabSizesInit, shiftRounds] at h ⊢
  rw [h, Nat.log2_two_pow]

end Sizing

namespace Geometry
variable {sz : Sizes} {s P i j q : Nat} {pool pool' : SlabPool} {a : Option Nat}

theorem same (g : Geometry sz s P pool) (h : SameHeader pool pool') : Geometry sz s P pool' := by
  obtain ⟨g0, g6, g7, g8, g9, g10, g11, g12⟩ := g
  refine ⟨g0.same h, ?_, ?_, ?_, h.start ▸ g9, ?_, h.poolEnd ▸ g11, ?_⟩
  · rw [h.pages, h.minShift, g6]
  · simp only [SlabPool.pageDesc, h.last, h.pages, g7]
  · rw [h.last, h.start]; exact g8
  · rw [h.start, h.poolEnd]; exact g10
  · rw [h.stats, h.minShift, g12]

/-- A chunk size of the pool has a slot. -/
theorem slot_lt {k : Nat} (g : Geometry sz s P pool)
    (hk : pool.minShift ≤ k ∧ k < sz.pagesizeShift) :
    k - pool.minShift < s - pool.minShift := by
  have := g.pagesizeShift
  omega

theorem pageDesc_inj : pool.pageDesc i = pool.pageDesc j ↔ i = j := by
  simp [SlabPool.pageDesc, sizeofPage]

theorem pageDesc_ne (h : i ≠ j) : pool.pageDesc i ≠ pool.pageDesc j :=
  fun he => h (pageDesc_inj.mp he)

theorem header_lt (g : Geometry sz s P pool) (ha : IsList (s - pool.minShift) a) :
    header a < pool.pages := by
  have := g.pages
  cases a with
  | none => simp only [header, freeOff, slotOff, sizeofPool, sizeofPage, sizeofStat] at *; omega
  | some q =>
    simp only [header, slotOff, sizeofPool, sizeofPage, sizeofStat, IsList] at *
    omega

theorem pageDesc_ne_header (g : Geometry sz s P pool) (ha : IsList (s - pool.minShift) a) :
    pool.pageDesc i ≠ header a := by
  have := g.header_lt ha
  simp only [SlabPool.pageDesc]
  omega

theorem header_inj {b : Option Nat} : header a = header b ↔ a = b := by
  cases a <;> cases b <;> simp [header, slotOff, freeOff, sizeofPool, sizeofPage] <;> omega

theorem dvd_header : 4 ∣ header a := by
  cases a <;> simp only [header, slotOff, freeOff, sizeofPool, sizeofPage] <;> omega

theorem header_ne_zero : header a ≠ 0 := by
  cases a <;> simp only [header, slotOff, freeOff, sizeofPool, sizeofPage] <;> omega

theorem dvd_pageDesc (g : Geometry sz s P pool) : 4 ∣ pool.pageDesc i := by
  have := g.pages
  simp only [SlabPool.pageDesc, slotOff, sizeofPool, sizeofPage, sizeofStat] at *
  omega

theorem pageDesc_ne_zero (g : Geometry sz s P pool) : pool.pageDesc i ≠ 0 := by
  have := g.pages
  simp only [SlabPool.pageDesc, slotOff, sizeofPool, sizeofPage, sizeofStat] at *
  omega

theorem pageAddr_eq : pool.pageAddr sz (pool.pageDesc i) =
    i * 2 ^ sz.pagesizeShift + pool.start := by
  simp only [SlabPool.pageAddr, SlabPool.pageDesc, Nat.add_sub_cancel_left, Nat.shiftLeft_eq]
  rw [Nat.mul_div_cancel_left _ (by decide)]

end Geometry

/-! ### Shelves -/

/-- Page `j` is one of the cell's. -/
def Cell.Has (c : Cell) (j : Nat) : Prop := c.pos ≤ j ∧ j < c.pos + c.len

/-- **The pool describes the cells** and its lists hold those that belong on them. The
cells are apart and in order, each is described by its own descriptors, and every list is
a ring of exactly the cells that are to be on it. -/
structure Shelf (sz : Sizes) (s P : Nat) (pool : SlabPool) (cells : List Cell)
    (lists : Option Nat → List Nat) : Prop where
  geo : Geometry sz s P pool
  sep : cells.Pairwise fun a b => a.pos + a.len ≤ b.pos
  bound : ∀ c ∈ cells, 0 < c.len ∧ c.pos + c.len ≤ P
  ok : ∀ c ∈ cells, CellOk sz P pool c
  ring : ∀ a, IsList (s - pool.minShift) a → Ring (fun x => x ≠ header a)
    (fun x => (pool.desc x).next) (mpsSlabPagePrev pool.desc) (header a) (lists a)
  mem : ∀ a, IsList (s - pool.minShift) a → ∀ x, x ∈ lists a ↔
    ∃ c ∈ cells, c.list sz pool.minShift = some a ∧ x = pool.pageDesc c.pos

section CellOk
variable {sz : Sizes} {s P : Nat} {pool pool' : SlabPool} {c : Cell} {a : Option Nat}

theorem SameHeader.pageDesc (hs : SameHeader pool pool') (i : Nat) :
    pool'.pageDesc i = pool.pageDesc i := by
  rw [SlabPool.pageDesc, SlabPool.pageDesc, hs.pages]

theorem SameHeader.pageAddr (hs : SameHeader pool pool') (i : Nat) :
    pool'.pageAddr sz i = pool.pageAddr sz i := by
  rw [SlabPool.pageAddr, SlabPool.pageAddr, hs.pages, hs.start]

/-- The type bits of a cell are those of the list it is on. -/
theorem CellOk.type (h : CellOk sz P pool c) (hb : 0 < c.len)
    (hl : c.list sz pool.minShift = some a) :
    (pool.desc (pool.pageDesc c.pos)).prev % 4 = listType sz pool.minShift a := by
  obtain ⟨pos, kind, len⟩ := c
  cases kind with
  | free =>
    simp only [Cell.list, Option.some.injEq] at hl
    exact hl ▸ h.2.1 pos le_rfl (Nat.lt_add_of_pos_right hb)
  | block => simp [Cell.list] at hl
  | chunks shift used =>
    obtain ⟨-, ⟨h1, -⟩, h2, -⟩ := h
    simp only [Cell.list] at hl
    split at hl
    · simp at hl
    · simp only [Option.some.injEq] at hl
      rw [← hl, listType, Nat.add_sub_cancel' h1]
      exact h2

/-- The pages of a block have its type. -/
theorem CellOk.block_prev {pos len i : Nat} (h : CellOk sz P pool ⟨pos, .block, len⟩) (h1 : pos ≤ i)
    (h2 : i < pos + len) : (pool.desc (pool.pageDesc i)).prev = mpsSlabPage := by
  rcases Nat.eq_or_lt_of_le h1 with rfl | hlt
  · exact congrArg SlabPage.prev h.1
  · exact congrArg SlabPage.prev (h.2 i hlt h2)

/-- A list that a cell is on is one the pool has. -/
theorem CellOk.isList (g : Geometry sz s P pool) (h : CellOk sz P pool c)
    (hl : c.list sz pool.minShift = some a) : IsList (s - pool.minShift) a := by
  obtain ⟨pos, kind, len⟩ := c
  cases kind with
  | free =>
    simp only [Cell.list, Option.some.injEq] at hl
    rw [← hl]
    trivial
  | block => simp [Cell.list] at hl
  | chunks shift used =>
    obtain ⟨-, ⟨h1, h2⟩, -⟩ := h
    rw [g.pagesizeShift] at h2
    simp only [Cell.list] at hl
    split at hl
    · simp at hl
    · simp only [Option.some.injEq] at hl
      rw [← hl]
      show shift - pool.minShift < s - pool.minShift
      omega

theorem bitmapWords_le (g : Geometry sz s P pool) (shift : Nat) :
    8 * bitmapWords sz shift ≤ 2 ^ s := by
  rw [bitmapWords, g.pagesize, Nat.shiftRight_eq_div_pow]
  have := Nat.div_le_self (2 ^ s) (2 ^ shift)
  omega

/-- Only the field `slab` and the words of the page matter to the bits. -/
theorem ChunkBits.frame {pos shift : Nat} {used : List Nat} (g : Geometry sz s P pool)
    (h : ChunkBits sz pool pos shift used) (hs : SameHeader pool pool')
    (hslab : (pool'.desc (pool.pageDesc pos)).slab = (pool.desc (pool.pageDesc pos)).slab)
    (hw : ∀ o, pool.start + pos * 2 ^ s ≤ o → o < pool.start + (pos + 1) * 2 ^ s →
      pool'.word o = pool.word o) : ChunkBits sz pool' pos shift used := by
  simp only [ChunkBits, hs.pageDesc, hs.pageAddr, hslab] at h ⊢
  split
  · next hlt =>
    rw [if_pos hlt] at h
    refine ⟨h.1, ?_⟩
    intro n hn b
    rw [← h.2 n hn b]
    have hle := bitmapWords_le g shift
    have hword : pool'.bitmap (pool.pageAddr sz (pool.pageDesc pos)) n =
        pool.bitmap (pool.pageAddr sz (pool.pageDesc pos)) n := by
      rw [Geometry.pageAddr_eq, g.pagesizeShift]
      refine hw _ (by omega) ?_
      rw [Nat.add_mul]
      omega
    rw [hword]
  · next hlt => rwa [if_neg hlt] at h

/-- Only its own descriptors and bitmap words matter to a cell; where it is on a list, its
links may change. Every operation uses this for all the cells it does not touch. -/
theorem CellOk.frame (g : Geometry sz s P pool) (h : CellOk sz P pool c)
    (hs : SameHeader pool pool') (hb : 0 < c.len)
    (hw : ∀ j o, c.Has j → pool.start + j * 2 ^ s ≤ o → o < pool.start + (j + 1) * 2 ^ s →
      pool'.word o = pool.word o)
    (hd : ∀ j, c.Has j → pool'.desc (pool.pageDesc j) = pool.desc (pool.pageDesc j) ∨
      j = c.pos ∧ c.list sz pool.minShift ≠ none ∧
        (pool'.desc (pool.pageDesc j)).slab = (pool.desc (pool.pageDesc j)).slab ∧
        (pool'.desc (pool.pageDesc j)).prev % 4 = (pool.desc (pool.pageDesc j)).prev % 4) :
    CellOk sz P pool' c := by
  obtain ⟨pos, kind, len⟩ := c
  have hhead := hd pos ⟨le_rfl, Nat.lt_add_of_pos_right hb⟩
  have hslab : (pool'.desc (pool.pageDesc pos)).slab = (pool.desc (pool.pageDesc pos)).slab := by
    rcases hhead with he | ⟨-, -, he, -⟩
    · rw [he]
    · exact he
  have htype : (pool'.desc (pool.pageDesc pos)).prev % 4 =
      (pool.desc (pool.pageDesc pos)).prev % 4 := by
    rcases hhead with he | ⟨-, -, -, he⟩
    · rw [he]
    · exact he
  -- the words of a cell and its descriptors are enough to check it
  cases kind with
  | free =>
    obtain ⟨h1, h2, h3, h4⟩ := h
    have hbehind : ∀ j, pos < j → j < pos + len →
        pool'.desc (pool.pageDesc j) = pool.desc (pool.pageDesc j) := fun j hj hj' =>
      (hd j ⟨Nat.le_of_lt hj, hj'⟩).resolve_right fun he => absurd he.1 (Nat.ne_of_gt hj)
    simp only [CellOk, hs.pageDesc]
    refine ⟨hslab.trans h1, ?_, ?_, ?_⟩
    · intro j hj hj'
      rcases hd j ⟨hj, hj'⟩ with he | ⟨-, -, -, he⟩
      · rw [he]
        exact h2 j hj hj'
      · exact he.trans (h2 j hj hj')
    · intro h5 h6
      replace h5 : 1 < len := h5
      rw [hbehind _ (by omega) (by omega)]
      exact h3 h5 h6
    · intro j hj hj'
      rw [hbehind j hj hj']
      exact h4 j hj hj'
  | block =>
    obtain ⟨h1, h2⟩ := h
    simp only [CellOk, hs.pageDesc]
    have hsame : ∀ j, pos ≤ j → j < pos + len →
        pool'.desc (pool.pageDesc j) = pool.desc (pool.pageDesc j) := fun j hj hj' =>
      (hd j ⟨hj, hj'⟩).resolve_right fun he => he.2.1 rfl
    refine ⟨(hsame pos le_rfl (Nat.lt_add_of_pos_right hb)).trans h1, ?_⟩
    intro j hj hj'
    exact (hsame j (Nat.le_of_lt hj) hj').trans (h2 j hj hj')
  | chunks shift used =>
    obtain ⟨h1, h2, h3, h4, h5, h6⟩ := h
    simp only [CellOk, hs.pageDesc, hs.minShift]
    refine ⟨h1, h2, htype.trans h3, h4, ?_, ?_⟩
    · exact h5.frame g hs hslab (hw pos · ⟨le_rfl, Nat.lt_add_of_pos_right hb⟩)
    · intro hf
      rcases hhead with he | ⟨-, he, -⟩
      · rw [he]
        exact h6 hf
      · simp [Cell.list, hf] at he

end CellOk

end MpsShdict
