import MpsShdict.Lib.Words
import Mathlib.Logic.Function.Basic

/-! # The slab allocator (`mps_slab.c`)

A pool is one block of shared memory. It begins with its header and, behind it, a list
head and a statistics record for every chunk size, the descriptors of its pages, and from
`start` on the pages themselves. Processes map it at different addresses, so that
everything in it is named by its offset. The memory is split by what the code stores
where: `desc` holds the page descriptors and the list heads, `stat` the statistics and
`word` the bitmap words at the head of a page of small chunks. All of it is 64 bits wide.

A request of at most half a page is rounded up to a power of two and served from a page of
chunks of that size; a larger one gets pages of its own. A page of chunks keeps one bit
for each of them, in one of three places that depend on the size, and a page with a free
chunk is on the list of its slot. Free pages form runs: the descriptor of the first page
of a run counts its pages, that of the last one leads back to the first, and the runs are
on `pool->free`. The two low bits of the field `prev` of a descriptor are its type, so
every read of a link masks them.

A pointer is modelled by its offset; `base` is the address at which the calling process
has mapped the pool. The definitions follow the source assignment by assignment and wrap
around where its unsigned arithmetic does. The loop over the free runs takes the number of
rounds it may run for and answers `none` when it would need more.
-/
namespace MpsShdict

open Words

/-! ### The pool -/

/-- `mps_slab_page_t`. What the field `slab` means depends on the type of the page: a
count of pages, a bitmap, or half a bitmap and a chunk size. -/
@[ext] structure SlabPage where
  slab : Nat
  next : Nat
  prev : Nat

/-- `mps_slab_stat_t`: the chunks of a slot and those in use, the requests and those that
have failed. -/
structure SlabStat where
  total : Nat
  used : Nat
  reqs : Nat
  fails : Nat

/-- The page descriptors and list heads, by offset. -/
abbrev DescMem := Nat → SlabPage

/-- What the allocator reports through `mps_log_error`. There is no other sign that a free
has been refused. -/
inductive SlabLog where
  /-- "page is busy" -/
  | pageIsBusy
  /-- "no memory" -/
  | noMemory
  /-- "outside of pool" -/
  | outsideOfPool
  /-- "pointer to wrong chunk" -/
  | wrongChunk
  /-- "chunk is already free" -/
  | chunkAlreadyFree
  /-- "page is already free" -/
  | pageAlreadyFree
  /-- "pointer to wrong page" -/
  | wrongPage
  deriving DecidableEq, Repr

/-- `mps_slab_pool_t`, with the memory behind it and the error messages so far. Every
operation takes it and gives the one that it leaves. -/
structure SlabPool where
  data : Nat
  minSize : Nat
  minShift : Nat
  pages : Nat
  last : Nat
  stats : Nat
  pfree : Nat
  start : Nat
  poolEnd : Nat
  logNomem : Bool
  desc : DescMem
  stat : Nat → SlabStat
  word : Nat → Nat
  log : List SlabLog

/-- `sizeof(mps_slab_pool_t)`. -/
def sizeofPool : Nat := 144

/-- `sizeof(mps_slab_page_t)`. -/
def sizeofPage : Nat := 24

/-- `sizeof(mps_slab_stat_t)`. -/
def sizeofStat : Nat := 32

/-- The offset of `pool->free`. -/
def freeOff : Nat := 80

/-- The offset of `mps_slab_slots(pool)[i]`. -/
def slotOff (i : Nat) : Nat := sizeofPool + sizeofPage * i

/-- `MPS_SLAB_PAGE`, the type of a page that is free or in a block of pages. -/
def mpsSlabPage : Nat := 0
/-- `MPS_SLAB_BIG`. -/
def mpsSlabBig : Nat := 1
/-- `MPS_SLAB_EXACT`. -/
def mpsSlabExact : Nat := 2
/-- `MPS_SLAB_SMALL`. -/
def mpsSlabSmall : Nat := 3
/-- `MPS_SLAB_PAGE_FREE`. -/
def mpsSlabPageFree : Nat := 0
/-- `MPS_SLAB_PAGE_BUSY`. -/
def mpsSlabPageBusy : Nat := 2 ^ 64 - 1
/-- `MPS_SLAB_PAGE_START`. -/
def mpsSlabPageStart : Nat := 2 ^ 63
/-- `MPS_SLAB_SHIFT_MASK`. -/
def mpsSlabShiftMask : Nat := 15
/-- `MPS_SLAB_MAP_SHIFT`. -/
def mpsSlabMapShift : Nat := 32
/-- `MPS_SLAB_MAP_MASK`. -/
def mpsSlabMapMask : Nat := (2 ^ 32 - 1) * 2 ^ 32
/-- `MPS_SLAB_BUSY`. -/
def mpsSlabBusy : Nat := 2 ^ 64 - 1

/-! ### Sizes -/

/-- The sizes that depend on the page size, which the source computes once in
`mps_slab_sizes_init` and keeps in static variables of each process. -/
structure Sizes where
  pagesize : Nat
  pagesizeShift : Nat
  maxSize : Nat
  exactSize : Nat
  exactShift : Nat

/-- The number of rounds of `for (s = n; s >>= 1; shift++)`. -/
def shiftRounds (n : Nat) : Nat := n.log2

/-- `mps_slab_sizes_init`. -/
def mpsSlabSizesInit (pagesize : Nat) : Sizes where
  pagesize := pagesize
  pagesizeShift := shiftRounds pagesize
  maxSize := pagesize / 2
  exactSize := pagesize / 64
  exactShift := shiftRounds (pagesize / 64)

/-! ### Assignments -/

namespace DescMem
variable (m : DescMem) (x v : Nat)

/-- `x->slab = v`. -/
def setSlab : DescMem := Function.update m x { m x with slab := v }

/-- `x->next = v`. -/
def setNext : DescMem := Function.update m x { m x with next := v }

/-- `x->prev = v`. -/
def setPrev : DescMem := Function.update m x { m x with prev := v }

variable {m x v} {a : Nat}

theorem setSlab_ne (h : a ≠ x) : m.setSlab x v a = m a := by simp [setSlab, h]
theorem setNext_ne (h : a ≠ x) : m.setNext x v a = m a := by simp [setNext, h]
theorem setPrev_ne (h : a ≠ x) : m.setPrev x v a = m a := by simp [setPrev, h]

@[simp] theorem setSlab_slab : (m.setSlab x v a).slab = if a = x then v else (m a).slab := by
  by_cases h : a = x <;> simp [setSlab, Function.update, h]

@[simp] theorem setSlab_next : (m.setSlab x v a).next = (m a).next := by
  by_cases h : a = x <;> simp [setSlab, Function.update, h]

@[simp] theorem setSlab_prev : (m.setSlab x v a).prev = (m a).prev := by
  by_cases h : a = x <;> simp [setSlab, Function.update, h]

@[simp] theorem setNext_slab : (m.setNext x v a).slab = (m a).slab := by
  by_cases h : a = x <;> simp [setNext, Function.update, h]

@[simp] theorem setNext_next : (m.setNext x v a).next = if a = x then v else (m a).next := by
  by_cases h : a = x <;> simp [setNext, Function.update, h]

@[simp] theorem setNext_prev : (m.setNext x v a).prev = (m a).prev := by
  by_cases h : a = x <;> simp [setNext, Function.update, h]

@[simp] theorem setPrev_slab : (m.setPrev x v a).slab = (m a).slab := by
  by_cases h : a = x <;> simp [setPrev, Function.update, h]

@[simp] theorem setPrev_next : (m.setPrev x v a).next = (m a).next := by
  by_cases h : a = x <;> simp [setPrev, Function.update, h]

@[simp] theorem setPrev_prev : (m.setPrev x v a).prev = if a = x then v else (m a).prev := by
  by_cases h : a = x <;> simp [setPrev, Function.update, h]

/-- The `n` descriptors from `x` on set to one value. -/
def fill (m : DescMem) (x n : Nat) (d : SlabPage) : DescMem :=
  fun a => if x ≤ a ∧ a < x + sizeofPage * n ∧ (a - x) % sizeofPage = 0 then d else m a

/-- `ngx_memzero` of the `n` descriptors from `x` on. -/
def zero (m : DescMem) (x n : Nat) : DescMem := m.fill x n ⟨0, 0, 0⟩

end DescMem

/-- `mps_slab_page_type`. -/
def mpsSlabPageType (m : DescMem) (page : Nat) : Nat := (m page).prev &&& 3

/-- `mps_slab_page_prev`. -/
def mpsSlabPagePrev (m : DescMem) (page : Nat) : Nat := andNot (m page).prev 3

namespace SlabPool
variable (pool : SlabPool)

/-- `mps_log_error`. -/
def logError (e : SlabLog) : SlabPool := { pool with log := e :: pool.log }

/-- An assignment to `mps_pool_stats(pool)[slot]`. -/
def setStat (slot : Nat) (f : SlabStat → SlabStat) : SlabPool :=
  { pool with stat := Function.update pool.stat slot (f (pool.stat slot)) }

/-- `bitmap[n]`. -/
def bitmap (bitmap n : Nat) : Nat := pool.word (bitmap + 8 * n)

/-- `bitmap[n] = v`. -/
def setBitmap (bitmap n v : Nat) : SlabPool :=
  { pool with word := Function.update pool.word (bitmap + 8 * n) v }

/-- `for (i = lo; i < hi; i++) bitmap[i] = v`. -/
def fillBitmap (bitmap lo hi v : Nat) : SlabPool :=
  { pool with word := fun o =>
      if bitmap + 8 * lo ≤ o ∧ o < bitmap + 8 * hi ∧ (o - bitmap) % 8 = 0 then v
      else pool.word o }

/-- The offset of the descriptor of page `i`. -/
def pageDesc (i : Nat) : Nat := pool.pages + sizeofPage * i

/-- `mps_slab_page_addr`. -/
def pageAddr (sz : Sizes) (page : Nat) : Nat :=
  (((page - pool.pages) / sizeofPage) <<< sz.pagesizeShift) + pool.start

end SlabPool

/-! ### Initialisation -/

/-- The list heads of the `n` slots; only `next` is used in a list head. -/
def initSlots (m : DescMem) (n : Nat) : DescMem := fun o =>
  if sizeofPool ≤ o ∧ o < sizeofPool + sizeofPage * n ∧ (o - sizeofPool) % sizeofPage = 0
  then ⟨0, o, 0⟩ else m o

/-- `pool->free` and the descriptors at `page`, which begin one run of all pages. -/
def initRun (m : DescMem) (page pages : Nat) : DescMem :=
  let m := m.zero page pages
  let m := ((m.setSlab freeOff 0).setNext freeOff page).setPrev freeOff 0
  ((m.setSlab page pages).setNext page freeOff).setPrev page freeOff

/-- `mps_slab_init`, `mutexErr` being the result of `mps_slab_init_mutex`. The memory of
the pool may hold anything before. The number of pages is estimated first and reduced by
what the alignment of `start` costs; all of the arithmetic is unsigned. -/
def mpsSlabInit (sz : Sizes) (base : Nat) (desc : DescMem) (stat : Nat → SlabStat)
    (word : Nat → Nat) (poolSize minShift : Nat) (mutexErr : Int) : Except Int SlabPool :=
  if mutexErr ≠ 0 then
    .error mutexErr
  else
    let size := sub64 poolSize sizeofPool
    let n := sub64 sz.pagesizeShift minShift
    let stats := u64 (sizeofPool + n * sizeofPage)
    let page := u64 (stats + n * sizeofStat)
    let size := sub64 size (n * (sizeofPage + sizeofStat))
    let pages := size / (sz.pagesize + sizeofPage)
    let desc := initRun (initSlots desc n) page pages
    let start := u64 (alignUp (base + page + pages * sizeofPage) sz.pagesize - base)
    let m := int64 (sub64 pages (sub64 poolSize start / sz.pagesize))
    let fewer := sub64 pages m.toNat
    let desc := if 0 < m then desc.setSlab page fewer else desc
    let pages := if 0 < m then fewer else pages
    .ok { data := 0, minSize := 1 <<< minShift, minShift := minShift, pages := page,
          last := page + sizeofPage * pages, stats := stats, pfree := pages, start := start,
          poolEnd := poolSize, logNomem := true, desc := desc,
          stat := fun i => if i < n then ⟨0, 0, 0, 0⟩ else stat i,
          word := word, log := [] }

/-! ### Pages -/

/-- The run at `page` gives its first `pages` pages away. What is left of it takes its
place on the list; the first page that is given away is marked with the count, the others
as busy. -/
def takePages (pool : SlabPool) (page pages : Nat) : SlabPool :=
  let m := pool.desc
  let at' := fun i => page + sizeofPage * i
  let m :=
    if pages < (m page).slab then
      let m := m.setPrev (at' ((m page).slab - 1)) (at' pages)
      let m := m.setSlab (at' pages) ((m page).slab - pages)
      let m := m.setNext (at' pages) (m page).next
      let m := m.setPrev (at' pages) (m page).prev
      let p := (m page).prev
      let m := m.setNext p (at' pages)
      let next := (m page).next
      m.setPrev next (at' pages)
    else
      let p := (m page).prev
      let m := m.setNext p (m page).next
      let next := (m page).next
      m.setPrev next (m page).prev
  let m := m.setSlab page (pages ||| mpsSlabPageStart)
  let m := m.setNext page 0
  let m := m.setPrev page mpsSlabPage
  { pool with
    pfree := sub64 pool.pfree pages
    desc := m.fill (at' 1) (pages - 1) ⟨mpsSlabPageBusy, 0, mpsSlabPage⟩ }

/-- The loop of `mps_slab_alloc_pages`, the run at `page` being next: the first run that
is long enough is used, and at the end of the list the message about the lack of memory is
reported unless the pool is set not to. -/
def allocPagesLoop : Nat → SlabPool → Nat → Nat → Option (SlabPool × Option Nat)
  | 0, _, _, _ => none
  | fuel + 1, pool, page, pages =>
    if page = freeOff then
      some (if pool.logNomem then pool.logError .noMemory else pool, none)
    else if pages ≤ (pool.desc page).slab then
      some (takePages pool page pages, some page)
    else
      allocPagesLoop fuel pool (pool.desc page).next pages

/-- `mps_slab_alloc_pages`. -/
def mpsSlabAllocPages (fuel : Nat) (pool : SlabPool) (pages : Nat) :
    Option (SlabPool × Option Nat) :=
  allocPagesLoop fuel pool (pool.desc freeOff).next pages

/-- `prev->next = page->next; next->prev = page->prev`: the descriptor leaves the list it
is on. The back link is read through the mask, the forward one is not tagged. -/
def unlinkPage (m : DescMem) (page : Nat) : DescMem :=
  let prev := mpsSlabPagePrev m page
  let m := m.setNext prev (m page).next
  let next := (m page).next
  m.setPrev next (m page).prev

/-- The merge with the run behind. `pages` counts the pages of the run but one. Whether
there is a free run behind is read off the type and the link of the next descriptor. -/
def joinNext (last : Nat) (m : DescMem) (page pages : Nat) : DescMem × Nat :=
  let join := page + sizeofPage * (m page).slab
  if join < last ∧ mpsSlabPageType m join = mpsSlabPage ∧ (m join).next ≠ 0 then
    let pages := pages + (m join).slab
    let m := m.setSlab page ((m page).slab + (m join).slab)
    let m := unlinkPage m join
    (((m.setSlab join mpsSlabPageFree).setNext join 0).setPrev join mpsSlabPage, pages)
  else
    (m, pages)

/-- The merge with the run before: the descriptors, the head of the merged run and the
count of its pages but one. From the last page before, the head of its run is found by the
back link where the page is not itself the head. -/
def joinPrev (first : Nat) (m : DescMem) (page pages : Nat) : DescMem × Nat × Nat :=
  let join := page - sizeofPage
  if first < page ∧ mpsSlabPageType m join = mpsSlabPage then
    let join := if (m join).slab = mpsSlabPageFree then mpsSlabPagePrev m join else join
    if (m join).next ≠ 0 then
      let pages := pages + (m join).slab
      let m := m.setSlab join ((m join).slab + (m page).slab)
      let m := unlinkPage m join
      (((m.setSlab page mpsSlabPageFree).setNext page 0).setPrev page mpsSlabPage, join, pages)
    else
      (m, page, pages)
  else
    (m, page, pages)

/-- `mps_slab_free_pages`: the pages become a run, the free runs on either side are merged
into it, and it goes to the head of `pool->free`. -/
def mpsSlabFreePages (pool : SlabPool) (page pages : Nat) : SlabPool :=
  let m := pool.desc
  let m := m.setSlab page pages
  let m := m.zero (page + sizeofPage) (pages - 1)
  let m := if (m page).next ≠ 0 then unlinkPage m page else m
  let (m, count) := joinNext pool.last m page (pages - 1)
  let (m, page, count) := joinPrev pool.pages m page count
  let m := if count ≠ 0 then m.setPrev (page + sizeofPage * count) page else m
  let m := m.setPrev page freeOff
  let m := m.setNext page (m freeOff).next
  let next := (m page).next
  let m := m.setPrev next page
  let m := m.setNext freeOff page
  { pool with pfree := u64 (pool.pfree + pages), desc := m }

/-! ### Chunks -/

/-- `for (m = 1, i = 0; m; m <<= 1, i++)` up to the first `i` with `w & m` zero. -/
def firstZeroBit (w : Nat) : Option Nat :=
  (List.range 64).find? fun i => w &&& (1 <<< i) = 0

/-- The chunks that the bitmap at the head of a page of small chunks takes up. -/
def bitmapChunks (sz : Sizes) (shift : Nat) : Nat :=
  let n := (sz.pagesize >>> shift) / ((1 <<< shift) * 8)
  if n = 0 then 1 else n

/-- The number of words of the bitmap of a page of small chunks. -/
def bitmapWords (sz : Sizes) (shift : Nat) : Nat := (sz.pagesize >>> shift) / 64

/-- A page with no free chunk leaves the list of its slot. -/
def unlinkFull (m : DescMem) (page type : Nat) : DescMem :=
  ((unlinkPage m page).setNext page 0).setPrev page type

/-- A page that was full comes back to the list of its slot. -/
def relinkFull (m : DescMem) (page slot type : Nat) : DescMem :=
  let m := m.setNext page (m (slotOff slot)).next
  let m := m.setNext (slotOff slot) page
  let m := m.setPrev page (slotOff slot ||| type)
  let next := (m page).next
  m.setPrev next (page ||| type)

/-- A chunk from a page of small chunks with a free one: the pool and the chunk,
or `none` where the search finds nothing. -/
def allocSmall (sz : Sizes) (pool : SlabPool) (page slot shift : Nat) :
    Option (SlabPool × Nat) := do
  let bitmap := pool.pageAddr sz page
  let map := bitmapWords sz shift
  let (n, i) ← (List.range map).findSome? fun n =>
    if pool.bitmap bitmap n ≠ mpsSlabBusy then
      (firstZeroBit (pool.bitmap bitmap n)).map fun i => (n, i)
    else none
  let pool := pool.setBitmap bitmap n (pool.bitmap bitmap n ||| 1 <<< i)
  let p := bitmap + ((n * 64 + i) <<< shift)
  let pool := pool.setStat slot fun s => { s with used := u64 (s.used + 1) }
  let full := pool.bitmap bitmap n = mpsSlabBusy ∧
    ((List.range map).drop (n + 1)).all fun j => pool.bitmap bitmap j = mpsSlabBusy
  if full then
    some ({ pool with desc := unlinkFull pool.desc page mpsSlabSmall }, p)
  else
    some (pool, p)

/-- A chunk from a page of chunks of the exact size with a free one. -/
def allocExact (sz : Sizes) (pool : SlabPool) (page slot shift : Nat) :
    Option (SlabPool × Nat) := do
  let i ← firstZeroBit (pool.desc page).slab
  let m := pool.desc.setSlab page ((pool.desc page).slab ||| 1 <<< i)
  let m := if (m page).slab = mpsSlabBusy then unlinkFull m page mpsSlabExact else m
  let p := pool.pageAddr sz page + (i <<< shift)
  some ({ pool with desc := m }.setStat slot fun s => { s with used := u64 (s.used + 1) }, p)

/-- A chunk from a page of big chunks with a free one. -/
def allocBig (sz : Sizes) (pool : SlabPool) (page slot shift : Nat) :
    Option (SlabPool × Nat) := do
  let mask := (1 <<< (sz.pagesize >>> shift) - 1) <<< mpsSlabMapShift
  -- `m & mask` holds for as many `m` as the page has chunks
  let i ← (List.range (sz.pagesize >>> shift)).find? fun i =>
    (pool.desc page).slab &&& (1 <<< (mpsSlabMapShift + i)) = 0
  let m := pool.desc.setSlab page ((pool.desc page).slab ||| 1 <<< (mpsSlabMapShift + i))
  let m := if (m page).slab &&& mpsSlabMapMask = mask then unlinkFull m page mpsSlabBig else m
  let p := pool.pageAddr sz page + (i <<< shift)
  some ({ pool with desc := m }.setStat slot fun s => { s with used := u64 (s.used + 1) }, p)

/-- A new page becomes the only one of its slot. -/
def linkNewPage (m : DescMem) (page slot slab type : Nat) : DescMem :=
  let m := m.setSlab page slab
  let m := m.setNext page (slotOff slot)
  let m := m.setPrev page (slotOff slot ||| type)
  m.setNext (slotOff slot) page

/-- The first chunk of a new page. The bitmap of a page of small chunks takes up chunks
itself, and their bits are set with that of the chunk. -/
def newPage (sz : Sizes) (pool : SlabPool) (page slot shift : Nat) : SlabPool × Nat :=
  if shift < sz.exactShift then
    let bitmap := pool.pageAddr sz page
    let n := bitmapChunks sz shift
    -- "n" elements for bitmap, plus one requested
    let pool := pool.fillBitmap bitmap 0 ((n + 1) / 64) mpsSlabBusy
    let pool := pool.setBitmap bitmap ((n + 1) / 64) (1 <<< ((n + 1) % 64) - 1)
    let pool := pool.fillBitmap bitmap ((n + 1) / 64 + 1) (bitmapWords sz shift) 0
    let pool := { pool with desc := linkNewPage pool.desc page slot shift mpsSlabSmall }
    let pool := pool.setStat slot fun s =>
      { s with total := u64 (s.total + ((sz.pagesize >>> shift) - n)), used := u64 (s.used + 1) }
    (pool, pool.pageAddr sz page + (n <<< shift))
  else if shift = sz.exactShift then
    let pool := { pool with desc := linkNewPage pool.desc page slot 1 mpsSlabExact }
    let pool := pool.setStat slot fun s =>
      { s with total := u64 (s.total + 64), used := u64 (s.used + 1) }
    (pool, pool.pageAddr sz page)
  else
    let pool := { pool with
      desc := linkNewPage pool.desc page slot (1 <<< mpsSlabMapShift ||| shift) mpsSlabBig }
    let pool := pool.setStat slot fun s =>
      { s with total := u64 (s.total + (sz.pagesize >>> shift)), used := u64 (s.used + 1) }
    (pool, pool.pageAddr sz page)

/-- The chunk size, as a power of two, and the slot for a request. Everything up to the
least chunk size shares the first slot. -/
def sizeClass (pool : SlabPool) (size : Nat) : Nat × Nat :=
  if pool.minSize < size then
    let shift := shiftRounds (size - 1) + 1
    (shift, shift - pool.minShift)
  else
    (pool.minShift, 0)

/-- The label `fail` of `mps_slab_alloc_locked`: the failure is counted for the slot. -/
def allocFail (pool : SlabPool) (slot : Nat) : SlabPool :=
  pool.setStat slot fun s => { s with fails := u64 (s.fails + 1) }

/-- `mps_slab_alloc_locked`: the pool and the block, or no block. A request of more than
half a page is not counted in any slot; any other is, whether it is granted or not. -/
def mpsSlabAllocLocked (sz : Sizes) (fuel : Nat) (pool : SlabPool) (size : Nat) :
    Option (SlabPool × Option Nat) :=
  if sz.maxSize < size then do
    let (pool, page) ← mpsSlabAllocPages fuel pool
      ((size >>> sz.pagesizeShift) + (if size % sz.pagesize ≠ 0 then 1 else 0))
    some (pool, page.map fun page => pool.pageAddr sz page)
  else
    let (shift, slot) := sizeClass pool size
    let pool := pool.setStat slot fun s => { s with reqs := u64 (s.reqs + 1) }
    let page := (pool.desc (slotOff slot)).next
    if (pool.desc page).next ≠ page then
      let r :=
        if shift < sz.exactShift then allocSmall sz pool page slot shift
        else if shift = sz.exactShift then allocExact sz pool page slot shift
        else allocBig sz pool page slot shift
      match r with
      | some (pool, p) => some (pool, some p)
      | none => some (allocFail (pool.logError .pageIsBusy) slot, none)
    else do
      let (pool, page) ← mpsSlabAllocPages fuel pool 1
      match page with
      | some page =>
        let (pool, p) := newPage sz pool page slot shift
        some (pool, some p)
      | none => some (allocFail pool slot, none)

/-- The label `done` of `mps_slab_free_locked`. -/
def freeDone (pool : SlabPool) (slot : Nat) : SlabPool :=
  pool.setStat slot fun s => { s with used := sub64 s.used 1 }

/-- A page with no chunk left goes back to the free runs. -/
def freeChunkPage (pool : SlabPool) (page slot chunks : Nat) : SlabPool :=
  (mpsSlabFreePages pool page 1).setStat slot fun s => { s with total := sub64 s.total chunks }

/-- The case `MPS_SLAB_SMALL` of `mps_slab_free_locked`; `addr` is the address of
the chunk and `p` its offset. -/
def freeSmall (sz : Sizes) (base : Nat) (pool : SlabPool) (p page : Nat) : SlabPool :=
  let addr := base + p
  let shift := (pool.desc page).slab &&& mpsSlabShiftMask
  let size := 1 <<< shift
  if addr &&& (size - 1) ≠ 0 then
    pool.logError .wrongChunk
  else
    let n := (addr &&& (sz.pagesize - 1)) >>> shift
    let m := 1 <<< (n % 64)
    let n := n / 64
    let bitmap := andNot addr (sz.pagesize - 1) - base
    if pool.bitmap bitmap n &&& m ≠ 0 then
      let slot := shift - pool.minShift
      let pool := if (pool.desc page).next = 0 then
        { pool with desc := relinkFull pool.desc page slot mpsSlabSmall } else pool
      let pool := pool.setBitmap bitmap n (andNot (pool.bitmap bitmap n) m)
      let n := bitmapChunks sz shift
      let i := n / 64
      let m := 1 <<< (n % 64) - 1
      let map := bitmapWords sz shift
      if andNot (pool.bitmap bitmap i) m ≠ 0 ∨
          ((List.range map).drop (i + 1)).any fun j => pool.bitmap bitmap j ≠ 0 then
        freeDone pool slot
      else
        freeDone (freeChunkPage pool page slot ((sz.pagesize >>> shift) - n)) slot
    else
      pool.logError .chunkAlreadyFree

/-- The case `MPS_SLAB_EXACT` of `mps_slab_free_locked`. -/
def freeExact (sz : Sizes) (base : Nat) (pool : SlabPool) (p page : Nat) : SlabPool :=
  let addr := base + p
  let slab := (pool.desc page).slab
  let m := 1 <<< ((addr &&& (sz.pagesize - 1)) >>> sz.exactShift)
  let size := sz.exactSize
  if addr &&& (size - 1) ≠ 0 then
    pool.logError .wrongChunk
  else if slab &&& m ≠ 0 then
    let slot := sz.exactShift - pool.minShift
    let d := if slab = mpsSlabBusy then relinkFull pool.desc page slot mpsSlabExact else pool.desc
    let pool := { pool with desc := d.setSlab page (andNot (d page).slab m) }
    if (pool.desc page).slab ≠ 0 then freeDone pool slot
    else freeDone (freeChunkPage pool page slot 64) slot
  else
    pool.logError .chunkAlreadyFree

/-- The case `MPS_SLAB_BIG` of `mps_slab_free_locked`. -/
def freeBig (sz : Sizes) (base : Nat) (pool : SlabPool) (p page : Nat) : SlabPool :=
  let addr := base + p
  let slab := (pool.desc page).slab
  let shift := slab &&& mpsSlabShiftMask
  let size := 1 <<< shift
  if addr &&& (size - 1) ≠ 0 then
    pool.logError .wrongChunk
  else
    let m := 1 <<< (((addr &&& (sz.pagesize - 1)) >>> shift) + mpsSlabMapShift)
    if slab &&& m ≠ 0 then
      let slot := shift - pool.minShift
      let d := if (pool.desc page).next = 0 then relinkFull pool.desc page slot mpsSlabBig
        else pool.desc
      let pool := { pool with desc := d.setSlab page (andNot (d page).slab m) }
      if (pool.desc page).slab &&& mpsSlabMapMask ≠ 0 then freeDone pool slot
      else freeDone (freeChunkPage pool page slot (sz.pagesize >>> shift)) slot
    else
      pool.logError .chunkAlreadyFree

/-- The case `MPS_SLAB_PAGE` of `mps_slab_free_locked`. -/
def freeBlock (sz : Sizes) (base : Nat) (pool : SlabPool) (p page : Nat) : SlabPool :=
  let addr := base + p
  let slab := (pool.desc page).slab
  if addr &&& (sz.pagesize - 1) ≠ 0 then
    pool.logError .wrongChunk
  else if slab &&& mpsSlabPageStart = 0 then
    pool.logError .pageAlreadyFree
  else if slab = mpsSlabPageBusy then
    pool.logError .wrongPage
  else
    mpsSlabFreePages pool page (andNot slab mpsSlabPageStart)

/-- `mps_slab_free_locked`, for the block at offset `p`. The type of the page decides how
the block is looked up and which checks are made; one that fails is reported and nothing
is changed. -/
def mpsSlabFreeLocked (sz : Sizes) (base : Nat) (pool : SlabPool) (p : Nat) : SlabPool :=
  if p < pool.start ∨ pool.poolEnd < p then
    pool.logError .outsideOfPool
  else
    let n := (p - pool.start) >>> sz.pagesizeShift
    let page := pool.pageDesc n
    let type := mpsSlabPageType pool.desc page
    if type = mpsSlabSmall then freeSmall sz base pool p page
    else if type = mpsSlabExact then freeExact sz base pool p page
    else if type = mpsSlabBig then freeBig sz base pool p page
    else freeBlock sz base pool p page

end MpsShdict
