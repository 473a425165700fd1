import MpsShdict.SlabFree
import MpsShdict.SlabCount

/-! # Live blocks

The cells say which bytes are given out. `SlabInv` ties them to the blocks that the
callers hold: every block is a chunk or a run of pages of its own, and there is nothing
else. An allocation adds one block or fails, a free takes one away.

So the list of live blocks is the abstract state of the allocator as its callers see it,
and the two specifications `mpsSlabAllocLocked_spec` and `mpsSlabFreeLocked_spec` speak of
nothing else. A block remembers the size it was asked for with; what the allocator gives
is the `capacity` of that size, a power of two or a number of whole pages. A free looks up
nothing but the page and the bits: that a live block is found there as what it is follows
from the cells.
-/
namespace MpsShdict

open Words Links

/-- A block that a caller holds: its offset and the size it was asked for with. The
allocator stores no size for a chunk; its page does. -/
structure Block where
  off : Nat
  size : Nat
  deriving DecidableEq, Repr

/-- The pages for a request of more than half a page. -/
def pageCount (sz : Sizes) (size : Nat) : Nat :=
  (size >>> sz.pagesizeShift) + (if size % sz.pagesize ≠ 0 then 1 else 0)

/-- The bytes that a request is given: the chunk size of its slot, or whole pages. -/
def capacity (sz : Sizes) (pool : SlabPool) (size : Nat) : Nat :=
  if sz.maxSize < size then pageCount sz size * sz.pagesize else 1 <<< (sizeClass pool size).1

/-- The bytes of a cell that are given out, by offset and length. -/
def Cell.extents (sz : Sizes) (start : Nat) (c : Cell) : List (Nat × Nat) :=
  let o := c.pos * 2 ^ sz.pagesizeShift + start
  match c.kind with
  | .free => []
  | .block => [(o, c.len * sz.pagesize)]
  | .chunks k used => used.map fun j => (o + (j <<< k), 1 <<< k)

/-- The bytes given out, by offset and length, as the cells have them. -/
def extents (sz : Sizes) (start : Nat) (cells : List Cell) : List (Nat × Nat) :=
  cells.flatMap (Cell.extents sz start)

/-- **The live blocks are what the cells give out**, and no page of chunks is kept for
nothing. The statistics are part of it. -/
structure Holds (sz : Sizes) (s P : Nat) (pool : SlabPool) (cells : List Cell)
    (lists : Option Nat → List Nat) (live : List Block) : Prop where
  inv : PageInv sz s P pool cells lists
  inUse : ∀ c ∈ cells, ∀ k, c.kind ≠ .chunks k []
  exact : (extents sz pool.start cells).Perm
    (live.map fun b => (b.off, capacity sz pool b.size))
  stats : StatsOk sz s pool cells

/-- The invariant of the allocator: some cells and lists describe the pool and hold the
live blocks. -/
def SlabInv (sz : Sizes) (s P : Nat) (pool : SlabPool) (live : List Block) : Prop :=
  ∃ cells lists, Holds sz s P pool cells lists live

section Live
variable {sz : Sizes} {s P i j k size fuel base : Nat} {pool pool' : SlabPool}
  {pre post cells : List Cell} {used : List Nat} {lists : Option Nat → List Nat} {c : Cell}
  {live : List Block} {b : Block}

theorem extents_append (start : Nat) (xs ys : List Cell) :
    extents sz start (xs ++ ys) = extents sz start xs ++ extents sz start ys :=
  List.flatMap_append

theorem extents_cons (start : Nat) (c : Cell) (xs : List Cell) :
    extents sz start (c :: xs) = c.extents sz start ++ extents sz start xs :=
  List.flatMap_cons

/-- Free runs give nothing out. -/
theorem extents_taken (start : Nat) (xs : List Cell) :
    extents sz start (taken xs) = extents sz start xs := by
  induction xs with
  | nil => rfl
  | cons c xs ih =>
    obtain ⟨pos, kind, len⟩ := c
    rw [taken] at ih
    cases kind <;> simp [taken, extents_cons, ih, Cell.extents]

theorem mem_taken : c ∈ taken cells ↔ c ∈ cells ∧ c.kind ≠ .free := by
  obtain ⟨pos, kind, len⟩ := c
  cases kind <;> simp [taken]

theorem capacity_same (hs : SameHeader pool pool') (size : Nat) :
    capacity sz pool' size = capacity sz pool size := by
  rw [capacity, capacity, sizeClass, sizeClass, hs.minSize, hs.minShift]

theorem map_capacity_same (hs : SameHeader pool pool') (live : List Block) :
    live.map (fun b => (b.off, capacity sz pool' b.size)) =
      live.map fun b => (b.off, capacity sz pool b.size) := by
  simp only [capacity_same hs]

/-! ### Sizes -/

/-- The size class of a request of half a page at most. -/
theorem sizeClass_spec (g : Sizing sz s pool) (hsize : size ≤ sz.maxSize) :
    ∃ k, sizeClass pool size = (k, k - pool.minShift) ∧ pool.minShift ≤ k ∧ k < s ∧
      size ≤ 2 ^ k := by
  have hmin := g.minShift_lt
  have hle := g.le_s
  rw [sizeClass, g.minSize]
  split
  · next hlt =>
    have hne : size - 1 ≠ 0 := by
      have := Nat.one_le_two_pow (n := pool.minShift)
      omega
    refine ⟨_, rfl, ?_, ?_, ?_⟩
    · have : pool.minShift ≤ (size - 1).log2 := (Nat.le_log2 hne).mpr (by omega)
      rw [shiftRounds]
      omega
    · have : (size - 1).log2 < s - 1 := (Nat.log2_lt hne).mpr (by rw [← g.maxSize]; omega)
      rw [shiftRounds]
      omega
    · have : size - 1 < 2 ^ ((size - 1).log2 + 1) := Nat.lt_log2_self
      rw [shiftRounds]
      omega
  · next hge =>
    exact ⟨pool.minShift, by rw [Nat.sub_self], le_rfl, hmin, Nat.not_lt.mp hge⟩

theorem pageCount_spec (g : Sizing sz s pool) (hsize : sz.maxSize < size) :
    0 < pageCount sz size ∧ size ≤ pageCount sz size * sz.pagesize := by
  have hpos := Nat.two_pow_pos s
  have hmod := Nat.mod_lt size hpos
  have hdm := Nat.div_add_mod' size (2 ^ s)
  rw [pageCount, g.pagesize, g.pagesizeShift, Nat.shiftRight_eq_div_pow]
  generalize size / 2 ^ s = q at hdm ⊢
  split
  · rw [Nat.add_mul]
    exact ⟨Nat.succ_pos q, by omega⟩
  · have : 0 < q := by
      refine Nat.pos_of_ne_zero ?_
      intro h0
      rw [h0] at hdm
      omega
    rw [Nat.add_zero]
    exact ⟨this, by omega⟩

/-- A block is as large as requested. -/
theorem size_le_capacity (g : Sizing sz s pool) (size : Nat) : size ≤ capacity sz pool size := by
  rw [capacity]
  split
  · next h => exact (pageCount_spec g h).2
  · next h =>
    obtain ⟨k, he, -, -, hk⟩ := sizeClass_spec g (Nat.not_lt.mp h)
    rw [he, Nat.one_shiftLeft]
    exact hk

/-! ### Allocation -/

/-- The pool after a request that is refused. -/
def refused (sz : Sizes) (pool : SlabPool) (size : Nat) : SlabPool :=
  if sz.maxSize < size then noRun pool
  else
    let slot := (sizeClass pool size).2
    allocFail (noRun (pool.setStat slot fun s => { s with reqs := u64 (s.reqs + 1) })) slot

/-- Where the search finds no free page there is none. -/
theorem PageInv.pfree_zero (h : PageInv sz s P pool cells lists)
    (hnone : ∀ i m, (⟨i, .free, m⟩ : Cell) ∈ cells → m < 1) : pool.pfree = 0 := by
  rw [h.pfree]
  refine List.sum_eq_zero_iff_forall_eq_nat.mpr ?_
  intro n hn
  obtain ⟨⟨pos, kind, len⟩, hc, rfl⟩ := List.mem_map.mp hn
  cases kind with
  | free =>
    have := hnone pos len hc
    rw [freeLen_free]
    omega
  | block => rfl
  | chunks k used => rfl

/-- What an allocation does: a new block, or none.  A small request takes one free
page at most, and fails only where there is none. -/
def AllocResult (sz : Sizes) (s P : Nat) (pool : SlabPool) (live : List Block) (size : Nat)
    (r : Option (SlabPool × Option Nat)) : Prop :=
  (∃ pool' p, r = some (pool', some p) ∧ SameHeader pool pool' ∧
    (size ≤ sz.maxSize → pool.pfree ≤ pool'.pfree + 1) ∧
    SlabInv sz s P pool' (⟨p, size⟩ :: live)) ∨
  (∃ pool', r = some (pool', none) ∧ SameHeader pool pool' ∧ pool'.pfree = pool.pfree ∧
    (size ≤ sz.maxSize → pool.pfree = 0) ∧ SlabInv sz s P pool' live)

/-- A failure changes neither the pages nor the live blocks. -/
theorem Holds.same (h : Holds sz s P pool cells lists live) (hs : SameHeader pool pool')
    (hd : pool'.desc = pool.desc) (hw : pool'.word = pool.word) (hp : pool'.pfree = pool.pfree)
    (hst : ∀ q, (pool'.stat q).used = (pool.stat q).used ∧
      (pool'.stat q).total = (pool.stat q).total) : Holds sz s P pool' cells lists live := by
  refine ⟨⟨h.inv.shelf.frame hs (fun y _ => by rw [hd]) (fun _ _ _ _ _ _ _ => by rw [hw]),
    h.inv.contiguous, h.inv.apart, hp.trans h.inv.pfree⟩, h.inUse, ?_, h.stats.same hs.minShift hst⟩
  rw [hs.start, map_capacity_same hs]
  exact h.exact

/-- A cell in place of another that gives out one block more. -/
theorem Holds.more (mid mid' : List Cell) {p cap : Nat}
    (h : Holds sz s P pool (pre ++ mid ++ post) lists live) (hs : SameHeader pool pool')
    {lists' : Option Nat → List Nat}
    (hinv : PageInv sz s P pool' (pre ++ mid' ++ post) lists')
    (huse : ∀ c ∈ mid', ∀ k, c.kind ≠ .chunks k [])
    (hext : (extents sz pool.start mid').Perm ((p, cap) :: extents sz pool.start mid))
    (hcap : cap = capacity sz pool size) (hst : StatsOk sz s pool' (pre ++ mid' ++ post)) :
    Holds sz s P pool' (pre ++ mid' ++ post) lists' (⟨p, size⟩ :: live) := by
  refine ⟨hinv, ?_, ?_, hst⟩
  · intro c hc k
    have huse' := h.inUse c
    simp only [List.mem_append] at hc huse'
    rcases hc with (hc | hc) | hc
    · exact huse' (.inl (.inl hc)) k
    · exact huse c hc k
    · exact huse' (.inr hc) k
  · have hex := h.exact
    rw [hs.start, map_capacity_same hs, List.map_cons, ← hcap]
    simp only [extents_append] at hex ⊢
    refine List.Perm.trans ?_ (hex.cons _)
    rw [List.append_assoc, List.append_assoc]
    refine (List.Perm.append_left _ (hext.append_right _)).trans ?_
    rw [List.cons_append]
    exact List.perm_middle

/-- Pages for a large request. -/
theorem allocPages_result (h : Holds sz s P pool cells lists live) (hfuel : P < fuel)
    (hsize : sz.maxSize < size) :
    AllocResult sz s P pool live size (mpsSlabAllocLocked sz fuel pool size) := by
  have hg := h.inv.shelf.geo
  obtain ⟨hn, -⟩ := pageCount_spec hg.toSizing hsize
  have hcap : pageCount sz size * sz.pagesize = capacity sz pool size := (if_pos hsize).symm
  rw [mpsSlabAllocLocked, if_pos hsize, ← pageCount]
  rcases mpsSlabAllocPages_spec (n := pageCount sz size) h.inv hfuel with
    ⟨i, m, pre, post, rfl, hnm, he⟩ | ⟨-, he⟩
  · obtain ⟨lists', hinv, -, hs⟩ := takePages_spec h.inv hn hnm
    have := Holds.more [⟨i, .free, m⟩]
      (⟨i, .block, pageCount sz size⟩ :: (if pageCount sz size < m
        then [⟨i + pageCount sz size, .free, m - pageCount sz size⟩] else []))
      (by simpa using h) hs (by simpa using hinv) (by
        intro c hc k
        rcases List.mem_cons.mp hc with rfl | hc
        · simp
        · split at hc
          · rw [List.mem_singleton.mp hc]
            simp
          · simp at hc) (by
        rw [extents_cons]
        split <;> simp [extents, Cell.extents] <;> rfl) hcap
      (StatsOk.replace [⟨i, .free, m⟩] _ (by simpa using h.stats) hs.minShift rfl
        (fun k => by split <;> simp) (fun k => by split <;> simp))
    rw [he]
    refine .inl ⟨_, i * 2 ^ sz.pagesizeShift + pool.start, ?_, hs, fun hle => by omega, _, _, this⟩
    exact congrArg (fun p => some (_, some p)) Geometry.pageAddr_eq
  · refine .inr ⟨noRun pool, by rw [he]; rfl, ?_⟩
    rw [noRun]
    have hs : SameHeader pool (pool.logError .noMemory) :=
      ⟨rfl, rfl, rfl, rfl, rfl, rfl, rfl, rfl, rfl⟩
    split
    · exact ⟨hs, rfl, fun hle => by omega, cells, lists, h.same hs rfl rfl rfl fun _ => ⟨rfl, rfl⟩⟩
    · exact ⟨SameHeader.refl _, rfl, fun hle => by omega, cells, lists, h⟩

/-- One chunk more in a cell. -/
theorem extents_chunk (hg : Geometry sz s P pool) (j : Nat) :
    (extents sz pool.start [⟨i, .chunks k (j :: used), 1⟩]) =
      (pool.pageAddr sz (pool.pageDesc i) + (j <<< k), 1 <<< k) ::
        extents sz pool.start [⟨i, .chunks k used, 1⟩] := by
  simp [extents, Cell.extents, Geometry.pageAddr_eq, hg.pagesizeShift]

/-- The cell at the head of a slot's list. -/
theorem slot_head (h : PageInv sz s P pool cells lists) (hk : pool.minShift ≤ k ∧ k < s) :
    (lists (some (k - pool.minShift)) = [] ∧
      (pool.desc (slotOff (k - pool.minShift))).next = slotOff (k - pool.minShift)) ∨
    ∃ i used pre post, cells = pre ++ ⟨i, .chunks k used, 1⟩ :: post ∧ ¬ Full sz k used ∧
      (pool.desc (slotOff (k - pool.minShift))).next = pool.pageDesc i ∧
      (pool.desc (pool.pageDesc i)).next ≠ pool.pageDesc i := by
  have hlist : IsList (s - pool.minShift) (some (k - pool.minShift)) := by
    show k - pool.minShift < s - pool.minShift
    omega
  have hring := h.shelf.ring _ hlist
  cases hl : lists (some (k - pool.minShift)) with
  | nil =>
    rw [hl] at hring
    exact .inl ⟨rfl, hring.nil_iff.mpr rfl⟩
  | cons x xs =>
    rw [hl] at hring
    obtain ⟨c, hc, hcl, rfl⟩ := (h.shelf.mem _ hlist x).mp (by rw [hl]; simp)
    obtain ⟨pre, post, rfl⟩ := List.append_of_mem hc
    have hok := h.shelf.ok c hc
    obtain ⟨i, kind, len⟩ := c
    cases kind with
    | free => simp [Cell.list] at hcl
    | block => simp [Cell.list] at hcl
    | chunks k' used =>
      obtain ⟨rfl, ⟨hk', -⟩, -⟩ := hok
      -- a page that is full is on no list
      have hnf : ¬ Full sz k' used := by
        intro hf
        simp [Cell.list, hf] at hcl
      rw [list_chunks hnf] at hcl
      have hkk : k' = k := by
        have := Option.some.inj (Option.some.inj hcl)
        omega
      subst hkk
      refine .inr ⟨i, used, pre, post, rfl, hnf, hring.head, ?_⟩
      -- the head is not alone with itself: the next link leads on or back to the slot
      have hnext : (pool.desc (pool.pageDesc i)).next = xs.head?.getD _ :=
        (show Ring _ _ _ _ ([] ++ _ :: xs) from hring).next_eq
      rw [hnext]
      have hnd := hring.nodup
      cases xs with
      | nil =>
        simp only [List.head?_nil, Option.getD_none]
        exact (h.shelf.geo.pageDesc_ne_header hlist).symm
      | cons y ys =>
        simp only [List.head?_cons, Option.getD_some]
        simp only [List.nodup_cons, List.mem_cons, not_or] at hnd
        exact fun he => hnd.2.1.1 he.symm

/-- A chunk of a page cut off a free run. -/
theorem allocNew_result {m : Nat}
    (h : Holds sz s P pool (pre ++ ⟨i, .free, m⟩ :: post) lists live) (hm : 1 ≤ m)
    (hk : pool.minShift ≤ k ∧ k < s) (hnil : lists (some (k - pool.minShift)) = [])
    (hcap : 1 <<< k = capacity sz pool size) :
    ∃ pool' p, newPage sz (takePages pool (pool.pageDesc i) 1) (pool.pageDesc i)
        (k - pool.minShift) k = (pool', p) ∧ SameHeader pool pool' ∧
      pool.pfree ≤ pool'.pfree + 1 ∧ SlabInv sz s P pool' (⟨p, size⟩ :: live) := by
  -- the page is taken first, then it is set up for chunks with one of them in use
  obtain ⟨lists₁, hinv₁, hslots, hs₁⟩ := takePages_spec h.inv Nat.one_pos hm
  have hst₁ : (takePages pool (pool.pageDesc i) 1).stat = pool.stat := takePages_stat
  generalize takePages pool (pool.pageDesc i) 1 = pool₁ at hinv₁ hs₁ hst₁ ⊢
  obtain ⟨haddr, hs₂, -, lists₂, hinv₂⟩ := newPage_spec (k := k) hinv₁
    ⟨hs₁.minShift.symm ▸ hk.1, hk.2⟩ (by rw [hs₁.minShift, hslots, hnil])
  rw [hs₁.minShift, hs₁.pageDesc] at haddr hs₂ hinv₂
  rw [hs₁.pageAddr, Geometry.pageAddr_eq] at haddr
  have hst₂ := newPage_stat (pool.pageDesc i) (k - pool.minShift) k hinv₁.shelf.geo
  generalize newPage sz pool₁ (pool.pageDesc i) (k - pool.minShift) k = r at haddr hs₂ hinv₂ hst₂ ⊢
  obtain ⟨pool', p⟩ := r
  replace haddr : p = i * 2 ^ sz.pagesizeShift + pool.start + (reserved sz k <<< k) := haddr
  have hmore := Holds.more [⟨i, .free, m⟩]
    (⟨i, .chunks k [reserved sz k], 1⟩ ::
      (if 1 < m then [⟨i + 1, .free, m - 1⟩] else [])) (by simpa using h) (hs₁.trans hs₂)
    (by simpa using hinv₂)
    (by
      intro c hc k'
      rcases List.mem_cons.mp hc with rfl | hc
      · simp
      · split at hc
        · rw [List.mem_singleton.mp hc]
          simp
        · simp at hc)
    (by
      rw [extents_cons]
      split <;> simp [extents, Cell.extents] <;> rfl) hcap
    (StatsOk.add [⟨i, .free, m⟩] _ True (by simpa using h.stats) hk
      (hs₁.trans hs₂).minShift (by simpa using hinv₂) (fun q => by
        simp only at hst₂
        rw [hst₂, ← hst₁]
        by_cases hq : q = k - pool.minShift <;> simp [SlabPool.setStat, hq])
      (fun k' => by split <;> simp) (fun k' => by split <;> simp))
  rw [← haddr] at hmore
  refine ⟨pool', p, rfl, hs₁.trans hs₂, ?_, _, _, hmore⟩
  rw [h.inv.pfree, hinv₂.pfree]
  split <;> simp <;> omega

/-- A page with a free chunk gives one. -/
theorem takesChunk (h : PageInv sz s P pool (pre ++ ⟨i, .chunks k used, 1⟩ :: post) lists)
    (hnf : ¬ Full sz k used) (slot : Nat) :
    TakesChunk sz s P pool pre post i k used
      (if k < sz.exactShift then allocSmall sz pool (pool.pageDesc i) slot k
      else if k = sz.exactShift then allocExact sz pool (pool.pageDesc i) slot k
      else allocBig sz pool (pool.pageDesc i) slot k) := by
  split
  · next hlt => exact allocSmall_spec h hlt hnf _
  · next hnlt =>
    split
    · next heq => exact allocExact_spec h heq hnf _
    · next hne => exact allocBig_spec h (by omega) hnf _

/-- A chunk for a small request. -/
theorem allocChunk_result (h : Holds sz s P pool cells lists live) (hfuel : P < fuel)
    (hsize : ¬ sz.maxSize < size) :
    AllocResult sz s P pool live size (mpsSlabAllocLocked sz fuel pool size) := by
  obtain ⟨k, hclass, hk, hks, -⟩ := sizeClass_spec h.inv.shelf.geo.toSizing (Nat.not_lt.mp hsize)
  have hcap : 1 <<< k = capacity sz pool size := by rw [capacity, if_neg hsize, hclass]
  -- the request is counted first
  set pool₀ := pool.setStat (k - pool.minShift) fun s => { s with reqs := u64 (s.reqs + 1) }
    with hpool₀
  have hs₀ : SameHeader pool pool₀ := ⟨rfl, rfl, rfl, rfl, rfl, rfl, rfl, rfl, rfl⟩
  have h₀ : Holds sz s P pool₀ cells lists live := h.same hs₀ rfl rfl rfl fun q => by
    by_cases hq : q = k - pool.minShift <;> simp [hpool₀, SlabPool.setStat, hq]
  have hg₀ := h₀.inv.shelf.geo
  have hcap₀ : 1 <<< k = capacity sz pool₀ size := by rw [hcap, capacity_same hs₀]
  rw [mpsSlabAllocLocked, if_neg hsize]
  simp only [hclass, ← hpool₀]
  rcases slot_head h₀.inv (k := k) ⟨hk, hks⟩ with ⟨hnil, hhead⟩ |
    ⟨i, used, pre, post, rfl, hnf, hhead, hne⟩
  · replace hhead : (pool₀.desc (slotOff (k - pool.minShift))).next =
      slotOff (k - pool.minShift) := hhead
    rw [hhead, hhead, if_neg (not_not.mpr rfl)]
    rcases mpsSlabAllocPages_spec (n := 1) h₀.inv hfuel with
      ⟨i, m, pre, post, rfl, hnm, he⟩ | ⟨hnone, he⟩
    · obtain ⟨pool', p, hnew, hs, hpf, hinv⟩ := allocNew_result h₀ hnm ⟨hk, hks⟩ hnil hcap₀
      rw [he]
      refine .inl ⟨pool', p, ?_, hs₀.trans hs, fun _ => hpf, hinv⟩
      exact congrArg (fun r : SlabPool × Nat => some (r.1, some r.2)) hnew
    · rw [he]
      refine .inr ⟨_, rfl, ?_⟩
      have hs : SameHeader pool₀ (allocFail (noRun pool₀) (k - pool.minShift)) := by
        rw [noRun]
        split <;> exact ⟨rfl, rfl, rfl, rfl, rfl, rfl, rfl, rfl, rfl⟩
      have hsame : (allocFail (noRun pool₀) (k - pool.minShift)).desc = pool₀.desc ∧
          (allocFail (noRun pool₀) (k - pool.minShift)).word = pool₀.word ∧
          (allocFail (noRun pool₀) (k - pool.minShift)).pfree = pool₀.pfree := by
        rw [noRun]
        split <;> exact ⟨rfl, rfl, rfl⟩
      exact ⟨hs₀.trans hs, hsame.2.2, fun _ => h₀.inv.pfree_zero hnone, cells, lists,
        h₀.same hs hsame.1 hsame.2.1 hsame.2.2 (allocFail_counts _ _)⟩
  · replace hhead : (pool₀.desc (slotOff (k - pool.minShift))).next = pool₀.pageDesc i := hhead
    rw [hhead, if_pos hne]
    obtain ⟨pool', j, lists', he, -, hs, hpf, hinv⟩ := takesChunk h₀.inv hnf (k - pool.minShift)
    have hst := allocChunk_stat he
    rw [he]
    have := Holds.more [⟨i, .chunks k used, 1⟩]
      [⟨i, .chunks k (j :: used), 1⟩] (by simpa using h₀) hs
      (by simpa using hinv) (by simp) (by rw [extents_chunk hg₀]) hcap₀
      (StatsOk.add [⟨i, .chunks k used, 1⟩] _ False
        (show StatsOk sz s pool₀ (pre ++ [⟨i, .chunks k used, 1⟩] ++ post) by
          simpa using h₀.stats) ⟨hk, hks⟩ hs.minShift (by simpa using hinv) (fun q => by
          rw [hst, hs₀.minShift]
          by_cases hq : q = k - pool.minShift <;> simp [SlabPool.setStat, SlabStat.take, hq])
        (fun k' => by by_cases hkk : k = k' <;> simp [hkk]) (fun k' => by simp))
    exact .inl ⟨_, _, rfl, hs₀.trans hs, fun _ => (Nat.le_of_eq hpf.symm).trans (Nat.le_succ _),
      _, _, this⟩

/-- **An allocation** gives a new block or fails. -/
theorem mpsSlabAllocLocked_spec (h : SlabInv sz s P pool live) (size : Nat) (hfuel : P < fuel) :
    AllocResult sz s P pool live size (mpsSlabAllocLocked sz fuel pool size) := by
  obtain ⟨cells, lists, h⟩ := h
  by_cases hsize : sz.maxSize < size
  · exact allocPages_result h hfuel hsize
  · exact allocChunk_result h hfuel hsize

/-! ### Giving a block back -/

/-- Where a cell was, cells that give out one block less. Both ways of giving a block back
come down to this. -/
theorem Holds.less (mid mid' : List Cell) {cells' : List Cell} {p cap : Nat}
    (h : Holds sz s P pool (pre ++ mid ++ post) lists live) (hs : SameHeader pool pool')
    {lists' : Option Nat → List Nat} (hinv : PageInv sz s P pool' cells' lists')
    (htaken : taken cells' = taken (pre ++ mid' ++ post))
    (huse : ∀ c ∈ mid', ∀ k, c.kind ≠ .chunks k [])
    (hext : (extents sz pool.start mid).Perm ((p, cap) :: extents sz pool.start mid'))
    (hb : b ∈ live) (hp : p = b.off) (hcap : cap = capacity sz pool b.size)
    (hst : StatsOk sz s pool' (pre ++ mid' ++ post)) :
    Holds sz s P pool' cells' lists' (live.erase b) := by
  refine ⟨hinv, ?_, ?_, hst.taken htaken⟩
  · intro c hc k hk
    have hct : c ∈ taken cells' := mem_taken.mpr ⟨hc, by rw [hk]; simp⟩
    rw [htaken] at hct
    have hm := (mem_taken.mp hct).1
    have huse' := h.inUse c
    simp only [List.mem_append] at hm huse'
    rcases hm with (hm | hm) | hm
    · exact huse' (.inl (.inl hm)) k hk
    · exact huse c hm k hk
    · exact huse' (.inr hm) k hk
  · have hex := h.exact
    rw [hs.start, map_capacity_same hs, ← extents_taken, htaken, extents_taken]
    apply List.Perm.cons_inv (a := (p, cap))
    have hlive := (List.perm_cons_erase hb).map fun b => (b.off, capacity sz pool b.size)
    rw [List.map_cons, ← hp, ← hcap] at hlive
    refine List.Perm.trans ?_ (hex.trans hlive)
    simp only [extents_append]
    rw [List.append_assoc, List.append_assoc]
    refine List.perm_middle.symm.trans (List.Perm.append_left _ ?_)
    exact (hext.append_right _).symm

/-- What giving a block back does: the block is taken off the live ones, the header stays,
and nothing is reported. -/
def FreeResult (sz : Sizes) (s P : Nat) (pool : SlabPool) (live : List Block) (b : Block)
    (r : SlabPool) : Prop :=
  SameHeader pool r ∧ r.log = pool.log ∧ SlabInv sz s P r (live.erase b)

/-- The cell that gives out a live block. -/
theorem Holds.cell (h : Holds sz s P pool cells lists live) (hb : b ∈ live) :
    ∃ pre c post, cells = pre ++ c :: post ∧
      (b.off, capacity sz pool b.size) ∈ c.extents sz pool.start := by
  have hm : (b.off, capacity sz pool b.size) ∈ extents sz pool.start cells :=
    h.exact.mem_iff.mpr (List.mem_map.mpr ⟨b, hb, rfl⟩)
  obtain ⟨c, hc, hmc⟩ := List.mem_flatMap.mp hm
  obtain ⟨pre, post, rfl⟩ := List.append_of_mem hc
  exact ⟨pre, c, post, rfl, hmc⟩

/-- A block that begins in page `i` is looked up there. -/
theorem free_page (h : Holds sz s P pool (pre ++ c :: post) lists live) {r : Nat}
    (hr : r < 2 ^ s) (hp : b.off = pool.pageAddr sz (pool.pageDesc c.pos) + r) :
    ¬ (b.off < pool.start ∨ pool.poolEnd < b.off) ∧
      (b.off - pool.start) >>> sz.pagesizeShift = c.pos := by
  have hg := h.inv.shelf.geo
  refine ⟨?_, chunk_page hg hr hp⟩
  have hb := h.inv.shelf.bound c (Shelf.mem_middle.mpr (.inl rfl))
  have h1 := Nat.mul_le_mul_right (2 ^ s) (show c.pos + 1 ≤ P by omega)
  have h2 := hg.end_le
  rw [Geometry.pageAddr_eq, hg.pagesizeShift] at hp
  rw [Nat.add_mul] at h1
  omega

/-- The chunk of a live block is looked up and given back. -/
theorem Holds.givesChunk (h : Holds sz s P pool (pre ++ ⟨i, .chunks k used, 1⟩ :: post) lists live)
    (hbase : 2 ^ s ∣ base) (hj : j ∈ used)
    (hp : b.off = pool.pageAddr sz (pool.pageDesc i) + (j <<< k)) :
    GivesChunk sz s P pool pre post i k used j (mpsSlabFreeLocked sz base pool b.off) := by
  have hg := h.inv.shelf.geo
  obtain ⟨-, hshift, htype, hused, -, -⟩ :=
    h.inv.shelf.ok (⟨i, .chunks k used, 1⟩ : Cell) (Shelf.mem_middle.mpr (.inl rfl))
  replace htype : (pool.desc (pool.pageDesc i)).prev % 4 = chunkType sz k := htype
  have hks : k < s := hg.pagesizeShift ▸ hshift.2
  have hr : j <<< k < 2 ^ s := by
    rw [Nat.shiftLeft_eq, ← chunkCount_mul hg hks.le]
    exact Nat.mul_lt_mul_of_pos_right (hused.2 j hj).2 (Nat.two_pow_pos k)
  obtain ⟨hin, hpage⟩ := free_page h hr hp
  rw [mpsSlabFreeLocked, if_neg hin]
  simp only [hpage, mpsSlabPageType, and_three, htype]
  rcases Nat.lt_trichotomy k sz.exactShift with hlt | heq | hgt
  · rw [show chunkType sz k = mpsSlabSmall from if_pos hlt, if_pos rfl]
    exact freeSmall_spec h.inv hlt hj hbase hp
  · have hnlt : ¬ k < sz.exactShift := by omega
    rw [show chunkType sz k = mpsSlabExact from (if_neg hnlt).trans (if_pos heq),
      if_neg (by decide), if_pos rfl]
    exact freeExact_spec h.inv heq hj hbase hp
  · have hnlt : ¬ k < sz.exactShift := by omega
    have hne : k ≠ sz.exactShift := by omega
    rw [show chunkType sz k = mpsSlabBig from (if_neg hnlt).trans (if_neg hne),
      if_neg (by decide), if_neg (by decide), if_pos rfl]
    exact freeBig_spec h.inv hgt hj hbase hp

/-- A chunk goes back. -/
theorem freeChunk_result (h : Holds sz s P pool (pre ++ ⟨i, .chunks k used, 1⟩ :: post) lists live)
    (hbase : 2 ^ s ∣ base) (hb : b ∈ live) (hj : j ∈ used)
    (hp : b.off = pool.pageAddr sz (pool.pageDesc i) + (j <<< k))
    (hcap : 1 <<< k = capacity sz pool b.size) :
    FreeResult sz s P pool live b (mpsSlabFreeLocked sz base pool b.off) := by
  have hg := h.inv.shelf.geo
  obtain ⟨-, hshift, -, hused, -, -⟩ :=
    h.inv.shelf.ok (⟨i, .chunks k used, 1⟩ : Cell) (Shelf.mem_middle.mpr (.inl rfl))
  have hks : k < s := hg.pagesizeShift ▸ hshift.2
  obtain ⟨hs, hlog, hcount, -, cells', lists', hinv, htaken⟩ := h.givesChunk hbase hj hp
  refine ⟨hs, hlog, cells', lists', ?_⟩
  refine Holds.less [⟨i, .chunks k used, 1⟩] _ (by simpa using h) hs hinv
    (by rw [htaken, List.append_assoc]) ?_ ?_ hb hp.symm hcap
    (StatsOk.sub [⟨i, .chunks k used, 1⟩] _ (used.erase j = []) (by simpa using h.stats)
      ⟨hshift.1, hks⟩ hs.minShift (by simpa using h.inv) hcount ?_ ?_)
  · intro c hc k'
    split at hc
    · simp at hc
    · next hne =>
      rw [List.mem_singleton.mp hc]
      intro he
      exact hne (by simpa using And.right (CellKind.chunks.inj he))
  -- the chunk that is freed is the one that has gone from the extents
  · have hperm : (extents sz pool.start [⟨i, .chunks k used, 1⟩]).Perm
        (extents sz pool.start [⟨i, .chunks k (j :: used.erase j), 1⟩]) := by
      simp only [extents, Cell.extents, List.flatMap_cons, List.flatMap_nil, List.append_nil]
      exact (List.perm_cons_erase hj).map _
    apply hperm.trans
    rw [extents_chunk hg]
    split
    · next hnil => rw [hnil]; rfl
    · rfl
  · intro k'
    have hlen := List.length_erase_add_one hj
    split
    · next hnil =>
      rw [hnil] at hlen
      by_cases hkk : k = k' <;> simp [hkk, ← hlen]
    · by_cases hkk : k = k' <;> simp [hkk, ← hlen]
  · intro k'
    split
    · next hnil => by_cases hkk : k = k' <;> simp [hkk, hnil]
    · next hnil => by_cases hkk : k = k' <;> simp [hkk, hnil]

/-- The descriptor of a block tells how many pages it has. -/
theorem andNot_pageStart {n : Nat} (hn : n < 2 ^ 63) :
    andNot (n ||| mpsSlabPageStart) mpsSlabPageStart = n := by
  refine Nat.eq_of_testBit_eq ?_
  intro b
  rw [testBit_andNot, Nat.testBit_or, mpsSlabPageStart, Nat.testBit_two_pow]
  by_cases hb : 63 = b
  · subst hb
    simp [Nat.testBit_lt_two_pow hn]
  · simp [hb]

/-- A block has far fewer pages than its flag stands for. -/
theorem Geometry.pages_lt {n : Nat} (g : Geometry sz s P pool) (hn : i + n ≤ P) : n < 2 ^ 62 := by
  have h1 := g.end_le
  have h2 := g.end_lt
  have h3 : P * 2 ^ 12 ≤ P * 2 ^ s :=
    Nat.mul_le_mul_left _ (Nat.pow_le_pow_right (by decide) g.le_s)
  omega

/-- The pages of a live block are looked up and given back. -/
theorem Holds.givesPages {n : Nat}
    (h : Holds sz s P pool (pre ++ ⟨i, .block, n⟩ :: post) lists live)
    (hbase : 2 ^ s ∣ base) (hp : b.off = pool.pageAddr sz (pool.pageDesc i)) :
    mpsSlabFreeLocked sz base pool b.off = mpsSlabFreePages pool (pool.pageDesc i) n := by
  have hg := h.inv.shelf.geo
  have hcm : (⟨i, .block, n⟩ : Cell) ∈ pre ++ ⟨i, .block, n⟩ :: post :=
    Shelf.mem_middle.mpr (.inl rfl)
  have hd : pool.desc (pool.pageDesc i) = ⟨n ||| mpsSlabPageStart, 0, mpsSlabPage⟩ :=
    (h.inv.shelf.ok _ hcm).1
  have hbnd : 0 < n ∧ i + n ≤ P := h.inv.shelf.bound _ hcm
  obtain ⟨hin, hpage⟩ := free_page h (r := 0) (Nat.two_pow_pos s) hp
  replace hpage : (b.off - pool.start) >>> sz.pagesizeShift = i := hpage
  have hn62 : n < 2 ^ 62 := hg.pages_lt hbnd.2
  have hn : n < 2 ^ 63 := by omega
  have hslab : n ||| mpsSlabPageStart = n + 2 ^ 63 := by
    have := Nat.two_pow_add_eq_or_of_lt hn 1
    rw [Nat.mul_one] at this
    rw [Nat.or_comm, mpsSlabPageStart, ← this, Nat.add_comm]
  have hand : (n + 2 ^ 63) &&& mpsSlabPageStart ≠ 0 := by
    have := and_one_shiftLeft (n + 2 ^ 63) 63
    rw [show 1 <<< 63 = mpsSlabPageStart from rfl] at this
    rw [Ne, this, Nat.add_comm, Nat.testBit_two_pow_add_eq, Nat.testBit_lt_two_pow hn]
    simp
  have hstart : andNot (n + 2 ^ 63) mpsSlabPageStart = n := hslab ▸ andNot_pageStart hn
  have haddr : (base + b.off) &&& (sz.pagesize - 1) = 0 := by
    obtain ⟨c, rfl⟩ := hbase
    obtain ⟨t, ht⟩ := hg.start_dvd
    rw [hp, Geometry.pageAddr_eq, hg.pagesize, hg.pagesizeShift, ht,
      Nat.and_two_pow_sub_one_eq_mod, Nat.mul_comm i, ← Nat.mul_add, ← Nat.mul_add,
      Nat.mul_mod_right]
  rw [mpsSlabFreeLocked, if_neg hin]
  simp only [hpage, mpsSlabPageType, and_three, hd]
  rw [if_neg (by decide), if_neg (by decide), if_neg (by decide), freeBlock]
  simp only [hd, hslab]
  rw [if_neg (not_not.mpr haddr), if_neg hand, if_neg (by rw [mpsSlabPageBusy]; omega), hstart]

/-- A block of pages goes back. -/
theorem freeBlock_result {n : Nat}
    (h : Holds sz s P pool (pre ++ ⟨i, .block, n⟩ :: post) lists live)
    (hbase : 2 ^ s ∣ base) (hb : b ∈ live) (hp : b.off = pool.pageAddr sz (pool.pageDesc i))
    (hcap : n * sz.pagesize = capacity sz pool b.size) :
    FreeResult sz s P pool live b (mpsSlabFreeLocked sz base pool b.off) := by
  obtain ⟨cells', lists', hinv, htaken⟩ := mpsSlabFreePages_spec h.inv (by simp)
  rw [h.givesPages hbase hp]
  obtain ⟨hs, -, hlog, -⟩ := freePages_frame pool (pool.pageDesc i) n
  refine ⟨hs, hlog, cells', lists', ?_⟩
  refine Holds.less [⟨i, .block, n⟩] [] (by simpa using h) hs hinv
    (by rw [htaken]; simp) (by simp) ?_ hb hp.symm hcap
    (StatsOk.replace [⟨i, .block, n⟩] _ (by simpa using h.stats) hs.minShift rfl
      (fun _ => by simp) fun _ => by simp)
  simp [extents, Cell.extents, Geometry.pageAddr_eq]

/-- **Giving a live block back** takes it away from the live ones, and the allocator has
nothing to complain about. The pool may be mapped at any page boundary. -/
theorem mpsSlabFreeLocked_spec (h : SlabInv sz s P pool live) (hbase : 2 ^ s ∣ base)
    (hb : b ∈ live) : FreeResult sz s P pool live b (mpsSlabFreeLocked sz base pool b.off) := by
  obtain ⟨cells, lists, h⟩ := h
  obtain ⟨pre, ⟨i, kind, len⟩, post, rfl, hm⟩ := h.cell hb
  have hok := h.inv.shelf.ok _ (Shelf.mem_middle.mpr (.inl rfl))
  cases kind with
  | free => simp [Cell.extents] at hm
  | block =>
    simp only [Cell.extents, List.mem_singleton, Prod.mk.injEq] at hm
    exact freeBlock_result h hbase hb (hm.1.trans Geometry.pageAddr_eq.symm) hm.2.symm
  | chunks k used =>
    obtain ⟨rfl, -⟩ := hok
    simp only [Cell.extents, List.mem_map, Prod.mk.injEq] at hm
    obtain ⟨j, hj, hoff, hcap⟩ := hm
    exact freeChunk_result h hbase hb hj (hoff.symm.trans (by rw [Geometry.pageAddr_eq])) hcap

end Live

end MpsShdict
