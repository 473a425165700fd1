import MpsShdict.SlabAlloc

/-! # The statistics of the slots

For every slot the pool counts the chunks that are given out and those that its pages can
give. The cells say what the numbers have to be: `used` is the number of live chunks of
the size, `total` what the pages of that size can hold.

The counters are words that wrap around, and a count that the code keeps by adding and
subtracting one is right as long as the true number fits. It does, since the pages and
chunks of a pool are fewer than its bytes (`PageInv.chunksOf_le`). The two steps are
`StatsOk.add` and `StatsOk.sub`, a chunk more and a chunk less, with or without a page
that comes or goes with it.
-/
namespace MpsShdict

open Words Links

/-- The live chunks of `2 ^ k` bytes in a cell. -/
def Cell.chunksOf (k : Nat) (c : Cell) : Nat :=
  match c.kind with
  | .chunks k' used => if k' = k then used.length else 0
  | _ => 0

/-- The pages of chunks of `2 ^ k` bytes in a cell. -/
def Cell.pagesOf (k : Nat) (c : Cell) : Nat :=
  match c.kind with
  | .chunks k' _ => if k' = k then 1 else 0
  | _ => 0

/-- The live chunks of `2 ^ k` bytes. -/
def chunksOf (k : Nat) (cells : List Cell) : Nat := (cells.map (Cell.chunksOf k)).sum

/-- The pages of chunks of `2 ^ k` bytes. -/
def pagesOf (k : Nat) (cells : List Cell) : Nat := (cells.map (Cell.pagesOf k)).sum

/-- **The statistics are those of the cells.** For every slot, `used` counts the live
chunks of its size and `total` those that its pages can give. -/
def StatsOk (sz : Sizes) (s : Nat) (pool : SlabPool) (cells : List Cell) : Prop :=
  ∀ q < s - pool.minShift,
    (pool.stat q).used = chunksOf (pool.minShift + q) cells ∧
    (pool.stat q).total = pagesOf (pool.minShift + q) cells * usable sz (pool.minShift + q)

section Count
variable {sz : Sizes} {s P i j k q fuel page slot shift size p : Nat} {pool pool' : SlabPool}
  {cells pre post : List Cell} {used : List Nat} {lists : Option Nat → List Nat}

@[simp] theorem chunksOf_nil : chunksOf k [] = 0 := rfl
@[simp] theorem pagesOf_nil : pagesOf k [] = 0 := rfl

@[simp] theorem chunksOf_cons (c : Cell) :
    chunksOf k (c :: cells) = c.chunksOf k + chunksOf k cells := List.sum_cons

@[simp] theorem pagesOf_cons (c : Cell) :
    pagesOf k (c :: cells) = c.pagesOf k + pagesOf k cells := List.sum_cons

@[simp] theorem chunksOf_append (xs ys : List Cell) :
    chunksOf k (xs ++ ys) = chunksOf k xs + chunksOf k ys := by
  rw [chunksOf, List.map_append, List.sum_append]
  rfl

@[simp] theorem pagesOf_append (xs ys : List Cell) :
    pagesOf k (xs ++ ys) = pagesOf k xs + pagesOf k ys := by
  rw [pagesOf, List.map_append, List.sum_append]
  rfl

@[simp] theorem chunksOf_free (m : Nat) : (⟨i, .free, m⟩ : Cell).chunksOf k = 0 := rfl
@[simp] theorem pagesOf_free (m : Nat) : (⟨i, .free, m⟩ : Cell).pagesOf k = 0 := rfl
@[simp] theorem chunksOf_block (m : Nat) : (⟨i, .block, m⟩ : Cell).chunksOf k = 0 := rfl
@[simp] theorem pagesOf_block (m : Nat) : (⟨i, .block, m⟩ : Cell).pagesOf k = 0 := rfl

@[simp] theorem chunksOf_chunks (m : Nat) :
    (⟨i, .chunks shift used, m⟩ : Cell).chunksOf k = if shift = k then used.length else 0 := rfl

@[simp] theorem pagesOf_chunks (m : Nat) :
    (⟨i, .chunks shift used, m⟩ : Cell).pagesOf k = if shift = k then 1 else 0 := rfl

/-- Free runs count for nothing. -/
theorem chunksOf_taken : chunksOf k (taken cells) = chunksOf k cells := by
  induction cells with
  | nil => rfl
  | cons c cells ih =>
    obtain ⟨pos, kind, len⟩ := c
    rw [taken] at ih
    cases kind <;> simp [taken, ih]

theorem pagesOf_taken : pagesOf k (taken cells) = pagesOf k cells := by
  induction cells with
  | nil => rfl
  | cons c cells ih =>
    obtain ⟨pos, kind, len⟩ := c
    rw [taken] at ih
    cases kind <;> simp [taken, ih]

/-! ### Bounds -/

theorem Cell.pagesOf_le (c : Cell) (h : 0 < c.len) : c.pagesOf k ≤ c.len := by
  unfold Cell.pagesOf
  split
  · split
    · exact h
    · exact Nat.zero_le _
  · exact Nat.zero_le _

theorem Contiguous.pagesOf_le {a e : Nat} (h : Contiguous a cells e)
    (hlen : ∀ c ∈ cells, 0 < c.len) : pagesOf k cells + a ≤ e := by
  induction cells generalizing a with
  | nil => simpa using h.le
  | cons c cells ih =>
    have h1 := ih h.2 fun c' hc' => hlen c' (List.mem_cons_of_mem _ hc')
    have h2 := c.pagesOf_le (k := k) (hlen c List.mem_cons_self)
    rw [pagesOf_cons]
    omega

/-- A page gives out no more chunks than it has. -/
theorem CellOk.chunksOf_le {c : Cell} (h : CellOk sz P pool c) :
    c.chunksOf k ≤ c.pagesOf k * usable sz k := by
  obtain ⟨pos, kind, len⟩ := c
  cases kind with
  | free => exact Nat.zero_le _
  | block => exact Nat.zero_le _
  | chunks shift used =>
    obtain ⟨-, -, -, ⟨hnd, hrange⟩, -⟩ := h
    rw [chunksOf_chunks, pagesOf_chunks]
    split
    · next he =>
      subst he
      have hsub : used ⊆ (List.range (usable sz shift)).map (reserved sz shift + ·) := by
        intro j hj
        obtain ⟨h1, h2⟩ := hrange j hj
        refine List.mem_map.mpr ⟨j - reserved sz shift, List.mem_range.mpr ?_, by omega⟩
        rw [usable]
        omega
      have := (List.subperm_of_subset hnd hsub).length_le
      rw [List.length_map, List.length_range] at this
      rwa [Nat.one_mul]
    · exact Nat.zero_le _

/-- The chunks given out are among those that the pages have, and these are fewer than the
bytes of the pool. So no counter ever overflows. -/
theorem PageInv.chunksOf_le (h : PageInv sz s P pool cells lists) (hk : k ≤ s) :
    chunksOf k cells ≤ pagesOf k cells * usable sz k ∧
      pagesOf k cells * usable sz k < 2 ^ 64 := by
  have hg := h.shelf.geo
  constructor
  · have hok := h.shelf.ok
    generalize cells = cs at hok
    induction cs with
    | nil => exact Nat.zero_le _
    | cons c cs ih =>
      have h1 := (hok c List.mem_cons_self).chunksOf_le (k := k)
      have h2 := ih fun c' hc' => hok c' (List.mem_cons_of_mem _ hc')
      rw [chunksOf_cons, pagesOf_cons, Nat.add_mul]
      omega
  · have h1 : pagesOf k cells ≤ P :=
      h.contiguous.pagesOf_le fun c hc => (h.shelf.bound c hc).1
    have h2 : usable sz k ≤ 2 ^ s := by
      rw [usable, chunkCount_eq hg hk]
      exact (Nat.sub_le _ _).trans (Nat.pow_le_pow_right (by decide) (Nat.sub_le _ _))
    have h3 := Nat.mul_le_mul h1 h2
    have h4 := hg.end_le
    have h5 := hg.end_lt
    omega

/-! ### What a call counts -/

/-- Only `total` and `used` are compared. -/
theorem StatsOk.same (h : StatsOk sz s pool cells) (hm : pool'.minShift = pool.minShift)
    (hst : ∀ q, (pool'.stat q).used = (pool.stat q).used ∧
      (pool'.stat q).total = (pool.stat q).total) : StatsOk sz s pool' cells := by
  intro q hq
  rw [hm] at hq ⊢
  rw [(hst q).1, (hst q).2]
  exact h q hq

/-- A request that fails is no chunk. -/
theorem allocFail_counts (pool : SlabPool) (slot q : Nat) :
    ((allocFail (noRun pool) slot).stat q).used = (pool.stat q).used ∧
      ((allocFail (noRun pool) slot).stat q).total = (pool.stat q).total := by
  have hnr : (noRun pool).stat = pool.stat := by
    rw [noRun]
    split <;> rfl
  rw [← hnr]
  by_cases hq : q = slot <;> simp [allocFail, SlabPool.setStat, hq]

/-- A free run is a block or free still: no chunk is counted. -/
theorem StatsOk.taken {cells' : List Cell} (h : StatsOk sz s pool cells)
    (ht : MpsShdict.taken cells' = MpsShdict.taken cells) : StatsOk sz s pool cells' := by
  intro q hq
  rw [← chunksOf_taken, ← pagesOf_taken, ht, chunksOf_taken, pagesOf_taken]
  exact h q hq

/-- Cells that are counted for the same change places. -/
theorem StatsOk.replace (mid mid' : List Cell) (h : StatsOk sz s pool (pre ++ mid ++ post))
    (hm : pool'.minShift = pool.minShift) (hst : pool'.stat = pool.stat)
    (hc : ∀ k, chunksOf k mid' = chunksOf k mid) (hp : ∀ k, pagesOf k mid' = pagesOf k mid) :
    StatsOk sz s pool' (pre ++ mid' ++ post) := by
  intro q hq
  rw [hm] at hq ⊢
  have hcount := h q hq
  simp only [chunksOf_append, pagesOf_append, hst, hc, hp] at hcount ⊢
  exact hcount

theorem takePages_stat {pages : Nat} : (takePages pool page pages).stat = pool.stat := by
  rw [takePages]

theorem allocPagesLoop_stat {pages : Nat} {r : Option Nat}
    (h : allocPagesLoop fuel pool page pages = some (pool', r)) : pool'.stat = pool.stat := by
  induction fuel generalizing page with
  | zero => simp [allocPagesLoop] at h
  | succ fuel ih =>
    rw [allocPagesLoop] at h
    split at h
    · obtain ⟨rfl, -⟩ := Prod.mk.inj (Option.some.inj h)
      split <;> rfl
    · split at h
      · obtain ⟨rfl, -⟩ := Prod.mk.inj (Option.some.inj h)
        rfl
      · exact ih h

/-- A chunk is counted as used. -/
def SlabStat.take (st : SlabStat) : SlabStat := { st with used := u64 (st.used + 1) }

theorem allocSmall_stat (h : allocSmall sz pool page slot shift = some (pool', p)) :
    pool'.stat = (pool.setStat slot SlabStat.take).stat := by
  simp only [allocSmall, Option.bind_eq_bind, Option.bind_eq_some_iff] at h
  obtain ⟨x, -, h⟩ := h
  split at h <;> obtain ⟨rfl, -⟩ := Prod.mk.inj (Option.some.inj h) <;> rfl

theorem allocExact_stat (h : allocExact sz pool page slot shift = some (pool', p)) :
    pool'.stat = (pool.setStat slot SlabStat.take).stat := by
  simp only [allocExact, Option.bind_eq_bind, Option.bind_eq_some_iff] at h
  obtain ⟨x, -, h⟩ := h
  obtain ⟨rfl, -⟩ := Prod.mk.inj (Option.some.inj h)
  rfl

theorem allocBig_stat (h : allocBig sz pool page slot shift = some (pool', p)) :
    pool'.stat = (pool.setStat slot SlabStat.take).stat := by
  simp only [allocBig, Option.bind_eq_bind, Option.bind_eq_some_iff] at h
  obtain ⟨x, -, h⟩ := h
  obtain ⟨rfl, -⟩ := Prod.mk.inj (Option.some.inj h)
  rfl

/-- A chunk of a page of any size. -/
theorem allocChunk_stat
    (h : (if shift < sz.exactShift then allocSmall sz pool page slot shift
      else if shift = sz.exactShift then allocExact sz pool page slot shift
      else allocBig sz pool page slot shift) = some (pool', p)) :
    pool'.stat = (pool.setStat slot SlabStat.take).stat := by
  split at h
  · exact allocSmall_stat h
  · split at h
    · exact allocExact_stat h
    · exact allocBig_stat h

/-- The chunks of a new page are counted, and one as used. -/
theorem newPage_stat (page slot shift : Nat) (g : Geometry sz s P pool) :
    (newPage sz pool page slot shift).1.stat =
    (pool.setStat slot fun st =>
      { st with total := u64 (st.total + usable sz shift), used := u64 (st.used + 1) }).stat := by
  rw [newPage]
  split
  · next hlt =>
    rw [usable, reserved, if_pos hlt]
    rfl
  · next hnlt =>
    rw [usable, reserved, if_neg hnlt]
    split
    · next heq =>
      rw [heq, chunkCount_exact g]
      rfl
    · rfl

/-- **One chunk more**, in a page of the slot or in a `new` one. The counters of the other
slots are as they were. -/
theorem StatsOk.add (mid mid' : List Cell) (new : Prop) [Decidable new]
    (h : StatsOk sz s pool (pre ++ mid ++ post))
    (hk : pool.minShift ≤ k ∧ k < s) (hm : pool'.minShift = pool.minShift)
    (hinv : PageInv sz s P pool' (pre ++ mid' ++ post) lists)
    (hst : ∀ q, ((pool'.stat q).used = if q = k - pool.minShift then u64 ((pool.stat q).used + 1)
        else (pool.stat q).used) ∧
      ((pool'.stat q).total = if q = k - pool.minShift ∧ new
        then u64 ((pool.stat q).total + usable sz k) else (pool.stat q).total))
    (hc : ∀ k', chunksOf k' mid' = chunksOf k' mid + if k = k' then 1 else 0)
    (hp : ∀ k', pagesOf k' mid' = pagesOf k' mid + if k = k' ∧ new then 1 else 0) :
    StatsOk sz s pool' (pre ++ mid' ++ post) := by
  intro q hq
  rw [hm] at hq ⊢
  obtain ⟨h1, h2⟩ := h q hq
  obtain ⟨h3, h4⟩ := hst q
  obtain ⟨h5, h6⟩ := hinv.chunksOf_le (k := pool.minShift + q) (by omega)
  simp only [chunksOf_append, pagesOf_append, hc, hp] at h1 h2 h5 h6 ⊢
  by_cases hqk : q = k - pool.minShift
  · have hkq : k = pool.minShift + q := by omega
    subst hkq
    rw [if_pos hqk] at h3
    simp only [↓reduceIte, true_and, Nat.add_mul] at h1 h2 h5 h6 ⊢
    constructor
    · rw [h3, h1, u64_of_lt (by omega)]
      omega
    · by_cases hn : new
      · rw [if_pos ⟨hqk, hn⟩] at h4
        simp only [hn, ↓reduceIte, Nat.one_mul] at h5 h6 ⊢
        rw [h4, h2, u64_of_lt (by omega)]
        omega
      · rw [if_neg fun hq => hn hq.2] at h4
        simp only [hn, ↓reduceIte, Nat.zero_mul]
        rw [h4, h2]
        omega
  · have hkq : k ≠ pool.minShift + q := by omega
    rw [if_neg hqk] at h3
    rw [if_neg fun hn => hqk hn.1] at h4
    rw [if_neg hkq, if_neg fun hn => hkq hn.1, h3, h4, h1, h2]
    exact ⟨rfl, rfl⟩

/-- **One chunk less**, and the page with it where the chunk was the `last`. -/
theorem StatsOk.sub (mid mid' : List Cell) (last : Prop) [Decidable last]
    (h : StatsOk sz s pool (pre ++ mid ++ post))
    (hk : pool.minShift ≤ k ∧ k < s) (hm : pool'.minShift = pool.minShift)
    (hinv : PageInv sz s P pool (pre ++ mid ++ post) lists)
    (hst : ∀ q, ((pool'.stat q).used = if q = k - pool.minShift then sub64 (pool.stat q).used 1
        else (pool.stat q).used) ∧
      ((pool'.stat q).total = if q = k - pool.minShift ∧ last
        then sub64 (pool.stat q).total (usable sz k) else (pool.stat q).total))
    (hc : ∀ k', chunksOf k' mid = chunksOf k' mid' + if k = k' then 1 else 0)
    (hp : ∀ k', pagesOf k' mid = pagesOf k' mid' + if k = k' ∧ last then 1 else 0) :
    StatsOk sz s pool' (pre ++ mid' ++ post) := by
  intro q hq
  rw [hm] at hq ⊢
  obtain ⟨h1, h2⟩ := h q hq
  obtain ⟨h3, h4⟩ := hst q
  obtain ⟨h5, h6⟩ := hinv.chunksOf_le (k := pool.minShift + q) (by omega)
  simp only [chunksOf_append, pagesOf_append, hc, hp] at h1 h2 h5 h6 ⊢
  by_cases hqk : q = k - pool.minShift
  · have hkq : k = pool.minShift + q := by omega
    subst hkq
    rw [if_pos hqk] at h3
    simp only [↓reduceIte, true_and, Nat.add_mul] at h1 h2 h5 h6 ⊢
    constructor
    · rw [h3, h1, sub64_of_le (by omega) (by omega)]
      omega
    · by_cases hl : last
      · rw [if_pos ⟨hqk, hl⟩] at h4
        simp only [hl, ↓reduceIte, Nat.one_mul] at h2 h5 h6
        rw [h4, h2, sub64_of_le (by omega) (by omega)]
        omega
      · rw [if_neg fun hq => hl hq.2] at h4
        simp only [hl, ↓reduceIte] at h2
        rw [h4, h2]
        omega
  · have hkq : k ≠ pool.minShift + q := by omega
    rw [if_neg hqk] at h3
    rw [if_neg fun hl => hqk hl.1] at h4
    rw [if_neg hkq] at h1
    rw [if_neg fun hl => hkq hl.1] at h2
    rw [h3, h4, h1, h2]
    exact ⟨rfl, rfl⟩

end Count

end MpsShdict
