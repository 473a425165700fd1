import MpsShdict.SlabSafety

/-! # Allocations fail only when they must

In every run a request is refused only where the live blocks leave no room for it: a large
one where not enough free pages follow one another, a small one where the pages of its
size are full and no page is free. A refusal is counted and changes nothing else.

Room is stated in terms of the live blocks alone (`NoRoom`): which pages have nothing live
in them, and which pages have a live chunk of the size and a chunk without. So the result
says that the allocator loses nothing, neither a page nor a chunk, over any run of
allocations and frees. Both directions are read off the cells, since a free run of the
pool is a sequence of free pages that cannot be made longer, and the list of a slot has
every page of the size with a free chunk.
-/
namespace MpsShdict

open Words Links

/-! ### Room -/

/-- Page `i` has nothing live in it, which is said by the live blocks and not by its
descriptor. -/
def PageFree (s : Nat) (sz : Sizes) (pool : SlabPool) (live : List Block) (i : Nat) : Prop :=
  ∀ b ∈ live, Clear (pool.start + i * 2 ^ s) (2 ^ s) b.off (capacity sz pool b.size)

/-- Page `i` has live chunks of `2 ^ k` bytes. -/
def ClassPage (s : Nat) (sz : Sizes) (pool : SlabPool) (live : List Block) (k i : Nat) : Prop :=
  ∃ b ∈ live, b.size ≤ sz.maxSize ∧ (sizeClass pool b.size).1 = k ∧
    ¬ Clear (pool.start + i * 2 ^ s) (2 ^ s) b.off (capacity sz pool b.size)

/-- A chunk of page `i` that does not hold the bitmap has nothing live in it. -/
def HasFreeChunk (s : Nat) (sz : Sizes) (pool : SlabPool) (live : List Block) (k i : Nat) : Prop :=
  ∃ j, reserved sz k ≤ j ∧ j < chunkCount sz k ∧
    ∀ b ∈ live, Clear (pool.start + i * 2 ^ s + j * 2 ^ k) (2 ^ k) b.off (capacity sz pool b.size)

/-- There is no room for a request: for a large one no sequence of free pages of that
length, for a small one no page of its size with a free chunk, and no free page. -/
def NoRoom (s : Nat) (sz : Sizes) (pool : SlabPool) (live : List Block) (size : Nat) : Prop :=
  if sz.maxSize < size then
    ¬ ∃ i, i + (size + sz.pagesize - 1) / sz.pagesize ≤ pool.pageTotal ∧
      ∀ j, i ≤ j → j < i + (size + sz.pagesize - 1) / sz.pagesize → PageFree s sz pool live j
  else
    (∀ i < pool.pageTotal, ClassPage s sz pool live (sizeClass pool size).1 i →
      ¬ HasFreeChunk s sz pool live (sizeClass pool size).1 i) ∧
    ∀ i < pool.pageTotal, ¬ PageFree s sz pool live i

section Room
variable {sz : Sizes} {s P i j k n size : Nat} {pool : SlabPool} {cells : List Cell}
  {lists : Option Nat → List Nat} {live : List Block} {used : List Nat}

theorem Holds.mem_extents (h : Holds sz s P pool cells lists live) {e : Nat × Nat} :
    e ∈ extents sz pool.start cells ↔ ∃ b ∈ live, (b.off, capacity sz pool b.size) = e := by
  rw [h.exact.mem_iff, List.mem_map]

/-- Pages that are free one after the other are in one run. -/
theorem freeRuns_consecutive (hpw : (freeRuns cells).Pairwise fun x y => x.1 + x.2 < y.1)
    (hn : 0 < n) (hfree : ∀ j, i ≤ j → j < i + n → ∃ r ∈ freeRuns cells, r.1 ≤ j ∧ j < r.1 + r.2) :
    ∃ r ∈ freeRuns cells, r.1 ≤ i ∧ i + n ≤ r.1 + r.2 := by
  induction n with
  | zero => omega
  | succ n ih =>
    obtain ⟨r', hr', h1, h2⟩ := hfree (i + n) (by omega) (by omega)
    rcases Nat.eq_zero_or_pos n with rfl | hn'
    · exact ⟨r', hr', h1, by omega⟩
    obtain ⟨r, hr, h3, h4⟩ := ih hn' fun j hj hj' => hfree j hj (by omega)
    by_cases hend : i + n < r.1 + r.2
    · exact ⟨r, hr, h3, hend⟩
    · -- the next page would begin a run of its own
      exfalso
      have hne : r ≠ r' := by
        rintro rfl
        omega
      have hsymm : Std.Symm fun x y : Nat × Nat => x.1 + x.2 < y.1 ∨ y.1 + y.2 < x.1 :=
        ⟨fun _ _ hxy => hxy.symm⟩
      have hpw' : (freeRuns cells).Pairwise fun x y => x.1 + x.2 < y.1 ∨ y.1 + y.2 < x.1 :=
        hpw.imp fun hxy => .inl hxy
      have hap := hpw'.forall hr hr' hne
      omega

theorem pageCount_eq (g : Sizing sz s pool) (size : Nat) :
    pageCount sz size = (size + sz.pagesize - 1) / sz.pagesize := by
  have hpos := Nat.two_pow_pos s
  rw [pageCount, g.pagesize, g.pagesizeShift, Nat.shiftRight_eq_div_pow]
  generalize 2 ^ s = q at hpos ⊢
  have hdm := Nat.div_add_mod size q
  have hmod := Nat.mod_lt size hpos
  have hcomm := Nat.mul_comm q (size / q)
  symm
  split
  · next hne =>
      exact Nat.div_eq_of_lt_le (by rw [Nat.add_mul]; omega)
        (by simp only [Nat.add_mul]; omega)
  · next he =>
      exact Nat.div_eq_of_lt_le (by rw [Nat.add_zero]; omega)
        (by simp only [Nat.add_mul]; omega)

/-- The pages of a class are those the live chunks of its size lie in. -/
theorem classPage_iff (h : Holds sz s P pool cells lists live) :
    ClassPage s sz pool live k i ↔ ∃ used, (⟨i, .chunks k used, 1⟩ : Cell) ∈ cells := by
  have hsh := h.inv.shelf
  have hg := hsh.geo
  constructor
  · rintro ⟨b, hb, hsize, rfl, hmeet⟩
    obtain ⟨k, hclass, -, hks, -⟩ := sizeClass_spec hg.toSizing hsize
    have hcap : capacity sz pool b.size = 2 ^ k := by
      rw [capacity, if_neg (Nat.not_lt.mpr hsize), hclass, Nat.one_shiftLeft]
    obtain ⟨c, hc, he⟩ := List.mem_flatMap.mp (h.mem_extents.mpr ⟨b, hb, rfl⟩)
    have hci : c.Has i := by
      by_contra hno
      exact hmeet (extents_off_page hsh hc he hno)
    -- a chunk of a class is smaller than a page, so the cell is a page of chunks
    have hok := hsh.ok c hc
    obtain ⟨pos, kind, len⟩ := c
    cases kind with
    | free => simp [Cell.extents] at he
    | block =>
      simp only [Cell.extents, List.mem_singleton, Prod.mk.injEq, hcap, hg.pagesize] at he
      have h3 := Nat.mul_le_mul_right (2 ^ s) (hsh.bound _ hc).1
      have h4 := Nat.pow_lt_pow_right (show 1 < 2 by decide) hks
      simp only [Nat.succ_mul, Nat.zero_mul] at h3
      omega
    | chunks k' used =>
      obtain ⟨hlen, -⟩ := hok
      replace hlen : len = 1 := hlen
      subst hlen
      simp only [Cell.extents, List.mem_map, Prod.mk.injEq, hcap, Nat.one_shiftLeft] at he
      obtain ⟨j, -, -, hpow⟩ := he
      obtain rfl : k' = k := Nat.pow_right_injective le_rfl hpow
      obtain rfl : pos = i := by
        have h5 : pos ≤ i := hci.1
        have h6 : i < pos + 1 := hci.2
        omega
      rw [hclass]
      exact ⟨used, hc⟩
  · rintro ⟨used, hc⟩
    obtain ⟨-, ⟨-, hks⟩, -⟩ := hsh.ok _ hc
    replace hks : k < s := hg.pagesizeShift ▸ hks
    have hne : used ≠ [] := fun hnil =>
      h.inUse _ hc k (show CellKind.chunks k used = _ by rw [hnil])
    obtain ⟨j, used', rfl⟩ := List.exists_cons_of_ne_nil hne
    have he : (i * 2 ^ sz.pagesizeShift + pool.start + (j <<< k), 1 <<< k) ∈
        (⟨i, .chunks k (j :: used'), 1⟩ : Cell).extents sz pool.start := List.mem_cons_self
    obtain ⟨h1, h2, h3⟩ := extents_bounds hsh hc he
    obtain ⟨b, hb, hbe⟩ := h.mem_extents.mp (List.mem_flatMap.mpr ⟨_, hc, he⟩)
    obtain ⟨hoff, hcap⟩ := Prod.mk.inj hbe
    rw [Nat.one_shiftLeft] at hcap
    have hsize : b.size ≤ sz.maxSize := by
      by_contra hlarge
      rw [capacity, if_pos (Nat.not_le.mp hlarge), hg.pagesize] at hcap
      have h4 := Nat.mul_le_mul_right (2 ^ s)
        (pageCount_spec hg.toSizing (Nat.not_le.mp hlarge)).1
      have h5 := Nat.pow_lt_pow_right (show 1 < 2 by decide) hks
      simp only [Nat.succ_mul, Nat.zero_mul] at h4
      omega
    refine ⟨b, hb, hsize, ?_, ?_⟩
    · rw [capacity, if_neg (Nat.not_lt.mpr hsize), Nat.one_shiftLeft] at hcap
      exact Nat.pow_right_injective le_rfl hcap
    · have hpos := Nat.two_pow_pos k
      replace h1 : pool.start + i * 2 ^ s ≤ _ := h1
      replace h2 : _ ≤ pool.start + (i + 1) * 2 ^ s := h2
      simp only [Nat.one_shiftLeft, Nat.succ_mul] at h1 h2
      simp only [Clear, hcap, hoff]
      omega

/-- A page of a class has a free chunk unless it is full. -/
theorem hasFreeChunk_iff (h : Holds sz s P pool cells lists live)
    (hc : (⟨i, .chunks k used, 1⟩ : Cell) ∈ cells) :
    HasFreeChunk s sz pool live k i ↔ ¬ Full sz k used := by
  have hsh := h.inv.shelf
  have hg := hsh.geo
  obtain ⟨-, ⟨-, hks⟩, -, hused, -⟩ := hsh.ok _ hc
  replace hks : k < s := hg.pagesizeShift ▸ hks
  have hpos := Nat.two_pow_pos k
  have hchunk : ∀ j ∈ used, ∃ b ∈ live, b.off = i * 2 ^ s + pool.start + j * 2 ^ k ∧
      capacity sz pool b.size = 2 ^ k := by
    intro j hj
    have he : (i * 2 ^ sz.pagesizeShift + pool.start + (j <<< k), 1 <<< k) ∈
        (⟨i, .chunks k used, 1⟩ : Cell).extents sz pool.start :=
      List.mem_map.mpr ⟨j, hj, rfl⟩
    obtain ⟨b, hb, hbe⟩ := h.mem_extents.mp (List.mem_flatMap.mpr ⟨_, hc, he⟩)
    obtain ⟨hoff, hcap⟩ := Prod.mk.inj hbe
    rw [hg.pagesizeShift, Nat.shiftLeft_eq] at hoff
    rw [Nat.one_shiftLeft] at hcap
    exact ⟨b, hb, hoff, hcap⟩
  constructor
  · rintro ⟨j, hr, hj, hclear⟩ hfull
    obtain ⟨b, hb, hoff, hcap⟩ := hchunk j ((hfull j hj).resolve_left (by omega))
    have := hclear b hb
    simp only [Clear, hoff, hcap] at this
    omega
  · intro hnf
    simp only [Full, not_forall, not_or] at hnf
    obtain ⟨j, hj, hr, hju⟩ := hnf
    refine ⟨j, Nat.not_lt.mp hr, hj, ?_⟩
    intro b hb
    obtain ⟨c, hc', he⟩ := List.mem_flatMap.mp (h.mem_extents.mpr ⟨b, hb, rfl⟩)
    have hjk := Nat.mul_le_mul_right (2 ^ k) (show j + 1 ≤ chunkCount sz k from hj)
    rw [chunkCount_mul hg hks.le, Nat.succ_mul] at hjk
    by_cases hcc : c = ⟨i, .chunks k used, 1⟩
    · subst hcc
      simp only [Cell.extents, hg.pagesizeShift, List.mem_map, Prod.mk.injEq, Nat.shiftLeft_eq,
        Nat.one_mul] at he
      obtain ⟨j', hj', hoff, hcap⟩ := he
      have hne : j ≠ j' := fun he => hju (he ▸ hj')
      simp only [Clear, ← hoff, ← hcap]
      rcases Nat.lt_or_gt_of_ne hne with hlt | hlt
      · have := Nat.mul_le_mul_right (2 ^ k) hlt
        rw [Nat.succ_mul] at this
        omega
      · have := Nat.mul_le_mul_right (2 ^ k) hlt
        rw [Nat.succ_mul] at this
        omega
    · -- what another cell has given out lies in other pages
      have hnot : ¬ c.Has i := fun hi => hcc (hsh.unique hc' hc hi (hsh.has_pos hc))
      exact (extents_off_page hsh hc' he hnot).part (by omega) (by omega)

/-! ### What an allocation finds -/

/-- Enough pages that follow one another are a free run of the pool. This is where merging
pays: two free runs never meet, so that no sequence of free pages is cut in two. -/
theorem free_pages_iff (h : Holds sz s P pool cells lists live) (hn : 0 < n) :
    (∃ i, i + n ≤ P ∧ ∀ j, i ≤ j → j < i + n → PageFree s sz pool live j) ↔
      ∃ i m, (⟨i, .free, m⟩ : Cell) ∈ cells ∧ n ≤ m := by
  have hsh := h.inv.shelf
  constructor
  · rintro ⟨i, hi, hfree⟩
    have hpw := freeRuns_pairwise h.inv.contiguous h.inv.apart fun c hc => (hsh.bound c hc).1
    obtain ⟨r, hr, h1, h2⟩ := freeRuns_consecutive hpw hn fun j hj hj' =>
      (page_free_iff h (by omega)).mpr (hfree j hj hj')
    exact ⟨r.1, r.2, mem_freeRuns.mp hr, by omega⟩
  · rintro ⟨i, m, hc, hm⟩
    have hb : i + m ≤ P := (hsh.bound _ hc).2
    refine ⟨i, by omega, fun j hj hj' => (page_free_iff h (by omega)).mp ?_⟩
    exact ⟨(i, m), mem_freeRuns.mpr hc, hj, show j < i + m by omega⟩

/-- The slot of a size lists the pages of the size with a free chunk, all of them and no
others. -/
theorem slot_pages (h : Holds sz s P pool cells lists live) (hk : pool.minShift ≤ k ∧ k < s)
    (x : Nat) : x ∈ lists (some (k - pool.minShift)) ↔
      ∃ i < P, x = pool.pageDesc i ∧ ClassPage s sz pool live k i ∧
        HasFreeChunk s sz pool live k i := by
  have hsh := h.inv.shelf
  have hlist : IsList (s - pool.minShift) (some (k - pool.minShift)) := by
    show k - pool.minShift < s - pool.minShift
    omega
  rw [hsh.mem _ hlist]
  constructor
  · rintro ⟨⟨i, kind, len⟩, hc, hl, rfl⟩
    have hok := hsh.ok _ hc
    have hb : 0 < len ∧ i + len ≤ P := hsh.bound _ hc
    cases kind with
    | free => simp [Cell.list] at hl
    | block => simp [Cell.list] at hl
    | chunks k' used =>
      obtain ⟨rfl, ⟨hk', -⟩, -⟩ := hok
      have hnf : ¬ Full sz k' used := by
        intro hf
        simp [Cell.list, hf] at hl
      rw [list_chunks hnf] at hl
      obtain rfl : k' = k := by
        have := Option.some.inj (Option.some.inj hl)
        omega
      exact ⟨i, by omega, rfl, (classPage_iff h).mpr ⟨used, hc⟩, (hasFreeChunk_iff h hc).mpr hnf⟩
  · rintro ⟨i, -, rfl, hclass, hfree⟩
    obtain ⟨used, hc⟩ := (classPage_iff h).mp hclass
    exact ⟨_, hc, list_chunks ((hasFreeChunk_iff h hc).mp hfree) _, rfl⟩

/-- A request is refused where there is no room, and only there. In the second case the
block that is given is a new live one. -/
theorem Holds.alloc_decides (h : Holds sz s P pool cells lists live) (hP : pool.pageTotal = P)
    (size : Nat) {fuel : Nat} (hfuel : P < fuel) :
    (NoRoom s sz pool live size ∧
      mpsSlabAllocLocked sz fuel pool size = some (refused sz pool size, none)) ∨
    (¬ NoRoom s sz pool live size ∧
      ∃ pool' p, mpsSlabAllocLocked sz fuel pool size = some (pool', some p)) := by
  have hg := h.inv.shelf.geo
  rw [NoRoom, hP, mpsSlabAllocLocked, refused]
  by_cases hsize : sz.maxSize < size
  · obtain ⟨hn, -⟩ := pageCount_spec hg.toSizing hsize
    rw [if_pos hsize, if_pos hsize, if_pos hsize, ← pageCount_eq hg.toSizing, ← pageCount]
    rcases mpsSlabAllocPages_spec (n := pageCount sz size) h.inv hfuel with
      ⟨i, m, pre, post, rfl, hnm, he⟩ | ⟨hnone, he⟩
    · refine .inr ⟨not_not.mpr ((free_pages_iff h hn).mpr ⟨i, m, by simp, hnm⟩), ?_⟩
      rw [he]
      exact ⟨_, _, rfl⟩
    · refine .inl ⟨?_, by rw [he]; rfl⟩
      intro hroom
      obtain ⟨i, m, hc, hnm⟩ := (free_pages_iff h hn).mp hroom
      exact absurd (hnone i m hc) (Nat.not_lt.mpr hnm)
  · obtain ⟨k, hclass, hk, hks, -⟩ := sizeClass_spec hg.toSizing (Nat.not_lt.mp hsize)
    rw [if_neg hsize, if_neg hsize, if_neg hsize]
    set pool₀ := pool.setStat (k - pool.minShift) fun s => { s with reqs := u64 (s.reqs + 1) }
      with hpool₀
    have hs₀ : SameHeader pool pool₀ := ⟨rfl, rfl, rfl, rfl, rfl, rfl, rfl, rfl, rfl⟩
    have h₀ : Holds sz s P pool₀ cells lists live := h.same hs₀ rfl rfl rfl fun q => by
      by_cases hq : q = k - pool.minShift <;> simp [hpool₀, SlabPool.setStat, hq]
    simp only [hclass, ← hpool₀]
    have hone := free_pages_iff h Nat.one_pos
    -- an empty list sends the request to a new page, any other to its first page
    rcases slot_head h₀.inv (k := k) ⟨hk, hks⟩ with
      ⟨hnil, hhead⟩ | ⟨i, used, pre, post, rfl, hnf, hhead, hne⟩
    · replace hhead : (pool₀.desc (slotOff (k - pool.minShift))).next =
        slotOff (k - pool.minShift) := hhead
      replace hnil : lists (some (k - pool.minShift)) = [] := hnil
      have hfull : ∀ i < P, ClassPage s sz pool live k i → ¬ HasFreeChunk s sz pool live k i := by
        intro i hi hcp hf
        have := (slot_pages h ⟨hk, hks⟩ _).mpr ⟨i, hi, rfl, hcp, hf⟩
        rw [hnil] at this
        cases this
      rw [hhead, hhead, if_neg (not_not.mpr rfl)]
      rcases mpsSlabAllocPages_spec (n := 1) h₀.inv hfuel with
        ⟨i, m, pre, post, rfl, hnm, he⟩ | ⟨hnone, he⟩
      · refine .inr ⟨?_, by rw [he]; exact ⟨_, _, rfl⟩⟩
        intro hno
        obtain ⟨j, hj, hfree⟩ := hone.mpr ⟨i, m, by simp, hnm⟩
        exact hno.2 j (by omega) (hfree j le_rfl (by omega))
      · refine .inl ⟨⟨hfull, ?_⟩, by rw [he]; rfl⟩
        intro i hi hfree
        obtain ⟨j, m, hc, hm⟩ := hone.mp ⟨i, by omega, fun j hj hj' => by
          rwa [show j = i by omega]⟩
        exact absurd (hnone j m hc) (Nat.not_lt.mpr hm)
    · replace hhead : (pool₀.desc (slotOff (k - pool.minShift))).next = pool₀.pageDesc i := hhead
      have hc : (⟨i, .chunks k used, 1⟩ : Cell) ∈ pre ++ ⟨i, .chunks k used, 1⟩ :: post := by simp
      have hi : i + 1 ≤ P := (h.inv.shelf.bound _ hc).2
      rw [hhead, if_pos hne]
      obtain ⟨pool', j, lists', he, -⟩ := takesChunk h₀.inv hnf (k - pool.minShift)
      rw [he]
      refine .inr ⟨?_, _, _, rfl⟩
      intro hno
      exact hno.1 i hi ((classPage_iff h).mpr ⟨used, hc⟩) ((hasFreeChunk_iff h hc).mpr hnf)

end Room

/-! ### What is logged -/

section Log
variable {sz : Sizes} {pool pool' : SlabPool} {page slot shift pages fuel size p : Nat}

theorem allocPagesLoop_log (h : allocPagesLoop fuel pool page pages = some (pool', some p)) :
    pool'.log = pool.log := by
  induction fuel generalizing page with
  | zero => simp [allocPagesLoop] at h
  | succ fuel ih =>
    rw [allocPagesLoop] at h
    split at h
    · simp at h
    · split at h
      · obtain ⟨rfl, -⟩ := Prod.mk.inj (Option.some.inj h)
        rfl
      · exact ih h

theorem newPage_log : (newPage sz pool page slot shift).1.log = pool.log := by
  rw [newPage]
  split
  · rfl
  · split <;> rfl

theorem allocSmall_log (h : allocSmall sz pool page slot shift = some (pool', p)) :
    pool'.log = pool.log := by
  simp only [allocSmall, Option.bind_eq_bind, Option.bind_eq_some_iff] at h
  obtain ⟨x, -, h⟩ := h
  split at h <;> obtain ⟨rfl, -⟩ := Prod.mk.inj (Option.some.inj h) <;> rfl

theorem allocExact_log (h : allocExact sz pool page slot shift = some (pool', p)) :
    pool'.log = pool.log := by
  simp only [allocExact, Option.bind_eq_bind, Option.bind_eq_some_iff] at h
  obtain ⟨x, -, h⟩ := h
  obtain ⟨rfl, -⟩ := Prod.mk.inj (Option.some.inj h)
  rfl

theorem allocBig_log (h : allocBig sz pool page slot shift = some (pool', p)) :
    pool'.log = pool.log := by
  simp only [allocBig, Option.bind_eq_bind, Option.bind_eq_some_iff] at h
  obtain ⟨x, -, h⟩ := h
  obtain ⟨rfl, -⟩ := Prod.mk.inj (Option.some.inj h)
  rfl

/-- A request that is granted has nothing logged. -/
theorem mpsSlabAllocLocked_log (h : mpsSlabAllocLocked sz fuel pool size = some (pool', some p)) :
    pool'.log = pool.log := by
  rw [mpsSlabAllocLocked] at h
  split at h
  · simp only [Option.bind_eq_bind, Option.bind_eq_some_iff] at h
    obtain ⟨⟨pool₁, page⟩, he, h⟩ := h
    obtain ⟨rfl, hp⟩ := Prod.mk.inj (Option.some.inj h)
    obtain ⟨page, rfl, -⟩ := Option.map_eq_some_iff.mp hp
    exact allocPagesLoop_log he
  · simp only at h
    -- the count of the request writes no message
    change pool'.log =
      (pool.setStat (sizeClass pool size).2 fun s => { s with reqs := u64 (s.reqs + 1) }).log
    split at h
    · split at h
      · next r he =>
        obtain ⟨rfl, -⟩ := Prod.mk.inj (Option.some.inj h)
        split at he
        · exact allocSmall_log he
        · split at he
          · exact allocExact_log he
          · exact allocBig_log he
      · simp at h
    · simp only [Option.bind_eq_bind, Option.bind_eq_some_iff] at h
      obtain ⟨⟨pool₁, page⟩, he, h⟩ := h
      cases page with
      | some page =>
        obtain ⟨rfl, -⟩ := Prod.mk.inj (Option.some.inj h)
        exact newPage_log.trans (allocPagesLoop_log he)
      | none => simp at h

/-- A refusal is counted, and the lack of memory may be logged. -/
theorem refused_fields : (refused sz pool size).log = pool.log ∨
    (refused sz pool size).log = .noMemory :: pool.log := by
  rw [refused]
  split
  · rw [noRun]
    split
    · exact .inr rfl
    · exact .inl rfl
  · simp only [allocFail, noRun]
    split
    · exact .inr rfl
    · exact .inl rfl

theorem refused_same : { refused sz pool size with log := pool.log } =
    if sz.maxSize < size then pool
    else pool.setStat (sizeClass pool size).2 fun s =>
      { s with reqs := u64 (s.reqs + 1), fails := u64 (s.fails + 1) } := by
  rw [refused]
  split
  · rw [noRun]
    split <;> rfl
  · simp only [allocFail, noRun]
    split <;> simp [SlabPool.setStat, SlabPool.logError]

/-- An allocation reports nothing but a lack of memory. -/
theorem SlabInv.alloc_log (h : SlabInv sz s pool.pageTotal pool live) (hP : 0 < pool.pageTotal)
    {p : Option Nat} (he : mpsSlabAllocLocked sz pool.poolEnd pool size = some (pool', p)) :
    pool'.log = pool.log ∨ pool'.log = .noMemory :: pool.log := by
  have hlt := SlabInv.pageTotal_lt h hP
  obtain ⟨cells, lists, h⟩ := h
  rcases h.alloc_decides rfl size hlt with ⟨-, he'⟩ | ⟨-, pool'', p', he'⟩
  · obtain ⟨rfl, -⟩ := Prod.mk.inj (Option.some.inj (he'.symm.trans he))
    exact refused_fields
  · obtain ⟨rfl, rfl⟩ := Prod.mk.inj (Option.some.inj (he'.symm.trans he))
    exact .inl (mpsSlabAllocLocked_log he')

end Log

/-- **An allocation fails only when it must.** A request is refused exactly where there is
no room for it; what is left unchanged by a refusal, and what is counted and logged, are
the other fields. -/
structure FailsWhenFull (s : Nat) (sz : Sizes) (pool : SlabPool) (live : List Block) : Prop where
  /-- A request is refused exactly where there is no room for it. -/
  refuses : ∀ size, (∃ pool', mpsSlabAllocLocked sz pool.poolEnd pool size = some (pool', none)) ↔
    NoRoom s sz pool live size
  /-- A refusal changes the counters of its slot and nothing else. -/
  unchanged : ∀ size pool', mpsSlabAllocLocked sz pool.poolEnd pool size = some (pool', none) →
    { pool' with log := pool.log } = if sz.maxSize < size then pool
      else pool.setStat (sizeClass pool size).2 fun s =>
        { s with reqs := u64 (s.reqs + 1), fails := u64 (s.fails + 1) }
  /-- No page is reported busy. -/
  notBusy : ∀ size pool' r, mpsSlabAllocLocked sz pool.poolEnd pool size = some (pool', r) →
    pool'.log = pool.log ∨ pool'.log = .noMemory :: pool.log
  /-- A slot lists the pages of its size with a free chunk. -/
  slots : ∀ k, pool.minShift ≤ k → k < s → ∃ pages : List Nat,
    Ring (fun x => x ≠ slotOff (k - pool.minShift)) (fun x => (pool.desc x).next)
      (mpsSlabPagePrev pool.desc) (slotOff (k - pool.minShift)) (pages.map pool.pageDesc) ∧
    ∀ i, i ∈ pages ↔ i < pool.pageTotal ∧ ClassPage s sz pool live k i ∧
      HasFreeChunk s sz pool live k i

/-- A request is refused in a run where there is no room, and only there. -/
theorem SlabRun.alloc_decides {s : Nat} {pool : SlabPool} {live : List Block} (hs : 12 ≤ s)
    (hs' : s ≤ 16) (run : SlabRun s pool live) (size : Nat) :
    (NoRoom s (mpsSlabSizesInit (2 ^ s)) pool live size ∧
      mpsSlabAllocLocked (mpsSlabSizesInit (2 ^ s)) pool.poolEnd pool size =
        some (refused (mpsSlabSizesInit (2 ^ s)) pool size, none)) ∨
    (¬ NoRoom s (mpsSlabSizesInit (2 ^ s)) pool live size ∧
      ∃ pool' p, mpsSlabAllocLocked (mpsSlabSizesInit (2 ^ s)) pool.poolEnd pool size =
        some (pool', some p)) := by
  rcases run.inv hs hs' with ⟨hempty, rfl, hend⟩ | ⟨hP, cells, lists, h⟩
  · refine .inl ⟨?_, (hempty.alloc size hend).1⟩
    rw [NoRoom, hempty.total]
    split
    · next hlarge =>
      rintro ⟨i, hi, -⟩
      have hn := (pageCount_spec hempty.sizing hlarge).1
      rw [pageCount_eq hempty.sizing size] at hn
      exact absurd hi (Nat.not_le.mpr (Nat.lt_of_lt_of_le hn (Nat.le_add_left _ _)))
    · exact ⟨by simp, by simp⟩
  · exact h.alloc_decides rfl size (SlabInv.pageTotal_lt ⟨_, _, h⟩ hP)

/-- The list of a slot as pages. -/
theorem Holds.slot_ring {sz : Sizes} {s P k : Nat} {pool : SlabPool} {cells : List Cell}
    {lists : Option Nat → List Nat} {live : List Block} (h : Holds sz s P pool cells lists live)
    (hk : pool.minShift ≤ k) (hks : k < s) :
    ∃ pages : List Nat,
      Ring (fun x => x ≠ slotOff (k - pool.minShift)) (fun x => (pool.desc x).next)
        (mpsSlabPagePrev pool.desc) (slotOff (k - pool.minShift)) (pages.map pool.pageDesc) ∧
      ∀ i, i ∈ pages ↔ i < P ∧ ClassPage s sz pool live k i ∧ HasFreeChunk s sz pool live k i := by
  have hlist : IsList (s - pool.minShift) (some (k - pool.minShift)) := by
    show k - pool.minShift < s - pool.minShift
    omega
  have hring := h.inv.shelf.ring _ hlist
  have hmem := slot_pages h ⟨hk, hks⟩
  -- each descriptor on the list is that of a page
  obtain ⟨pages, hpages⟩ : ∃ pages : List Nat,
      lists (some (k - pool.minShift)) = pages.map pool.pageDesc := by
    refine ⟨(lists (some (k - pool.minShift))).map fun x => (x - pool.pages) / sizeofPage, ?_⟩
    rw [List.map_map]
    refine ((List.map_congr_left (g := id) ?_).trans (List.map_id _)).symm
    intro x hx
    obtain ⟨i, -, rfl, -⟩ := (hmem x).mp hx
    show pool.pages + sizeofPage * ((pool.pages + sizeofPage * i - pool.pages) / sizeofPage) = _
    rw [Nat.add_sub_cancel_left, Nat.mul_div_cancel_left _ (by decide)]
    rfl
  refine ⟨pages, hpages ▸ hring, ?_⟩
  intro i
  have hi := hmem (pool.pageDesc i)
  rw [hpages, List.mem_map] at hi
  constructor
  · intro hip
    obtain ⟨j, hj, he, hc, hf⟩ := hi.mp ⟨i, hip, rfl⟩
    obtain rfl := Geometry.pageDesc_inj.mp he
    exact ⟨hj, hc, hf⟩
  · rintro ⟨hj, hc, hf⟩
    obtain ⟨j, hjp, he⟩ := hi.mpr ⟨i, hj, rfl, hc, hf⟩
    exact Geometry.pageDesc_inj.mp he ▸ hjp

/-- **No allocation fails early**, in any run of the allocator. This is an equivalence for
every size: no room means a refusal, and a refusal means no room. -/
theorem fails_when_full {s : Nat} {pool : SlabPool} {live : List Block} (hs : 12 ≤ s)
    (hs' : s ≤ 16) (run : SlabRun s pool live) :
    FailsWhenFull s (mpsSlabSizesInit (2 ^ s)) pool live := by
  constructor
  · intro size
    rcases run.alloc_decides hs hs' size with ⟨hno, he⟩ | ⟨hroom, pool', p, he⟩
    · exact ⟨fun _ => hno, fun _ => ⟨_, he⟩⟩
    · refine ⟨fun ⟨pool'', he'⟩ => ?_, fun hno => absurd hno hroom⟩
      rw [he] at he'
      cases he'
  · intro size pool' he
    rcases run.alloc_decides hs hs' size with ⟨-, he'⟩ | ⟨-, pool'', p, he'⟩
    · rw [he'] at he
      obtain ⟨rfl, -⟩ := Prod.mk.inj (Option.some.inj he)
      exact refused_same
    · rw [he'] at he
      cases he
  · intro size pool' r he
    rcases run.alloc_decides hs hs' size with ⟨-, he'⟩ | ⟨-, pool'', p, he'⟩
    · rw [he'] at he
      obtain ⟨rfl, -⟩ := Prod.mk.inj (Option.some.inj he)
      exact refused_fields
    · obtain ⟨rfl, rfl⟩ := Prod.mk.inj (Option.some.inj (he'.symm.trans he))
      exact .inl (mpsSlabAllocLocked_log he')
  · intro k hk hks
    rcases run.inv hs hs' with ⟨hempty, rfl, -⟩ | ⟨-, cells, lists, h⟩
    · refine ⟨[], ring_nil (hempty.slots _ (by omega)) fun hn => absurd rfl hn, ?_⟩
      intro i
      simp [hempty.total]
    · exact h.slot_ring hk hks

/-- In a pool of four pages, with one chunk live. There is room for three pages, and for
any small request. -/
theorem fails_when_full_one : ∃ pool,
    FailsWhenFull 12 (mpsSlabSizesInit (2 ^ 12)) pool [⟨4096, 100⟩] :=
  ⟨_, fails_when_full (by decide) (by decide)
    (.alloc (.init 0 20480 3 (fun _ => ⟨0, 0, 0⟩) (fun _ => ⟨0, 0, 0, 0⟩) (fun _ => 0)
      (by decide) (by decide) (by decide) (by decide) rfl) rfl)⟩

end MpsShdict
