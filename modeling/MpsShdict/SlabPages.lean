import MpsShdict.SlabShelf
import Mathlib.Data.List.Perm.Subperm

/-! # Taking pages and giving them back

The cells cover the page area without a gap, no two free runs meet, and `pfree` counts the
free pages. `mps_slab_alloc_pages` cuts a block off the front of a free run,
`mps_slab_free_pages` makes a block or a page of chunks a free run and merges it with the
free runs on either side.

`PageInv` is the invariant of the page level, with the cells and the lists as witnesses.
The allocation of pages is proved here: the search goes through `pool->free` by induction
on the rest of the list, and where it finds a run, `takePages_spec` says which cells there
are afterwards. Since no two free runs meet, a search that fails really means that no run
of that length is free. Giving pages back has a module of its own.
-/
namespace MpsShdict

open Words Links

/-- The cells follow one another from page `i` up to page `e`, with no page left out and
none in two cells. -/
def Contiguous : Nat → List Cell → Nat → Prop
  | i, [], e => i = e
  | i, c :: cs, e => c.pos = i ∧ Contiguous (i + c.len) cs e

/-- The free pages of a cell. -/
def Cell.freeLen (c : Cell) : Nat :=
  match c.kind with
  | .free => c.len
  | _ => 0

@[simp] theorem freeLen_free (i n : Nat) : (⟨i, .free, n⟩ : Cell).freeLen = n := rfl
@[simp] theorem freeLen_block (i n : Nat) : (⟨i, .block, n⟩ : Cell).freeLen = 0 := rfl
@[simp] theorem freeLen_chunks (i n k : Nat) (used : List Nat) :
    (⟨i, .chunks k used, n⟩ : Cell).freeLen = 0 := rfl

/-- No two free runs meet. This is what merging is for, and why the list of free runs is
as short as it can be. -/
def Apart (cells : List Cell) : Prop :=
  cells.IsChain fun a b => ¬ (a.kind = .free ∧ b.kind = .free)

/-- **The cells cover the page area**, and the pool describes them: a shelf without gaps,
with free runs that do not meet, and with the right count of free pages. -/
structure PageInv (sz : Sizes) (s P : Nat) (pool : SlabPool) (cells : List Cell)
    (lists : Option Nat → List Nat) : Prop where
  shelf : Shelf sz s P pool cells lists
  contiguous : Contiguous 0 cells P
  apart : Apart cells
  pfree : pool.pfree = (cells.map Cell.freeLen).sum

theorem contiguous_append {xs ys : List Cell} {i e : Nat} :
    Contiguous i (xs ++ ys) e ↔ ∃ k, Contiguous i xs k ∧ Contiguous k ys e := by
  induction xs generalizing i with
  | nil => simp [Contiguous]
  | cons c cs ih => simp only [List.cons_append, Contiguous, ih]; tauto

theorem Contiguous.le {xs : List Cell} {i e : Nat} (h : Contiguous i xs e) : i ≤ e := by
  induction xs generalizing i with
  | nil => exact Nat.le_of_eq h
  | cons c cs ih => exact (Nat.le_add_right _ _).trans (ih h.2)

theorem Contiguous.bounds {xs : List Cell} {i e : Nat} (h : Contiguous i xs e) :
    ∀ c ∈ xs, i ≤ c.pos ∧ c.pos + c.len ≤ e := by
  induction xs generalizing i with
  | nil => simp
  | cons c cs ih =>
    obtain ⟨rfl, h⟩ := h
    intro c' hc'
    rcases List.mem_cons.mp hc' with rfl | hc'
    · exact ⟨le_rfl, h.le⟩
    · have := ih h c' hc'
      omega

/-- The cells before and behind a place. -/
theorem Contiguous.middle {pre post : List Cell} {c : Cell} {i e : Nat} :
    Contiguous i (pre ++ c :: post) e ↔
      Contiguous i pre c.pos ∧ Contiguous (c.pos + c.len) post e := by
  rw [contiguous_append]
  constructor
  · rintro ⟨k, h1, rfl, h2⟩
    exact ⟨h1, h2⟩
  · rintro ⟨h1, h2⟩
    exact ⟨c.pos, h1, rfl, h2⟩

theorem Apart.of_cons {xs : List Cell} {c : Cell} (h : Apart (c :: xs)) : Apart xs :=
  List.IsChain.tail h

theorem Apart.left {xs ys : List Cell} (h : Apart (xs ++ ys)) : Apart xs :=
  List.IsChain.left_of_append h

theorem Apart.right {xs ys : List Cell} (h : Apart (xs ++ ys)) : Apart ys :=
  List.IsChain.right_of_append h

/-- A cell that is not free keeps its neighbours apart. -/
theorem apart_middle {xs ys : List Cell} {c : Cell} (hx : Apart xs) (hc : c.kind ≠ .free)
    (hy : Apart ys) : Apart (xs ++ c :: ys) := by
  refine List.isChain_append.mpr ⟨hx, List.isChain_cons.mpr ⟨?_, hy⟩, ?_⟩
  · exact fun y _ hk => hc hk.1
  · rintro x - y hy hk
    rw [List.head?_cons, Option.mem_some_iff] at hy
    exact hc (hy ▸ hk.2)

theorem freeLen_le (c : Cell) : c.freeLen ≤ c.len := by
  unfold Cell.freeLen
  split
  · exact le_rfl
  · exact Nat.zero_le _

theorem Contiguous.sum_le {xs : List Cell} {i e : Nat} (h : Contiguous i xs e) :
    (xs.map Cell.freeLen).sum + i ≤ e := by
  induction xs generalizing i with
  | nil => simpa using h.le
  | cons c cs ih =>
    have := ih h.2
    have := freeLen_le c
    simp only [List.map_cons, List.sum_cons]
    omega

theorem Geometry.P_lt {sz : Sizes} {s P : Nat} {pool : SlabPool} (g : Geometry sz s P pool) :
    P < 2 ^ 64 := by
  have h1 := g.end_le
  have h2 := g.end_lt
  have h3 : P * 1 ≤ P * 2 ^ s := Nat.mul_le_mul_left P (Nat.one_le_two_pow)
  omega

theorem pageDesc_add {pool : SlabPool} {i n : Nat} :
    pool.pageDesc i + sizeofPage * n = pool.pageDesc (i + n) := by
  simp only [SlabPool.pageDesc, sizeofPage]
  omega

/-- The descriptors that a write to `n - 1` pages behind page `i` reaches. -/
theorem fill_iff {pool : SlabPool} {i n o z : Nat} (ho : pool.pageDesc i = o) (hn : 0 < n) :
    (o + sizeofPage ≤ z ∧ z < o + sizeofPage + sizeofPage * (n - 1) ∧
      (z - (o + sizeofPage)) % sizeofPage = 0) ↔
      ∃ j, i < j ∧ j < i + n ∧ z = pool.pageDesc j := by
  subst ho
  simp only [SlabPool.pageDesc, sizeofPage]
  constructor
  · rintro ⟨h1, h2, h3⟩
    exact ⟨(z - pool.pages) / 24, by omega, by omega, by omega⟩
  · rintro ⟨j, h1, h2, rfl⟩
    omega

section Take
variable {sz : Sizes} {s P : Nat} {pool : SlabPool} {pre post : List Cell}
  {lists : Option Nat → List Nat} {i n m o z : Nat}

/-- The fields after pages have been taken off the run at `o`, descriptor by descriptor.
The two branches of the source differ in the links alone. -/
theorem takePages_fields (hn : 0 < n) (hp : (pool.desc o).prev ≠ o) :
    (takePages pool o n).desc z =
      if o + sizeofPage ≤ z ∧ z < o + sizeofPage + sizeofPage * (n - 1) ∧
          (z - (o + sizeofPage)) % sizeofPage = 0
        then ⟨mpsSlabPageBusy, 0, mpsSlabPage⟩
      else if z = o then ⟨n ||| mpsSlabPageStart, 0, mpsSlabPage⟩
      else if n < (pool.desc o).slab then
        ⟨if z = o + sizeofPage * n then (pool.desc o).slab - n else (pool.desc z).slab,
          if z = (pool.desc o).prev then o + sizeofPage * n
          else if z = o + sizeofPage * n then (pool.desc o).next else (pool.desc z).next,
          if z = (pool.desc o).next then o + sizeofPage * n
          else if z = o + sizeofPage * n then (pool.desc o).prev
          else if z = o + sizeofPage * ((pool.desc o).slab - 1) then o + sizeofPage * n
          else (pool.desc z).prev⟩
      else
        ⟨(pool.desc z).slab,
          if z = (pool.desc o).prev then (pool.desc o).next else (pool.desc z).next,
          if z = (pool.desc o).next then (pool.desc o).prev else (pool.desc z).prev⟩ := by
  have hs : sizeofPage ≠ 0 := by decide
  have hn' : n ≠ 0 := by omega
  simp only [takePages, DescMem.fill, Nat.mul_one]
  split
  · rfl
  · by_cases hlt : n < (pool.desc o).slab
    · have hm : (pool.desc o).slab - 1 ≠ 0 := by omega
      rw [if_pos hlt, if_pos hlt]
      by_cases hz : z = o
      · simp [hz, DescMem.setSlab, DescMem.setNext, DescMem.setPrev]
      · rw [if_neg hz]
        refine SlabPage.ext ?_ ?_ ?_
        · simp [hz]
        · simp [hz, hs, hn', hm, Ne.symm hp]
        · simp [hz, hs, hn', hm, Ne.symm hp]
    · rw [if_neg hlt, if_neg hlt]
      by_cases hz : z = o
      · simp [hz, DescMem.setSlab, DescMem.setNext, DescMem.setPrev]
      · rw [if_neg hz]
        refine SlabPage.ext ?_ ?_ ?_
        · simp [hz]
        · simp [hz]
        · simp [hz, Ne.symm hp]

/-- **Taking pages** off the front of a free run. The run becomes a block and, where it
was longer, a free run behind it, which takes its place on the list. -/
theorem takePages_spec (h : PageInv sz s P pool (pre ++ ⟨i, .free, m⟩ :: post) lists)
    (hn : 0 < n) (hnm : n ≤ m) :
    ∃ lists', PageInv sz s P (takePages pool (pool.pageDesc i) n)
        (pre ++ ⟨i, .block, n⟩ :: ((if n < m then [⟨i + n, .free, m - n⟩] else []) ++ post))
        lists' ∧
      (∀ q, lists' (some q) = lists (some q)) ∧
      SameHeader pool (takePages pool (pool.pageDesc i) n) := by
  set o := pool.pageDesc i with ho
  set pool' := takePages pool o n with hpool'
  set c : Cell := ⟨i, .free, m⟩ with hc
  have hs : SameHeader pool pool' := ⟨rfl, rfl, rfl, rfl, rfl, rfl, rfl, rfl, rfl⟩
  have hcm : c ∈ pre ++ c :: post := Shelf.mem_middle.mpr (.inl rfl)
  have hsh := h.shelf
  obtain ⟨hslab, htypes, -, hclean⟩ := hsh.ok c hcm
  have hbnd := (hsh.bound c hcm).2
  simp only [hc] at hslab htypes hclean hbnd
  have htype := htypes i le_rfl (by omega)
  rw [← ho] at hslab htype
  -- the raw back link is the masked one
  have hpv : mpsSlabPagePrev pool.desc o = (pool.desc o).prev :=
    andNot_three_of_dvd (Nat.dvd_of_mod_eq_zero htype)
  have hring := hsh.ring none trivial
  have hom : o ∈ lists none := (hsh.mem none trivial o).mpr ⟨c, hcm, rfl, ho⟩
  obtain ⟨xs, ys, he⟩ := List.append_of_mem hom
  rw [he] at hring
  have hoh : o ≠ header none := hsh.geo.pageDesc_ne_header trivial
  have hpo : (pool.desc o).prev ≠ o := by
    rw [← hpv, hring.prev_eq hoh]
    intro heq
    have hm := List.getLast_mem (l := header none :: xs) (by simp)
    rw [heq] at hm
    have := hring.nodup
    simp only [List.nodup_cons, List.mem_append, List.mem_cons, List.nodup_append] at this hm
    rcases hm with hm | hm
    · exact hoh hm
    · exact this.2.2.2 o hm o (.inl rfl) rfl
  have hf := fun z => takePages_fields (z := z) hn hpo
  -- an offset off the run is not written but as a neighbour
  have hin : ∀ z, (o + sizeofPage ≤ z ∧ z < o + sizeofPage + sizeofPage * (n - 1) ∧
      (z - (o + sizeofPage)) % sizeofPage = 0) ↔ ∃ j, i < j ∧ j < i + n ∧ z = pool.pageDesc j :=
    fun z => fill_iff ho.symm hn
  have hoff : ∀ z, (∀ j, c.Has j → z ≠ pool.pageDesc j) → (pool'.desc z).slab = (pool.desc z).slab ∧
      (pool'.desc z).next = (if z = (pool.desc o).prev then
        (if n < m then pool.pageDesc (i + n) else (pool.desc o).next) else (pool.desc z).next) ∧
      (pool'.desc z).prev = (if z = (pool.desc o).next then
        (if n < m then pool.pageDesc (i + n) else (pool.desc o).prev) else (pool.desc z).prev) := by
    intro z hz
    have h1 : ¬ ∃ j, i < j ∧ j < i + n ∧ z = pool.pageDesc j := by
      rintro ⟨j, hj, hj', rfl⟩
      exact hz j ⟨Nat.le_of_lt hj, by simp only [hc]; omega⟩ rfl
    have h2 : z ≠ o := hz i ⟨le_rfl, by simp only [hc]; omega⟩
    rw [hpool', hf z, if_neg (fun hz' => h1 ((hin z).mp hz')), if_neg h2, hslab]
    split
    · next hlt =>
      have h3 : z ≠ pool.pageDesc (i + n) := hz (i + n) ⟨by simp [hc], by simp only [hc]; omega⟩
      have h4 : z ≠ pool.pageDesc (i + (m - 1)) :=
        hz _ ⟨by simp [hc], by simp only [hc]; omega⟩
      rw [← pageDesc_add, ← ho] at h3 h4
      simp [h3, h4, ← pageDesc_add, ← ho]
    · simp
  -- the block
  have hblock : CellOk sz P pool' ⟨i, .block, n⟩ := by
    constructor
    · show pool'.desc (pool'.pageDesc i) = _
      rw [hs.pageDesc, ← ho, hf, if_neg, if_pos rfl]
      rw [hin]
      rintro ⟨j, hj, -, he⟩
      exact Nat.lt_irrefl _ (Geometry.pageDesc_inj.mp (ho.symm.trans he) ▸ hj)
    · intro j hj hj'
      show pool'.desc (pool'.pageDesc j) = _
      rw [hs.pageDesc, hf, if_pos ((hin _).mpr ⟨j, hj, hj', rfl⟩)]
  have hmid := Contiguous.middle.mp h.contiguous
  have hpre : ∀ c₁ ∈ pre, c₁.pos + c₁.len ≤ i := fun c₁ hc₁ => (hmid.1.bounds c₁ hc₁).2
  have hpost : ∀ c₁ ∈ post, i + m ≤ c₁.pos := fun c₁ hc₁ => (hmid.2.bounds c₁ hc₁).1
  have hap : Apart post := h.apart.right.of_cons
  have hpf : pool'.pfree = pool.pfree - n := by
    have h1 := h.contiguous.sum_le
    have h2 := hsh.geo.P_lt
    have h3 := h.pfree
    have h4 : m ≤ ((pre ++ c :: post).map Cell.freeLen).sum := by
      simp only [hc, List.map_append, List.map_cons, List.sum_append, List.sum_cons,
        freeLen_free]
      omega
    show sub64 pool.pfree n = _
    exact sub64_of_le (by omega) (by omega)
  have hpf₀ := h.pfree
  simp only [hc, List.map_append, List.map_cons, List.sum_append, List.sum_cons,
    freeLen_free] at hpf₀
  by_cases hlt : n < m
  · -- the rest of the run takes its place on the list
    set c' : Cell := ⟨i + n, .free, m - n⟩ with hc'
    have hnb : ∀ y, y ∈ header none :: lists none →
        ∀ j, i < j → j < i + m → y ≠ pool.pageDesc j := by
      rintro y hy j hj hj' rfl
      have hy' := (List.mem_cons.mp hy).resolve_left (hsh.geo.pageDesc_ne_header trivial)
      have := (hsh.cell_of_mem (a := none) trivial hcm ⟨Nat.le_of_lt hj, hj'⟩ hy').1
      simp only [hc] at this
      omega
    have hnext : (pool.desc o).next ∈ header none :: lists none := by
      rw [hring.next_eq, he]
      cases ys <;> simp
    have hprev : (pool.desc o).prev ∈ header none :: lists none := by
      rw [← hpv, hring.prev_eq hoh, he, ← List.cons_append]
      exact List.mem_append_left _ (List.getLast_mem _)
    have hrun : ∀ j, i + n ≤ j → j < i + m → pool'.desc (pool.pageDesc j) =
        ⟨if j = i + n then m - n else (pool.desc (pool.pageDesc j)).slab,
          if j = i + n then (pool.desc o).next else (pool.desc (pool.pageDesc j)).next,
          if j = i + n then (pool.desc o).prev else if j = i + (m - 1) then pool.pageDesc (i + n)
          else (pool.desc (pool.pageDesc j)).prev⟩ := by
      intro j hj hj'
      have h1 : ¬ ∃ k, i < k ∧ k < i + n ∧ pool.pageDesc j = pool.pageDesc k := by
        rintro ⟨k, hk, hk', he⟩
        have := Geometry.pageDesc_inj.mp he
        omega
      have h2 : pool.pageDesc j ≠ o := Geometry.pageDesc_ne (by omega)
      have h3 := hnb _ hprev j (by omega) hj'
      have h4 := hnb _ hnext j (by omega) hj'
      rw [hpool', hf, if_neg (fun hz' => h1 ((hin _).mp hz')), if_neg h2, hslab, if_pos hlt]
      simp only [ho, pageDesc_add, Geometry.pageDesc_inj]
      simp only [← ho, Ne.symm h3, Ne.symm h4, ↓reduceIte]
    have hrest : CellOk sz P pool' c' := by
      refine ⟨?_, ?_, ?_, ?_⟩
      · show (pool'.desc (pool'.pageDesc (i + n))).slab = _
        rw [hs.pageDesc, hrun _ le_rfl (by omega)]
        simp [hc']
      · rintro j hj hj'
        simp only [hc'] at hj hj'
        show (pool'.desc (pool'.pageDesc j)).prev % 4 = _
        rw [hs.pageDesc, hrun j hj (by omega)]
        by_cases h1 : j = i + n
        · simpa [h1] using htype
        · by_cases h2 : j = i + (m - 1)
          · simp only [h2, ↓reduceIte]
            split
            · exact htype
            · exact Nat.mod_eq_zero_of_dvd hsh.geo.dvd_pageDesc
          · simpa [h1, h2] using htypes j (by omega) (by omega)
      · intro h5 _
        simp only [hc'] at h5
        have hl : i + n + (m - n) - 1 = i + (m - 1) := by omega
        have hne : m - 1 ≠ n := by omega
        simp only [hc', hl, hs.pageDesc]
        rw [hrun _ (by omega) (by omega)]
        simp [hne]
      · intro j hj hj'
        simp only [hc'] at hj hj'
        show (pool'.desc (pool'.pageDesc j)).slab = _
        rw [hs.pageDesc, hrun j (by omega) (by omega)]
        simpa [show j ≠ i + n by omega] using hclean j (by omega) (by omega)
    obtain ⟨xs', ys', -, hsh'⟩ := hsh.replace (v := pool.pageDesc (i + n)) c' hs
      (a := none) rfl (by simp [hc, hc']) (by simp only [hc, hc']; omega) (by simp [hc']; omega)
      hrest rfl
      (by
        have hy := hrun _ le_rfl (by omega)
        simp only [↓reduceIte] at hy
        rw [mpsSlabPagePrev, show pool'.desc (pool.pageDesc c'.pos) = _ from hy]
        exact ⟨rfl, rfl⟩)
      (fun z hz => by
        have := hoff z hz
        rw [if_pos hlt, if_pos hlt] at this
        rw [show c'.pos = i + n from rfl, show pool.pageDesc c.pos = o from rfl, hpv]
        exact this)
      (andNot_three_of_dvd hsh.geo.dvd_pageDesc)
      (Nat.mod_eq_zero_of_dvd hsh.geo.dvd_pageDesc) (fun _ _ _ _ _ _ _ => rfl)
    have hadd := hsh'.add (c := ⟨i, .block, n⟩) hpre
      (fun c₁ hc₁ => by
        rcases List.mem_cons.mp hc₁ with rfl | hc₁
        · exact le_rfl
        · exact (Nat.add_le_add_left hnm i).trans (hpost c₁ hc₁))
      ⟨hn, (Nat.add_le_add_left hnm i).trans hbnd⟩ hblock rfl
    refine ⟨_, ⟨by simpa [hlt] using hadd, ?_, ?_, ?_⟩, fun q => ?_, hs⟩
    · rw [if_pos hlt]
      refine Contiguous.middle.mpr ⟨hmid.1, rfl, ?_⟩
      show Contiguous (i + n + (m - n)) post P
      rw [show i + n + (m - n) = i + m by omega]
      exact hmid.2
    · rw [if_pos hlt]
      apply apart_middle h.apart.left (by simp)
      have := h.apart.right
      cases post with
      | nil => simp [Apart]
      | cons p ps =>
        simp only [Apart, List.isChain_cons_cons, List.cons_append, List.nil_append] at this ⊢
        exact this
    · rw [hpf, hpf₀, if_pos hlt]
      simp only [hc', freeLen_free, freeLen_block, List.map_append, List.map_cons,
        List.sum_append, List.sum_cons, List.map_nil, List.sum_nil]
      omega
    · exact Function.update_of_ne (by simp) _ _
  · -- the whole run leaves the list
    obtain rfl : n = m := by omega
    obtain ⟨xs', ys', -, hsh'⟩ := hsh.unlink (a := none) rfl
    have hfu := unlinkPage_fields (m := pool.desc) (x := o) (by rw [hpv]; exact hpo)
    have hsh'' := hsh'.frame (show SameHeader _ pool' from
      ⟨rfl, rfl, rfl, rfl, rfl, rfl, rfl, rfl, rfl⟩)
      (fun z hz => by
        obtain ⟨h1, h2, h3⟩ := hfu z
        have := hoff z fun j hj => hz j fun c₁ hc₁ hj' => by
          have hm := Shelf.mem_middle (c := c).mpr (.inr hc₁)
          exact hsh.notMem_rest (hsh.unique hm hcm hj' hj ▸ hc₁)
        simp only [lt_irrefl, ↓reduceIte] at this
        obtain ⟨k1, k2, k3⟩ := this
        refine SlabPage.ext (k1.trans h1.symm) (k2.trans ?_) (k3.trans h3.symm)
        rw [hpv] at h2
        exact h2.symm)
      (fun _ _ _ _ _ _ _ => rfl)
    have hadd := hsh''.add (c := ⟨i, .block, n⟩) hpre hpost ⟨hn, hbnd⟩ hblock rfl
    refine ⟨_, ⟨by simpa using hadd, ?_, ?_, ?_⟩, fun q => ?_, hs⟩
    · rw [if_neg hlt]
      exact Contiguous.middle.mpr hmid
    · rw [if_neg hlt]
      exact apart_middle h.apart.left (by simp) hap
    · rw [hpf, hpf₀, if_neg hlt]
      simp only [freeLen_block, List.map_append, List.map_cons, List.sum_append, List.sum_cons,
        List.nil_append]
      omega
    · exact Function.update_of_ne (by simp) _ _

end Take

/-! ### The search for a run -/

section Search
variable {sz : Sizes} {s P : Nat} {pool : SlabPool} {cells : List Cell}
  {lists : Option Nat → List Nat} {n fuel page : Nat}

/-- The pool after a search that found no run. -/
def noRun (pool : SlabPool) : SlabPool :=
  if pool.logNomem then pool.logError .noMemory else pool

/-- There are at most as many names on a list as there are pages. -/
theorem Shelf.length_le (h : Shelf sz s P pool cells lists) : (lists none).length ≤ P := by
  have hnd : (lists none).Nodup := (List.nodup_cons.mp (h.ring none trivial).nodup).2
  have hsub : lists none ⊆ (List.range P).map pool.pageDesc := by
    intro x hx
    obtain ⟨c, hc, -, rfl⟩ := (h.mem none trivial x).mp hx
    have := h.bound c hc
    exact List.mem_map.mpr ⟨c.pos, List.mem_range.mpr (by omega), rfl⟩
  simpa using (List.subperm_of_subset hnd hsub).length_le

/-- The search goes through the rest `ys` of the list and stops at the first run that is
long enough. The induction is on that rest; a run that is too short makes it one shorter. -/
theorem allocPagesLoop_spec (h : PageInv sz s P pool cells lists) (ys : List Nat) :
    ∀ {xs : List Nat} {fuel : Nat}, lists none = xs ++ ys → ys.length < fuel →
    (∃ i m pre post, cells = pre ++ ⟨i, .free, m⟩ :: post ∧ n ≤ m ∧
      allocPagesLoop fuel pool (ys.head?.getD freeOff) n =
        some (takePages pool (pool.pageDesc i) n, some (pool.pageDesc i))) ∨
    ((∀ x ∈ ys, (pool.desc x).slab < n) ∧
      allocPagesLoop fuel pool (ys.head?.getD freeOff) n = some (noRun pool, none)) := by
  -- induction on the runs that are still to be looked at
  induction ys with
  | nil =>
    intro xs fuel _ hfuel
    obtain ⟨fuel, rfl⟩ : ∃ k, fuel = k + 1 := ⟨fuel - 1, by simp at hfuel; omega⟩
    exact .inr ⟨by simp, by simp [allocPagesLoop, noRun]⟩
  | cons y ys ih =>
    intro xs fuel he hfuel
    obtain ⟨fuel, rfl⟩ : ∃ k, fuel = k + 1 := ⟨fuel - 1, by omega⟩
    obtain ⟨⟨pos, kind, len⟩, hc, hl, hy⟩ := (h.shelf.mem none trivial y).mp (by rw [he]; simp)
    have hkind : kind = .free := by
      cases kind with
      | free => rfl
      | block => simp [Cell.list] at hl
      | chunks shift used =>
        simp only [Cell.list] at hl
        split at hl <;> simp at hl
    subst hkind
    have hslab : (pool.desc y).slab = len := hy ▸ (h.shelf.ok _ hc).1
    have hyh : y ≠ freeOff := hy ▸ h.shelf.geo.pageDesc_ne_header (a := none) trivial
    have hring := h.shelf.ring none trivial
    rw [he] at hring
    have hnext : (pool.desc y).next = ys.head?.getD freeOff := hring.next_eq
    -- the first run that is long enough is taken
    by_cases hlen : n ≤ len
    · obtain ⟨pre, post, rfl⟩ := List.append_of_mem hc
      refine .inl ⟨pos, len, pre, post, rfl, hlen, ?_⟩
      rw [← hy]
      simp [allocPagesLoop, hyh, hslab, hlen]
    · have hstep : allocPagesLoop (fuel + 1) pool y n =
          allocPagesLoop fuel pool (ys.head?.getD freeOff) n := by
        simp [allocPagesLoop, hyh, hslab, hlen, hnext]
      simp only [List.head?_cons, Option.getD_some, hstep]
      rcases ih (show lists none = (xs ++ [y]) ++ ys by rw [he]; simp)
        (show ys.length < fuel by simp only [List.length_cons] at hfuel; omega) with hr | hr
      · exact .inl hr
      · refine .inr ⟨?_, hr.2⟩
        intro x hx
        rcases List.mem_cons.mp hx with rfl | hx
        · omega
        · exact hr.1 x hx

/-- **The allocation of pages** cuts them off a free run that is long enough, or there is
none. In the second case nothing changes but for the message. -/
theorem mpsSlabAllocPages_spec (h : PageInv sz s P pool cells lists) (hfuel : P < fuel) :
    (∃ i m pre post, cells = pre ++ ⟨i, .free, m⟩ :: post ∧ n ≤ m ∧
      mpsSlabAllocPages fuel pool n =
        some (takePages pool (pool.pageDesc i) n, some (pool.pageDesc i))) ∨
    ((∀ i m, (⟨i, .free, m⟩ : Cell) ∈ cells → m < n) ∧
      mpsSlabAllocPages fuel pool n = some (noRun pool, none)) := by
  have hlen := h.shelf.length_le
  have hring := h.shelf.ring none trivial
  have hhead : (pool.desc freeOff).next = (lists none).head?.getD freeOff := by
    cases hl : lists none with
    | nil =>
      rw [hl] at hring
      exact hring.nil_iff.mpr rfl
    | cons y ys =>
      rw [hl] at hring
      exact hring.head
  rw [mpsSlabAllocPages, hhead]
  rcases allocPagesLoop_spec h (lists none) (List.nil_append _).symm
    (show (lists none).length < fuel by omega) with hr | ⟨hr, hrun⟩
  · exact .inl hr
  · refine .inr ⟨?_, hrun⟩
    intro i m hm
    have := hr _ ((h.shelf.mem none trivial _).mpr ⟨_, hm, rfl, rfl⟩)
    rwa [(h.shelf.ok _ hm).1] at this

end Search

end MpsShdict
