import MpsShdict.SlabPages

/-! # Giving pages back

While `mps_slab_free_pages` is at work there is a gap: the pages of the run it is putting
together belong to no cell. The gap grows by the free run behind it and by the one before
it, and becomes a free run at the end.

`Gap` is the invariant in between. The code recognises a free run behind the gap by the
type and link of one descriptor, and a free run before it by the type and back link of
another; that it finds a run exactly where there is one is proved from what the cells say
of their first and last pages (`next_isFree`, `runHead_free`, `runHead_notFree`). After
both merges the cells next to the gap are not free, so that the run which the gap becomes
does not meet another one (`Gap.push`).
-/
namespace MpsShdict

open Words Links

/-- The `n` pages from page `i` on are in no cell. The first of their descriptors counts
them, and the others are ready to be those of a free run. -/
structure Gap (sz : Sizes) (s P : Nat) (pool : SlabPool) (pre post : List Cell) (i n : Nat)
    (lists : Option Nat → List Nat) : Prop where
  shelf : Shelf sz s P pool (pre ++ post) lists
  before : Contiguous 0 pre i
  behind : Contiguous (i + n) post P
  pos : 0 < n
  left : Apart pre
  right : Apart post
  slab : (pool.desc (pool.pageDesc i)).slab = n
  clean : ∀ j, i < j → j < i + n → (pool.desc (pool.pageDesc j)).slab = mpsSlabPageFree
  types : ∀ j, i < j → j < i + n → (pool.desc (pool.pageDesc j)).prev % 4 = mpsSlabPage

/-- The cells next to the gap are not free. -/
def NotFree (c : Option Cell) : Prop := ∀ p ∈ c, p.kind ≠ .free

namespace Gap
variable {sz : Sizes} {s P i n m : Nat} {pool pool' : SlabPool} {pre post : List Cell} {c : Cell}
  {lists : Option Nat → List Nat} {fields : SlabPage}

theorem le (h : Gap sz s P pool pre post i n lists) : i + n ≤ P := h.behind.le

theorem notHas (h : Gap sz s P pool pre post i n lists) {j : Nat} (hj : i ≤ j) (hj' : j < i + n) :
    ∀ c ∈ pre ++ post, ¬ c.Has j := by
  rintro c hc ⟨h1, h2⟩
  rcases List.mem_append.mp hc with hc | hc
  · have := h.before.bounds c hc
    omega
  · have := h.behind.bounds c hc
    omega

/-- The name of a listed cell leads on to another name. -/
theorem next_ne_zero (h : Shelf sz s P pool (pre ++ c :: post) lists)
    {a : Option Nat} (hl : c.list sz pool.minShift = some a) :
    (pool.desc (pool.pageDesc c.pos)).next ≠ 0 := by
  have hc : c ∈ pre ++ c :: post := Shelf.mem_middle.mpr (.inl rfl)
  have ha := (h.ok c hc).isList h.geo hl
  obtain ⟨xs, ys, he⟩ := List.append_of_mem ((h.mem a ha _).mpr ⟨c, hc, hl, rfl⟩)
  have hr := h.ring a ha
  rw [he] at hr
  have hnx : (pool.desc (pool.pageDesc c.pos)).next = ys.head?.getD (header a) := hr.next_eq
  rw [hnx]
  cases hys : ys with
  | nil => exact Geometry.header_ne_zero
  | cons y ys' =>
    obtain ⟨c', -, -, hy⟩ := (h.mem a ha y).mp (by rw [he, hys]; simp)
    rw [List.head?_cons, Option.getD_some, hy]
    exact h.geo.pageDesc_ne_zero

/-- The header of a pool whose descriptors are replaced. -/
theorem sameDesc (pool : SlabPool) (m : DescMem) : SameHeader pool { pool with desc := m } :=
  ⟨rfl, rfl, rfl, rfl, rfl, rfl, rfl, rfl, rfl⟩

/-- A run leaves the list of free runs: what becomes of the descriptors. -/
theorem unlink_free {j : Nat} (h : Shelf sz s P pool (pre ++ ⟨j, .free, m⟩ :: post) lists) :
    ∃ lists', Shelf sz s P { pool with desc := unlinkPage pool.desc (pool.pageDesc j) }
        (pre ++ post) lists' ∧
      ∀ k, (∀ c ∈ pre ++ post, ¬ c.Has k) →
        unlinkPage pool.desc (pool.pageDesc j) (pool.pageDesc k) = pool.desc (pool.pageDesc k) := by
  set c : Cell := ⟨j, .free, m⟩ with hcdef
  have hc : c ∈ pre ++ c :: post := Shelf.mem_middle.mpr (.inl rfl)
  obtain ⟨xs, ys, he, hsh⟩ := h.unlink (a := none) rfl
  refine ⟨_, hsh, ?_⟩
  intro k hk
  have hr := h.ring none trivial
  rw [he] at hr
  have hx : pool.pageDesc j ≠ header none := h.geo.pageDesc_ne_header trivial
  have hpx : mpsSlabPagePrev pool.desc (pool.pageDesc j) = (header none :: xs).getLast (by simp) :=
    hr.prev_eq hx
  have hnx : (pool.desc (pool.pageDesc j)).next = ys.head?.getD (header none) := hr.next_eq
  -- the neighbours are the header or other runs
  have hnb : ∀ y, y ∈ header none :: xs ∨ y ∈ header none :: ys → y ≠ pool.pageDesc j ∧
      y ≠ pool.pageDesc k := by
    intro y hy
    have hnd := hr.nodup
    have hyx : y ≠ pool.pageDesc j := by
      rintro rfl
      obtain ⟨-, hnd'⟩ := List.nodup_cons.mp hnd
      obtain ⟨-, hnd₂, hd⟩ := List.nodup_append.mp hnd'
      simp only [List.mem_cons] at hy
      rcases hy with (hy | hy) | (hy | hy)
      · exact hx hy
      · exact hd _ hy _ (List.mem_cons.mpr (.inl rfl)) rfl
      · exact hx hy
      · exact (List.nodup_cons.mp hnd₂).1 hy
    refine ⟨hyx, ?_⟩
    rintro rfl
    have hm : pool.pageDesc k ∈ lists none := by
      rw [he]
      have hk' : pool.pageDesc k ≠ header none := h.geo.pageDesc_ne_header trivial
      simp only [List.mem_cons, List.mem_append] at hy ⊢
      tauto
    obtain ⟨c₁, hc₁, -, he₁⟩ := (h.mem none trivial _).mp hm
    have hpos := Geometry.pageDesc_inj.mp he₁
    rcases Shelf.mem_middle.mp hc₁ with rfl | hc₁
    · exact hyx he₁
    · exact hk c₁ hc₁ (hpos ▸ h.has_pos (Shelf.mem_middle.mpr (.inr hc₁)))
  have hp := hnb _ (.inl (hpx ▸ List.getLast_mem _))
  have hn : (pool.desc (pool.pageDesc j)).next ≠ pool.pageDesc k := by
    refine (hnb _ (.inr ?_)).2
    rw [hnx]
    cases ys <;> simp
  obtain ⟨h1, h2, h3⟩ := unlinkPage_fields hp.1 (pool.pageDesc k)
  exact SlabPage.ext h1 (h2.trans (if_neg (Ne.symm hp.2))) (h3.trans (if_neg (Ne.symm hn)))

theorem unlinkPage_setSlab (d : DescMem) (o v x : Nat) :
    unlinkPage (d.setSlab o v) x = (unlinkPage d x).setSlab o v := by
  funext z
  refine SlabPage.ext ?_ ?_ ?_ <;> simp [unlinkPage, mpsSlabPagePrev]

/-- The descriptor of a page that is no longer the head of a run. -/
def clearHead (d : DescMem) (x : Nat) : DescMem :=
  ((d.setSlab x mpsSlabPageFree).setNext x 0).setPrev x mpsSlabPage

theorem clearHead_self (d : DescMem) (x : Nat) : clearHead d x x = ⟨0, 0, 0⟩ := by
  simp [clearHead, DescMem.setSlab, DescMem.setNext, DescMem.setPrev, mpsSlabPageFree, mpsSlabPage]

theorem clearHead_ne {d : DescMem} {x z : Nat} (h : z ≠ x) : clearHead d x z = d z := by
  rw [clearHead, DescMem.setPrev_ne h, DescMem.setNext_ne h, DescMem.setSlab_ne h]

/-- The first cell behind the gap is free exactly where the code takes it for a free run:
a page of type `MPS_SLAB_PAGE` whose descriptor has a forward link. -/
theorem next_isFree (h : Gap sz s P pool pre (c :: post) i n lists) :
    (mpsSlabPageType pool.desc (pool.pageDesc c.pos) = mpsSlabPage ∧
      (pool.desc (pool.pageDesc c.pos)).next ≠ 0) ↔ c.kind = .free := by
  have hc : c ∈ pre ++ c :: post := Shelf.mem_middle.mpr (.inl rfl)
  have hok := h.shelf.ok c hc
  rw [mpsSlabPageType, and_three]
  obtain ⟨pos, kind, len⟩ := c
  cases kind with
  | free => exact iff_of_true ⟨hok.2.1 pos le_rfl (Nat.lt_add_of_pos_right
      (h.shelf.bound _ hc).1), next_ne_zero h.shelf (a := none) rfl⟩ rfl
  | block =>
    exact iff_of_false (fun hn => hn.2 (congrArg SlabPage.next hok.1)) (by simp)
  | chunks shift used =>
    exact iff_of_false (fun hn => chunkType_ne_page (hok.2.2.1.symm.trans hn.1)) (by simp)

/-- **Two runs become one gap**, where they lie next to each other and are in no cell: the
first descriptor counts the pages of both, the one of the second run is cleared. Both
merges are cases of this. -/
theorem merged {j k l : Nat} (hsh : Shelf sz s P pool (pre ++ post) lists)
    (hbefore : Contiguous 0 pre j) (hbehind : Contiguous (j + (k + l)) post P) (hk : 0 < k)
    (hl : 0 < l) (hleft : Apart pre) (hright : Apart post)
    (hclean : ∀ x, j < x → x < j + (k + l) → x ≠ j + k →
      (pool.desc (pool.pageDesc x)).slab = mpsSlabPageFree)
    (htypes : ∀ x, j < x → x < j + (k + l) → x ≠ j + k →
      (pool.desc (pool.pageDesc x)).prev % 4 = mpsSlabPage) :
    Gap sz s P
      { pool with
        desc := clearHead (pool.desc.setSlab (pool.pageDesc j) (k + l)) (pool.pageDesc (j + k)) }
      pre post j (k + l) lists := by
  set m' := clearHead (pool.desc.setSlab (pool.pageDesc j) (k + l)) (pool.pageDesc (j + k)) with hm'
  have hout : ∀ x, j ≤ x → x < j + (k + l) → ∀ c ∈ pre ++ post, ¬ c.Has x := by
    rintro x hx hx' c hc ⟨h1, h2⟩
    rcases List.mem_append.mp hc with hc | hc
    · have : c.pos + c.len ≤ j := (hbefore.bounds c hc).2
      omega
    · have : j + (k + l) ≤ c.pos := (hbehind.bounds c hc).1
      omega
  have hne : pool.pageDesc j ≠ pool.pageDesc (j + k) := Geometry.pageDesc_ne (by omega)
  -- behind the first page only the head of the second run has been written
  have hkeep : ∀ x, j < x → x ≠ j + k → m' (pool.pageDesc x) = pool.desc (pool.pageDesc x) := by
    intro x hx hxk
    rw [hm', clearHead_ne (Geometry.pageDesc_ne hxk),
      DescMem.setSlab_ne (Geometry.pageDesc_ne (by omega))]
  have hhead : m' (pool.pageDesc (j + k)) = ⟨0, 0, 0⟩ := clearHead_self _ _
  refine ⟨?_, hbefore, hbehind, by omega, hleft, hright, ?_, ?_, ?_⟩
  · refine hsh.frame (sameDesc _ _) ?_ (fun _ _ _ _ _ _ _ => rfl)
    intro y hy
    have h1 : y ≠ pool.pageDesc (j + k) := hy _ (hout _ (by omega) (by omega))
    have h2 : y ≠ pool.pageDesc j := hy _ (hout _ le_rfl (by omega))
    show m' y = _
    rw [hm', clearHead_ne h1, DescMem.setSlab_ne h2]
  · show (m' (pool.pageDesc j)).slab = _
    rw [hm', clearHead_ne hne]
    simp
  · intro x hx hx'
    show (m' (pool.pageDesc x)).slab = _
    by_cases hxk : x = j + k
    · rw [hxk, hhead]
      rfl
    · rw [hkeep x hx hxk]
      exact hclean x hx hx' hxk
  · intro x hx hx'
    show (m' (pool.pageDesc x)).prev % 4 = _
    by_cases hxk : x = j + k
    · rw [hxk, hhead]
      rfl
    · rw [hkeep x hx hxk]
      exact htypes x hx hx' hxk

/-- **The merge with the run behind.** The gap is longer by that run, or the cell behind
is not free and nothing has changed. -/
theorem joinNext_spec (h : Gap sz s P pool pre post i n lists) :
    ∃ m' post' n' lists', joinNext pool.last pool.desc (pool.pageDesc i) (n - 1) = (m', n' - 1) ∧
      Gap sz s P { pool with desc := m' } pre post' i n' lists' ∧ NotFree post'.head? ∧
      (post = post' ∧ n' = n ∨ ∃ m, post = ⟨i + n, .free, m⟩ :: post' ∧ n' = n + m) := by
  have hjoin : pool.pageDesc i + sizeofPage * (pool.desc (pool.pageDesc i)).slab =
      pool.pageDesc (i + n) := by
    rw [h.slab, pageDesc_add]
  have hlast : pool.pageDesc (i + n) < pool.last ↔ i + n < P := by
    rw [h.shelf.geo.last]
    simp only [SlabPool.pageDesc, sizeofPage]
    omega
  cases post with
  | nil =>
    have hP : i + n = P := h.behind
    refine ⟨pool.desc, [], n, lists, ?_, h, by simp [NotFree], .inl ⟨rfl, rfl⟩⟩
    simp only [joinNext, hjoin, hlast]
    rw [if_neg (fun hl => absurd hl.1 (by omega))]
  | cons p ps =>
    obtain ⟨hpos, hps⟩ := h.behind
    have hpm : p ∈ pre ++ p :: ps := Shelf.mem_middle.mpr (.inl rfl)
    have hbnd := h.shelf.bound p hpm
    have hiff := h.next_isFree
    rw [hpos] at hiff
    have hn := h.pos
    by_cases hfree : p.kind = .free
    · obtain ⟨pos, kind, m⟩ := p
      subst hfree
      replace hpos : pos = i + n := hpos
      subst hpos
      obtain ⟨lists', hsh, hkeep⟩ := unlink_free h.shelf
      replace hbnd : 0 < m ∧ i + n + m ≤ P := hbnd
      replace hps : Contiguous (i + n + m) ps P := hps
      have hok := h.shelf.ok _ hpm
      have hslab : (pool.desc (pool.pageDesc (i + n))).slab = m := hok.1
      -- off the cells the descriptors are those from before the run left its list
      have hsame : ∀ x, i < x → x < i + (n + m) →
          unlinkPage pool.desc (pool.pageDesc (i + n)) (pool.pageDesc x) =
            pool.desc (pool.pageDesc x) := by
        intro x hx hx'
        apply hkeep
        rintro c hc ⟨h1, h2⟩
        rcases List.mem_append.mp hc with hc | hc
        · have := h.before.bounds c hc
          omega
        · have := hps.bounds c hc
          omega
      have hgap := merged hsh h.before (Nat.add_assoc i n m ▸ hps) hn hbnd.1 h.left h.right.of_cons
        (fun x hx hx' hxn => by
          show (unlinkPage _ _ (pool.pageDesc x)).slab = _
          rw [hsame x hx hx']
          rcases Nat.lt_or_gt_of_ne hxn with hlt | hgt
          · exact h.clean x hx hlt
          · exact hok.2.2.2 x hgt (show x < i + n + m by omega))
        (fun x hx hx' hxn => by
          show (unlinkPage _ _ (pool.pageDesc x)).prev % 4 = _
          rw [hsame x hx hx']
          rcases Nat.lt_or_gt_of_ne hxn with hlt | hgt
          · exact h.types x hx hlt
          · exact hok.2.1 x (Nat.le_of_lt hgt) (show x < i + n + m by omega))
      refine ⟨_, ps, n + m, lists', ?_, hgap, ?_, .inr ⟨m, rfl, rfl⟩⟩
      · simp only [joinNext, hjoin, hlast]
        rw [if_pos ⟨by omega, hiff.mpr rfl⟩, hslab, h.slab, unlinkPage_setSlab]
        refine Prod.ext rfl ?_
        show n - 1 + m = n + m - 1
        omega
      · cases ps with
        | nil => simp [NotFree]
        | cons p' ps' =>
          have := (List.isChain_cons_cons.mp h.right).1
          simp only [true_and] at this
          simpa [NotFree] using this
    · refine ⟨pool.desc, p :: ps, n, lists, ?_, h, by simpa [NotFree] using hfree, .inl ⟨rfl, rfl⟩⟩
      simp only [joinNext, hjoin]
      rw [if_neg fun hn => hfree (hiff.mp hn.2)]

/-- The head of the run that ends with the descriptor at `o`, as the code finds it: by the
back link where the page is not the head of a run itself. -/
def runHead (d : DescMem) (o : Nat) : Nat :=
  if (d o).slab = mpsSlabPageFree then mpsSlabPagePrev d o else o

/-- From the last page of a free run the code finds its head. -/
theorem runHead_free {j : Nat} (h : Shelf sz s P pool (pre ++ ⟨j, .free, m⟩ :: post) lists)
    (hi : j + m < P) :
    mpsSlabPageType pool.desc (pool.pageDesc (j + m - 1)) = mpsSlabPage ∧
      runHead pool.desc (pool.pageDesc (j + m - 1)) = pool.pageDesc j := by
  have hc : (⟨j, .free, m⟩ : Cell) ∈ pre ++ ⟨j, .free, m⟩ :: post := Shelf.mem_middle.mpr (.inl rfl)
  obtain ⟨hslab, htype, hlast, hclean⟩ := h.ok _ hc
  replace hslab : (pool.desc (pool.pageDesc j)).slab = m := hslab
  have hpos : 0 < m := (h.bound _ hc).1
  replace htype : ∀ k, j ≤ k → k < j + m →
    (pool.desc (pool.pageDesc k)).prev % 4 = mpsSlabPage := htype
  rw [mpsSlabPageType, and_three, runHead]
  by_cases hm : m = 1
  · subst hm
    rw [Nat.add_sub_cancel, if_neg (by rw [hslab]; decide)]
    exact ⟨htype j le_rfl (by omega), rfl⟩
  · have h1 : (pool.desc (pool.pageDesc (j + m - 1))).slab = mpsSlabPageFree :=
      hclean _ (show j < j + m - 1 by omega) (show j + m - 1 < j + m by omega)
    have h2 : (pool.desc (pool.pageDesc (j + m - 1))).prev = pool.pageDesc j :=
      hlast (show 1 < m by omega) hi
    rw [if_pos h1, mpsSlabPagePrev, h2]
    exact ⟨Nat.mod_eq_zero_of_dvd h.geo.dvd_pageDesc, andNot_three_of_dvd h.geo.dvd_pageDesc⟩

/-- Before a cell that is not free the code finds no free run. -/
theorem runHead_notFree (h : Shelf sz s P pool (pre ++ c :: post) lists) (hk : c.kind ≠ .free)
    (ht : mpsSlabPageType pool.desc (pool.pageDesc (c.pos + c.len - 1)) = mpsSlabPage) :
    (pool.desc (runHead pool.desc (pool.pageDesc (c.pos + c.len - 1)))).next = 0 := by
  have hc : c ∈ pre ++ c :: post := Shelf.mem_middle.mpr (.inl rfl)
  have hok := h.ok c hc
  have hpos := (h.bound c hc).1
  rw [mpsSlabPageType, and_three] at ht
  obtain ⟨pos, kind, len⟩ := c
  replace hpos : 0 < len := hpos
  cases kind with
  | free => exact absurd rfl hk
  | chunks shift used =>
    obtain ⟨hlen, -, htype, -⟩ := hok
    replace hlen : len = 1 := hlen
    subst hlen
    exact absurd (htype.symm.trans ht) chunkType_ne_page
  | block =>
    obtain ⟨h1, h2⟩ := hok
    by_cases hl : len = 1
    · subst hl
      replace h1 : pool.desc (pool.pageDesc pos) = ⟨1 ||| mpsSlabPageStart, 0, mpsSlabPage⟩ := h1
      show (pool.desc (runHead pool.desc (pool.pageDesc pos))).next = 0
      rw [runHead, h1, if_neg (by decide), h1]
    · have h3 : pool.desc (pool.pageDesc (pos + len - 1)) = ⟨mpsSlabPageBusy, 0, mpsSlabPage⟩ :=
        h2 _ (by show pos < pos + len - 1; omega) (by show pos + len - 1 < pos + len; omega)
      rw [runHead, h3, if_neg (by decide), h3]

/-- The first page of a run has no page before it exactly at the beginning. -/
theorem pages_lt_pageDesc : pool.pages < pool.pageDesc i ↔ 0 < i := by
  simp only [SlabPool.pageDesc, sizeofPage]
  omega

theorem pageDesc_sub (hi : 0 < i) : pool.pageDesc i - sizeofPage = pool.pageDesc (i - 1) := by
  simp only [SlabPool.pageDesc, sizeofPage]
  omega

/-- A free run before the gap goes into it. -/
theorem joinPrev_free {qs : List Cell} {pos m : Nat}
    (h : Gap sz s P pool (qs ++ [⟨pos, .free, m⟩]) post i n lists) :
    ∃ m' lists', joinPrev pool.pages pool.desc (pool.pageDesc i) (n - 1) =
        (m', pool.pageDesc pos, m + n - 1) ∧
      Gap sz s P { pool with desc := m' } qs post pos (m + n) lists' ∧ NotFree qs.getLast? ∧
      pos + m = i := by
  obtain ⟨hbefore, hnil⟩ := Contiguous.middle.mp h.before
  replace hbefore : Contiguous 0 qs pos := hbefore
  replace hnil : pos + m = i := hnil
  have hsh : Shelf sz s P pool (qs ++ ⟨pos, .free, m⟩ :: post) lists := by
    have := h.shelf
    rwa [List.append_assoc] at this
  have hpm : (⟨pos, .free, m⟩ : Cell) ∈ qs ++ ⟨pos, .free, m⟩ :: post :=
    Shelf.mem_middle.mpr (.inl rfl)
  have hbnd : 0 < m ∧ pos + m ≤ P := hsh.bound _ hpm
  have hle := h.le
  have hpos := h.pos
  -- the page before tells that it is free, and leads to the head of its run
  obtain ⟨htype, hhead⟩ := runHead_free hsh (show pos + m < P by omega)
  rw [hnil] at htype hhead
  obtain ⟨lists', hsh', hkeep⟩ := unlink_free hsh
  have hok := hsh.ok _ hpm
  have hslab : (pool.desc (pool.pageDesc pos)).slab = m := hok.1
  have hnext : (pool.desc (pool.pageDesc pos)).next ≠ 0 :=
    next_ne_zero hsh (a := none) rfl
  have hbehind : Contiguous (pos + (m + n)) post P := by
    rw [show pos + (m + n) = i + n by omega]
    exact h.behind
  -- the descriptors inside of the two runs are on no list
  have hsame : ∀ x, pos < x → x < pos + (m + n) →
      unlinkPage pool.desc (pool.pageDesc pos) (pool.pageDesc x) = pool.desc (pool.pageDesc x) := by
    intro x hx hx'
    apply hkeep
    rintro c hc ⟨h1, h2⟩
    rcases List.mem_append.mp hc with hc | hc
    · have := hbefore.bounds c hc
      omega
    · have := hbehind.bounds c hc
      omega
  have hgap := merged hsh' hbefore hbehind hbnd.1 hpos h.left.left h.right
    (fun x hx hx' hxm => by
      show (unlinkPage _ _ (pool.pageDesc x)).slab = _
      rw [hsame x hx hx']
      rcases Nat.lt_or_gt_of_ne hxm with hlt | hgt
      · exact hok.2.2.2 x hx hlt
      · exact h.clean x (by omega) (by omega))
    (fun x hx hx' hxm => by
      show (unlinkPage _ _ (pool.pageDesc x)).prev % 4 = _
      rw [hsame x hx hx']
      rcases Nat.lt_or_gt_of_ne hxm with hlt | hgt
      · exact hok.2.1 x (Nat.le_of_lt hx) hlt
      · exact h.types x (by omega) (by omega))
  have hi : 0 < i := by omega
  refine ⟨_, lists', ?_, hgap, ?_, hnil⟩
  · simp only [joinPrev, pages_lt_pageDesc, pageDesc_sub hi]
    rw [if_pos ⟨hi, htype⟩]
    rw [show (if (pool.desc (pool.pageDesc (i - 1))).slab = mpsSlabPageFree then
      mpsSlabPagePrev pool.desc (pool.pageDesc (i - 1)) else pool.pageDesc (i - 1)) =
      pool.pageDesc pos from hhead, if_pos hnext, hslab, h.slab, unlinkPage_setSlab, ← hnil]
    refine Prod.ext rfl (Prod.ext rfl ?_)
    show n - 1 + m = m + n - 1
    omega
  · rcases List.eq_nil_or_concat qs with rfl | ⟨qs', p', rfl⟩
    · simp [NotFree]
    · rw [List.concat_eq_append] at h ⊢
      have := (List.isChain_append.mp h.left).2.2
      simpa [NotFree] using this

/-- **The merge with the run before.** The gap begins at the head of that run, or the cell
before is not free and nothing has changed. -/
theorem joinPrev_spec (h : Gap sz s P pool pre post i n lists) :
    ∃ m' pre' i' n' lists',
      joinPrev pool.pages pool.desc (pool.pageDesc i) (n - 1) = (m', pool.pageDesc i', n' - 1) ∧
      Gap sz s P { pool with desc := m' } pre' post i' n' lists' ∧ NotFree pre'.getLast? ∧
      (pre = pre' ∧ i' = i ∧ n' = n ∨
        ∃ m, pre = pre' ++ [⟨i', .free, m⟩] ∧ i' + m = i ∧ n' = m + n) := by
  rcases List.eq_nil_or_concat pre with rfl | ⟨qs, p, rfl⟩
  · have hi : 0 = i := h.before
    refine ⟨pool.desc, [], i, n, lists, ?_, h, by simp [NotFree], .inl ⟨rfl, rfl, rfl⟩⟩
    simp only [joinPrev, pages_lt_pageDesc]
    rw [if_neg (fun hl => absurd hl.1 (by omega))]
  · rw [List.concat_eq_append] at h ⊢
    by_cases hfree : p.kind = .free
    · obtain ⟨pos, kind, m⟩ := p
      subst hfree
      obtain ⟨m', lists', hrun, hgap, hlast, hnil⟩ := joinPrev_free h
      exact ⟨m', qs, pos, m + n, lists', hrun, hgap, hlast, .inr ⟨m, rfl, hnil, rfl⟩⟩
    · have hnil : p.pos + p.len = i := (Contiguous.middle.mp h.before).2
      have hsh : Shelf sz s P pool (qs ++ p :: post) lists := by
        have := h.shelf
        rwa [List.append_assoc] at this
      have hbnd := hsh.bound p (Shelf.mem_middle.mpr (.inl rfl))
      have hnf := runHead_notFree hsh hfree
      rw [hnil] at hnf
      refine ⟨pool.desc, qs ++ [p], i, n, lists, ?_, h, by simpa [NotFree] using hfree,
        .inl ⟨rfl, rfl, rfl⟩⟩
      simp only [joinPrev, pages_lt_pageDesc, pageDesc_sub (show 0 < i by omega)]
      split
      · next ht =>
        exact if_neg (not_not.mpr (hnf ht.2))
      · rfl

end Gap

/-! ### The pages come back -/

section FreePages
variable {sz : Sizes} {s P i n : Nat} {pool : SlabPool} {pre post : List Cell} {c : Cell}
  {lists : Option Nat → List Nat}

/-- The descriptors with the run at `page` at the head of the free runs, its last
page being the one at `last`. -/
def pushRun (m : DescMem) (page last : Nat) : DescMem :=
  let m := if last ≠ page then m.setPrev last page else m
  let m := m.setPrev page freeOff
  let m := m.setNext page (m freeOff).next
  let next := (m page).next
  let m := m.setPrev next page
  m.setNext freeOff page

theorem pushRun_fields (d : DescMem) (x l z : Nat) :
    pushRun d x l z = ⟨(d z).slab,
      if z = freeOff then x else if z = x then (d freeOff).next else (d z).next,
      if z = (d freeOff).next then x else if z = x then freeOff
      else if z = l then x else (d z).prev⟩ := by
  -- the last page is written first, so that a run of one page is overwritten at once
  apply SlabPage.ext
  · by_cases hlx : l = x <;> simp [pushRun, hlx]
  · by_cases hlx : l = x <;> simp [pushRun, hlx]
  · by_cases hlx : l = x
    · by_cases hzx : z = x <;> simp [pushRun, hlx, hzx]
    · simp [pushRun, hlx]

/-- The descriptors of a gap at the head of the free runs are those of a free run. -/
theorem Gap.pushRun_ok {pool' : SlabPool} (h : Gap sz s P pool pre post i n lists)
    (hs : SameHeader pool pool')
    (hdesc : pool'.desc = pushRun pool.desc (pool.pageDesc i) (pool.pageDesc (i + n - 1)))
    (hout : ∀ j, i ≤ j → j < i + n → pool.pageDesc j ≠ (pool.desc freeOff).next) :
    CellOk sz P pool' ⟨i, .free, n⟩ := by
  have hpos := h.pos
  simp only [CellOk, hs.pageDesc, hdesc, pushRun_fields]
  refine ⟨h.slab, ?_, ?_, fun j hj hj' => h.clean j hj hj'⟩
  · intro j hj hj'
    rw [if_neg (hout j hj hj')]
    split
    · rfl
    · next hji =>
      split
      · exact Nat.mod_eq_zero_of_dvd h.shelf.geo.dvd_pageDesc
      · exact h.types j (lt_of_le_of_ne hj fun he => hji (by rw [he])) hj'
  · intro h1 _
    have hli : pool.pageDesc (i + n - 1) ≠ pool.pageDesc i := Geometry.pageDesc_ne (by omega)
    rw [if_neg (hout _ (by omega) (by omega)), if_neg hli, if_pos trivial]

/-- **The gap becomes a free run**, at the head of `pool->free`. Since the cells next to
it are not free, no two free runs meet. -/
theorem Gap.push (h : Gap sz s P pool pre post i n lists) (hpre : NotFree pre.getLast?)
    (hpost : NotFree post.head?)
    (hpf : pool.pfree = ((pre ++ ⟨i, .free, n⟩ :: post).map Cell.freeLen).sum) :
    ∃ lists', PageInv sz s P
        { pool with desc := pushRun pool.desc (pool.pageDesc i) (pool.pageDesc (i + n - 1)) }
        (pre ++ ⟨i, .free, n⟩ :: post) lists' := by
  set x := pool.pageDesc i with hx
  set l := pool.pageDesc (i + n - 1) with hl
  set pool' : SlabPool := { pool with desc := pushRun pool.desc x l } with hpool'
  have hpos := h.pos
  have hle := h.le
  have hsh := h.shelf
  have hring := hsh.ring none trivial
  have hnb : (pool.desc freeOff).next ∈ header none :: lists none := by
    cases hls : lists none with
    | nil =>
      rw [hls] at hring
      exact List.mem_cons.mpr (.inl (hring.nil_iff.mpr rfl))
    | cons y ys =>
      rw [hls] at hring
      exact List.mem_cons.mpr (.inr (List.mem_cons.mpr (.inl hring.head)))
  -- the head of the list of free pages is not in the run that is put before it
  have hout : ∀ j, i ≤ j → j < i + n → pool.pageDesc j ∉ header none :: lists none := by
    intro j hj hj' hm
    have hm' := (List.mem_cons.mp hm).resolve_left (hsh.geo.pageDesc_ne_header trivial)
    obtain ⟨c, hc, -, he⟩ := (hsh.mem none trivial _).mp hm'
    exact h.notHas hj hj' c hc (Geometry.pageDesc_inj.mp he ▸ hsh.has_pos hc)
  have hnext : ∀ j, i ≤ j → j < i + n → pool.pageDesc j ≠ (pool.desc freeOff).next := by
    intro j hj hj' he
    rw [← he] at hnb
    exact hout j hj hj' hnb
  have hxn : x ≠ (pool.desc freeOff).next := hnext i le_rfl (by omega)
  have hxf : x ≠ freeOff := hsh.geo.pageDesc_ne_header (a := none) trivial
  have hf : ∀ z, pool'.desc z = ⟨(pool.desc z).slab,
      if z = freeOff then x else if z = x then (pool.desc freeOff).next else (pool.desc z).next,
      if z = (pool.desc freeOff).next then x else if z = x then freeOff
      else if z = l then x else (pool.desc z).prev⟩ :=
    pushRun_fields pool.desc x l
  have hok : CellOk sz P pool' ⟨i, .free, n⟩ :=
    h.pushRun_ok ⟨rfl, rfl, rfl, rfl, rfl, rfl, rfl, rfl, rfl⟩ rfl hnext
  have hput := hsh.put (c := ⟨i, .free, n⟩) (a := none) (v := x)
    (show SameHeader _ pool' from ⟨rfl, rfl, rfl, rfl, rfl, rfl, rfl, rfl, rfl⟩) trivial
    (fun c hc => (h.before.bounds c hc).2) (fun c hc => (h.behind.bounds c hc).1)
    ⟨hpos, hle⟩ hok rfl
    (by
      show (pool'.desc x).next = _ ∧ andNot (pool'.desc x).prev 3 = _
      rw [hf]
      exact ⟨by simp [hxf, header], by simp [hxn]; rfl⟩)
    (fun z hz => by
      have hzx : z ≠ x := hz i ⟨le_rfl, by show i < i + n; omega⟩
      have hzl : z ≠ l := hz (i + n - 1) ⟨by show i ≤ i + n - 1; omega,
        by show i + n - 1 < i + n; omega⟩
      rw [hf]
      exact ⟨rfl, by simp only [hzx, header, ↓reduceIte]; rfl,
        fun _ => by simp only [hzx, hzl, ↓reduceIte]; rfl⟩)
    (andNot_three_of_dvd hsh.geo.dvd_pageDesc) (Nat.mod_eq_zero_of_dvd hsh.geo.dvd_pageDesc)
    (fun _ _ _ _ _ _ _ => rfl)
  refine ⟨_, hput, Contiguous.middle.mpr ⟨h.before, h.behind⟩, ?_, hpf⟩
  refine List.isChain_append.mpr ⟨h.left, List.isChain_cons.mpr ⟨?_, h.right⟩, ?_⟩
  · exact fun y hy hk => hpost y hy hk.2
  · exact fun p hp y _ hk => hpre p hp hk.1

/-- The descriptors with the pages of a cell taken out of it. -/
def openRun (m : DescMem) (page pages : Nat) : DescMem :=
  let m := m.setSlab page pages
  let m := m.zero (page + sizeofPage) (pages - 1)
  if (m page).next ≠ 0 then unlinkPage m page else m

theorem next_eq_zero_iff (h : Shelf sz s P pool (pre ++ c :: post) lists) :
    (pool.desc (pool.pageDesc c.pos)).next = 0 ↔ c.list sz pool.minShift = none := by
  constructor
  · intro hn
    cases hl : c.list sz pool.minShift with
    | none => rfl
    | some a => exact absurd hn (Gap.next_ne_zero h hl)
  · intro hl
    have hok := h.ok c (Shelf.mem_middle.mpr (.inl rfl))
    obtain ⟨pos, kind, len⟩ := c
    cases kind with
    | free => simp [Cell.list] at hl
    | block => exact congrArg SlabPage.next hok.1
    | chunks shift used =>
      obtain ⟨-, -, -, -, -, hfull⟩ := hok
      apply hfull
      by_contra hf
      simp [Cell.list, hf] at hl

/-- **The pages of a cell that is not free become a gap.** A page of chunks that still has
one to give is on the list of its slot and leaves it. -/
theorem Gap.ofCell (v : Nat) (h : PageInv sz s P pool (pre ++ c :: post) lists)
    (hk : c.kind ≠ .free) :
    ∃ lists', Gap sz s P
      { pool with pfree := v, desc := openRun pool.desc (pool.pageDesc c.pos) c.len }
      pre post c.pos c.len lists' := by
  have hsh := h.shelf
  have hc : c ∈ pre ++ c :: post := Shelf.mem_middle.mpr (.inl rfl)
  have hpos := (hsh.bound c hc).1
  obtain ⟨hbefore, hbehind⟩ := Contiguous.middle.mp h.contiguous
  set o := pool.pageDesc c.pos with ho
  have hnot : ∀ j, c.Has j → ∀ c₁ ∈ pre ++ post, ¬ c₁.Has j := by
    rintro j ⟨h1, h2⟩ c₁ hc₁ ⟨h3, h4⟩
    rcases List.mem_append.mp hc₁ with hc₁ | hc₁
    · have := hbefore.bounds c₁ hc₁
      omega
    · have := hbehind.bounds c₁ hc₁
      omega
  have hin := fun z => fill_iff (z := z) ho.symm hpos
  -- the fields of the descriptors before the unlinking
  have hf : ∀ z, ((pool.desc.setSlab o c.len).zero (o + sizeofPage) (c.len - 1)) z =
      if o + sizeofPage ≤ z ∧ z < o + sizeofPage + sizeofPage * (c.len - 1) ∧
        (z - (o + sizeofPage)) % sizeofPage = 0 then ⟨0, 0, 0⟩
      else pool.desc.setSlab o c.len z := fun z => rfl
  have ho' : ¬ (o + sizeofPage ≤ o ∧ o < o + sizeofPage + sizeofPage * (c.len - 1) ∧
      (o - (o + sizeofPage)) % sizeofPage = 0) := by
    simp only [sizeofPage]
    omega
  have hhead : ((pool.desc.setSlab o c.len).zero (o + sizeofPage) (c.len - 1)) o =
      ⟨c.len, (pool.desc o).next, (pool.desc o).prev⟩ := by
    rw [hf, if_neg ho']
    simp [DescMem.setSlab]
  have hiff := next_eq_zero_iff hsh
  cases hl : c.list sz pool.minShift with
  | none =>
    have hopen : openRun pool.desc o c.len =
        (pool.desc.setSlab o c.len).zero (o + sizeofPage) (c.len - 1) := by
      simp only [openRun, hhead]
      exact if_neg (not_not.mpr (hiff.mpr hl))
    rw [hopen]
    refine ⟨lists, ?_, hbefore, hbehind, hpos, h.apart.left, h.apart.right.of_cons, ?_,
      fun j hj hj' => ?_, fun j hj hj' => ?_⟩
    · refine (hsh.drop hl).frame ⟨rfl, rfl, rfl, rfl, rfl, rfl, rfl, rfl, rfl⟩ ?_
        (fun _ _ _ _ _ _ _ => rfl)
      intro y hy
      have h1 : ¬ ∃ j, c.pos < j ∧ j < c.pos + c.len ∧ y = pool.pageDesc j := by
        rintro ⟨j, hj, hj', rfl⟩
        exact hy j (hnot j ⟨Nat.le_of_lt hj, hj'⟩) rfl
      have h2 : y ≠ o := hy _ (hnot _ (hsh.has_pos hc))
      exact (hf y).trans ((if_neg fun hz => h1 ((hin y).mp hz)).trans (DescMem.setSlab_ne h2))
    · exact congrArg SlabPage.slab hhead
    · exact congrArg SlabPage.slab ((hf _).trans (if_pos ((hin _).mpr ⟨j, hj, hj', rfl⟩)))
    · exact congrArg (fun d => d.prev % 4) ((hf _).trans (if_pos ((hin _).mpr ⟨j, hj, hj', rfl⟩)))
  | some a =>
    have hlen : c.len = 1 := by
      have hok := hsh.ok c hc
      obtain ⟨pos, kind, len⟩ := c
      cases kind with
      | free => exact absurd rfl hk
      | block => simp [Cell.list] at hl
      | chunks shift used => exact hok.1
    have hopen : openRun pool.desc o c.len = (unlinkPage pool.desc o).setSlab o 1 := by
      have hz : (pool.desc.setSlab o c.len).zero (o + sizeofPage) (c.len - 1) =
          pool.desc.setSlab o 1 := by
        funext z
        refine (hf z).trans ((if_neg ?_).trans (by rw [hlen]))
        intro hz
        obtain ⟨j, hj, hj', -⟩ := (hin z).mp hz
        omega
      rw [openRun, hz, ← Gap.unlinkPage_setSlab]
      apply if_pos
      rw [DescMem.setSlab_next]
      exact Gap.next_ne_zero hsh hl
    rw [hopen]
    obtain ⟨xs, ys, -, hsh'⟩ := hsh.unlink hl
    refine ⟨_, hsh'.frame ⟨rfl, rfl, rfl, rfl, rfl, rfl, rfl, rfl, rfl⟩ (fun y hy => ?_)
        (fun _ _ _ _ _ _ _ => rfl), hbefore, hbehind, hpos, h.apart.left, h.apart.right.of_cons,
      ?_, fun j hj hj' => by omega, fun j hj hj' => by omega⟩
    · exact DescMem.setSlab_ne (hy _ (hnot _ (hsh.has_pos hc)))
    · rw [hlen]
      exact (DescMem.setSlab_slab ..).trans (if_pos rfl)

/-- The cells that are not free. This is what a caller of the page level has to know of
the cells. -/
def taken (cells : List Cell) : List Cell :=
  cells.filter fun c => match c.kind with
    | .free => false
    | _ => true

/-- **Giving pages back.** The cell is gone, and the other cells that are not free are as
they were; the free runs may be others. -/
theorem mpsSlabFreePages_spec (h : PageInv sz s P pool (pre ++ c :: post) lists)
    (hk : c.kind ≠ .free) :
    ∃ cells' lists', PageInv sz s P (mpsSlabFreePages pool (pool.pageDesc c.pos) c.len) cells'
        lists' ∧ taken cells' = taken (pre ++ post) := by
  have hcfree : c.freeLen = 0 := by
    unfold Cell.freeLen
    split
    · contradiction
    · rfl
  have hb := (h.shelf.bound c (Shelf.mem_middle.mpr (.inl rfl)))
  have hpf : u64 (pool.pfree + c.len) =
      (pre.map Cell.freeLen).sum + c.len + (post.map Cell.freeLen).sum := by
    obtain ⟨h1, h2⟩ := Contiguous.middle.mp h.contiguous
    have h3 := h1.sum_le
    have h4 := h2.sum_le
    have h5 := h.shelf.geo.P_lt
    have h6 := h.pfree
    simp only [List.map_append, List.map_cons, List.sum_append, List.sum_cons, hcfree] at h6
    rw [u64_of_lt (by omega), h6]
    omega
  obtain ⟨l₁, g₁⟩ := Gap.ofCell (u64 (pool.pfree + c.len)) h hk
  -- the run grows at its end, then at its beginning, then it is put into the list
  obtain ⟨m₂, post', n₂, l₂, he₂, g₂, hnf₂, hcase₂⟩ := g₁.joinNext_spec
  obtain ⟨m₃, pre', i₃, n₃, l₃, he₃, g₃, hnf₃, hcase₃⟩ := g₂.joinPrev_spec
  have hpos := g₃.pos
  have hsum : u64 (pool.pfree + c.len) =
      ((pre' ++ ⟨i₃, .free, n₃⟩ :: post').map Cell.freeLen).sum ∧
      taken (pre' ++ ⟨i₃, .free, n₃⟩ :: post') = taken (pre ++ post) := by
    rw [hpf]
    rcases hcase₂ with ⟨rfl, rfl⟩ | ⟨m, rfl, rfl⟩ <;>
      rcases hcase₃ with ⟨rfl, rfl, rfl⟩ | ⟨m', rfl, hi, rfl⟩ <;>
      simp [taken] <;> omega
  obtain ⟨l₄, hinv⟩ := g₃.push hnf₃ hnf₂ hsum.1
  refine ⟨_, l₄, ?_, hsum.2⟩
  have hlast : pool.pageDesc i₃ + sizeofPage * (n₃ - 1) = pool.pageDesc (i₃ + n₃ - 1) := by
    rw [pageDesc_add, Nat.add_sub_assoc hpos]
  have hdesc : mpsSlabFreePages pool (pool.pageDesc c.pos) c.len =
      { pool with
        pfree := u64 (pool.pfree + c.len)
        desc := pushRun m₃ (pool.pageDesc i₃) (pool.pageDesc (i₃ + n₃ - 1)) } := by
    have hne : n₃ - 1 ≠ 0 ↔ pool.pageDesc (i₃ + n₃ - 1) ≠ pool.pageDesc i₃ := by
      rw [Ne, Ne, Geometry.pageDesc_inj]
      omega
    have he₂' : joinNext pool.last (openRun pool.desc (pool.pageDesc c.pos) c.len)
        (pool.pageDesc c.pos) (c.len - 1) = (m₂, n₂ - 1) := he₂
    have he₃' : joinPrev pool.pages m₂ (pool.pageDesc c.pos) (n₂ - 1) =
        (m₃, pool.pageDesc i₃, n₃ - 1) := he₃
    rw [mpsSlabFreePages, ← openRun.eq_1, he₂']
    simp only [he₃', hne, hlast, pushRun]
  rw [hdesc]
  exact hinv

end FreePages

end MpsShdict
