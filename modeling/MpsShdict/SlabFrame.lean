import MpsShdict.SlabMerge

/-! # What giving pages back writes

Of the descriptors and list heads, `mps_slab_free_pages` writes only to those that the
pool has: whatever it finds in a link that it follows is the name of another one.

This is the frame that goes with the functional results: they say what the cells are
afterwards, and this says that the code has written nowhere else. It matters to everything
that is stored behind the pool's own data, and it is proved along the same steps, from the
links that a shelf fixes (`Shelf.isDesc`).
-/
namespace MpsShdict

open Words Links

/-- A list head or the descriptor of a page, which are the places that the allocator keeps
its links in. -/
def IsDesc (s P : Nat) (pool : SlabPool) (z : Nat) : Prop :=
  (∃ a, IsList (s - pool.minShift) a ∧ z = header a) ∨ ∃ i < P, z = pool.pageDesc i

/-- Nothing but list heads and descriptors of pages is written. Two changes after each
other are again of this kind. -/
def DescsOnly (s P : Nat) (pool : SlabPool) (m m' : DescMem) : Prop :=
  ∀ z, ¬ IsDesc s P pool z → m' z = m z

section Frame
variable {sz : Sizes} {s P i n k slot type x v : Nat} {pool pool' : SlabPool}
  {pre post cells : List Cell} {c : Cell} {lists : Option Nat → List Nat} {a : Option Nat}
  {m m' m'' : DescMem}

theorem IsDesc.same (hs : SameHeader pool pool') : IsDesc s P pool' x ↔ IsDesc s P pool x := by
  simp only [IsDesc, hs.minShift, hs.pageDesc]

theorem isDesc_page (hi : i < P) : IsDesc s P pool (pool.pageDesc i) := .inr ⟨i, hi, rfl⟩

theorem isDesc_free : IsDesc s P pool freeOff := .inl ⟨none, trivial, rfl⟩

namespace DescsOnly

theorem refl (m : DescMem) : DescsOnly s P pool m m := fun _ _ => rfl

theorem trans (h₁ : DescsOnly s P pool m m') (h₂ : DescsOnly s P pool m' m'') :
    DescsOnly s P pool m m'' := fun z hz => (h₂ z hz).trans (h₁ z hz)

theorem same (hs : SameHeader pool pool') (h : DescsOnly s P pool' m m') :
    DescsOnly s P pool m m' :=
  fun z hz => h z fun hz' => hz ((IsDesc.same hs).mp hz')

/-- A change of one of them. -/
theorem update (hx : IsDesc s P pool x) (h : ∀ z, z ≠ x → m' z = m z) :
    DescsOnly s P pool m m' := by
  intro z hz
  apply h z
  rintro rfl
  exact hz hx

theorem setSlab (hx : IsDesc s P pool x) : DescsOnly s P pool m (m.setSlab x v) :=
  .update hx fun _ hz => DescMem.setSlab_ne hz

theorem setNext (hx : IsDesc s P pool x) : DescsOnly s P pool m (m.setNext x v) :=
  .update hx fun _ hz => DescMem.setNext_ne hz

theorem setPrev (hx : IsDesc s P pool x) : DescsOnly s P pool m (m.setPrev x v) :=
  .update hx fun _ hz => DescMem.setPrev_ne hz

theorem clearHead (hx : IsDesc s P pool x) : DescsOnly s P pool m (Gap.clearHead m x) :=
  .update hx fun _ hz => Gap.clearHead_ne hz

/-- The `n` descriptors from page `i` on are cleared but for the first. -/
theorem zero (hn : 0 < n) (hi : i + n ≤ P) :
    DescsOnly s P pool m (m.zero (pool.pageDesc i + sizeofPage) (n - 1)) := by
  intro z hz
  refine if_neg fun hin => hz ?_
  obtain ⟨j, -, hj, rfl⟩ := (fill_iff rfl hn).mp hin
  exact isDesc_page (by omega)

end DescsOnly

/-- What a list names. -/
theorem Shelf.isDesc (h : Shelf sz s P pool cells lists) (ha : IsList (s - pool.minShift) a)
    (hx : x ∈ header a :: lists a) : IsDesc s P pool x := by
  rcases List.mem_cons.mp hx with rfl | hx
  · exact .inl ⟨a, ha, rfl⟩
  · obtain ⟨c, hc, -, rfl⟩ := (h.mem a ha x).mp hx
    have := h.bound c hc
    exact isDesc_page (by omega)

/-- The first name of a list, or the list head. -/
theorem Shelf.isDesc_first (h : Shelf sz s P pool cells lists) (ha : IsList (s - pool.minShift) a) :
    IsDesc s P pool (pool.desc (header a)).next := by
  apply h.isDesc ha
  have hr := h.ring a ha
  cases hl : lists a with
  | nil =>
    rw [hl] at hr
    exact List.mem_cons.mpr (.inl (hr.nil_iff.mpr rfl))
  | cons y ys =>
    rw [hl] at hr
    exact List.mem_cons.mpr (.inr (List.mem_cons.mpr (.inl hr.head)))

/-- A cell leaves its list. -/
theorem Shelf.unlink_descsOnly (h : Shelf sz s P pool (pre ++ c :: post) lists)
    (hl : c.list sz pool.minShift = some a) :
    DescsOnly s P pool pool.desc (unlinkPage pool.desc (pool.pageDesc c.pos)) := by
  have hc : c ∈ pre ++ c :: post := Shelf.mem_middle.mpr (.inl rfl)
  have ha := (h.ok c hc).isList h.geo hl
  obtain ⟨xs, ys, he⟩ := List.append_of_mem ((h.mem a ha _).mpr ⟨c, hc, hl, rfl⟩)
  have hr := h.ring a ha
  rw [he] at hr
  -- the neighbours are on the same list
  have hprev : IsDesc s P pool (mpsSlabPagePrev pool.desc (pool.pageDesc c.pos)) := by
    apply h.isDesc ha
    rw [hr.prev_eq (h.geo.pageDesc_ne_header ha), he, ← List.cons_append]
    exact List.mem_append_left _ (List.getLast_mem _)
  have hnext : IsDesc s P pool (pool.desc (pool.pageDesc c.pos)).next := by
    apply h.isDesc ha
    rw [show (pool.desc (pool.pageDesc c.pos)).next = ys.head?.getD (header a) from hr.next_eq, he]
    cases ys <;> simp
  simp only [unlinkPage, DescMem.setNext_next, ite_self]
  exact (DescsOnly.setNext hprev).trans (DescsOnly.setPrev hnext)

namespace Gap

/-- The merge with the run behind. -/
theorem joinNext_descsOnly (h : Gap sz s P pool pre post i n lists) :
    DescsOnly s P pool pool.desc (joinNext pool.last pool.desc (pool.pageDesc i) (n - 1)).1 := by
  have hjoin : pool.pageDesc i + sizeofPage * (pool.desc (pool.pageDesc i)).slab =
      pool.pageDesc (i + n) := by
    rw [h.slab, pageDesc_add]
  simp only [joinNext, hjoin]
  split
  · next hif =>
    obtain ⟨hlast, hfree⟩ := hif
    cases post with
    | nil =>
      have hP : i + n = P := h.behind
      rw [h.shelf.geo.last, hP] at hlast
      exact absurd hlast (Nat.lt_irrefl _)
    | cons p ps =>
      obtain ⟨hpos, -⟩ := h.behind
      have hkind := h.next_isFree.mp (by rwa [hpos])
      have hle := h.le
      have hpo := h.pos
      have hlp : p.list sz pool.minShift = some none := by simp [Cell.list, hkind]
      have hb := h.shelf.bound p (Shelf.mem_middle.mpr (.inl rfl))
      have hun := h.shelf.unlink_descsOnly hlp
      rw [hpos] at hun
      rw [unlinkPage_setSlab]
      have hhead : IsDesc s P pool (pool.pageDesc i) := isDesc_page (by omega)
      have hjoined : IsDesc s P pool (pool.pageDesc (i + n)) := isDesc_page (by omega)
      exact (hun.trans (.setSlab hhead)).trans (.clearHead hjoined)
  · exact .refl _

/-- The merge with the run before. -/
theorem joinPrev_descsOnly (h : Gap sz s P pool pre post i n lists) :
    DescsOnly s P pool pool.desc (joinPrev pool.pages pool.desc (pool.pageDesc i) (n - 1)).1 := by
  have hle := h.le
  have hpo := h.pos
  simp only [joinPrev]
  split
  · next hif =>
    obtain ⟨hfirst, htype⟩ := hif
    have hi : 0 < i := pages_lt_pageDesc.mp hfirst
    rw [pageDesc_sub hi] at htype
    rw [pageDesc_sub hi, ← runHead]
    rcases List.eq_nil_or_concat pre with rfl | ⟨qs, p, rfl⟩
    · have : 0 = i := h.before
      omega
    · rw [List.concat_eq_append] at h
      obtain ⟨-, hend⟩ := Contiguous.middle.mp h.before
      replace hend : p.pos + p.len = i := hend
      have hsh : Shelf sz s P pool (qs ++ p :: post) lists := by
        have := h.shelf
        rwa [List.append_assoc] at this
      rw [← hend] at htype ⊢
      by_cases hkind : p.kind = .free
      · obtain ⟨pos, kind, len⟩ := p
        subst hkind
        replace hend : pos + len = i := hend
        have hhead := (runHead_free hsh (by omega)).2
        have hb := (hsh.bound ⟨pos, .free, len⟩ (Shelf.mem_middle.mpr (.inl rfl))).1
        replace hb : 0 < len := hb
        have hun := hsh.unlink_descsOnly (c := ⟨pos, .free, len⟩) (a := none) rfl
        show DescsOnly s P pool pool.desc (Prod.fst (if (pool.desc (runHead pool.desc
          (pool.pageDesc (pos + len - 1)))).next ≠ 0 then _ else _))
        rw [hhead]
        split
        · rw [unlinkPage_setSlab]
          have hrun : IsDesc s P pool (pool.pageDesc pos) := isDesc_page (by omega)
          have hjoined : IsDesc s P pool (pool.pageDesc (pos + len)) := isDesc_page (by omega)
          exact (hun.trans (.setSlab hrun)).trans (.clearHead hjoined)
        · exact .refl _
      · have hnext := runHead_notFree hsh hkind htype
        rw [if_neg (not_not.mpr hnext)]
        exact .refl _
  · exact .refl _

end Gap

/-- The run comes to the head of the free runs. -/
theorem pushRun_descsOnly (h : Shelf sz s P pool cells lists) (hi : i < P) (hk : k < P) :
    DescsOnly s P pool pool.desc (pushRun pool.desc (pool.pageDesc i) (pool.pageDesc k)) := by
  have hne : pool.pageDesc i ≠ freeOff := h.geo.pageDesc_ne_header (a := none) trivial
  have hfirst : IsDesc s P pool (pool.desc freeOff).next := h.isDesc_first (a := none) trivial
  have hlast : DescsOnly s P pool pool.desc (if pool.pageDesc k ≠ pool.pageDesc i
      then pool.desc.setPrev (pool.pageDesc k) (pool.pageDesc i) else pool.desc) := by
    split
    · exact .setPrev (isDesc_page hk)
    · exact .refl _
  have hnext : ∀ v, (DescMem.setPrev (if pool.pageDesc k ≠ pool.pageDesc i
      then pool.desc.setPrev (pool.pageDesc k) (pool.pageDesc i) else pool.desc) (pool.pageDesc i) v
        freeOff).next = (pool.desc freeOff).next := by
    intro v
    rw [DescMem.setPrev_next]
    split <;> simp
  simp only [pushRun, hnext, DescMem.setNext_next, ↓reduceIte]
  refine (((hlast.trans (.setPrev (isDesc_page hi))).trans (.setNext (isDesc_page hi))).trans
    (.setPrev hfirst)).trans (.setNext isDesc_free)

/-- The pages of a cell that is not free leave it. -/
theorem openRun_descsOnly (h : Shelf sz s P pool (pre ++ c :: post) lists) (hk : c.kind ≠ .free) :
    DescsOnly s P pool pool.desc (openRun pool.desc (pool.pageDesc c.pos) c.len) := by
  have hc : c ∈ pre ++ c :: post := Shelf.mem_middle.mpr (.inl rfl)
  have hb := h.bound c hc
  have hpos : IsDesc s P pool (pool.pageDesc c.pos) := isDesc_page (by omega)
  have hclear : DescsOnly s P pool pool.desc ((pool.desc.setSlab (pool.pageDesc c.pos) c.len).zero
      (pool.pageDesc c.pos + sizeofPage) (c.len - 1)) :=
    (DescsOnly.setSlab hpos).trans (.zero hb.1 hb.2)
  cases hl : c.list sz pool.minShift with
  | none =>
    have hnext := (next_eq_zero_iff h).mpr hl
    have hsame : ((pool.desc.setSlab (pool.pageDesc c.pos) c.len).zero
        (pool.pageDesc c.pos + sizeofPage) (c.len - 1) (pool.pageDesc c.pos)).next = 0 := by
      rw [DescMem.zero, DescMem.fill,
        if_neg (by simp only [sizeofPage]; omega), DescMem.setSlab_next,
        hnext]
    simp only [openRun]
    rw [if_neg (not_not.mpr hsame)]
    exact hclear
  | some a =>
    have hlen : c.len = 1 := by
      have hok := h.ok c hc
      obtain ⟨pos, kind, len⟩ := c
      cases kind with
      | free => exact absurd rfl hk
      | block => simp [Cell.list] at hl
      | chunks shift used => exact hok.1
    have hnone : ∀ m : DescMem, ∀ y, m.zero y (1 - 1) = m := by
      intro m y
      funext z
      exact if_neg (by omega)
    simp only [openRun, hlen, hnone]
    rw [Gap.unlinkPage_setSlab]
    split
    · exact (h.unlink_descsOnly hl).trans (.setSlab hpos)
    · exact .setSlab hpos

/-- **`mps_slab_free_pages` writes to list heads and descriptors only**, whichever of the
runs on either side it merges. -/
theorem mpsSlabFreePages_descsOnly (h : PageInv sz s P pool (pre ++ c :: post) lists)
    (hk : c.kind ≠ .free) :
    DescsOnly s P pool pool.desc (mpsSlabFreePages pool (pool.pageDesc c.pos) c.len).desc := by
  have h₁ := openRun_descsOnly h.shelf hk
  obtain ⟨l₁, g₁⟩ := Gap.ofCell (u64 (pool.pfree + c.len)) h hk
  have h₂ := g₁.joinNext_descsOnly
  obtain ⟨m₂, post', n₂, l₂, he₂, g₂, -, -⟩ := g₁.joinNext_spec
  have h₃ := g₂.joinPrev_descsOnly
  obtain ⟨m₃, pre', i₃, n₃, l₃, he₃, g₃, -, -⟩ := g₂.joinPrev_spec
  have hpos := g₃.pos
  have hle := g₃.le
  have h₄ := pushRun_descsOnly g₃.shelf (i := i₃) (k := i₃ + n₃ - 1) (by omega) (by omega)
  have hlast : pool.pageDesc i₃ + sizeofPage * (n₃ - 1) = pool.pageDesc (i₃ + n₃ - 1) := by
    rw [pageDesc_add, Nat.add_sub_assoc hpos]
  have hne : n₃ - 1 ≠ 0 ↔ pool.pageDesc (i₃ + n₃ - 1) ≠ pool.pageDesc i₃ := by
    rw [Ne, Ne, Geometry.pageDesc_inj]
    omega
  rw [he₂] at h₂
  rw [he₃] at h₃
  have he₂' : joinNext pool.last (openRun pool.desc (pool.pageDesc c.pos) c.len)
      (pool.pageDesc c.pos) (c.len - 1) = (m₂, n₂ - 1) := he₂
  have he₃' : joinPrev pool.pages m₂ (pool.pageDesc c.pos) (n₂ - 1) =
      (m₃, pool.pageDesc i₃, n₃ - 1) := he₃
  have hdesc : (mpsSlabFreePages pool (pool.pageDesc c.pos) c.len).desc =
      pushRun m₃ (pool.pageDesc i₃) (pool.pageDesc (i₃ + n₃ - 1)) := by
    rw [mpsSlabFreePages, ← openRun.eq_1, he₂']
    simp only [he₃', hne, hlast, pushRun]
  rw [hdesc]
  have hs : ∀ m : DescMem,
      SameHeader pool { pool with pfree := u64 (pool.pfree + c.len), desc := m } :=
    fun m => ⟨rfl, rfl, rfl, rfl, rfl, rfl, rfl, rfl, rfl⟩
  exact ((h₁.trans (h₂.same (hs _))).trans (h₃.same (hs _))).trans (h₄.same (hs _))

/-- A page that was full comes back to its list. -/
theorem relinkFull_descsOnly (h : Shelf sz s P pool cells lists) (hi : i < P)
    (hslot : slot < s - pool.minShift) :
    DescsOnly s P pool pool.desc (relinkFull pool.desc (pool.pageDesc i) slot type) := by
  have ha : IsList (s - pool.minShift) (some slot) := hslot
  have hpage : IsDesc s P pool (pool.pageDesc i) := isDesc_page hi
  have hhead : IsDesc s P pool (slotOff slot) := .inl ⟨some slot, ha, rfl⟩
  have hfirst : IsDesc s P pool (pool.desc (slotOff slot)).next := h.isDesc_first ha
  have hne : pool.pageDesc i ≠ slotOff slot := h.geo.pageDesc_ne_header ha
  simp only [relinkFull, DescMem.setPrev_next, DescMem.setNext_next, if_neg hne, ↓reduceIte]
  exact (((DescsOnly.setNext hpage).trans (.setNext hhead)).trans (.setPrev hpage)).trans
    (.setPrev hfirst)

end Frame

end MpsShdict
