import MpsShdict.SlabLayout

/-! # Taking cells off the shelf and putting them on

Each lemma is about one change of the lists: a cell leaves its list, comes to its head,
takes another's place, or joins and leaves without being on a list. The changes of the
descriptors are given by what they do to each field, so that a caller computes the fields
that its assignments write and applies the lemma of the change they amount to.

What the lemmas have in common is `others`: a change that writes to pages of no other
cell, and to the links of one list only, keeps all the other cells and lists. That two
lists have no descriptor in common, and that a page is in one cell at most, is what makes
this a property of the change alone.
-/
namespace MpsShdict

open Words Links

/-- The fields after a descriptor has left its list. -/
theorem unlinkPage_fields {m : DescMem} {x : Nat} (hx : mpsSlabPagePrev m x ≠ x) (z : Nat) :
    (unlinkPage m x z).slab = (m z).slab ∧
      (unlinkPage m x z).next =
        (if z = mpsSlabPagePrev m x then (m x).next else (m z).next) ∧
      (unlinkPage m x z).prev = if z = (m x).next then (m x).prev else (m z).prev := by
  simp [unlinkPage, Ne.symm hx]

namespace Shelf
variable {sz : Sizes} {s P : Nat} {pool pool' : SlabPool} {cells pre post : List Cell}
  {lists : Option Nat → List Nat} {c c' : Cell} {a : Option Nat} {i j x y : Nat}

theorem mem_middle : c' ∈ pre ++ c :: post ↔ c' = c ∨ c' ∈ pre ++ post := by
  simp only [List.mem_append, List.mem_cons]
  tauto

theorem sep_middle (h : (pre ++ post).Pairwise fun a b : Cell => a.pos + a.len ≤ b.pos)
    (hpre : ∀ c₁ ∈ pre, c₁.pos + c₁.len ≤ c.pos)
    (hpost : ∀ c₁ ∈ post, c.pos + c.len ≤ c₁.pos) :
    (pre ++ c :: post).Pairwise fun a b : Cell => a.pos + a.len ≤ b.pos := by
  obtain ⟨h1, h2, h3⟩ := List.pairwise_append.mp h
  refine List.pairwise_append.mpr ⟨h1, List.pairwise_cons.mpr ⟨hpost, h2⟩, ?_⟩
  intro a ha b hb
  rcases List.mem_cons.mp hb with rfl | hb
  · exact hpre a ha
  · exact h3 a ha b hb

/-- A page is in one cell at most. -/
theorem unique (h : Shelf sz s P pool cells lists) (hc : c ∈ cells) (hc' : c' ∈ cells)
    (hj : c.Has j) (hj' : c'.Has j) : c = c' := by
  by_contra hne
  obtain ⟨h1, h2⟩ := hj
  obtain ⟨h3, h4⟩ := hj'
  let R : Cell → Cell → Prop := fun a b => a = b ∨ a.pos + a.len ≤ b.pos ∨ b.pos + b.len ≤ a.pos
  have hsymm : Std.Symm R := ⟨fun a b hab => by simp only [R] at hab ⊢; tauto⟩
  have hR : R c c' :=
    List.Pairwise.forall_of_forall (fun a _ => .inl rfl)
      (h.sep.imp fun hab => .inr (.inl hab)) hc hc'
  rcases hR with he | he | he
  · exact hne he
  · omega
  · omega

theorem has_pos (h : Shelf sz s P pool cells lists) (hc : c ∈ cells) : c.Has c.pos :=
  ⟨le_rfl, Nat.lt_add_of_pos_right (h.bound c hc).1⟩

/-- The cell behind a name on a list. -/
theorem cell_of_mem (h : Shelf sz s P pool cells lists) (ha : IsList (s - pool.minShift) a)
    (hc : c ∈ cells) (hj : c.Has j) (hx : pool.pageDesc j ∈ lists a) :
    j = c.pos ∧ c.list sz pool.minShift = some a := by
  obtain ⟨c', hc', hl, he⟩ := (h.mem a ha _).mp hx
  have hpos : j = c'.pos := Geometry.pageDesc_inj.mp he
  obtain rfl := h.unique hc hc' hj (hpos ▸ h.has_pos hc')
  exact ⟨hpos, hl⟩

/-- A cell occurs once. -/
theorem notMem_rest (h : Shelf sz s P pool (pre ++ c :: post) lists) : c ∉ pre ++ post := by
  have hb := (h.bound c (by simp)).1
  intro hc
  rcases List.mem_append.mp hc with hc | hc
  · have := (List.pairwise_append.mp h.sep).2.2 c hc c (by simp)
    omega
  · have := List.rel_of_pairwise_cons (List.pairwise_append.mp h.sep).2.1 hc
    omega

/-- A page of a cell that is not on the list is not named by it. -/
theorem notMem (h : Shelf sz s P pool cells lists) (ha : IsList (s - pool.minShift) a)
    (hc : c ∈ cells) (hj : c.Has j) (hl : c.list sz pool.minShift ≠ some a) :
    pool.pageDesc j ∉ header a :: lists a := by
  rw [List.mem_cons, not_or]
  exact ⟨h.geo.pageDesc_ne_header ha, fun hx => hl (h.cell_of_mem ha hc hj hx).2⟩

/-- Two lists have no name in common. -/
theorem disjoint {b : Option Nat} (h : Shelf sz s P pool cells lists)
    (ha : IsList (s - pool.minShift) a) (hb : IsList (s - pool.minShift) b) (hab : a ≠ b)
    (hx : x ∈ header a :: lists a) : x ∉ header b :: lists b := by
  rcases List.mem_cons.mp hx with rfl | hx
  · rw [List.mem_cons, not_or]
    refine ⟨fun he => hab (Geometry.header_inj.mp he), ?_⟩
    intro hm
    obtain ⟨c, -, -, he⟩ := (h.mem b hb _).mp hm
    exact h.geo.pageDesc_ne_header ha he.symm
  · obtain ⟨c, hc, hl, rfl⟩ := (h.mem a ha _).mp hx
    exact h.notMem hb hc (h.has_pos hc) fun he => hab (Option.some.inj (hl.symm.trans he))

/-- **What a local change keeps.** It writes to pages that belong to no cell of `rest` and
to the links of the list `a`; the cells of `rest` and the other lists stay as they are. -/
theorem others (h : Shelf sz s P pool cells lists) (rest : List Cell) (hs : SameHeader pool pool')
    (hsub : ∀ c ∈ rest, c ∈ cells) (ha : IsList (s - pool.minShift) a)
    (hrest : ∀ c ∈ cells, c ∈ rest ∨ c.list sz pool.minShift = some a ∨
      c.list sz pool.minShift = none)
    (hd : ∀ y, y ∉ header a :: lists a →
      (∀ j, (∀ c ∈ rest, ¬ c.Has j) → y ≠ pool.pageDesc j) → pool'.desc y = pool.desc y)
    (hl : ∀ c ∈ rest, c.list sz pool.minShift = some a →
      (pool'.desc (pool.pageDesc c.pos)).slab = (pool.desc (pool.pageDesc c.pos)).slab ∧
      (pool'.desc (pool.pageDesc c.pos)).prev % 4 = (pool.desc (pool.pageDesc c.pos)).prev % 4)
    (hw : ∀ c ∈ rest, ∀ j o, c.Has j → pool.start + j * 2 ^ s ≤ o →
      o < pool.start + (j + 1) * 2 ^ s → pool'.word o = pool.word o) :
    (∀ c ∈ rest, CellOk sz P pool' c) ∧
      ∀ b, IsList (s - pool.minShift) b → b ≠ a → Ring (fun x => x ≠ header b)
        (fun x => (pool'.desc x).next) (mpsSlabPagePrev pool'.desc) (header b) (lists b) := by
  -- off the list of `a`, the descriptors of the cells that stay are as they were
  have hoff : ∀ c ∈ rest, ∀ j, c.Has j → pool.pageDesc j ∉ header a :: lists a →
      pool'.desc (pool.pageDesc j) = pool.desc (pool.pageDesc j) := fun c hc j hj hn =>
    hd _ hn fun k hk he => hk c hc (Geometry.pageDesc_inj.mp he ▸ hj)
  constructor
  · intro c hc
    have hcc := hsub c hc
    refine (h.ok c hcc).frame h.geo hs (h.bound c hcc).1 (hw c hc) ?_
    intro j hj
    by_cases hm : pool.pageDesc j ∈ header a :: lists a
    · have hx := (List.mem_cons.mp hm).resolve_left (h.geo.pageDesc_ne_header ha)
      obtain ⟨rfl, hla⟩ := h.cell_of_mem ha hcc hj hx
      obtain ⟨h1, h2⟩ := hl c hc hla
      exact .inr ⟨rfl, by simp [hla], h1, h2⟩
    · exact .inl (hoff c hc j hj hm)
  · intro b hb hba
    have hkeep : ∀ x ∈ header b :: lists b, pool'.desc x = pool.desc x := by
      intro x hx
      refine hd x (h.disjoint hb ha hba hx) ?_
      intro j hj he
      subst he
      have hx' := (List.mem_cons.mp hx).resolve_left (h.geo.pageDesc_ne_header hb)
      obtain ⟨c, hc, hlb, he⟩ := (h.mem b hb _).mp hx'
      rw [Geometry.pageDesc_inj.mp he] at hj
      rcases hrest c hc with hc' | hla | hln
      · exact hj c hc' (h.has_pos hc)
      · exact hba (Option.some.inj (hlb.symm.trans hla))
      · rw [hlb] at hln
        cases hln
    exact (h.ring b hb).frame (fun x hx => by rw [hkeep x hx])
      (fun x hx _ => by rw [mpsSlabPagePrev, mpsSlabPagePrev, hkeep x hx])

/-- A cell leaves the list it is on. Its pages are in no cell afterwards, and the
operation may write to them as it likes. -/
theorem unlink (h : Shelf sz s P pool (pre ++ c :: post) lists)
    (hl : c.list sz pool.minShift = some a) :
    ∃ xs ys, lists a = xs ++ pool.pageDesc c.pos :: ys ∧
      Shelf sz s P { pool with desc := unlinkPage pool.desc (pool.pageDesc c.pos) } (pre ++ post)
        (Function.update lists a (xs ++ ys)) := by
  set x := pool.pageDesc c.pos with hx
  have hc : c ∈ pre ++ c :: post := by simp
  have ha := (h.ok c hc).isList h.geo hl
  obtain ⟨xs, ys, he⟩ := List.append_of_mem ((h.mem a ha x).mpr ⟨c, hc, hl, hx⟩)
  have hr := h.ring a ha
  rw [he] at hr
  have hxh : x ≠ header a := h.geo.pageDesc_ne_header ha
  have hnd := hr.nodup
  have hpx := hr.prev_eq hxh
  have hnx : (pool.desc x).next = ys.head?.getD (header a) := hr.next_eq
  -- the neighbours are on the list and are not the cell itself
  have hpm : mpsSlabPagePrev pool.desc x ∈ header a :: xs := by
    rw [hpx]
    exact List.getLast_mem _
  have hnm : (pool.desc x).next ∈ header a :: ys := by
    rw [hnx]
    cases ys <;> simp
  have hmem : ∀ z, z ∈ header a :: xs ∨ z ∈ header a :: ys → z ∈ header a :: lists a ∧ z ≠ x := by
    intro z hz
    rw [he]
    obtain ⟨-, hnd'⟩ := List.nodup_cons.mp hnd
    obtain ⟨-, hnd₂, hdis⟩ := List.nodup_append.mp hnd'
    simp only [List.mem_cons, List.mem_append] at hz ⊢
    refine ⟨by tauto, ?_⟩
    intro hzx
    rw [hzx] at hz
    rcases hz with (hz | hz) | (hz | hz)
    · exact hxh hz
    · exact hdis x hz x (by simp) rfl
    · exact hxh hz
    · exact (List.nodup_cons.mp hnd₂).1 hz
  have hpx' := (hmem _ (.inl hpm))
  have hnx' := (hmem _ (.inr hnm))
  have hfields := unlinkPage_fields hpx'.2
  refine ⟨xs, ys, he, ?_⟩
  set pool' : SlabPool := { pool with desc := unlinkPage pool.desc x } with hpool'
  have hsub : ∀ c₁ ∈ pre ++ post, c₁ ∈ pre ++ c :: post := fun c₁ hc₁ => mem_middle.mpr (.inr hc₁)
  have hs : SameHeader pool pool' := ⟨rfl, rfl, rfl, rfl, rfl, rfl, rfl, rfl, rfl⟩
  obtain ⟨hok, hrings⟩ := h.others (pre ++ post) hs hsub ha
    (fun c₁ hc₁ => by
      rcases mem_middle.mp hc₁ with rfl | hc₁
      · exact .inr (.inl hl)
      · exact .inl hc₁)
    (fun z hz _ => by
      obtain ⟨h1, h2, h3⟩ := hfields z
      refine SlabPage.ext h1 ?_ ?_
      · exact h2.trans (if_neg (by rintro rfl; exact hz hpx'.1))
      · exact h3.trans (if_neg (by rintro rfl; exact hz hnx'.1)))
    (fun c₁ hc₁ hl₁ => by
      obtain ⟨h1, h2, h3⟩ := hfields (pool.pageDesc c₁.pos)
      refine ⟨h1, ?_⟩
      show (unlinkPage pool.desc x (pool.pageDesc c₁.pos)).prev % 4 = _
      rw [h3]
      split
      · rw [(h.ok c hc).type (h.bound c hc).1 hl,
          (h.ok c₁ (hsub c₁ hc₁)).type (h.bound c₁ (hsub c₁ hc₁)).1 hl₁]
      · rfl)
    (fun _ _ _ _ _ _ _ => rfl)
  refine ⟨h.geo.same hs, h.sep.sublist (by simp), fun c₁ hc₁ => h.bound c₁ (hsub c₁ hc₁), hok,
    ?_, ?_⟩
  · intro b hb
    by_cases hba : b = a
    · subst hba
      rw [Function.update_self]
      refine hr.remove hxh ?_ (fun _ => ?_) (fun z hz hzp => ?_) ?_
      · exact (hfields _).2.1.trans (if_pos rfl)
      · rw [mpsSlabPagePrev, show (pool'.desc _).prev = _ from (hfields _).2.2, if_pos rfl,
          mpsSlabPagePrev]
      · exact (hfields z).2.1.trans (if_neg hzp)
      · intro z hz hzn _
        rw [mpsSlabPagePrev, show (pool'.desc z).prev = _ from (hfields z).2.2, if_neg hzn,
          mpsSlabPagePrev]
    · rw [Function.update_of_ne hba]
      exact hrings b hb hba
  · intro b hb z
    by_cases hba : b = a
    · subst hba
      rw [Function.update_self]
      have hzx : z ∈ xs ++ ys ↔ z ∈ lists b ∧ z ≠ x := by
        rw [he]
        constructor
        · intro hz
          refine ⟨by simp only [List.mem_append, List.mem_cons] at hz ⊢; tauto, ?_⟩
          exact (hmem z (by simp only [List.mem_append, List.mem_cons] at hz ⊢; tauto)).2
        · rintro ⟨hz, hzx⟩
          simp only [List.mem_append, List.mem_cons] at hz ⊢
          tauto
      rw [hzx, h.mem b hb]
      constructor
      · rintro ⟨⟨c₁, hc₁, hl₁, rfl⟩, hne⟩
        rcases mem_middle.mp hc₁ with rfl | hc₁
        · exact absurd rfl hne
        · exact ⟨c₁, hc₁, hl₁, rfl⟩
      · rintro ⟨c₁, hc₁, hl₁, rfl⟩
        refine ⟨⟨c₁, hsub c₁ hc₁, hl₁, rfl⟩, ?_⟩
        intro hx'
        have hpos := Geometry.pageDesc_inj.mp hx'
        have heq := h.unique (hsub c₁ hc₁) hc (h.has_pos (hsub c₁ hc₁)) (hpos ▸ h.has_pos hc)
        exact h.notMem_rest (heq ▸ hc₁)
    · rw [Function.update_of_ne hba, h.mem b hb]
      constructor
      · rintro ⟨c₁, hc₁, hl₁, rfl⟩
        rcases mem_middle.mp hc₁ with rfl | hc₁
        · exact absurd (Option.some.inj (hl₁.symm.trans hl)) hba
        · exact ⟨c₁, hc₁, hl₁, rfl⟩
      · rintro ⟨c₁, hc₁, hl₁, rfl⟩
        exact ⟨c₁, hsub c₁ hc₁, hl₁, rfl⟩

/-- A cell that is on no list leaves. -/
theorem drop (h : Shelf sz s P pool (pre ++ c :: post) lists)
    (hl : c.list sz pool.minShift = none) : Shelf sz s P pool (pre ++ post) lists := by
  have hsub : ∀ c₁ ∈ pre ++ post, c₁ ∈ pre ++ c :: post := fun c₁ hc₁ => mem_middle.mpr (.inr hc₁)
  refine ⟨h.geo, h.sep.sublist (by simp), fun c₁ hc₁ => h.bound c₁ (hsub c₁ hc₁),
    fun c₁ hc₁ => h.ok c₁ (hsub c₁ hc₁), h.ring, ?_⟩
  intro b hb z
  rw [h.mem b hb]
  constructor
  · rintro ⟨c₁, hc₁, hl₁, rfl⟩
    rcases mem_middle.mp hc₁ with rfl | hc₁
    · rw [hl₁] at hl
      cases hl
    · exact ⟨c₁, hc₁, hl₁, rfl⟩
  · rintro ⟨c₁, hc₁, hl₁, rfl⟩
    exact ⟨c₁, hsub c₁ hc₁, hl₁, rfl⟩

/-- Writes to pages that are in no cell. -/
theorem frame (h : Shelf sz s P pool cells lists) (hs : SameHeader pool pool')
    (hd : ∀ y, (∀ j, (∀ c ∈ cells, ¬ c.Has j) → y ≠ pool.pageDesc j) → pool'.desc y = pool.desc y)
    (hw : ∀ c ∈ cells, ∀ j o, c.Has j → pool.start + j * 2 ^ s ≤ o →
      o < pool.start + (j + 1) * 2 ^ s → pool'.word o = pool.word o) :
    Shelf sz s P pool' cells lists := by
  have hcell : ∀ c ∈ cells, ∀ j, c.Has j →
      pool'.desc (pool.pageDesc j) = pool.desc (pool.pageDesc j) := fun c hc j hj =>
    hd _ fun k hk he => hk c hc (Geometry.pageDesc_inj.mp he ▸ hj)
  refine ⟨h.geo.same hs, h.sep, h.bound, fun c hc => ?_, ?_, ?_⟩
  · exact (h.ok c hc).frame h.geo hs (h.bound c hc).1 (hw c hc) fun j hj => .inl (hcell c hc j hj)
  · intro b hb
    rw [hs.minShift] at hb
    have hkeep : ∀ x ∈ header b :: lists b, pool'.desc x = pool.desc x := by
      intro x hx
      rcases List.mem_cons.mp hx with rfl | hx
      · exact hd _ fun j _ he => h.geo.pageDesc_ne_header hb he.symm
      · obtain ⟨c, hc, -, rfl⟩ := (h.mem b hb _).mp hx
        exact hcell c hc _ (h.has_pos hc)
    exact (h.ring b hb).frame (fun x hx => by rw [hkeep x hx])
      (fun x hx _ => by rw [mpsSlabPagePrev, mpsSlabPagePrev, hkeep x hx])
  · intro b hb z
    rw [hs.minShift] at hb ⊢
    simp only [hs.pageDesc]
    exact h.mem b hb z

/-- A cell that is on no list comes. -/
theorem add (h : Shelf sz s P pool (pre ++ post) lists)
    (hpre : ∀ c₁ ∈ pre, c₁.pos + c₁.len ≤ c.pos) (hpost : ∀ c₁ ∈ post, c.pos + c.len ≤ c₁.pos)
    (hb : 0 < c.len ∧ c.pos + c.len ≤ P) (hok : CellOk sz P pool c)
    (hl : c.list sz pool.minShift = none) : Shelf sz s P pool (pre ++ c :: post) lists := by
  refine ⟨h.geo, sep_middle h.sep hpre hpost, ?_, ?_, h.ring, ?_⟩
  · intro c₁ hc₁
    rcases mem_middle.mp hc₁ with rfl | hc₁
    · exact hb
    · exact h.bound c₁ hc₁
  · intro c₁ hc₁
    rcases mem_middle.mp hc₁ with rfl | hc₁
    · exact hok
    · exact h.ok c₁ hc₁
  · intro b hb z
    rw [h.mem b hb]
    constructor
    · rintro ⟨c₁, hc₁, hl₁, rfl⟩
      exact ⟨c₁, mem_middle.mpr (.inr hc₁), hl₁, rfl⟩
    · rintro ⟨c₁, hc₁, hl₁, rfl⟩
      rcases mem_middle.mp hc₁ with rfl | hc₁
      · rw [hl₁] at hl
        cases hl
      · exact ⟨c₁, hc₁, hl₁, rfl⟩

/-- A cell comes to the head of a list. Its descriptors have been prepared for it, and the
three links at the head of the list are written. -/
theorem put {v : Nat} (h : Shelf sz s P pool (pre ++ post) lists) (hs : SameHeader pool pool')
    (ha : IsList (s - pool.minShift) a)
    (hpre : ∀ c₁ ∈ pre, c₁.pos + c₁.len ≤ c.pos) (hpost : ∀ c₁ ∈ post, c.pos + c.len ≤ c₁.pos)
    (hb : 0 < c.len ∧ c.pos + c.len ≤ P) (hok : CellOk sz P pool' c)
    (hl : c.list sz pool.minShift = some a)
    (hx : (pool'.desc (pool.pageDesc c.pos)).next = (pool.desc (header a)).next ∧
      mpsSlabPagePrev pool'.desc (pool.pageDesc c.pos) = header a)
    (hd : ∀ z, (∀ j, c.Has j → z ≠ pool.pageDesc j) →
      (pool'.desc z).slab = (pool.desc z).slab ∧
      (pool'.desc z).next = (if z = header a then pool.pageDesc c.pos else (pool.desc z).next) ∧
      (z ≠ header a → (pool'.desc z).prev =
        if z = (pool.desc (header a)).next then v else (pool.desc z).prev))
    (hv : andNot v 3 = pool.pageDesc c.pos) (hvt : v % 4 = listType sz pool.minShift a)
    (hw : ∀ c₁ ∈ pre ++ post, ∀ j o, c₁.Has j → pool.start + j * 2 ^ s ≤ o →
      o < pool.start + (j + 1) * 2 ^ s → pool'.word o = pool.word o) :
    Shelf sz s P pool' (pre ++ c :: post)
      (Function.update lists a (pool.pageDesc c.pos :: lists a)) := by
  set x := pool.pageDesc c.pos with hxe
  have hr := h.ring a ha
  have hxh : x ≠ header a := h.geo.pageDesc_ne_header ha
  have hout : ∀ c₁ ∈ pre ++ post, ∀ j, c.Has j → ¬ c₁.Has j := by
    rintro c₁ hc₁ j ⟨h1, h2⟩ ⟨h3, h4⟩
    rcases List.mem_append.mp hc₁ with hc₁ | hc₁
    · have := hpre c₁ hc₁
      omega
    · have := hpost c₁ hc₁
      omega
  have hoff : ∀ z, z ∈ header a :: lists a → ∀ j, c.Has j → z ≠ pool.pageDesc j := by
    rintro z hz j hj rfl
    have hz' := (List.mem_cons.mp hz).resolve_left (h.geo.pageDesc_ne_header ha)
    obtain ⟨c₁, hc₁, -, he⟩ := (h.mem a ha _).mp hz'
    exact hout c₁ hc₁ j hj (Geometry.pageDesc_inj.mp he ▸ h.has_pos hc₁)
  have hnx : (pool.desc (header a)).next = (lists a).head?.getD (header a) := by
    cases hla : lists a with
    | nil =>
      rw [hla] at hr
      exact hr.nil_iff.mpr rfl
    | cons y ys =>
      rw [hla] at hr
      exact hr.head
  have hxm : x ∉ header a :: lists a := fun hm =>
    hoff x hm c.pos ⟨le_rfl, Nat.lt_add_of_pos_right hb.1⟩ rfl
  -- the old first cell of the list is written behind the back of its cell, which keeps its type
  obtain ⟨hoks, hrings⟩ := h.others (pre ++ post) hs (fun _ hc₁ => hc₁) ha
    (fun c₁ hc₁ => .inl hc₁)
    (fun z hz hzc => by
      obtain ⟨h1, h2, h3⟩ := hd z fun j hj => hzc j fun c₁ hc₁ => hout c₁ hc₁ j hj
      rw [List.mem_cons, not_or] at hz
      refine SlabPage.ext h1 (h2.trans (if_neg hz.1)) ((h3 hz.1).trans (if_neg ?_))
      rintro rfl
      rw [hnx] at hz
      cases hla : lists a with
      | nil => simp [hla] at hz
      | cons y ys => simp [hla] at hz)
    (fun c₁ hc₁ hl₁ => by
      have hc₁o : ∀ j, c.Has j → pool.pageDesc c₁.pos ≠ pool.pageDesc j := fun j hj he =>
        hout c₁ hc₁ j hj (Geometry.pageDesc_inj.mp he ▸ h.has_pos hc₁)
      obtain ⟨h1, -, h3⟩ := hd _ hc₁o
      refine ⟨h1, ?_⟩
      rw [h3 (h.geo.pageDesc_ne_header ha)]
      split
      · rw [hvt, (h.ok c₁ hc₁).type (h.bound c₁ hc₁).1 hl₁]
      · rfl) hw
  refine ⟨h.geo.same hs, sep_middle h.sep hpre hpost, ?_, ?_,
    ?_, ?_⟩
  · intro c₁ hc₁
    rcases mem_middle.mp hc₁ with rfl | hc₁
    · exact hb
    · exact h.bound c₁ hc₁
  · intro c₁ hc₁
    rcases mem_middle.mp hc₁ with rfl | hc₁
    · exact hok
    · exact hoks c₁ hc₁
  · intro b hb
    rw [hs.minShift] at hb
    by_cases hba : b = a
    · subst hba
      rw [Function.update_self]
      -- the cell goes in between the header and what was the first cell
      refine Ring.insert (show Ring _ _ _ _ ([] ++ lists b) from hr) hxm ?_ (fun _ => hx.2)
        (hx.1.trans hnx) ?_ ?_ ?_
      · have := (hd (header b) (hoff _ (by simp))).2.1
        simpa using this
      · intro hne
        have hm : (lists b).head?.getD (header b) ∈ header b :: lists b := by
          cases lists b <;> simp
        obtain ⟨-, -, h3⟩ := hd _ (hoff _ hm)
        rw [mpsSlabPagePrev, h3 hne, if_pos hnx.symm, hv]
      · intro z hz hzp
        have := (hd z (hoff z hz)).2.1
        exact this.trans (if_neg hzp)
      · intro z hz hzn hzh
        obtain ⟨-, -, h3⟩ := hd z (hoff z hz)
        rw [mpsSlabPagePrev, h3 hzh, if_neg (by rw [hnx]; exact hzn), mpsSlabPagePrev]
    · rw [Function.update_of_ne hba]
      exact hrings b hb hba
  · intro b hb z
    rw [hs.minShift] at hb ⊢
    simp only [hs.pageDesc]
    -- a list has the cells it had, and the list `a` the new one
    have hiff : (∃ c₁ ∈ pre ++ c :: post, c₁.list sz pool.minShift = some b ∧
        z = pool.pageDesc c₁.pos) ↔ (b = a ∧ z = x) ∨ z ∈ lists b := by
      rw [h.mem b hb]
      constructor
      · rintro ⟨c₁, hc₁, hl₁, rfl⟩
        rcases mem_middle.mp hc₁ with rfl | hc₁
        · exact .inl ⟨Option.some.inj (hl₁.symm.trans hl), rfl⟩
        · exact .inr ⟨c₁, hc₁, hl₁, rfl⟩
      · rintro (⟨rfl, rfl⟩ | ⟨c₁, hc₁, hl₁, rfl⟩)
        · exact ⟨c, mem_middle.mpr (.inl rfl), hl, rfl⟩
        · exact ⟨c₁, mem_middle.mpr (.inr hc₁), hl₁, rfl⟩
    rw [hiff]
    by_cases hba : b = a
    · subst hba
      simp
    · simp [hba]

/-- A cell changes without leaving its list or its place, as a page does that gives out or
takes back a chunk which is neither the first nor the last. -/
theorem touch (h : Shelf sz s P pool (pre ++ c :: post) lists) (c' : Cell)
    (hs : SameHeader pool pool') (hpos : c'.pos = c.pos) (hlen : c'.len = c.len)
    (hl : c'.list sz pool.minShift = c.list sz pool.minShift) (hok : CellOk sz P pool' c')
    (hx : (pool'.desc (pool.pageDesc c.pos)).next = (pool.desc (pool.pageDesc c.pos)).next ∧
      (pool'.desc (pool.pageDesc c.pos)).prev = (pool.desc (pool.pageDesc c.pos)).prev)
    (hd : ∀ z, z ≠ pool.pageDesc c.pos → pool'.desc z = pool.desc z)
    (hw : ∀ c₁ ∈ pre ++ post, ∀ j o, c₁.Has j → pool.start + j * 2 ^ s ≤ o →
      o < pool.start + (j + 1) * 2 ^ s → pool'.word o = pool.word o) :
    Shelf sz s P pool' (pre ++ c' :: post) lists := by
  -- the links stay, whatever else is written to the descriptor of the cell
  have hlinks : ∀ z, (pool'.desc z).next = (pool.desc z).next ∧
      (pool'.desc z).prev = (pool.desc z).prev := by
    intro z
    by_cases hz : z = pool.pageDesc c.pos
    · subst hz
      exact hx
    · rw [hd z hz]
      exact ⟨rfl, rfl⟩
  have hsep : (pre ++ c' :: post).Pairwise fun a b : Cell => a.pos + a.len ≤ b.pos := by
    obtain ⟨-, h2, h3⟩ := List.pairwise_append.mp h.sep
    refine sep_middle (h.sep.sublist (by simp)) ?_ ?_
    · intro c₁ hc₁
      rw [hpos]
      exact h3 c₁ hc₁ c (by simp)
    · intro c₁ hc₁
      rw [hpos, hlen]
      exact (List.pairwise_cons.mp h2).1 c₁ hc₁
  refine ⟨h.geo.same hs, hsep, ?_, ?_, ?_, ?_⟩
  · intro c₁ hc₁
    rcases mem_middle.mp hc₁ with rfl | hc₁
    · rw [hpos, hlen]
      exact h.bound c (by simp)
    · exact h.bound c₁ (mem_middle.mpr (.inr hc₁))
  · intro c₁ hc₁
    rcases mem_middle.mp hc₁ with rfl | hc₁
    · exact hok
    · have hm : c₁ ∈ pre ++ c :: post := mem_middle.mpr (.inr hc₁)
      refine (h.ok c₁ hm).frame h.geo hs (h.bound c₁ hm).1 (hw c₁ hc₁) fun j hj => .inl (hd _ ?_)
      intro he
      have heq := h.unique hm (mem_middle.mpr (.inl rfl)) hj
        (Geometry.pageDesc_inj.mp he ▸ h.has_pos (mem_middle.mpr (.inl rfl)))
      exact h.notMem_rest (heq ▸ hc₁)
  · intro b hb
    rw [hs.minShift] at hb
    exact (h.ring b hb).frame (fun x _ => (hlinks x).1)
      (fun x _ _ => by rw [mpsSlabPagePrev, mpsSlabPagePrev, (hlinks x).2])
  · intro b hb z
    rw [hs.minShift] at hb ⊢
    simp only [hs.pageDesc]
    rw [h.mem b hb]
    constructor
    · rintro ⟨c₁, hc₁, hl₁, rfl⟩
      rcases mem_middle.mp hc₁ with rfl | hc₁
      · exact ⟨c', mem_middle.mpr (.inl rfl), hl.trans hl₁, by rw [hpos]⟩
      · exact ⟨c₁, mem_middle.mpr (.inr hc₁), hl₁, rfl⟩
    · rintro ⟨c₁, hc₁, hl₁, rfl⟩
      rcases mem_middle.mp hc₁ with rfl | hc₁
      · exact ⟨c, mem_middle.mpr (.inl rfl), hl ▸ hl₁, by rw [hpos]⟩
      · exact ⟨c₁, mem_middle.mpr (.inr hc₁), hl₁, rfl⟩

/-- A cell's part takes its place on the list, as the rest of a free run does after pages
have been cut off its front. -/
theorem replace {v : Nat} (h : Shelf sz s P pool (pre ++ c :: post) lists) (c' : Cell)
    (hs : SameHeader pool pool') (hl : c.list sz pool.minShift = some a)
    (hlo : c.pos ≤ c'.pos) (hhi : c'.pos + c'.len ≤ c.pos + c.len) (hlen : 0 < c'.len)
    (hok : CellOk sz P pool' c') (hl' : c'.list sz pool.minShift = some a)
    (hx : (pool'.desc (pool.pageDesc c'.pos)).next = (pool.desc (pool.pageDesc c.pos)).next ∧
      mpsSlabPagePrev pool'.desc (pool.pageDesc c'.pos) =
        mpsSlabPagePrev pool.desc (pool.pageDesc c.pos))
    (hd : ∀ z, (∀ j, c.Has j → z ≠ pool.pageDesc j) →
      (pool'.desc z).slab = (pool.desc z).slab ∧
      (pool'.desc z).next = (if z = mpsSlabPagePrev pool.desc (pool.pageDesc c.pos)
        then pool.pageDesc c'.pos else (pool.desc z).next) ∧
      (pool'.desc z).prev = if z = (pool.desc (pool.pageDesc c.pos)).next then v
        else (pool.desc z).prev)
    (hv : andNot v 3 = pool.pageDesc c'.pos) (hvt : v % 4 = listType sz pool.minShift a)
    (hw : ∀ c₁ ∈ pre ++ post, ∀ j o, c₁.Has j → pool.start + j * 2 ^ s ≤ o →
      o < pool.start + (j + 1) * 2 ^ s → pool'.word o = pool.word o) :
    ∃ xs ys, lists a = xs ++ pool.pageDesc c.pos :: ys ∧
      Shelf sz s P pool' (pre ++ c' :: post)
        (Function.update lists a (xs ++ pool.pageDesc c'.pos :: ys)) := by
  have hc : c ∈ pre ++ c :: post := mem_middle.mpr (.inl rfl)
  have ha := (h.ok c hc).isList h.geo hl
  set x := pool.pageDesc c.pos with hxe
  set y := pool.pageDesc c'.pos with hye
  obtain ⟨xs, ys, he⟩ := List.append_of_mem ((h.mem a ha x).mpr ⟨c, hc, hl, hxe⟩)
  have hr := h.ring a ha
  rw [he] at hr
  have hxh : x ≠ header a := h.geo.pageDesc_ne_header ha
  have hpx := hr.prev_eq hxh
  have hnx : (pool.desc x).next = ys.head?.getD (header a) := hr.next_eq
  have hsub : ∀ c₁ ∈ pre ++ post, c₁ ∈ pre ++ c :: post := fun c₁ hc₁ => mem_middle.mpr (.inr hc₁)
  have hout : ∀ c₁ ∈ pre ++ post, ∀ j, c.Has j → ¬ c₁.Has j := fun c₁ hc₁ j hj hj' =>
    h.notMem_rest (h.unique (hsub c₁ hc₁) hc hj' hj ▸ hc₁)
  have hmid : ∀ z, z ∈ header a :: (xs ++ ys) → z ∈ header a :: lists a := by
    intro z hz
    rw [he]
    simp only [List.mem_cons, List.mem_append] at hz ⊢
    tauto
  -- the rest of the list names pages of other cells
  have hoff : ∀ z, z ∈ header a :: (xs ++ ys) → ∀ j, c.Has j → z ≠ pool.pageDesc j := by
    rintro z hz j hj rfl
    have hz' := (List.mem_cons.mp (hmid _ hz)).resolve_left (h.geo.pageDesc_ne_header ha)
    obtain ⟨rfl, -⟩ := h.cell_of_mem ha hc hj hz'
    have hnd := hr.nodup
    have hxs := (List.mem_cons.mp hz).resolve_left hxh
    have : (xs ++ x :: ys).Perm (x :: (xs ++ ys)) := List.perm_middle
    have hnd' := this.nodup_iff.mp (List.nodup_cons.mp hnd).2
    exact (List.nodup_cons.mp hnd').1 hxs
  have hpm : mpsSlabPagePrev pool.desc x ∈ header a :: (xs ++ ys) := by
    rw [hpx]
    exact List.mem_append_left ys (List.getLast_mem (l := header a :: xs) (by simp))
  have hnm : (pool.desc x).next ∈ header a :: (xs ++ ys) := by
    rw [hnx]
    cases ys <;> simp
  have hym : y ∉ header a :: (xs ++ ys) := fun hm => hoff y hm c'.pos ⟨hlo, by omega⟩ rfl
  refine ⟨xs, ys, he, ?_⟩
  obtain ⟨hoks, hrings⟩ := h.others (pre ++ post) hs hsub ha
    (fun c₁ hc₁ => by
      rcases mem_middle.mp hc₁ with rfl | hc₁
      · exact .inr (.inl hl)
      · exact .inl hc₁)
    (fun z hz hzc => by
      obtain ⟨h1, h2, h3⟩ := hd z fun j hj => hzc j fun c₁ hc₁ => hout c₁ hc₁ j hj
      refine SlabPage.ext h1 (h2.trans (if_neg ?_)) (h3.trans (if_neg ?_))
      · rintro rfl
        exact hz (hmid _ hpm)
      · rintro rfl
        exact hz (hmid _ hnm))
    (fun c₁ hc₁ hl₁ => by
      have hc₁o : ∀ j, c.Has j → pool.pageDesc c₁.pos ≠ pool.pageDesc j := fun j hj hj' =>
        hout c₁ hc₁ j hj (Geometry.pageDesc_inj.mp hj' ▸ h.has_pos (hsub c₁ hc₁))
      obtain ⟨h1, -, h3⟩ := hd _ hc₁o
      refine ⟨h1, ?_⟩
      rw [h3]
      split
      · rw [hvt, (h.ok c₁ (hsub c₁ hc₁)).type (h.bound c₁ (hsub c₁ hc₁)).1 hl₁]
      · rfl) hw
  have hsep : (pre ++ c' :: post).Pairwise fun a b : Cell => a.pos + a.len ≤ b.pos := by
    obtain ⟨-, h2, h3⟩ := List.pairwise_append.mp h.sep
    refine sep_middle (h.sep.sublist (by simp)) (fun c₁ hc₁ => ?_) (fun c₁ hc₁ => ?_)
    · exact (h3 c₁ hc₁ c (by simp)).trans hlo
    · exact hhi.trans ((List.pairwise_cons.mp h2).1 c₁ hc₁)
  refine ⟨h.geo.same hs, hsep, ?_, ?_, ?_, ?_⟩
  · intro c₁ hc₁
    rcases mem_middle.mp hc₁ with rfl | hc₁
    · exact ⟨hlen, hhi.trans (h.bound c hc).2⟩
    · exact h.bound c₁ (hsub c₁ hc₁)
  · intro c₁ hc₁
    rcases mem_middle.mp hc₁ with rfl | hc₁
    · exact hok
    · exact hoks c₁ hc₁
  · intro b hb
    rw [hs.minShift] at hb
    by_cases hba : b = a
    · subst hba
      rw [Function.update_self]
      refine hr.replace hxh hym ?_ (fun _ => hx.2) hx.1 (fun _ => ?_) (fun z hz hzp => ?_)
        (fun z hz hzn _ => ?_)
      · exact ((hd _ (hoff _ hpm)).2.1).trans (if_pos rfl)
      · rw [mpsSlabPagePrev, (hd _ (hoff _ hnm)).2.2, if_pos rfl, hv]
      · exact ((hd z (hoff z hz)).2.1).trans (if_neg hzp)
      · rw [mpsSlabPagePrev, (hd z (hoff z hz)).2.2, if_neg hzn, mpsSlabPagePrev]
    · rw [Function.update_of_ne hba]
      exact hrings b hb hba
  · intro b hb z
    rw [hs.minShift] at hb ⊢
    simp only [hs.pageDesc]
    have hiff : (∃ c₁ ∈ pre ++ c' :: post, c₁.list sz pool.minShift = some b ∧
        z = pool.pageDesc c₁.pos) ↔ (b = a ∧ z = y) ∨ (z ∈ lists b ∧ z ≠ x) := by
      rw [h.mem b hb]
      constructor
      · rintro ⟨c₁, hc₁, hl₁, rfl⟩
        rcases mem_middle.mp hc₁ with rfl | hc₁
        · exact .inl ⟨Option.some.inj (hl₁.symm.trans hl'), rfl⟩
        · refine .inr ⟨⟨c₁, hsub c₁ hc₁, hl₁, rfl⟩, ?_⟩
          intro hx'
          exact hout c₁ hc₁ c.pos (h.has_pos hc)
            (Geometry.pageDesc_inj.mp hx' ▸ h.has_pos (hsub c₁ hc₁))
      · rintro (⟨rfl, rfl⟩ | ⟨⟨c₁, hc₁, hl₁, rfl⟩, hne⟩)
        · exact ⟨c', mem_middle.mpr (.inl rfl), hl', rfl⟩
        · rcases mem_middle.mp hc₁ with rfl | hc₁
          · exact absurd rfl hne
          · exact ⟨c₁, mem_middle.mpr (.inr hc₁), hl₁, rfl⟩
    rw [hiff]
    by_cases hba : b = a
    · subst hba
      rw [Function.update_self, he]
      have hxs : x ∉ xs ++ ys := fun hm =>
        hoff x (List.mem_cons_of_mem _ hm) c.pos (h.has_pos hc) rfl
      simp only [List.mem_append, List.mem_cons, true_and] at hxs ⊢
      constructor
      · rintro (hz | rfl | hz)
        · exact .inr ⟨.inl hz, fun he => hxs (.inl (he ▸ hz))⟩
        · exact .inl rfl
        · exact .inr ⟨.inr (.inr hz), fun he => hxs (.inr (he ▸ hz))⟩
      · rintro (rfl | ⟨hz | rfl | hz, hne⟩)
        · exact .inr (.inl rfl)
        · exact .inl hz
        · exact absurd rfl hne
        · exact .inr (.inr hz)
    · simp only [Function.update_of_ne hba, hba, false_and, false_or]
      refine ⟨fun hz => ⟨hz, ?_⟩, fun hz => hz.1⟩
      rintro rfl
      obtain ⟨-, hlb⟩ := h.cell_of_mem hb hc (h.has_pos hc) hz
      exact hba (Option.some.inj (hlb.symm.trans hl))

end Shelf

end MpsShdict
