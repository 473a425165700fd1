import MpsShdict.SlabMerge

/-! # The chunks of a page

A page of chunks keeps one bit for each chunk: in a bitmap in the page itself, in the
field `slab` of its descriptor, or in the upper half of that field, according to the size.
The lemmas here are about one chunk more or less, whichever way the bits are kept; the
three ways come after that.

`takeChunk` and `giveChunk` are the two steps. Their hypotheses are that the bits have
changed by one chunk, that the links of the page's descriptor are as the code leaves them,
and that nothing outside the page and its list has been written; what they give is the
page invariant with the changed cell. A page leaves the list of its slot with its last
free chunk and comes back to it with the first one that is free again.
-/
namespace MpsShdict

open Words Links

/-! ### Numbers of chunks -/

section Counts
variable {sz : Sizes} {s P k : Nat} {pool : SlabPool}

theorem chunkCount_eq (g : Geometry sz s P pool) (hk : k ≤ s) : chunkCount sz k = 2 ^ (s - k) := by
  rw [chunkCount, g.pagesize, Nat.shiftRight_eq_div_pow, Nat.pow_div hk (by decide)]

/-- The chunks fill the page. -/
theorem chunkCount_mul (g : Geometry sz s P pool) (hk : k ≤ s) :
    chunkCount sz k * 2 ^ k = 2 ^ s := by
  rw [chunkCount_eq g hk, ← Nat.pow_add, Nat.sub_add_cancel hk]

theorem bitmapWords_mul (g : Geometry sz s P pool) (hk : k < sz.exactShift) :
    64 * bitmapWords sz k = chunkCount sz k := by
  have hes := g.exactShift
  have h := chunkCount_eq g (k := k) (by omega)
  have h2 : s - k = (s - k - 6) + 6 := by omega
  rw [bitmapWords, ← chunkCount, h, h2, Nat.pow_add]
  omega

/-- A page has room for the bitmap and two chunks more. -/
theorem reserved_lt (g : Geometry sz s P pool) (hk : k < s) :
    reserved sz k + 1 < chunkCount sz k := by
  have hes := g.exactShift
  rw [reserved]
  split
  · next hlt =>
    have hw := bitmapWords_mul g hlt
    have h1 : 2 ≤ bitmapWords sz k := by
      have h := chunkCount_eq g (k := k) (by omega)
      have h2 : s - k = (s - k - 7) + 7 := by omega
      have h3 := Nat.two_pow_pos (s - k - 7)
      rw [h, h2, Nat.pow_add] at hw
      omega
    have h4 : sz.pagesize >>> k / (1 <<< k * 8) ≤ chunkCount sz k / 8 := by
      rw [chunkCount, Nat.mul_comm, ← Nat.div_div_eq_div_mul]
      exact Nat.div_le_self _ _
    simp only [bitmapChunks]
    split <;> omega
  · rw [chunkCount_eq g (by omega)]
    have h2 : s - k = (s - k - 1) + 1 := by omega
    have h3 := Nat.two_pow_pos (s - k - 1)
    rw [h2, Nat.pow_succ]
    omega

theorem chunkCount_exact (g : Geometry sz s P pool) : chunkCount sz sz.exactShift = 64 := by
  have h1 := g.exactShift
  have h2 := g.le_s
  rw [chunkCount_eq g (by omega), h1, show s - (s - 6) = 6 by omega]
  rfl

theorem chunkCount_big (g : Geometry sz s P pool) (hk : sz.exactShift < k) (hk' : k ≤ s) :
    chunkCount sz k ≤ 32 := by
  have h1 := g.exactShift
  have h2 := g.le_s
  rw [chunkCount_eq g hk', show 32 = 2 ^ 5 from rfl]
  exact Nat.pow_le_pow_right (by decide) (by omega)

theorem not_full_of_free {used : List Nat} {j : Nat} (h1 : reserved sz k ≤ j)
    (h2 : j < chunkCount sz k) (h3 : j ∉ used) : ¬ Full sz k used := by
  intro hf
  rcases hf j h2 with h | h
  · omega
  · exact h3 h

end Counts

/-! ### The bitmap words of other pages -/

/-- Only bitmap words in page `i` are written, so the bitmaps of all other pages are as
they were. -/
def WordsOff (s : Nat) (pool pool' : SlabPool) (i : Nat) : Prop :=
  ∀ o, ¬ (pool.start + i * 2 ^ s ≤ o ∧ o < pool.start + (i + 1) * 2 ^ s) →
  pool'.word o = pool.word o

section Generic
variable {sz : Sizes} {s P i j k : Nat} {pool pool' : SlabPool} {pre post : List Cell}
  {used : List Nat} {c : Cell} {lists : Option Nat → List Nat} {d : DescMem} {a : Option Nat}

theorem WordsOff.cells (hw : WordsOff s pool pool' c.pos)
    (h : Shelf sz s P pool (pre ++ c :: post) lists) :
    ∀ c₁ ∈ pre ++ post, ∀ j o, c₁.Has j → pool.start + j * 2 ^ s ≤ o →
      o < pool.start + (j + 1) * 2 ^ s → pool'.word o = pool.word o := by
  intro c₁ hc₁ j o hj h1 h2
  have hc : c ∈ pre ++ c :: post := Shelf.mem_middle.mpr (.inl rfl)
  have hne : j ≠ c.pos := by
    rintro rfl
    exact h.notMem_rest (h.unique (Shelf.mem_middle.mpr (.inr hc₁)) hc hj (h.has_pos hc) ▸ hc₁)
  refine hw o ?_
  intro ho
  rcases Nat.lt_or_gt_of_ne hne with hlt | hlt
  · have := Nat.mul_le_mul_right (2 ^ s) (show j + 1 ≤ c.pos from hlt)
    omega
  · have := Nat.mul_le_mul_right (2 ^ s) (show c.pos + 1 ≤ j from hlt)
    omega

/-- The neighbours of a listed descriptor are others. -/
theorem Shelf.prev_ne (h : Shelf sz s P pool (pre ++ c :: post) lists)
    (hl : c.list sz pool.minShift = some a) :
    mpsSlabPagePrev pool.desc (pool.pageDesc c.pos) ≠ pool.pageDesc c.pos := by
  have hc : c ∈ pre ++ c :: post := Shelf.mem_middle.mpr (.inl rfl)
  have ha := (h.ok c hc).isList h.geo hl
  obtain ⟨xs, ys, he⟩ := List.append_of_mem ((h.mem a ha _).mpr ⟨c, hc, hl, rfl⟩)
  have hr := h.ring a ha
  rw [he] at hr
  have hxh : pool.pageDesc c.pos ≠ header a := h.geo.pageDesc_ne_header ha
  rw [hr.prev_eq hxh]
  intro heq
  have hm := List.getLast_mem (l := header a :: xs) (by simp)
  rw [heq] at hm
  have hnd := hr.nodup
  simp only [List.nodup_cons, List.mem_append, List.mem_cons, List.nodup_append] at hnd hm
  rcases hm with hm | hm
  · exact hxh hm
  · exact hnd.2.2.2 _ hm _ (.inl rfl) rfl

/-- The bits depend on the field `slab` and the bitmap words alone. -/
theorem ChunkBits.same (h : ChunkBits sz pool i k used) (hs : SameHeader pool pool')
    (hd : (pool'.desc (pool.pageDesc i)).slab = (pool.desc (pool.pageDesc i)).slab)
    (hw : pool'.word = pool.word) : ChunkBits sz pool' i k used := by
  simp only [ChunkBits, hs.pageDesc, hs.pageAddr, hd, SlabPool.bitmap, hw] at h ⊢
  exact h

/-- The bits depend on the set of live chunks. -/
theorem ChunkBits.congr {used' : List Nat} (h : ChunkBits sz pool i k used)
    (hu : ∀ j, j ∈ used' ↔ j ∈ used) : ChunkBits sz pool i k used' := by
  simp only [ChunkBits, hu] at h ⊢
  exact h

/-- A page whose chunks are small or big says how big they are. -/
theorem ChunkBits.shiftMask (h : ChunkBits sz pool i k used)
    (g : Geometry sz s P pool) (hks : k < s) (hne : k ≠ sz.exactShift) :
    (pool.desc (pool.pageDesc i)).slab &&& mpsSlabShiftMask = k := by
  have hmask : (pool.desc (pool.pageDesc i)).slab &&& mpsSlabShiftMask =
      (pool.desc (pool.pageDesc i)).slab % 2 ^ 4 := Nat.and_two_pow_sub_one_eq_mod _ 4
  have hs16 := g.s_le
  rw [hmask]
  simp only [ChunkBits] at h
  by_cases hk : k < sz.exactShift
  · rw [if_pos hk] at h
    rw [h.1, Nat.mod_eq_of_lt (by omega)]
  · rw [if_neg hk, if_neg hne] at h
    have hslab := h.1
    omega

/-- The list of a page that has a free chunk. -/
theorem list_chunks (hf : ¬ Full sz k used) (m : Nat) :
    (⟨i, .chunks k used, 1⟩ : Cell).list sz m = some (some (k - m)) := by
  simp [Cell.list, hf]

theorem list_full (hf : Full sz k used) (m : Nat) :
    (⟨i, .chunks k used, 1⟩ : Cell).list sz m = none := by
  simp [Cell.list, hf]

/-- The live chunks of a page: no number occurs twice, none is reserved for the bitmap,
and each is the number of a chunk of the page. -/
def ChunksOk (sz : Sizes) (k : Nat) (used : List Nat) : Prop :=
  used.Nodup ∧ ∀ j ∈ used, reserved sz k ≤ j ∧ j < chunkCount sz k

/-- The descriptor of a page that leaves its list. -/
theorem unlinkFull_self {x t : Nat} (hp : mpsSlabPagePrev d x ≠ x) :
    unlinkFull d x t x = ⟨(d x).slab, 0, t⟩ := by
  apply SlabPage.ext
  · simpa [unlinkFull] using (unlinkPage_fields hp x).1
  · simp [unlinkFull]
  · simp [unlinkFull]

/-- The other descriptors see the page leave, whatever was written to it before. -/
theorem unlinkFull_other {m : DescMem} {x t z : Nat} (hp : mpsSlabPagePrev m x ≠ x)
    (hx : (d x).next = (m x).next ∧ (d x).prev = (m x).prev)
    (hd : ∀ z, z ≠ x → d z = m z) (hzx : z ≠ x) :
    unlinkFull d x t z = unlinkPage m x z := by
  have hp' : mpsSlabPagePrev d x = mpsSlabPagePrev m x := by
    rw [mpsSlabPagePrev, hx.2, mpsSlabPagePrev]
  obtain ⟨h1, h2, h3⟩ := unlinkPage_fields (m := d) (x := x) (by rwa [hp']) z
  obtain ⟨k1, k2, k3⟩ := unlinkPage_fields hp z
  rw [hd z hzx] at h1
  rw [hd z hzx, hp', hx.1] at h2
  rw [hd z hzx, hx.1, hx.2] at h3
  rw [unlinkFull, DescMem.setPrev_ne hzx, DescMem.setNext_ne hzx]
  exact SlabPage.ext (h1.trans k1.symm) (h2.trans k2.symm) (h3.trans k3.symm)

/-- **One chunk more.** The bits are in `d` and the bitmap, and the page leaves its list
with its last chunk. -/
theorem takeChunk (h : PageInv sz s P pool (pre ++ ⟨i, .chunks k used, 1⟩ :: post) lists)
    (hnf : ¬ Full sz k used) (hs : SameHeader pool pool') (hpf : pool'.pfree = pool.pfree)
    (hx : (d (pool.pageDesc i)).next = (pool.desc (pool.pageDesc i)).next ∧
      (d (pool.pageDesc i)).prev = (pool.desc (pool.pageDesc i)).prev)
    (hd : ∀ z, z ≠ pool.pageDesc i → d z = pool.desc z)
    (hdesc : pool'.desc =
      if Full sz k (j :: used) then unlinkFull d (pool.pageDesc i) (chunkType sz k) else d)
    (hbits : ChunkBits sz { pool' with desc := d } i k (j :: used))
    (hw : WordsOff s pool pool' i) (hj : ChunksOk sz k (j :: used)) :
    ∃ lists', PageInv sz s P pool' (pre ++ ⟨i, .chunks k (j :: used), 1⟩ :: post) lists' := by
  set c : Cell := ⟨i, .chunks k used, 1⟩ with hc
  set c' : Cell := ⟨i, .chunks k (j :: used), 1⟩ with hc'
  set x := pool.pageDesc i with hxe
  have hsh := h.shelf
  have hcm : c ∈ pre ++ c :: post := Shelf.mem_middle.mpr (.inl rfl)
  obtain ⟨-, hshift, htype, -, -, -⟩ := hsh.ok c hcm
  have hl : c.list sz pool.minShift = some (some (k - pool.minShift)) := list_chunks hnf _
  have hmid := Contiguous.middle.mp h.contiguous
  have hcont : Contiguous 0 (pre ++ c' :: post) P := Contiguous.middle.mpr hmid
  have hapart : Apart (pre ++ c' :: post) :=
    apart_middle h.apart.left (by simp [hc']) h.apart.right.of_cons
  have hsum : pool'.pfree = ((pre ++ c' :: post).map Cell.freeLen).sum := by
    rw [hpf, h.pfree]
    simp [hc, hc']
  by_cases hfull : Full sz k (j :: used)
  · -- the page leaves its list: first without the cell, then with the cell that is on no list
    rw [if_pos hfull] at hdesc
    obtain ⟨xs, ys, -, hun⟩ := hsh.unlink hl
    have hp : mpsSlabPagePrev pool.desc x ≠ x := hsh.prev_ne hl
    have hp' : mpsSlabPagePrev d x ≠ x := by
      rwa [mpsSlabPagePrev, hx.2, ← mpsSlabPagePrev]
    have hself : pool'.desc x = ⟨(d x).slab, 0, chunkType sz k⟩ := by
      rw [hdesc]
      exact unlinkFull_self hp'
    have hfr := hun.frame (show SameHeader _ pool' from ⟨hs.data, hs.minSize, hs.minShift,
        hs.pages, hs.last, hs.stats, hs.start, hs.poolEnd, hs.logNomem⟩)
      (fun z hz => by
        have hzx : z ≠ x := hz i fun c₁ hc₁ hj => hsh.notMem_rest
          (hsh.unique (Shelf.mem_middle.mpr (.inr hc₁)) hcm hj (hsh.has_pos hcm) ▸ hc₁)
        show pool'.desc z = unlinkPage pool.desc x z
        rw [hdesc]
        exact unlinkFull_other hp hx hd hzx)
      ((show WordsOff s pool pool' c.pos from hw).cells hsh)
    have hadd := hfr.add (c := c') (fun c₁ hc₁ => (hmid.1.bounds c₁ hc₁).2)
      (fun c₁ hc₁ => (hmid.2.bounds c₁ hc₁).1)
      (hsh.bound c hcm)
      ⟨rfl, ⟨hs.minShift ▸ hshift.1, hshift.2⟩,
        by
          show (pool'.desc (pool'.pageDesc i)).prev % 4 = _
          rw [hs.pageDesc, ← hxe, hself]
          exact Nat.mod_eq_of_lt chunkType_lt,
        hj,
        hbits.same ⟨rfl, rfl, rfl, rfl, rfl, rfl, rfl, rfl, rfl⟩
          (by
            show (pool'.desc (pool'.pageDesc i)).slab = (d (pool'.pageDesc i)).slab
            rw [hs.pageDesc, ← hxe, hself]) rfl,
        fun _ => by
          show (pool'.desc (pool'.pageDesc i)).next = 0
          rw [hs.pageDesc, ← hxe, hself]⟩
      (list_full hfull _)
    exact ⟨_, hadd, hcont, hapart, hsum⟩
  · -- it stays where it is
    rw [if_neg hfull] at hdesc
    have hself := fun z => congrFun hdesc z
    refine ⟨lists, hsh.touch c' hs rfl rfl ?_ ?_ ?_ ?_
      (hw.cells (c := c) hsh), hcont, hapart, hsum⟩
    · rw [hl]
      exact list_chunks hfull _
    · refine ⟨rfl, ⟨hs.minShift ▸ hshift.1, hshift.2⟩, ?_, hj, ?_, fun hf => absurd hf hfull⟩
      · show (pool'.desc (pool'.pageDesc i)).prev % 4 = _
        rw [hs.pageDesc, ← hxe, hself, hx.2]
        exact htype
      · refine hbits.same ⟨rfl, rfl, rfl, rfl, rfl, rfl, rfl, rfl, rfl⟩ ?_ rfl
        show (pool'.desc _).slab = (d _).slab
        rw [hself]
    · show (pool'.desc x).next = _ ∧ (pool'.desc x).prev = _
      rw [hself]
      exact hx
    · intro z hz
      rw [hself]
      exact hd z hz

theorem relinkFull_fields (m : DescMem) {x slot : Nat} (hx : x ≠ slotOff slot) (t z : Nat) :
    relinkFull m x slot t z = ⟨(m z).slab,
      if z = slotOff slot then x else if z = x then (m (slotOff slot)).next else (m z).next,
      if z = (m (slotOff slot)).next then x ||| t else if z = x then slotOff slot ||| t
      else (m z).prev⟩ := by
  apply SlabPage.ext
  · simp [relinkFull]
  · simp [relinkFull]
  · simp [relinkFull, hx]

/-- **One chunk less.** A page that had none to give comes back to the list of its slot. -/
theorem giveChunk (h : PageInv sz s P pool (pre ++ ⟨i, .chunks k used, 1⟩ :: post) lists)
    (hs : SameHeader pool pool') (hpf : pool'.pfree = pool.pfree) (hju : j ∈ used)
    (hx : (pool'.desc (pool.pageDesc i)).next = (d (pool.pageDesc i)).next ∧
      (pool'.desc (pool.pageDesc i)).prev = (d (pool.pageDesc i)).prev)
    (hd : ∀ z, z ≠ pool.pageDesc i → pool'.desc z = d z)
    (hdesc : d = if Full sz k used then
      relinkFull pool.desc (pool.pageDesc i) (k - pool.minShift) (chunkType sz k) else pool.desc)
    (hbits : ChunkBits sz pool' i k (used.erase j)) (hw : WordsOff s pool pool' i) :
    ∃ lists', PageInv sz s P pool' (pre ++ ⟨i, .chunks k (used.erase j), 1⟩ :: post) lists' := by
  set c : Cell := ⟨i, .chunks k used, 1⟩ with hc
  set c' : Cell := ⟨i, .chunks k (used.erase j), 1⟩ with hc'
  set x := pool.pageDesc i with hxe
  have hsh := h.shelf
  have hcm : c ∈ pre ++ c :: post := Shelf.mem_middle.mpr (.inl rfl)
  obtain ⟨-, hshift, htype, hused, -, -⟩ := hsh.ok c hcm
  have hja := hused.2 j hju
  have hnot : j ∉ used.erase j := by
    rw [hused.1.mem_erase_iff]
    simp
  have hnf : ¬ Full sz k (used.erase j) := not_full_of_free hja.1 hja.2 hnot
  have hok' : ChunksOk sz k (used.erase j) :=
    ⟨hused.1.erase j, fun j' hj' => hused.2 j' (List.mem_of_mem_erase hj')⟩
  have hmid := Contiguous.middle.mp h.contiguous
  have hcont : Contiguous 0 (pre ++ c' :: post) P := Contiguous.middle.mpr hmid
  have hapart : Apart (pre ++ c' :: post) :=
    apart_middle h.apart.left (by simp [hc']) h.apart.right.of_cons
  have hsum : pool'.pfree = ((pre ++ c' :: post).map Cell.freeLen).sum := by
    rw [hpf, h.pfree]
    simp [hc, hc']
  have hl' : c'.list sz pool.minShift = some (some (k - pool.minShift)) := list_chunks hnf _
  have hps := hsh.geo.pagesizeShift
  have hlist : IsList (s - pool.minShift) (some (k - pool.minShift)) := by
    show k - pool.minShift < s - pool.minShift
    omega
  have hok (ht : (pool'.desc x).prev % 4 = chunkType sz k) : CellOk sz P pool' c' := by
    refine ⟨rfl, ⟨hs.minShift ▸ hshift.1, hshift.2⟩, ?_, hok', hbits, fun hf => absurd hf hnf⟩
    show (pool'.desc (pool'.pageDesc i)).prev % 4 = _
    rw [hs.pageDesc]
    exact ht
  by_cases hfull : Full sz k used
  · rw [if_pos hfull] at hdesc
    have hdrop := hsh.drop (list_full hfull _)
    have hxh : x ≠ slotOff (k - pool.minShift) := hsh.geo.pageDesc_ne_header hlist
    have hdvd : 4 ∣ slotOff (k - pool.minShift) :=
      Geometry.dvd_header (a := some (k - pool.minShift))
    -- the first page of the list is another
    have hring := hsh.ring _ hlist
    have hhead : x ≠ (pool.desc (slotOff (k - pool.minShift))).next := by
      intro he
      have hm : x ∈ header (some (k - pool.minShift)) :: lists (some (k - pool.minShift)) := by
        cases hls : lists (some (k - pool.minShift)) with
        | nil =>
          rw [hls] at hring
          exact List.mem_cons.mpr (.inl (he.trans (hring.nil_iff.mpr rfl)))
        | cons y ys =>
          rw [hls] at hring
          exact List.mem_cons.mpr (.inr (List.mem_cons.mpr (.inl (he.trans hring.head))))
      refine hsh.notMem hlist hcm (hsh.has_pos hcm) ?_ hm
      rw [list_full hfull]
      simp
    have hf := fun z => (congrFun hdesc z).trans (relinkFull_fields pool.desc hxh _ z)
    have hprev : (pool'.desc x).prev = slotOff (k - pool.minShift) ||| chunkType sz k := by
      rw [hx.2, hf]
      simp [hhead]
    have hput := hdrop.put (c := c') (a := some (k - pool.minShift))
      (v := x ||| chunkType sz k) hs hlist
      (fun c₁ hc₁ => (hmid.1.bounds c₁ hc₁).2) (fun c₁ hc₁ => (hmid.2.bounds c₁ hc₁).1)
      (hsh.bound c hcm)
      (hok (by rw [hprev]; exact or_tag_mod hdvd chunkType_lt)) hl'
      ⟨by
        show (pool'.desc x).next = _
        rw [hx.1, hf]
        simp [hxh, header], by
        show andNot (pool'.desc x).prev 3 = _
        rw [hprev]
        exact andNot_or_tag hdvd chunkType_lt⟩
      (fun z hz => by
        have hzx : z ≠ x := hz i ⟨le_rfl, Nat.lt_succ_self i⟩
        rw [hd z hzx, hf]
        refine ⟨rfl, ?_, fun _ => ?_⟩
        · simp only [hzx, ↓reduceIte]
          rfl
        · simp only [hzx, ↓reduceIte]
          rfl)
      (andNot_or_tag hsh.geo.dvd_pageDesc chunkType_lt)
      (by
        rw [or_tag_mod hsh.geo.dvd_pageDesc chunkType_lt, listType,
          Nat.add_sub_cancel' hshift.1])
      (hw.cells (c := c) hsh)
    exact ⟨_, hput, hcont, hapart, hsum⟩
  · rw [if_neg hfull] at hdesc
    subst hdesc
    refine ⟨lists, hsh.touch c' hs rfl rfl ?_ (hok ?_) hx hd (hw.cells (c := c) hsh),
      hcont, hapart, hsum⟩
    · rw [hl']
      exact (list_chunks hfull _).symm
    · rw [hx.2]
      exact htype

end Generic

end MpsShdict
