import MpsShdict.SlabWrites

/-! # What the allocator reads of the page area

Of the pages themselves the allocator reads the bitmaps of the pages of small chunks and
nothing else. So two pools that differ in the contents of their chunks alone are the same
to it: a call gives the same answer in both, and writes the same words.

The statements are about twins: a pool, and the same pool with other words
(`SlabPool.withWords`), where the two agree on the words of the bitmaps (`BookWord`). A
call is carried through from one twin to the other, operation by operation, and what it
writes is given as a partial map `e` that is laid over the words of either (`overwrite`).
The bitmap of a new page is written as a whole, so nothing depends on what the page held
before.
-/
namespace MpsShdict

open Words Links

/-- The pool with other contents. -/
abbrev SlabPool.withWords (pool : SlabPool) (w : Nat → Nat) : SlabPool := { pool with word := w }

/-- The words that `e` gives are written, and all others are as they were. The same `e`
serves for both pools of a pair. -/
def overwrite (w : Nat → Nat) (e : Nat → Option Nat) : Nat → Nat := fun o => (e o).getD (w o)

/-- A word of the bitmap of a page of small chunks. These are the only words of the page
area that the allocator reads or writes. -/
def BookWord (sz : Sizes) (pool : SlabPool) (o : Nat) : Prop :=
  ∃ i < pool.pageTotal, mpsSlabPageType pool.desc (pool.pageDesc i) = mpsSlabSmall ∧
    ∃ n < bitmapWords sz ((pool.desc (pool.pageDesc i)).slab &&& mpsSlabShiftMask),
      o = pool.pageAddr sz (pool.pageDesc i) + 8 * n

/-! ### Other contents, the same books -/

section Edit
variable {sz : Sizes} {s P i j k n fuel page slot shift : Nat}
  {pool pool' : SlabPool} {w : Nat → Nat}
  {pre post cells : List Cell} {used : List Nat} {lists : Option Nat → List Nat} {live : List Block}
  {c : Cell} {b : Block} {base size o : Nat}

@[simp] theorem withWords_desc : (pool.withWords w).desc = pool.desc := rfl

@[simp] theorem withWords_minShift : (pool.withWords w).minShift = pool.minShift := rfl

@[simp] theorem overwrite_none : overwrite w (fun _ => none) = w := rfl

theorem overwrite_congr {w' : Nat → Nat} {e : Nat → Option Nat} (h : w o = w' o) :
    overwrite w e o = overwrite w' e o := by rw [overwrite, overwrite, h]

theorem overwrite_update (bm n v : Nat) : Function.update w (bm + 8 * n) v =
    overwrite w fun o => if o = bm + 8 * n then some v else none := by
  funext o
  by_cases h : o = bm + 8 * n <;> simp [overwrite, h]

/-- A free run is searched for and cut by the descriptors. -/
theorem allocPages_withWords : mpsSlabAllocPages fuel (pool.withWords w) n =
    (mpsSlabAllocPages fuel pool n).map fun r => (r.1.withWords w, r.2) := by
  rw [mpsSlabAllocPages, mpsSlabAllocPages]
  show allocPagesLoop fuel (pool.withWords w) (pool.desc freeOff).next n = _
  generalize (pool.desc freeOff).next = page
  induction fuel generalizing page with
  | zero => rfl
  | succ fuel ih =>
    rw [allocPagesLoop, allocPagesLoop]
    by_cases hend : page = freeOff
    · rw [if_pos hend, if_pos hend, Option.map_some]
      show some ((if pool.logNomem then _ else _), _) = _
      cases pool.logNomem <;> rfl
    · rw [if_neg hend, if_neg hend]
      by_cases hle : n ≤ (pool.desc page).slab
      · rw [if_pos hle, if_pos hle]
        rfl
      · rw [if_neg hle, if_neg hle, ← ih]

/-- The loop over a bitmap depends on its words alone. -/
theorem findSome_congr {β : Type} {f g : Nat → Option β} {n : Nat} (h : ∀ i < n, f i = g i) :
    (List.range n).findSome? f = (List.range n).findSome? g := by
  rw [← List.head?_filterMap, ← List.head?_filterMap,
    List.filterMap_congr fun i hi => h i (List.mem_range.mp hi)]

/-- **A chunk of a small page**: the bitmap tells which one, so pools that agree on it
give out the same chunk and write the same word. -/
theorem allocSmall_withWords {p : Nat}
    (hw : ∀ n < bitmapWords sz shift,
      w (pool.pageAddr sz page + 8 * n) = pool.word (pool.pageAddr sz page + 8 * n))
    (h : allocSmall sz pool page slot shift = some (pool', p)) :
    ∃ e, allocSmall sz (pool.withWords w) page slot shift =
      some (pool'.withWords (overwrite w e), p) ∧
      pool'.word = overwrite pool.word e ∧
      ∀ o, e o ≠ none → ∃ n < bitmapWords sz shift, o = pool.pageAddr sz page + 8 * n := by
  set bm := pool.pageAddr sz page with hbm
  have haddr : (pool.withWords w).pageAddr sz page = bm := rfl
  simp only [allocSmall, haddr, ← hbm] at h ⊢
  have hfind : (List.range (bitmapWords sz shift)).findSome? (fun n =>
        if (pool.withWords w).bitmap bm n ≠ mpsSlabBusy then
          (firstZeroBit ((pool.withWords w).bitmap bm n)).map fun i => (n, i) else none) =
      (List.range (bitmapWords sz shift)).findSome? fun n =>
        if pool.bitmap bm n ≠ mpsSlabBusy then
          (firstZeroBit (pool.bitmap bm n)).map fun i => (n, i) else none := by
    refine findSome_congr fun n hn => ?_
    rw [show (pool.withWords w).bitmap bm n = pool.bitmap bm n from hw n hn]
  rw [hfind]
  obtain ⟨⟨n, i⟩, hni, h⟩ := Option.bind_eq_some_iff.mp h
  have hn : n < bitmapWords sz shift := by
    obtain ⟨n', hn', hf⟩ := List.exists_of_findSome?_eq_some hni
    split at hf
    · obtain ⟨i', -, he⟩ := Option.map_eq_some_iff.mp hf
      cases he
      exact List.mem_range.mp hn'
    · cases hf
  set v := pool.bitmap bm n ||| 1 <<< i with hv
  set e : Nat → Option Nat := fun o => if o = bm + 8 * n then some v else none with he
  have hpool : (pool.setBitmap bm n v).word = overwrite pool.word e := overwrite_update bm n v
  have hother : (pool.withWords w).setBitmap bm n ((pool.withWords w).bitmap bm n ||| 1 <<< i) =
      (pool.setBitmap bm n v).withWords (overwrite w e) := by
    rw [show (pool.withWords w).bitmap bm n = pool.bitmap bm n from hw n hn, ← hv,
      he, ← overwrite_update]
    rfl
  -- both bitmaps read the same after the bit is set
  have hbitmap : ∀ j < bitmapWords sz shift,
      ((pool.setBitmap bm n v).withWords (overwrite w e)).bitmap bm j =
        (pool.setBitmap bm n v).bitmap bm j := by
    intro j hj
    rw [SlabPool.bitmap, SlabPool.bitmap, hpool]
    exact overwrite_congr (hw j hj)
  have hall : ((List.range (bitmapWords sz shift)).drop (n + 1)).all (fun j =>
        ((pool.setBitmap bm n v).withWords (overwrite w e)).bitmap bm j = mpsSlabBusy) =
      ((List.range (bitmapWords sz shift)).drop (n + 1)).all fun j =>
        (pool.setBitmap bm n v).bitmap bm j = mpsSlabBusy := by
    refine Bool.eq_iff_iff.mpr ?_
    simp only [List.all_eq_true, mem_drop_range]
    exact forall₂_congr fun j hj => by rw [hbitmap j hj.2]
  have hfull : (((pool.setBitmap bm n v).withWords (overwrite w e)).bitmap bm n = mpsSlabBusy ∧
        ((List.range (bitmapWords sz shift)).drop (n + 1)).all fun j =>
          ((pool.setBitmap bm n v).withWords (overwrite w e)).bitmap bm j = mpsSlabBusy) ↔
      ((pool.setBitmap bm n v).bitmap bm n = mpsSlabBusy ∧
        ((List.range (bitmapWords sz shift)).drop (n + 1)).all fun j =>
          (pool.setBitmap bm n v).bitmap bm j = mpsSlabBusy) := by
    rw [hall, hbitmap n hn]
  replace h : (if (pool.setBitmap bm n v).bitmap bm n = mpsSlabBusy ∧
        ((List.range (bitmapWords sz shift)).drop (n + 1)).all fun j =>
          (pool.setBitmap bm n v).bitmap bm j = mpsSlabBusy then _ else _) = _ := h
  refine ⟨e, ?_, ?_, ?_⟩
  · rw [hni, Option.bind_eq_bind, Option.bind_some, hother]
    refine (if_congr hfull rfl rfl).trans ?_
    split at h <;> cases h
    · exact if_pos ‹_›
    · exact if_neg ‹_›
  · split at h <;> cases h <;> exact hpool
  · intro o ho
    by_cases heq : o = bm + 8 * n
    · exact ⟨n, hn, heq⟩
    · exact absurd (if_neg heq) ho

/-- The bits of a larger chunk are in the descriptor of its page. -/
theorem allocExact_withWords : allocExact sz (pool.withWords w) page slot shift =
    (allocExact sz pool page slot shift).map fun r => (r.1.withWords w, r.2) := by
  rw [allocExact, allocExact, Option.bind_eq_bind, Option.map_bind]
  rfl

theorem allocBig_withWords : allocBig sz (pool.withWords w) page slot shift =
    (allocBig sz pool page slot shift).map fun r => (r.1.withWords w, r.2) := by
  rw [allocBig, allocBig, Option.bind_eq_bind, Option.map_bind]
  rfl

/-- A new bitmap does not depend on what was there before. -/
theorem startBitmap_withWords (pool : SlabPool) (w : Nat → Nat) (bm : Nat) {m : Nat}
    (hm : m / 64 < bitmapWords sz shift) :
    ∃ e, startBitmap sz (pool.withWords w) bm shift m =
      (startBitmap sz pool bm shift m).withWords (overwrite w e) ∧
      (startBitmap sz pool bm shift m).word = overwrite pool.word e ∧
      ∀ o, e o ≠ none ↔ ∃ n < bitmapWords sz shift, o = bm + 8 * n := by
  classical
  set r := startBitmap sz pool bm shift m with hr
  have hedit : ∀ p : SlabPool, (startBitmap sz p bm shift m).word = overwrite p.word fun o =>
      if ∃ n < bitmapWords sz shift, o = bm + 8 * n then some (r.word o) else none := by
    intro p
    funext o
    by_cases ho : ∃ n < bitmapWords sz shift, o = bm + 8 * n
    · obtain ⟨n, hn, rfl⟩ := ho
      rw [overwrite, if_pos ⟨n, hn, rfl⟩]
      refine Nat.eq_of_testBit_eq fun b => ?_
      exact (startBitmap_testBit hn).trans (startBitmap_testBit hn).symm
    · rw [overwrite, if_neg ho]
      exact startBitmap_word hm fun n hn he => ho ⟨n, hn, he⟩
  refine ⟨_, ?_, hedit pool, fun o => ?_⟩
  · show _ = r.withWords (overwrite (pool.withWords w).word _)
    rw [← hedit]
    rfl
  · by_cases ho : ∃ n < bitmapWords sz shift, o = bm + 8 * n <;> simp [ho]

/-- **A new page.** All of its bitmap is written, whatever was there. -/
theorem newPage_withWords (g : Geometry sz s P pool) (hk : k < s)
    (page slot : Nat) (w : Nat → Nat) :
    ∃ e, newPage sz (pool.withWords w) page slot k =
        ((newPage sz pool page slot k).1.withWords (overwrite w e),
          (newPage sz pool page slot k).2) ∧
      (newPage sz pool page slot k).1.word = overwrite pool.word e ∧
      ∀ o, e o ≠ none ↔ k < sz.exactShift ∧
      ∃ n < bitmapWords sz k, o = pool.pageAddr sz page + 8 * n := by
  by_cases hlt : k < sz.exactShift
  · have hroom := reserved_lt g hk
    have hcount := bitmapWords_mul g hlt
    have hr : reserved sz k = bitmapChunks sz k := if_pos hlt
    obtain ⟨e, he, hword, hdom⟩ := startBitmap_withWords pool w (pool.pageAddr sz page)
      (show (bitmapChunks sz k + 1) / 64 < bitmapWords sz k by omega)
    have hnew : ∀ p : SlabPool,
        let q := withNewPage (startBitmap sz p (p.pageAddr sz page) k
          (bitmapChunks sz k + 1)) page slot k mpsSlabSmall
          ((sz.pagesize >>> k) - bitmapChunks sz k)
        newPage sz p page slot k = (q, q.pageAddr sz page + (bitmapChunks sz k <<< k)) := by
      intro p
      rw [newPage, if_pos hlt]
      rfl
    refine ⟨e, ?_, ?_, fun o => ?_⟩
    · rw [hnew, hnew, show (pool.withWords w).pageAddr sz page = pool.pageAddr sz page from rfl, he]
      rfl
    · rw [hnew]
      exact hword
    · rw [hdom]
      exact (and_iff_right hlt).symm
  · refine ⟨fun _ => none, ?_, ?_, fun o => ⟨fun h => absurd rfl h, fun h => absurd h.1 hlt⟩⟩
    · rw [newPage, newPage, if_neg hlt, if_neg hlt]
      split <;> rfl
    · rw [newPage, if_neg hlt]
      split <;> rfl

/-! A page goes back by the descriptors, and so does a larger chunk or a block of pages. -/

theorem setStat_withWords (pool : SlabPool) (w : Nat → Nat) (slot : Nat) (f : SlabStat → SlabStat) :
    (pool.withWords w).setStat slot f = (pool.setStat slot f).withWords w := rfl

theorem freePages_withWords (pool : SlabPool) (w : Nat → Nat) (page n : Nat) :
    mpsSlabFreePages (pool.withWords w) page n = (mpsSlabFreePages pool page n).withWords w := rfl

theorem freeDone_withWords (pool : SlabPool) (w : Nat → Nat) (slot : Nat) :
    freeDone (pool.withWords w) slot = (freeDone pool slot).withWords w :=
      setStat_withWords pool w slot _

theorem freeChunkPage_withWords (pool : SlabPool) (w : Nat → Nat) (page slot chunks : Nat) :
    freeDone (freeChunkPage (pool.withWords w) page slot chunks) slot =
      (freeDone (freeChunkPage pool page slot chunks) slot).withWords w := by
  rw [freeChunkPage, freePages_withWords, setStat_withWords, freeDone_withWords, freeChunkPage]

theorem freeDone_withDesc (pool : SlabPool) (d : DescMem) (w : Nat → Nat) (slot : Nat) :
    freeDone { pool.withWords w with desc := d } slot =
      (freeDone { pool with desc := d } slot).withWords w :=
  freeDone_withWords { pool with desc := d } w slot

theorem freeChunkPage_withDesc (pool : SlabPool) (d : DescMem) (w : Nat → Nat)
    (page slot chunks : Nat) :
    freeDone (freeChunkPage { pool.withWords w with desc := d } page slot chunks) slot =
      (freeDone (freeChunkPage { pool with desc := d } page slot chunks) slot).withWords w :=
  freeChunkPage_withWords { pool with desc := d } w page slot chunks

theorem freeExact_withWords : freeExact sz base (pool.withWords w) o page =
    (freeExact sz base pool o page).withWords w := by
  dsimp only [freeExact, withWords_desc, withWords_minShift]
  split
  · rfl
  split
  · split <;> split
    · exact freeDone_withDesc pool _ w _
    · exact freeChunkPage_withDesc pool _ w _ _ _
    · exact freeDone_withDesc pool _ w _
    · exact freeChunkPage_withDesc pool _ w _ _ _
  · rfl

theorem freeBig_withWords : freeBig sz base (pool.withWords w) o page =
    (freeBig sz base pool o page).withWords w := by
  dsimp only [freeBig, withWords_desc, withWords_minShift]
  split
  · rfl
  split
  · split <;> split
    · exact freeDone_withDesc pool _ w _
    · exact freeChunkPage_withDesc pool _ w _ _ _
    · exact freeDone_withDesc pool _ w _
    · exact freeChunkPage_withDesc pool _ w _ _ _
  · rfl

/-- The page of a small chunk goes back where no bit is left in its bitmap. -/
theorem freeSmall_eq {bm : Nat} (hshift : (pool.desc page).slab &&& mpsSlabShiftMask = k)
    (hbm : andNot (base + o) (sz.pagesize - 1) - base = bm) :
    let n := ((base + o) &&& (sz.pagesize - 1)) >>> k
    let slot := k - pool.minShift
    let d := if (pool.desc page).next = 0 then relinkFull pool.desc page slot mpsSlabSmall
      else pool.desc
    let r := { pool with desc := d }.setBitmap bm (n / 64)
      (andNot (pool.bitmap bm (n / 64)) (1 <<< (n % 64)))
    freeSmall sz base pool o page =
      if (base + o) &&& (1 <<< k - 1) ≠ 0 then pool.logError .wrongChunk
      else if pool.bitmap bm (n / 64) &&& (1 <<< (n % 64)) ≠ 0 then
        if andNot (r.bitmap bm (bitmapChunks sz k / 64)) (1 <<< (bitmapChunks sz k % 64) - 1) ≠ 0 ∨
            ((List.range (bitmapWords sz k)).drop (bitmapChunks sz k / 64 + 1)).any fun j =>
              r.bitmap bm j ≠ 0 then
          freeDone r slot
        else freeDone (freeChunkPage r page slot ((sz.pagesize >>> k) - bitmapChunks sz k)) slot
      else pool.logError .chunkAlreadyFree := by
  have hdesc : (if (pool.desc page).next = 0 then
        { pool with desc := relinkFull pool.desc page (k - pool.minShift) mpsSlabSmall }
        else pool) =
      { pool with desc := if (pool.desc page).next = 0
        then relinkFull pool.desc page (k - pool.minShift) mpsSlabSmall else pool.desc } := by
    split <;> rfl
  simp only [freeSmall, hshift, hbm]
  rw [hdesc]
  rfl

/-- **A small chunk goes back**: the bitmap tells what is left on its page. -/
theorem freeSmall_withWords {bm : Nat} (hshift : (pool.desc page).slab &&& mpsSlabShiftMask = k)
    (hbm : andNot (base + o) (sz.pagesize - 1) - base = bm)
    (hn : ((base + o) &&& (sz.pagesize - 1)) >>> k / 64 < bitmapWords sz k)
    (hr : bitmapChunks sz k / 64 < bitmapWords sz k)
    (hw : ∀ n < bitmapWords sz k, w (bm + 8 * n) = pool.word (bm + 8 * n)) :
    ∃ e, freeSmall sz base (pool.withWords w) o page =
      (freeSmall sz base pool o page).withWords (overwrite w e) ∧
      (freeSmall sz base pool o page).word = overwrite pool.word e ∧
      ∀ x, e x ≠ none → ∃ n < bitmapWords sz k, x = bm + 8 * n := by
  have hp : freeSmall sz base pool o page = _ := freeSmall_eq hshift hbm
  have hq : freeSmall sz base (pool.withWords w) o page = _ := freeSmall_eq hshift hbm
  set n := ((base + o) &&& (sz.pagesize - 1)) >>> k
  set d := if (pool.desc page).next = 0 then
    relinkFull pool.desc page (k - pool.minShift) mpsSlabSmall else pool.desc
  have hread : (pool.withWords w).bitmap bm (n / 64) = pool.bitmap bm (n / 64) := hw _ hn
  rw [hread] at hq
  -- a chunk that is misplaced or not in use is refused, and nothing is written
  by_cases ha : (base + o) &&& (1 <<< k - 1) ≠ 0
  · rw [if_pos ha] at hp hq
    exact ⟨fun _ => none, by rw [hp, hq]; rfl, by rw [hp]; rfl, fun _ h => absurd rfl h⟩
  rw [if_neg ha] at hp hq
  -- else one word of the bitmap is written, and it is the same in both pools
  by_cases hb : pool.bitmap bm (n / 64) &&& (1 <<< (n % 64)) ≠ 0
  · rw [if_pos hb] at hp hq
    set v := andNot (pool.bitmap bm (n / 64)) (1 <<< (n % 64))
    set r := SlabPool.setBitmap { pool with desc := d } bm (n / 64) v with hrd
    set e : Nat → Option Nat := fun o => if o = bm + 8 * (n / 64) then some v else none with he
    have hword : r.word = overwrite pool.word e := overwrite_update bm (n / 64) v
    have hother : SlabPool.setBitmap { pool.withWords w with desc := d } bm (n / 64) v =
        r.withWords (overwrite w e) := by
      rw [he, ← overwrite_update]
      rfl
    have hbitmap : ∀ j < bitmapWords sz k,
        (r.withWords (overwrite w e)).bitmap bm j = r.bitmap bm j := by
      intro j hj
      rw [SlabPool.bitmap, SlabPool.bitmap, hword]
      exact overwrite_congr (hw j hj)
    have hany : ((List.range (bitmapWords sz k)).drop (bitmapChunks sz k / 64 + 1)).any (fun j =>
          (r.withWords (overwrite w e)).bitmap bm j ≠ 0) =
        ((List.range (bitmapWords sz k)).drop (bitmapChunks sz k / 64 + 1)).any fun j =>
          r.bitmap bm j ≠ 0 := by
      refine Bool.eq_iff_iff.mpr ?_
      simp only [List.any_eq_true, mem_drop_range]
      exact exists_congr fun j => and_congr_right fun hj => by rw [hbitmap j hj.2]
    rw [hother, hbitmap _ hr, hany] at hq
    have hdom : ∀ x, e x ≠ none → ∃ n < bitmapWords sz k, x = bm + 8 * n := by
      intro x hx
      by_cases heq : x = bm + 8 * (n / 64)
      · exact ⟨n / 64, hn, heq⟩
      · exact absurd (if_neg heq) hx
    refine ⟨e, ?_, ?_, hdom⟩
    · rw [hp, hq]
      split
      · exact freeDone_withWords r _ _
      · exact freeChunkPage_withWords r _ _ _ _
    · rw [hp]
      split <;> exact hword
  · rw [if_neg hb] at hp hq
    exact ⟨fun _ => none, by rw [hp, hq]; rfl, by rw [hp]; rfl, fun _ h => absurd rfl h⟩

end Edit

/-! ### Where the books are -/

section Books
variable {sz : Sizes} {s i j k o size base fuel p : Nat} {pool pool' : SlabPool} {w : Nat → Nat}
  {cells : List Cell} {lists : Option Nat → List Nat}
  {live : List Block} {b : Block} {r : Option Nat}

/-- The bitmaps are those of the cells. -/
theorem bookWord_iff (h : PageInv sz s pool.pageTotal pool cells lists) :
    BookWord sz pool o ↔ ∃ i k used, (⟨i, .chunks k used, 1⟩ : Cell) ∈ cells ∧ k < sz.exactShift ∧
      ∃ n < bitmapWords sz k, o = pool.pageAddr sz (pool.pageDesc i) + 8 * n := by
  constructor
  · rintro ⟨i, hi, ht, n, hn, rfl⟩
    obtain ⟨k, used, hc, hk, hslab⟩ := small_page h hi ht
    rw [hslab] at hn
    exact ⟨i, k, used, hc, hk, n, hn, rfl⟩
  · rintro ⟨i, k, used, hc, hk, n, hn, rfl⟩
    have hb := h.shelf.bound _ hc
    obtain ⟨-, hshift, htype, -, hbits, -⟩ := h.shelf.ok _ hc
    have hmask : (pool.desc (pool.pageDesc i)).slab &&& mpsSlabShiftMask = k :=
      hbits.shiftMask h.shelf.geo (h.shelf.geo.pagesizeShift ▸ hshift.2) hk.ne
    refine ⟨i, Nat.lt_of_succ_le hb.2, ?_, n, hmask.symm ▸ hn, rfl⟩
    rw [mpsSlabPageType, and_three]
    exact htype.trans (chunkType_eq_small.mpr hk)

/-- **The books are in no live block.** A client that keeps to its blocks therefore never
writes one. -/
theorem BookWord.clear (h : SlabInv sz s pool.pageTotal pool live) (hb : b ∈ live)
    (ho : BookWord sz pool o) :
    o + 8 ≤ b.off ∨ b.off + capacity sz pool b.size ≤ o := by
  obtain ⟨cells, lists, h⟩ := h
  obtain ⟨i, k, used, hc, hk, n, hn, rfl⟩ := (bookWord_iff h.inv).mp ho
  have hfit := bitmapWords_fit h.inv.shelf.geo hk
  have hclear := bitmap_clear h.inv.shelf hc hk
    (h.exact.mem_iff.mpr (List.mem_map.mpr ⟨b, hb, rfl⟩))
  simp only [Clear] at hclear
  omega

/-- The invariant does not depend on other words. -/
theorem Holds.withWords (h : Holds sz s pool.pageTotal pool cells lists live)
    (hw : ∀ o, BookWord sz pool o → w o = pool.word o) :
    Holds sz s pool.pageTotal (pool.withWords w) cells lists live := by
  obtain ⟨⟨hg, h1, h2, h3, h4, h5⟩, h6, h7, h8⟩ := h.inv
  have hs : SameHeader pool (pool.withWords w) := ⟨rfl, rfl, rfl, rfl, rfl, rfl, rfl, rfl, rfl⟩
  refine ⟨⟨⟨hg.same hs, h1, h2, ?_, h4, h5⟩, h6, h7, h8⟩, h.inUse, h.exact, h.stats⟩
  intro c hc
  have hok := h3 c hc
  obtain ⟨pos, kind, len⟩ := c
  cases kind with
  | free => exact hok
  | block => exact hok
  | chunks k used =>
    obtain ⟨hlen, hshift, htype, hused, hbits, hfull⟩ := hok
    replace hlen : len = 1 := hlen
    subst hlen
    refine ⟨rfl, hshift, htype, hused, ?_, hfull⟩
    simp only [ChunkBits] at hbits ⊢
    split
    · next hk =>
      rw [if_pos hk] at hbits
      refine ⟨hbits.1, fun n hn b => ?_⟩
      rw [← hbits.2 n hn b, SlabPool.bitmap, SlabPool.bitmap]
      exact congrArg (Nat.testBit · b)
        (hw _ ((bookWord_iff h.inv).mpr ⟨pos, k, used, hc, hk, n, hn, rfl⟩))
    · next hk =>
      rw [if_neg hk] at hbits
      exact hbits

theorem SameHeader.symm (hs : SameHeader pool pool') : SameHeader pool' pool :=
  ⟨hs.data.symm, hs.minSize.symm, hs.minShift.symm,
    hs.pages.symm, hs.last.symm, hs.stats.symm, hs.start.symm,
    hs.poolEnd.symm, hs.logNomem.symm⟩

/-- A call writes `e`, all of it to books, and with it any book that there was not before.
So afterwards the books of the two pools agree again. -/
structure Edits (sz : Sizes) (pool pool' : SlabPool) (e : Nat → Option Nat) : Prop where
  word : pool'.word = overwrite pool.word e
  onBooks : ∀ o, e o ≠ none → BookWord sz pool o ∨ BookWord sz pool' o
  books : ∀ o, BookWord sz pool' o → e o ≠ none ∨ BookWord sz pool o

/-- The small pages of one pool are small pages of the other. -/
theorem BookWord.of_cells {cells' : List Cell} {lists' : Option Nat → List Nat}
    (h : PageInv sz s pool.pageTotal pool cells lists)
    (h' : PageInv sz s pool.pageTotal pool' cells' lists') (hs : SameHeader pool pool')
    (hsub : ∀ i k used, (⟨i, .chunks k used, 1⟩ : Cell) ∈ cells' →
      ∃ used', (⟨i, .chunks k used', 1⟩ : Cell) ∈ cells)
    (ho : BookWord sz pool' o) : BookWord sz pool o := by
  rw [← hs.pageTotal] at h'
  obtain ⟨i, k, used, hc, hk, n, hn, rfl⟩ := (bookWord_iff h').mp ho
  obtain ⟨used', hc'⟩ := hsub i k used hc
  rw [hs.pageDesc, hs.pageAddr]
  exact (bookWord_iff h).mpr ⟨i, k, used', hc', hk, n, hn, rfl⟩

/-- A large request. -/
theorem allocPages_twin (h : Holds sz s pool.pageTotal pool cells lists live)
    (hfuel : pool.pageTotal < fuel) (hsize : sz.maxSize < size)
    (he : mpsSlabAllocLocked sz fuel pool size = some (pool', r)) :
    ∃ e, mpsSlabAllocLocked sz fuel (pool.withWords w) size =
      some (pool'.withWords (overwrite w e), r) ∧
      Edits sz pool pool' e := by
  have hg := h.inv.shelf.geo
  obtain ⟨hn, -⟩ := pageCount_spec hg.toSizing hsize
  rw [mpsSlabAllocLocked, if_pos hsize, ← pageCount] at he ⊢
  rw [allocPages_withWords]
  rcases mpsSlabAllocPages_spec (n := pageCount sz size) h.inv hfuel with
    ⟨i, m, pre, post, rfl, hnm, hp⟩ | ⟨-, hp⟩
  · obtain ⟨lists', hinv, -, hs⟩ := takePages_spec h.inv hn hnm
    rw [hp] at he ⊢
    cases he
    refine ⟨fun _ => none, rfl, rfl, fun _ ho => absurd rfl ho, fun o ho => .inr ?_⟩
    refine ho.of_cells h.inv hinv hs fun j k used hc => ⟨used, ?_⟩
    simp only [List.mem_append, List.mem_cons] at hc ⊢
    rcases hc with hc | hc | hc | hc
    · exact .inl hc
    · cases hc
    · split at hc
      · cases List.mem_singleton.mp hc
      · cases hc
    · exact .inr (.inr hc)
  · rw [hp] at he ⊢
    cases he
    refine ⟨fun _ => none, rfl, ?_, fun _ ho => absurd rfl ho, fun o ho => .inr ?_⟩
    · rw [noRun]
      split <;> rfl
    · rw [noRun] at ho
      split at ho <;> exact ho

/-- A chunk of a page that has a free one. -/
theorem takesChunk_twin {pre post : List Cell} {used : List Nat} {slot : Nat} {pool' : SlabPool}
    (h : PageInv sz s pool.pageTotal pool (pre ++ ⟨i, .chunks k used, 1⟩ :: post) lists)
    (hnf : ¬ Full sz k used) (hw : ∀ o, BookWord sz pool o → w o = pool.word o)
    (he : (if k < sz.exactShift then allocSmall sz pool (pool.pageDesc i) slot k
      else if k = sz.exactShift then allocExact sz pool (pool.pageDesc i) slot k
      else allocBig sz pool (pool.pageDesc i) slot k) = some (pool', p)) :
    ∃ e, (if k < sz.exactShift then allocSmall sz (pool.withWords w) (pool.pageDesc i) slot k
      else if k = sz.exactShift then allocExact sz (pool.withWords w) (pool.pageDesc i) slot k
      else allocBig sz (pool.withWords w) (pool.pageDesc i) slot k) =
        some (pool'.withWords (overwrite w e), p) ∧ Edits sz pool pool' e := by
  have hc : (⟨i, .chunks k used, 1⟩ : Cell) ∈ pre ++ ⟨i, .chunks k used, 1⟩ :: post :=
    Shelf.mem_middle.mpr (.inl rfl)
  obtain ⟨pool₁, j, lists', hrun, -, hs, -, hinv⟩ := takesChunk h hnf slot
  obtain ⟨rfl, rfl⟩ := Prod.mk.inj (Option.some.inj (hrun.symm.trans he))
  -- the page has its books in the same place, whatever is in use in it
  have hbook : ∀ o, BookWord sz pool₁ o ↔ BookWord sz pool o := by
    intro o
    have hswap : ∀ {used used' : List Nat} {i' k' : Nat} {used₁ : List Nat},
        (⟨i', .chunks k' used₁, 1⟩ : Cell) ∈ pre ++ ⟨i, .chunks k used, 1⟩ :: post →
        ∃ used₂, (⟨i', .chunks k' used₂, 1⟩ : Cell) ∈ pre ++ ⟨i, .chunks k used', 1⟩ :: post := by
      intro used used' i' k' used₁ hm
      rcases Shelf.mem_middle.mp hm with hm | hm
      · cases hm
        exact ⟨used', Shelf.mem_middle.mpr (.inl rfl)⟩
      · exact ⟨used₁, Shelf.mem_middle.mpr (.inr hm)⟩
    refine ⟨fun ho => ho.of_cells h hinv hs fun _ _ _ => hswap, fun ho => ?_⟩
    rw [← hs.pageTotal] at h hinv
    exact ho.of_cells hinv h hs.symm fun _ _ _ => hswap
  -- only a page of small chunks has a bitmap in the pool itself
  by_cases hk : k < sz.exactShift
  · rw [if_pos hk] at he ⊢
    obtain ⟨e, hrun', hword, hdom⟩ := allocSmall_withWords
      (fun n hn => hw _ ((bookWord_iff h).mpr ⟨i, k, used, hc, hk, n, hn, rfl⟩)) he
    refine ⟨e, hrun', hword, fun o ho => ?_, fun o ho => .inr ((hbook o).mp ho)⟩
    obtain ⟨n, hn, rfl⟩ := hdom o ho
    exact .inl ((bookWord_iff h).mpr ⟨i, k, used, hc, hk, n, hn, rfl⟩)
  · rw [if_neg hk] at he ⊢
    refine ⟨fun _ => none, ?_, ?_, fun _ ho => absurd rfl ho, fun o ho => .inr ((hbook o).mp ho)⟩
    · split at he
      · next heq =>
        rw [if_pos heq, allocExact_withWords, he]
        rfl
      · next hne =>
        rw [if_neg hne, allocBig_withWords, he]
        rfl
    · split at he
      · obtain ⟨_, -, he⟩ := Option.bind_eq_some_iff.mp he
        rw [← (Prod.mk.inj (Option.some.inj he)).1]
        rfl
      · obtain ⟨_, -, he⟩ := Option.bind_eq_some_iff.mp he
        rw [← (Prod.mk.inj (Option.some.inj he)).1]
        rfl

theorem takePages_withWords (pool : SlabPool) (w : Nat → Nat) (page n : Nat) :
    takePages (pool.withWords w) page n = (takePages pool page n).withWords w := rfl

theorem takePages_word (pool : SlabPool) (page n : Nat) :
    (takePages pool page n).word = pool.word := rfl

/-- The first chunk of a page cut off a free run. -/
theorem newPage_twin {pre post : List Cell} {m : Nat}
    (h : Holds sz s pool.pageTotal pool (pre ++ ⟨i, .free, m⟩ :: post) lists live) (hm : 1 ≤ m)
    (hk : pool.minShift ≤ k ∧ k < s) (hnil : lists (some (k - pool.minShift)) = []) :
    let r := newPage sz (takePages pool (pool.pageDesc i) 1) (pool.pageDesc i) (k - pool.minShift) k
    ∃ e, newPage sz (takePages (pool.withWords w) (pool.pageDesc i) 1)
      (pool.pageDesc i) (k - pool.minShift) k =
      (r.1.withWords (overwrite w e), r.2) ∧ Edits sz pool r.1 e := by
  obtain ⟨lists₁, hinv₁, hslots, hs₁⟩ := takePages_spec h.inv Nat.one_pos hm
  rw [takePages_withWords pool w]
  have hword₁ := takePages_word pool (pool.pageDesc i) 1
  generalize takePages pool (pool.pageDesc i) 1 = pool₁ at hinv₁ hs₁ hword₁ ⊢
  rw [← hs₁.minShift] at hk hnil ⊢
  rw [← hs₁.pageDesc]
  intro r
  obtain ⟨e, hnew, hword, hdom⟩ :=
    newPage_withWords hinv₁.shelf.geo hk.2 (pool₁.pageDesc i) (k - pool₁.minShift) w
  obtain ⟨-, hs₂, -, lists₂, hinv₂⟩ := newPage_spec hinv₁ hk ((hslots _).trans hnil)
  have hs := hs₁.trans hs₂
  have hinv := hinv₂
  rw [← hs.pageTotal] at hinv
  have haddr : r.1.pageAddr sz (r.1.pageDesc i) = pool₁.pageAddr sz (pool₁.pageDesc i) := by
    rw [hs₂.pageDesc, hs₂.pageAddr]
  have hfirst : (⟨i, .chunks k [reserved sz k], 1⟩ : Cell) ∈
      pre ++ ⟨i, .chunks k [reserved sz k], 1⟩ ::
        ((if 1 < m then [⟨i + 1, .free, m - 1⟩] else []) ++ post) :=
    Shelf.mem_middle.mpr (.inl rfl)
  refine ⟨e, hnew, hword₁ ▸ hword, fun o ho => ?_, fun o ho => ?_⟩
  · obtain ⟨hlt, n, hn, rfl⟩ := (hdom o).mp ho
    exact .inr ((bookWord_iff hinv).mpr ⟨i, k, _, hfirst, hlt, n, hn, by rw [haddr]⟩)
  · -- a bitmap is that of the new page or was there before
    obtain ⟨i', k', used, hc, hlt, n, hn, rfl⟩ := (bookWord_iff hinv).mp ho
    rcases Shelf.mem_middle.mp hc with hc | hc
    · cases hc
      exact .inl ((hdom _).mpr ⟨hlt, n, hn, by rw [haddr]⟩)
    · refine .inr ((bookWord_iff h.inv).mpr
        ⟨i', k', used, ?_, hlt, n, hn, by rw [hs.pageDesc, hs.pageAddr]⟩)
      simp only [List.mem_append, List.mem_cons] at hc ⊢
      rcases hc with hc | hc | hc
      · exact .inl hc
      · split at hc
        · cases List.mem_singleton.mp hc
        · cases hc
      · exact .inr (.inr hc)

/-- A small request. -/
theorem allocChunk_twin (h : Holds sz s pool.pageTotal pool cells lists live)
    (hfuel : pool.pageTotal < fuel) (hsize : ¬ sz.maxSize < size)
    (hw : ∀ o, BookWord sz pool o → w o = pool.word o)
    (he : mpsSlabAllocLocked sz fuel pool size = some (pool', r)) :
    ∃ e, mpsSlabAllocLocked sz fuel (pool.withWords w) size =
      some (pool'.withWords (overwrite w e), r) ∧
      Edits sz pool pool' e := by
  obtain ⟨k, hclass, hk, hks, -⟩ := sizeClass_spec h.inv.shelf.geo.toSizing (Nat.not_lt.mp hsize)
  set pool₀ := pool.setStat (k - pool.minShift) fun s =>
    { s with reqs := u64 (s.reqs + 1) } with hpool₀
  have hs₀ : SameHeader pool pool₀ := ⟨rfl, rfl, rfl, rfl, rfl, rfl, rfl, rfl, rfl⟩
  have h₀ : Holds sz s pool.pageTotal pool₀ cells lists live := h.same hs₀ rfl rfl rfl fun q => by
    by_cases hq : q = k - pool.minShift <;> simp [hpool₀, SlabPool.setStat, hq]
  have hedits : ∀ {e : Nat → Option Nat}, Edits sz pool₀ pool' e → Edits sz pool pool' e :=
    fun h => ⟨h.word, h.onBooks, h.books⟩
  have hclass' : sizeClass (pool.withWords w) size = (k, k - pool.minShift) := hclass
  rw [mpsSlabAllocLocked, if_neg hsize] at he ⊢
  simp only [hclass, ← hpool₀] at he
  simp only [hclass', setStat_withWords, ← hpool₀, withWords_desc]
  -- the slot is empty and a page is taken, or the first page of its list has a free chunk
  rcases slot_head h₀.inv (k := k) ⟨hk, hks⟩ with ⟨hnil, hhead⟩ |
    ⟨i, used, pre, post, rfl, hnf, hhead, hne⟩
  · replace hhead : (pool₀.desc (slotOff (k - pool.minShift))).next =
      slotOff (k - pool.minShift) := hhead
    rw [hhead, hhead, if_neg (not_not.mpr rfl)] at he
    rw [hhead, hhead, if_neg (not_not.mpr rfl), allocPages_withWords]
    rcases mpsSlabAllocPages_spec (n := 1) h₀.inv hfuel with
      ⟨i, m, pre, post, rfl, hnm, hp⟩ | ⟨hnone, hp⟩
    · have h₀' : Holds sz s pool₀.pageTotal pool₀ (pre ++ ⟨i, .free, m⟩ :: post) lists live := h₀
      obtain ⟨e, hnew, hed⟩ := newPage_twin (w := w) (k := k) h₀' hnm ⟨hk, hks⟩ hnil
      rw [hp] at he ⊢
      cases he
      exact ⟨e, congrArg (fun r : SlabPool × Nat => some (r.1, some r.2)) hnew, hedits hed⟩
    · rw [hp] at he ⊢
      cases he
      refine ⟨fun _ => none, rfl, hedits ⟨?_, fun _ ho => absurd rfl ho, fun o ho => .inr ?_⟩⟩
      · rw [noRun]
        split <;> rfl
      · rw [noRun] at ho
        split at ho <;> exact ho
  · replace hhead : (pool₀.desc (slotOff (k - pool.minShift))).next = pool₀.pageDesc i := hhead
    rw [hhead, if_pos hne] at he
    rw [hhead, if_pos hne]
    obtain ⟨pool₁, j, -, hrun, -⟩ := takesChunk h₀.inv hnf (k - pool.minShift)
    rw [hrun] at he
    cases he
    have hinv₀ : PageInv sz s pool₀.pageTotal pool₀ _ lists := h₀.inv
    have hw₀ : ∀ o, BookWord sz pool₀ o → w o = pool₀.word o := hw
    obtain ⟨e, hrun', hed⟩ := takesChunk_twin hinv₀ hnf hw₀ hrun
    rw [hrun']
    exact ⟨e, rfl, hedits hed⟩

/-- **An allocation does not see what the chunks hold.** In the other pool it gives the
same block or none, and writes the same words. -/
theorem SlabInv.alloc_twin (h : SlabInv sz s pool.pageTotal pool live)
    (hfuel : pool.pageTotal < fuel) (hw : ∀ o, BookWord sz pool o → w o = pool.word o)
    (he : mpsSlabAllocLocked sz fuel pool size = some (pool', r)) :
    ∃ e, mpsSlabAllocLocked sz fuel (pool.withWords w) size =
      some (pool'.withWords (overwrite w e), r) ∧
      Edits sz pool pool' e := by
  obtain ⟨cells, lists, h⟩ := h
  by_cases hsize : sz.maxSize < size
  · exact allocPages_twin h hfuel hsize he
  · exact allocChunk_twin h hfuel hsize hw he

/-- The page of a chunk tells how it goes back. -/
theorem freeLocked_chunk (pool : SlabPool) (base : Nat)
    (hin : ¬ (o < pool.start ∨ pool.poolEnd < o))
    (hpage : (o - pool.start) >>> sz.pagesizeShift = i)
    (htype : (pool.desc (pool.pageDesc i)).prev % 4 = chunkType sz k) :
    mpsSlabFreeLocked sz base pool o = if k < sz.exactShift then
      freeSmall sz base pool o (pool.pageDesc i)
      else if k = sz.exactShift then freeExact sz base pool o (pool.pageDesc i)
      else freeBig sz base pool o (pool.pageDesc i) := by
  rw [mpsSlabFreeLocked, if_neg hin]
  simp only [hpage, mpsSlabPageType, and_three, htype, chunkType]
  by_cases hlt : k < sz.exactShift
  · simp only [if_pos hlt, if_true]
  by_cases heq : k = sz.exactShift
  · simp only [if_neg hlt, if_pos heq, if_true]
    rw [if_neg (by decide)]
  · simp only [if_neg hlt, if_neg heq, if_true]
    rw [if_neg (by decide), if_neg (by decide)]

/-- A chunk goes back. -/
theorem freeChunk_twin {pre post : List Cell} {used : List Nat}
    (h : Holds sz s pool.pageTotal pool (pre ++ ⟨i, .chunks k used, 1⟩ :: post) lists live)
    (hbase : 2 ^ s ∣ base)
    (hj : j ∈ used) (hp : b.off = pool.pageAddr sz (pool.pageDesc i) + (j <<< k))
    (hw : ∀ o, BookWord sz pool o → w o = pool.word o) :
    ∃ e, mpsSlabFreeLocked sz base (pool.withWords w) b.off =
      (mpsSlabFreeLocked sz base pool b.off).withWords (overwrite w e) ∧
      Edits sz pool (mpsSlabFreeLocked sz base pool b.off) e := by
  have hg := h.inv.shelf.geo
  have hc : (⟨i, .chunks k used, 1⟩ : Cell) ∈ pre ++ ⟨i, .chunks k used, 1⟩ :: post :=
    Shelf.mem_middle.mpr (.inl rfl)
  obtain ⟨-, hshift, htype, hused, hbits, -⟩ := h.inv.shelf.ok _ hc
  have hks : k < s := hg.pagesizeShift ▸ hshift.2
  have hjk := (hused.2 j hj).2
  have hbook : k < sz.exactShift → ∀ n < bitmapWords sz k,
      BookWord sz pool (pool.pageAddr sz (pool.pageDesc i) + 8 * n) := fun hk n hn =>
    (bookWord_iff h.inv).mpr ⟨i, k, used, hc, hk, n, hn, rfl⟩
  obtain ⟨hs, -, -, hwrites, cells', lists', hinv, htaken⟩ := h.givesChunk hbase hj hp
  -- a free makes no new books: the cells that are left were there before
  have hless : ∀ o, BookWord sz (mpsSlabFreeLocked sz base pool b.off) o → BookWord sz pool o := by
    intro o ho
    refine ho.of_cells h.inv hinv hs fun i' k' used' hm => ?_
    have hm' : (⟨i', .chunks k' used', 1⟩ : Cell) ∈ taken cells' :=
      mem_taken.mpr ⟨hm, CellKind.noConfusion⟩
    rw [htaken, mem_taken, List.mem_append, List.mem_append] at hm'
    rcases hm' with ⟨hm' | hm' | hm', -⟩
    · exact ⟨used', List.mem_append_left _ hm'⟩
    · split at hm'
      · cases hm'
      · cases List.mem_singleton.mp hm'
        exact ⟨used, hc⟩
    · exact ⟨used', Shelf.mem_middle.mpr (.inr (List.mem_append_right _ hm'))⟩
  have hkeep : ¬ k < sz.exactShift →
    (mpsSlabFreeLocked sz base pool b.off).word = pool.word := fun hk =>
    funext fun o => hwrites.word o fun hlt => absurd hlt hk
  have hr : j <<< k < 2 ^ s := by
    rw [Nat.shiftLeft_eq, ← chunkCount_mul hg hks.le]
    exact Nat.mul_lt_mul_of_pos_right hjk (Nat.two_pow_pos k)
  obtain ⟨hin, hpage⟩ := free_page h hr hp
  have hrun := freeLocked_chunk pool base hin hpage htype
  have hrun' : mpsSlabFreeLocked sz base (pool.withWords w) b.off = _ :=
    freeLocked_chunk (pool.withWords w) base hin hpage htype
  replace hrun' : mpsSlabFreeLocked sz base (pool.withWords w) b.off =
      if k < sz.exactShift then freeSmall sz base (pool.withWords w) b.off (pool.pageDesc i)
      else if k = sz.exactShift then freeExact sz base (pool.withWords w) b.off (pool.pageDesc i)
      else freeBig sz base (pool.withWords w) b.off (pool.pageDesc i) := hrun'
  -- only a page of small chunks has a bitmap in the pool itself
  by_cases hk : k < sz.exactShift
  · rw [if_pos hk] at hrun hrun'
    obtain ⟨-, hnum, haddr⟩ := chunk_addr hg hbase hks.le hjk hp
    have hroom := reserved_lt hg hks
    have hcount := bitmapWords_mul hg hk
    have hres : reserved sz k = bitmapChunks sz k := if_pos hk
    obtain ⟨e, he, hword, hdom⟩ := freeSmall_withWords (hbits.shiftMask hg hks hk.ne) haddr
      (by rw [hnum]; omega) (by omega) fun n hn => hw _ (hbook hk n hn)
    refine ⟨e, by rw [hrun', he, hrun], by rw [hrun]; exact hword, fun o ho => ?_,
      fun o ho => .inr (hless o ho)⟩
    obtain ⟨n, hn, rfl⟩ := hdom o ho
    exact .inl (hbook hk n hn)
  · refine ⟨fun _ => none, ?_, hkeep hk, fun _ ho => absurd rfl ho, fun o ho => .inr (hless o ho)⟩
    rw [if_neg hk] at hrun hrun'
    rw [hrun', hrun, overwrite_none]
    split
    · exact freeExact_withWords
    · exact freeBig_withWords

/-- A block of pages goes back. -/
theorem freeBlock_twin {pre post : List Cell} {n : Nat}
    (h : Holds sz s pool.pageTotal pool (pre ++ ⟨i, .block, n⟩ :: post) lists live)
    (hbase : 2 ^ s ∣ base) (hp : b.off = pool.pageAddr sz (pool.pageDesc i))
    (hw : ∀ o, BookWord sz pool o → w o = pool.word o) :
    ∃ e, mpsSlabFreeLocked sz base (pool.withWords w) b.off =
      (mpsSlabFreeLocked sz base pool b.off).withWords (overwrite w e) ∧
      Edits sz pool (mpsSlabFreeLocked sz base pool b.off) e := by
  obtain ⟨cells', lists', hinv, htaken⟩ := mpsSlabFreePages_spec h.inv (by simp)
  obtain ⟨hs, -, -, hword⟩ := freePages_frame pool (pool.pageDesc i) n
  have hother : mpsSlabFreeLocked sz base (pool.withWords w) b.off =
      mpsSlabFreePages (pool.withWords w) (pool.pageDesc i) n :=
        (h.withWords hw).givesPages hbase hp
  rw [hother, h.givesPages hbase hp, freePages_withWords pool w]
  refine ⟨fun _ => none, rfl, hword, fun _ ho => absurd rfl ho, fun o ho => .inr ?_⟩
  refine ho.of_cells h.inv hinv hs fun i' k' used' hm => ⟨used', ?_⟩
  have hm' : (⟨i', .chunks k' used', 1⟩ : Cell) ∈ taken cells' :=
    mem_taken.mpr ⟨hm, CellKind.noConfusion⟩
  rw [htaken, mem_taken, List.mem_append] at hm'
  rcases hm' with ⟨hm' | hm', -⟩
  · exact List.mem_append_left _ hm'
  · exact Shelf.mem_middle.mpr (.inr (List.mem_append_right _ hm'))

/-- **A free does not see what the chunks hold.** In the other pool it does the same and
writes the same words. -/
theorem SlabInv.free_twin (h : SlabInv sz s pool.pageTotal pool live)
    (hbase : 2 ^ s ∣ base) (hb : b ∈ live) (hw : ∀ o, BookWord sz pool o → w o = pool.word o) :
    ∃ e, mpsSlabFreeLocked sz base (pool.withWords w) b.off =
      (mpsSlabFreeLocked sz base pool b.off).withWords (overwrite w e) ∧
      Edits sz pool (mpsSlabFreeLocked sz base pool b.off) e := by
  obtain ⟨cells, lists, h⟩ := h
  obtain ⟨pre, ⟨i, kind, len⟩, post, rfl, hm⟩ := h.cell hb
  have hok := h.inv.shelf.ok _ (Shelf.mem_middle.mpr (.inl rfl))
  cases kind with
  | free => simp [Cell.extents] at hm
  | block =>
    simp only [Cell.extents, List.mem_singleton, Prod.mk.injEq] at hm
    exact freeBlock_twin h hbase (hm.1.trans Geometry.pageAddr_eq.symm) hw
  | chunks k used =>
    obtain ⟨rfl, -⟩ := hok
    simp only [Cell.extents, List.mem_map, Prod.mk.injEq] at hm
    obtain ⟨j, hj, hoff, -⟩ := hm
    exact freeChunk_twin h hbase hj (hoff.symm.trans (by rw [Geometry.pageAddr_eq])) hw

end Books

end MpsShdict
