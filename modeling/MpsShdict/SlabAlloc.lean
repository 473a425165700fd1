import MpsShdict.SlabChunks

/-! # A chunk for a request

A page that is on the list of its slot has a free chunk. The search finds the first one,
whichever way the page keeps its bits, and a new page starts with the first chunk that is
not taken up by the bitmap.

The three searches of the source look at whole words first and then at bits, and each is
proved to end at the least chunk whose bit is clear. `TakesChunk` is the common outcome:
the chunk was free, its bit is set and no other bit has changed, and the page has left the
list if it is full now. `StartsPage` is the outcome for a new page. With these the rest of
the allocator need not know how the bits are kept.
-/
namespace MpsShdict

open Words Links

/-! ### Searches -/

section Search
variable {n w : Nat} {p : Nat → Prop} [DecidablePred p]

theorem find_range (p : Nat → Prop) [DecidablePred p] (n : Nat) :
    (∃ i, (List.range n).find? (fun i => p i) = some i ∧ i < n ∧ p i) ∨ ∀ i < n, ¬ p i := by
  cases hf : (List.range n).find? (fun i => p i) with
  | some i =>
    have h1 := List.mem_of_find?_eq_some hf
    have h2 := List.find?_some hf
    exact .inl ⟨i, rfl, List.mem_range.mp h1, of_decide_eq_true h2⟩
  | none =>
    refine .inr ?_
    intro i hi hp
    have := List.find?_eq_none.mp hf i (List.mem_range.mpr hi)
    simp [hp] at this

theorem findSome_range {β : Type} (f : Nat → Option β) (n : Nat) :
    (∃ i b, (List.range n).findSome? f = some b ∧ i < n ∧ f i = some b ∧ ∀ j < i, f j = none) ∨
      (List.range n).findSome? f = none ∧ ∀ i < n, f i = none := by
  induction n with
  | zero => exact .inr ⟨rfl, by simp⟩
  | succ n ih =>
    rw [List.range_succ, List.findSome?_append]
    rcases ih with ⟨i, b, he, hi, hb, hlt⟩ | ⟨he, hnone⟩
    · exact .inl ⟨i, b, by rw [he]; rfl, by omega, hb, hlt⟩
    · rw [he, Option.none_or]
      cases hn : f n with
      | some b => exact .inl ⟨n, b, by simp [hn], by omega, hn, hnone⟩
      | none =>
        refine .inr ⟨by simp [hn], ?_⟩
        intro i hi
        rcases Nat.lt_succ_iff_lt_or_eq.mp hi with hi | rfl
        · exact hnone i hi
        · exact hn

theorem mem_drop_range {m n x : Nat} : x ∈ (List.range n).drop m ↔ m ≤ x ∧ x < n := by
  rw [List.mem_drop_iff_getElem]
  simp only [List.length_range, List.getElem_range]
  constructor
  · rintro ⟨i, hi, rfl⟩
    omega
  · rintro ⟨h1, h2⟩
    exact ⟨x - m, by omega, by omega⟩

theorem firstZeroBit_spec (w : Nat) :
    (∃ i, firstZeroBit w = some i ∧ i < 64 ∧ w.testBit i = false) ∨ ∀ i < 64, w.testBit i := by
  rcases find_range (fun i => w &&& (1 <<< i) = 0) 64 with ⟨i, he, hi, hw⟩ | h
  · exact .inl ⟨i, he, hi, (and_one_shiftLeft w i).mp hw⟩
  · refine .inr ?_
    intro i hi
    have := h i hi
    rw [and_one_shiftLeft] at this
    simpa using this

end Search

/-! ### The bits of a page -/

section Bits
variable {sz : Sizes} {s P i j k : Nat} {pool pool' : SlabPool} {pre post : List Cell}
  {used : List Nat} {lists : Option Nat → List Nat} {bm n v lo hi : Nat}

@[simp] theorem setBitmap_bitmap :
    (pool.setBitmap bm n v).bitmap bm j = if j = n then v else pool.bitmap bm j := by
  simp only [SlabPool.setBitmap, SlabPool.bitmap, Function.update_apply]
  refine if_congr ?_ rfl rfl
  omega

@[simp] theorem setStat_bitmap {f : SlabStat → SlabStat} :
    (pool.setStat i f).bitmap bm j = pool.bitmap bm j := rfl

@[simp] theorem fillBitmap_bitmap :
    (pool.fillBitmap bm lo hi v).bitmap bm j =
      if lo ≤ j ∧ j < hi then v else pool.bitmap bm j := by
  simp only [SlabPool.fillBitmap, SlabPool.bitmap]
  refine if_congr ?_ rfl rfl
  omega

theorem sameHeader_setBitmap : SameHeader pool (pool.setBitmap bm n v) :=
  ⟨rfl, rfl, rfl, rfl, rfl, rfl, rfl, rfl, rfl⟩

theorem sameHeader_fillBitmap : SameHeader pool (pool.fillBitmap bm lo hi v) :=
  ⟨rfl, rfl, rfl, rfl, rfl, rfl, rfl, rfl, rfl⟩

theorem setBitmap_desc : (pool.setBitmap bm n v).desc = pool.desc := rfl

theorem setBitmap_pfree : (pool.setBitmap bm n v).pfree = pool.pfree := rfl

theorem fillBitmap_desc : (pool.fillBitmap bm lo hi v).desc = pool.desc := rfl

theorem fillBitmap_pfree : (pool.fillBitmap bm lo hi v).pfree = pool.pfree := rfl

/-- The bitmap of a page lies within the page. -/
theorem wordsOff_bitmap (g : Geometry sz s P pool)
    (hw : ∀ o, (∀ n < bitmapWords sz k, o ≠ pool.pageAddr sz (pool.pageDesc i) + 8 * n) →
      pool'.word o = pool.word o) : WordsOff s pool pool' i := by
  intro o ho
  refine hw o fun n hn he => ho ?_
  have hle := bitmapWords_le g k
  rw [Geometry.pageAddr_eq, g.pagesizeShift] at he
  rw [Nat.add_mul]
  omega

/-- The outcome of taking one chunk off page `i`: a chunk that was free is given out, and
the cells are the same but for this page, which has one more live chunk. -/
def TakesChunk (sz : Sizes) (s P : Nat) (pool : SlabPool) (pre post : List Cell) (i k : Nat)
    (used : List Nat) (r : Option (SlabPool × Nat)) : Prop :=
  ∃ pool' j lists', r = some (pool', pool.pageAddr sz (pool.pageDesc i) + (j <<< k)) ∧
    ChunksOk sz k (j :: used) ∧ SameHeader pool pool' ∧ pool'.pfree = pool.pfree ∧
    PageInv sz s P pool' (pre ++ ⟨i, .chunks k (j :: used), 1⟩ :: post) lists'

theorem chunksOk_cons (h : ChunksOk sz k used) (h1 : j ∉ used) (h2 : reserved sz k ≤ j)
    (h3 : j < chunkCount sz k) : ChunksOk sz k (j :: used) := by
  refine ⟨List.nodup_cons.mpr ⟨h1, h.1⟩, ?_⟩
  intro j' hj'
  rcases List.mem_cons.mp hj' with rfl | hj'
  · exact ⟨h2, h3⟩
  · exact h.2 j' hj'

/-- Where nothing is reserved a page is full when all its chunks are live. -/
theorem full_iff_mem (hk : ¬ k < sz.exactShift) :
    Full sz k used ↔ ∀ j < chunkCount sz k, j ∈ used := by
  simp [Full, reserved, hk]

theorem allocExact_spec
    (h : PageInv sz s P pool (pre ++ ⟨i, .chunks k used, 1⟩ :: post) lists)
    (hk : k = sz.exactShift) (hnf : ¬ Full sz k used) (slot : Nat) :
    TakesChunk sz s P pool pre post i k used (allocExact sz pool (pool.pageDesc i) slot k) := by
  have hsh := h.shelf
  have hnk : ¬ k < sz.exactShift := by omega
  have hcount : chunkCount sz k = 64 := hk ▸ chunkCount_exact hsh.geo
  obtain ⟨-, -, -, hused, hbits, -⟩ :=
    hsh.ok (⟨i, .chunks k used, 1⟩ : Cell) (Shelf.mem_middle.mpr (.inl rfl))
  simp only [ChunkBits] at hbits
  rw [if_neg hnk, if_pos hk] at hbits
  rw [full_iff_mem hnk, hcount] at hnf
  -- the loop finds a clear bit of the map, which the page has since it is not full
  rcases firstZeroBit_spec (pool.desc (pool.pageDesc i)).slab with ⟨j, he, hj, hbit⟩ | hall
  · rw [hbits j, decide_eq_false_iff_not] at hbit
    have hok : ChunksOk sz k (j :: used) :=
      chunksOk_cons hused hbit (by simp [reserved, hnk]) (by omega)
    set d := pool.desc.setSlab (pool.pageDesc i) ((pool.desc (pool.pageDesc i)).slab ||| 1 <<< j)
      with hd
    have hslab : (d (pool.pageDesc i)).slab = (pool.desc (pool.pageDesc i)).slab ||| 1 <<< j := by
      simp [hd]
    have hbits' : ∀ b, (d (pool.pageDesc i)).slab.testBit b = decide (b ∈ j :: used) := by
      intro b
      rw [hslab, testBit_or_one_shiftLeft, hbits b, ← Bool.decide_or]
      simp [or_comm]
    have hfull : (d (pool.pageDesc i)).slab = mpsSlabBusy ↔ Full sz k (j :: used) := by
      rw [full_iff_mem hnk, hcount]
      refine eq_ones_iff fun b => (hbits' b).trans ?_
      refine decide_eq_decide.mpr ⟨fun hb => ⟨?_, hb⟩, fun hb => hb.2⟩
      have := (hok.2 b hb).2
      omega
    have hdesc : (if (d (pool.pageDesc i)).slab = mpsSlabBusy
        then unlinkFull d (pool.pageDesc i) mpsSlabExact else d) =
        if Full sz k (j :: used) then unlinkFull d (pool.pageDesc i) (chunkType sz k) else d := by
      rw [chunkType, if_neg hnk, if_pos hk]
      exact if_congr hfull rfl rfl
    set pool' := SlabPool.setStat { pool with
      desc := if (d (pool.pageDesc i)).slab = mpsSlabBusy
        then unlinkFull d (pool.pageDesc i) mpsSlabExact else d } slot fun s =>
          { s with used := u64 (s.used + 1) } with hpool'
    have hs : SameHeader pool pool' := ⟨rfl, rfl, rfl, rfl, rfl, rfl, rfl, rfl, rfl⟩
    obtain ⟨lists', hinv⟩ :=
      takeChunk (d := d) h (by rwa [full_iff_mem hnk, hcount]) hs rfl (by simp [hd])
      (fun z hz => DescMem.setSlab_ne hz) hdesc
      (by
        simp only [ChunkBits]
        rw [if_neg hnk, if_pos hk]
        exact hbits')
      (fun _ _ => rfl) hok
    refine ⟨pool', j, lists', ?_, hok, hs, rfl, hinv⟩
    rw [allocExact, he]
    rfl
  · refine absurd ?_ hnf
    intro j hj
    have := hall j hj
    rw [hbits j] at this
    exact of_decide_eq_true this

/-- The upper half of the word is all ones, as far as there are chunks, on a full page. -/
theorem mask_eq_iff_full {w : Nat} (hk : ¬ k < sz.exactShift) (hcount : chunkCount sz k ≤ 32)
    (hok : ChunksOk sz k used) (hbits : ∀ b, w.testBit (mpsSlabMapShift + b) = decide (b ∈ used)) :
    w &&& mpsSlabMapMask = (1 <<< (sz.pagesize >>> k) - 1) <<< mpsSlabMapShift ↔
    Full sz k used := by
  have hmask : (1 <<< (sz.pagesize >>> k) - 1) <<< mpsSlabMapShift =
      (2 ^ chunkCount sz k - 1) * 2 ^ 32 := by
    rw [Nat.shiftLeft_eq, Nat.one_shiftLeft]
    rfl
  rw [full_iff_mem hk, hmask, mpsSlabMapMask]
  constructor
  · intro heq b hb
    have := congrArg (fun w => w.testBit (mpsSlabMapShift + b)) heq
    simp only [Nat.testBit_and, hbits] at this
    rw [Nat.testBit_mul_two_pow, Nat.testBit_mul_two_pow, Nat.testBit_two_pow_sub_one,
      Nat.testBit_two_pow_sub_one] at this
    simpa [mpsSlabMapShift, hb, show b < 32 by omega] using this
  · intro hall
    -- bit by bit: below the map both words are zero, in it the bits are those of the chunks
    apply Nat.eq_of_testBit_eq
    intro b
    rw [Nat.testBit_and, Nat.testBit_mul_two_pow, Nat.testBit_mul_two_pow,
      Nat.testBit_two_pow_sub_one, Nat.testBit_two_pow_sub_one]
    by_cases hb : 32 ≤ b
    · obtain ⟨c, rfl⟩ := Nat.exists_eq_add_of_le hb
      rw [show 32 + c = mpsSlabMapShift + c from rfl, hbits]
      by_cases hc : c < chunkCount sz k
      · simp [mpsSlabMapShift, hall c hc, hc, show c < 32 by omega]
      · have : c ∉ used := fun hm => hc (hok.2 c hm).2
        simp [mpsSlabMapShift, this, hc]
    · simp [hb]

theorem allocBig_spec
    (h : PageInv sz s P pool (pre ++ ⟨i, .chunks k used, 1⟩ :: post) lists)
    (hk : sz.exactShift < k) (hnf : ¬ Full sz k used) (slot : Nat) :
    TakesChunk sz s P pool pre post i k used (allocBig sz pool (pool.pageDesc i) slot k) := by
  have hsh := h.shelf
  have hnk : ¬ k < sz.exactShift := by omega
  have hne : k ≠ sz.exactShift := by omega
  obtain ⟨-, hshift, -, hused, hbits, -⟩ :=
    hsh.ok (⟨i, .chunks k used, 1⟩ : Cell) (Shelf.mem_middle.mpr (.inl rfl))
  have hks : k < s := hsh.geo.pagesizeShift ▸ hshift.2
  have hcount : chunkCount sz k ≤ 32 := chunkCount_big hsh.geo hk (by omega)
  simp only [ChunkBits] at hbits
  rw [if_neg hnk, if_neg hne] at hbits
  have hnf' := hnf
  rw [full_iff_mem hnk] at hnf
  -- the loop finds a clear bit of the map, which the page has since it is not full
  rcases find_range (fun i₁ => (pool.desc (pool.pageDesc i)).slab &&&
    (1 <<< (mpsSlabMapShift + i₁)) = 0) (sz.pagesize >>> k) with ⟨j, he, hj, hbit⟩ | hall
  · rw [and_one_shiftLeft, hbits.2 j, decide_eq_false_iff_not] at hbit
    have hok : ChunksOk sz k (j :: used) :=
      chunksOk_cons hused hbit (by simp [reserved, hnk]) hj
    set d := pool.desc.setSlab (pool.pageDesc i)
      ((pool.desc (pool.pageDesc i)).slab ||| 1 <<< (mpsSlabMapShift + j)) with hd
    have hslab : (d (pool.pageDesc i)).slab =
        (pool.desc (pool.pageDesc i)).slab ||| 1 <<< (mpsSlabMapShift + j) := by simp [hd]
    have hbits' : ∀ b, (d (pool.pageDesc i)).slab.testBit (mpsSlabMapShift + b) =
        decide (b ∈ j :: used) := by
      intro b
      rw [hslab, testBit_or_one_shiftLeft, hbits.2 b, ← Bool.decide_or]
      simp [or_comm]
    have hlow : (d (pool.pageDesc i)).slab % 2 ^ 32 = k := by
      rw [hslab, show mpsSlabMapShift = 32 from rfl, or_one_shiftLeft_mod]
      exact hbits.1
    have hfull := mask_eq_iff_full hnk hcount hok hbits'
    have hdesc : (if (d (pool.pageDesc i)).slab &&& mpsSlabMapMask =
        (1 <<< (sz.pagesize >>> k) - 1) <<< mpsSlabMapShift
        then unlinkFull d (pool.pageDesc i) mpsSlabBig else d) =
        if Full sz k (j :: used) then unlinkFull d (pool.pageDesc i) (chunkType sz k) else d := by
      rw [chunkType, if_neg hnk, if_neg hne]
      exact if_congr hfull rfl rfl
    set pool' := SlabPool.setStat { pool with
      desc := if (d (pool.pageDesc i)).slab &&& mpsSlabMapMask =
        (1 <<< (sz.pagesize >>> k) - 1) <<< mpsSlabMapShift
        then unlinkFull d (pool.pageDesc i) mpsSlabBig else d } slot fun s =>
          { s with used := u64 (s.used + 1) } with hpool'
    have hs : SameHeader pool pool' := ⟨rfl, rfl, rfl, rfl, rfl, rfl, rfl, rfl, rfl⟩
    obtain ⟨lists', hinv⟩ := takeChunk (d := d) h hnf' hs rfl (by simp [hd])
      (fun z hz => DescMem.setSlab_ne hz) hdesc
      (by
        simp only [ChunkBits]
        rw [if_neg hnk, if_neg hne]
        exact ⟨hlow, hbits'⟩)
      (fun _ _ => rfl) hok
    refine ⟨pool', j, lists', ?_, hok, hs, rfl, hinv⟩
    simp only [allocBig, he]
    rfl
  · refine absurd ?_ hnf
    intro j hj
    have := hall j hj
    rw [and_one_shiftLeft, hbits.2 j] at this
    simpa using this

/-- The test of the source for a full bitmap, which looks at whole words, against the live
chunks: the bits of the reserved chunks are set too. -/
theorem full_iff_words (g : Geometry sz s P pool) (hk : k < sz.exactShift) :
    Full sz k used ↔ ∀ n < bitmapWords sz k, ∀ b < 64,
      n * 64 + b < reserved sz k ∨ n * 64 + b ∈ used := by
  have hw := bitmapWords_mul g hk
  constructor
  · intro hf n hn b hb
    exact hf _ (by omega)
  · intro hall j hj
    have := hall (j / 64) (by omega) (j % 64) (Nat.mod_lt _ (by decide))
    rwa [Nat.div_add_mod'] at this

/-- A bitmap in which the bit of one more chunk is set. -/
theorem marked_iff {inWord reserved used bit chunk : Prop} (hsame : bit ↔ inWord ∧ chunk) :
    inWord ∧ (reserved ∨ used) ∨ bit ↔ inWord ∧ (reserved ∨ chunk ∨ used) := by
  rw [hsame, ← and_or_left, or_assoc, or_comm (a := used)]

theorem allocSmall_spec
    (h : PageInv sz s P pool (pre ++ ⟨i, .chunks k used, 1⟩ :: post) lists)
    (hk : k < sz.exactShift) (hnf : ¬ Full sz k used) (slot : Nat) :
    TakesChunk sz s P pool pre post i k used (allocSmall sz pool (pool.pageDesc i) slot k) := by
  have hsh := h.shelf
  have hg := hsh.geo
  obtain ⟨-, hshift, -, hused, hbits, -⟩ :=
    hsh.ok (⟨i, .chunks k used, 1⟩ : Cell) (Shelf.mem_middle.mpr (.inl rfl))
  simp only [ChunkBits] at hbits
  rw [if_pos hk] at hbits
  obtain ⟨hslab, hbits⟩ := hbits
  set bm := pool.pageAddr sz (pool.pageDesc i) with hbm
  have hcount := bitmapWords_mul hg hk
  -- a word has a clear bit unless it is all ones
  have hbusy : ∀ n < bitmapWords sz k, pool.bitmap bm n = mpsSlabBusy ↔
      ∀ b < 64, n * 64 + b < reserved sz k ∨ n * 64 + b ∈ used :=
    fun n hn => eq_ones_iff (hbits n hn)
  have hzero : ∀ n < bitmapWords sz k, pool.bitmap bm n ≠ mpsSlabBusy →
      ∃ i₁, firstZeroBit (pool.bitmap bm n) = some i₁ ∧ i₁ < 64 ∧
        (pool.bitmap bm n).testBit i₁ = false := by
    intro n hn hne
    refine (firstZeroBit_spec _).resolve_right fun hones => hne ((hbusy n hn).mpr ?_)
    intro b hb
    have := hones b hb
    rw [hbits n hn] at this
    exact (of_decide_eq_true this).2
  rcases findSome_range (fun n => if pool.bitmap bm n ≠ mpsSlabBusy then
      (firstZeroBit (pool.bitmap bm n)).map fun i => (n, i) else none) (bitmapWords sz k) with
    ⟨n, b, he, hn, hb, hlt⟩ | ⟨-, hall⟩
  · have hfirst : ∀ n', n' < n → pool.bitmap bm n' = mpsSlabBusy := by
      intro n' hn'
      by_contra hne
      have := hlt n' hn'
      obtain ⟨i₁, hi₁, -, -⟩ := hzero n' (by omega) hne
      simp [hne, hi₁] at this
    obtain ⟨j₀, hj₀, hj₀', hbit, rfl⟩ : ∃ j₀, firstZeroBit (pool.bitmap bm n) = some j₀ ∧ j₀ < 64 ∧
        (pool.bitmap bm n).testBit j₀ = false ∧ b = (n, j₀) := by
      split at hb
      · next hne =>
        obtain ⟨j₀, hj₀, h1, h2⟩ := hzero n hn hne
        rw [hj₀] at hb
        exact ⟨j₀, hj₀, h1, h2, (Option.some.inj hb).symm⟩
      · cases hb
    set j := n * 64 + j₀ with hj
    rw [hbits n hn, decide_eq_false_iff_not] at hbit
    have hfree : ¬ (j < reserved sz k ∨ j ∈ used) := fun hf => hbit ⟨hj₀', hf⟩
    have hok : ChunksOk sz k (j :: used) :=
      chunksOk_cons hused (fun hm => hfree (.inr hm)) (by omega) (by omega)
    set pool₁ := (pool.setBitmap bm n (pool.bitmap bm n ||| 1 <<< j₀)).setStat slot
      fun s => { s with used := u64 (s.used + 1) } with hpool₁
    have hbits' : ∀ n' < bitmapWords sz k, ∀ b, (pool₁.bitmap bm n').testBit b =
        decide (b < 64 ∧ (n' * 64 + b < reserved sz k ∨ n' * 64 + b ∈ j :: used)) := by
      intro n' hn' b
      rw [hpool₁, setStat_bitmap, setBitmap_bitmap]
      split
      · next heq =>
        subst heq
        rw [testBit_or_one_shiftLeft, hbits _ hn', ← Bool.decide_or, decide_eq_decide,
          List.mem_cons]
        exact marked_iff (by omega)
      · next hne =>
        rw [hbits _ hn', decide_eq_decide, List.mem_cons]
        refine and_congr_right fun hb => or_congr_right ?_
        exact (or_iff_right (by omega)).symm
    have hfull : (pool₁.bitmap bm n = mpsSlabBusy ∧
        ((List.range (bitmapWords sz k)).drop (n + 1)).all
          fun j => pool₁.bitmap bm j = mpsSlabBusy) ↔ Full sz k (j :: used) := by
      have hbusy' : ∀ n' < bitmapWords sz k, pool₁.bitmap bm n' = mpsSlabBusy ↔
          ∀ b < 64, n' * 64 + b < reserved sz k ∨ n' * 64 + b ∈ j :: used :=
        fun n' hn' => eq_ones_iff (hbits' n' hn')
      rw [full_iff_words hg hk]
      have hdrop : (((List.range (bitmapWords sz k)).drop (n + 1)).all
          fun j => pool₁.bitmap bm j = mpsSlabBusy) = true ↔
          ∀ n', n < n' → n' < bitmapWords sz k → pool₁.bitmap bm n' = mpsSlabBusy := by
        simp only [List.all_eq_true, mem_drop_range, decide_eq_true_eq]
        exact ⟨fun hall n' h1 h2 => hall n' ⟨h1, h2⟩, fun hall n' hn' => hall n' hn'.1 hn'.2⟩
      rw [hdrop]
      constructor
      · rintro ⟨h1, h2⟩ n' hn' b hb₁
        rcases Nat.lt_trichotomy n' n with hlt' | rfl | hgt
        · have := (hbusy n' hn').mp (hfirst n' hlt') b hb₁
          exact this.imp_right (List.mem_cons_of_mem _)
        · exact (hbusy' n' hn').mp h1 b hb₁
        · exact (hbusy' n' hn').mp (h2 n' hgt hn') b hb₁
      · intro hall
        exact ⟨(hbusy' n hn).mpr (hall n hn), fun n' _ hn' => (hbusy' n' hn').mpr (hall n' hn')⟩
    set pool' : SlabPool := { pool₁ with
      desc := if Full sz k (j :: used)
        then unlinkFull pool.desc (pool.pageDesc i) (chunkType sz k) else pool.desc } with hpool'
    have hs : SameHeader pool pool' := ⟨rfl, rfl, rfl, rfl, rfl, rfl, rfl, rfl, rfl⟩
    obtain ⟨lists', hinv⟩ := takeChunk (d := pool.desc) h hnf hs rfl ⟨rfl, rfl⟩ (fun _ _ => rfl) rfl
      (by
        simp only [ChunkBits]
        rw [if_pos hk]
        exact ⟨hslab, hbits'⟩)
      (wordsOff_bitmap hg (k := k) fun o ho => Function.update_of_ne (ho n hn) _ _) hok
    refine ⟨pool', j, lists', ?_, hok, hs, rfl, hinv⟩
    have htype : mpsSlabSmall = chunkType sz k := (if_pos hk).symm
    simp only [allocSmall, ← hbm]
    rw [he]
    simp only [Option.bind_eq_bind, Option.bind_some, ← hpool₁, ← hj]
    rw [if_congr hfull rfl rfl, htype, hpool']
    by_cases hf : Full sz k (j :: used)
    · simp only [hf, ↓reduceIte]
      rfl
    · simp only [hf, ↓reduceIte]
      rfl
  · -- every word is busy
    refine absurd ((full_iff_words hg hk).mpr fun n hn => (hbusy n hn).mp ?_) hnf
    by_contra hne
    have := hall n hn
    obtain ⟨i₁, hi₁, -, -⟩ := hzero n hn hne
    simp [hne, hi₁] at this

/-! ### A new page -/

/-- **A block of one page becomes a page of chunks**, the only one of its slot. The list
was empty, which is why a new page was asked for. -/
theorem linkNewPage_spec (h : PageInv sz s P pool (pre ++ ⟨i, .block, 1⟩ :: post) lists)
    (hk : pool.minShift ≤ k ∧ k < s) (hnil : lists (some (k - pool.minShift)) = [])
    (hs : SameHeader pool pool') (hpf : pool'.pfree = pool.pfree)
    (hdesc : pool'.desc =
      linkNewPage pool.desc (pool.pageDesc i) (k - pool.minShift) v (chunkType sz k))
    (hbits : ChunkBits sz pool' i k [reserved sz k]) (hw : WordsOff s pool pool' i) :
    ∃ lists', PageInv sz s P pool' (pre ++ ⟨i, .chunks k [reserved sz k], 1⟩ :: post) lists' := by
  set c : Cell := ⟨i, .block, 1⟩ with hc
  set c' : Cell := ⟨i, .chunks k [reserved sz k], 1⟩ with hc'
  set x := pool.pageDesc i with hx
  set o := slotOff (k - pool.minShift) with ho
  have hsh := h.shelf
  have hg := hsh.geo
  have hcm : c ∈ pre ++ c :: post := Shelf.mem_middle.mpr (.inl rfl)
  have hmid := Contiguous.middle.mp h.contiguous
  have hlist : IsList (s - pool.minShift) (some (k - pool.minShift)) := by
    show k - pool.minShift < s - pool.minShift
    omega
  have hr := reserved_lt hg hk.2
  have hnf : ¬ Full sz k [reserved sz k] :=
    not_full_of_free (j := reserved sz k + 1) (Nat.le_succ _) hr (by simp)
  have hring := hsh.ring _ hlist
  rw [hnil] at hring
  have hhead : (pool.desc o).next = o := hring.nil_iff.mpr rfl
  have hxo : x ≠ o := hg.pageDesc_ne_header hlist
  have hdvd : 4 ∣ o := Geometry.dvd_header (a := some (k - pool.minShift))
  have hf : ∀ z, pool'.desc z = ⟨if z = x then v else (pool.desc z).slab,
      if z = o then x else if z = x then o else (pool.desc z).next,
      if z = x then o ||| chunkType sz k else (pool.desc z).prev⟩ := by
    intro z
    rw [hdesc]
    refine SlabPage.ext ?_ ?_ ?_ <;> simp [linkNewPage, ho]
  -- the bitmap's own chunks are the first ones, and one more is given out
  have hok : CellOk sz P pool' c' := by
    refine ⟨rfl, ⟨hs.minShift ▸ hk.1, hg.pagesizeShift.symm ▸ hk.2⟩, ?_, ⟨by simp, ?_⟩, hbits,
      fun hf => absurd hf hnf⟩
    · show (pool'.desc (pool'.pageDesc i)).prev % 4 = _
      rw [hs.pageDesc, ← hx, hf]
      simp only [↓reduceIte]
      exact or_tag_mod hdvd chunkType_lt
    · intro j hj
      rw [List.mem_singleton.mp hj]
      exact ⟨le_rfl, by omega⟩
  have hput := (hsh.drop (c := c) rfl).put (c := c')
    (a := some (k - pool.minShift)) (v := x ||| chunkType sz k) hs hlist
    (fun c₁ hc₁ => (hmid.1.bounds c₁ hc₁).2) (fun c₁ hc₁ => (hmid.2.bounds c₁ hc₁).1)
    (hsh.bound c hcm) hok (list_chunks hnf _)
    ⟨by
      show (pool'.desc x).next = (pool.desc o).next
      rw [hf, hhead]
      simp [hxo], by
      show andNot (pool'.desc x).prev 3 = o
      rw [hf]
      simp only [↓reduceIte]
      exact andNot_or_tag hdvd chunkType_lt⟩
    (fun z hz => by
      have hzx : z ≠ x := hz i ⟨le_rfl, Nat.lt_succ_self i⟩
      rw [hf]
      refine ⟨by simp [hzx], ?_, ?_⟩
      · simp only [hzx, ↓reduceIte]
        rfl
      · intro hzo
        have hzn : z ≠ (pool.desc (header (some (k - pool.minShift)))).next := by
          rw [show (pool.desc (header (some (k - pool.minShift)))).next = o from hhead]
          exact hzo
        simp [hzx, hzn])
    (andNot_or_tag hg.dvd_pageDesc chunkType_lt)
    (by rw [or_tag_mod hg.dvd_pageDesc chunkType_lt, listType, Nat.add_sub_cancel' hk.1])
    (hw.cells (c := c) hsh)
  refine ⟨_, hput, Contiguous.middle.mpr hmid,
    apart_middle h.apart.left (by simp [hc']) h.apart.right.of_cons, ?_⟩
  rw [hpf, h.pfree]
  simp [hc, hc']

/-- The outcome of the first chunk of a new page: the cell is a page of chunks of the
right size, of which one is live. -/
def StartsPage (sz : Sizes) (s P : Nat) (pool : SlabPool) (pre post : List Cell) (i k : Nat)
    (r : SlabPool × Nat) : Prop :=
  r.2 = pool.pageAddr sz (pool.pageDesc i) + (reserved sz k <<< k) ∧ SameHeader pool r.1 ∧
    r.1.pfree = pool.pfree ∧
    ∃ lists', PageInv sz s P r.1 (pre ++ ⟨i, .chunks k [reserved sz k], 1⟩ :: post) lists'

/-- The bitmap of a new page, its first `m` chunks being taken. -/
def startBitmap (sz : Sizes) (pool : SlabPool) (bm k m : Nat) : SlabPool :=
  ((pool.fillBitmap bm 0 (m / 64) mpsSlabBusy).setBitmap bm (m / 64)
    (1 <<< (m % 64) - 1)).fillBitmap bm (m / 64 + 1) (bitmapWords sz k) 0

theorem startBitmap_testBit {b m : Nat} (hn : n < bitmapWords sz k) :
    ((startBitmap sz pool bm k m).bitmap bm n).testBit b = decide (b < 64 ∧ n * 64 + b < m) := by
  have hword : (startBitmap sz pool bm k m).bitmap bm n = if n < m / 64 then mpsSlabBusy
      else if n = m / 64 then 1 <<< (m % 64) - 1 else 0 := by
    rw [startBitmap, fillBitmap_bitmap, setBitmap_bitmap, fillBitmap_bitmap]
    rcases Nat.lt_trichotomy n (m / 64) with hn' | hn' | hn'
    · simp [hn', show ¬ m / 64 + 1 ≤ n by omega, show n ≠ m / 64 by omega]
    · simp [hn']
    · simp [show m / 64 + 1 ≤ n by omega, hn, show ¬ n < m / 64 by omega,
        show n ≠ m / 64 by omega]
  rw [hword]
  split
  · rw [mpsSlabBusy, Nat.testBit_two_pow_sub_one, decide_eq_decide]
    omega
  · split
    · rw [Nat.one_shiftLeft, Nat.testBit_two_pow_sub_one, decide_eq_decide]
      omega
    · rw [Nat.zero_testBit]
      exact (decide_eq_false (by omega)).symm

theorem startBitmap_word {m o : Nat} (hm : m / 64 < bitmapWords sz k)
    (ho : ∀ n < bitmapWords sz k, o ≠ bm + 8 * n) :
    (startBitmap sz pool bm k m).word o = pool.word o := by
  have hout : ∀ lo hi, hi ≤ bitmapWords sz k →
      ¬ (bm + 8 * lo ≤ o ∧ o < bm + 8 * hi ∧ (o - bm) % 8 = 0) := by
    rintro lo hi hhi ⟨h1, h2, h3⟩
    exact ho ((o - bm) / 8) (by omega) (by omega)
  show (if _ then _ else Function.update _ _ _ o) = _
  rw [if_neg (hout _ _ le_rfl), Function.update_of_ne (ho _ hm)]
  exact if_neg (hout _ _ (by omega))

@[simp] theorem startBitmap_desc {m : Nat} : (startBitmap sz pool bm k m).desc = pool.desc := by
  rw [startBitmap, fillBitmap_desc, setBitmap_desc, fillBitmap_desc]

@[simp] theorem startBitmap_pfree {m : Nat} : (startBitmap sz pool bm k m).pfree = pool.pfree := by
  rw [startBitmap, fillBitmap_pfree, setBitmap_pfree, fillBitmap_pfree]

theorem sameHeader_startBitmap (m : Nat) : SameHeader pool (startBitmap sz pool bm k m) :=
  sameHeader_fillBitmap.trans (sameHeader_setBitmap.trans sameHeader_fillBitmap)

/-- The pool with a new page, whichever way its bits are kept. -/
def withNewPage (pool : SlabPool) (page slot v type chunks : Nat) : SlabPool :=
  SlabPool.setStat { pool with desc := linkNewPage pool.desc page slot v type } slot fun s =>
    { s with total := u64 (s.total + chunks), used := u64 (s.used + 1) }

theorem sameHeader_withNewPage {page slot v type chunks : Nat} :
    SameHeader pool (withNewPage pool page slot v type chunks) :=
  ⟨rfl, rfl, rfl, rfl, rfl, rfl, rfl, rfl, rfl⟩

@[simp] theorem withNewPage_desc {page slot v type chunks : Nat} :
    (withNewPage pool page slot v type chunks).desc = linkNewPage pool.desc page slot v type := rfl

@[simp] theorem withNewPage_pfree {page slot v type chunks : Nat} :
    (withNewPage pool page slot v type chunks).pfree = pool.pfree := rfl

@[simp] theorem withNewPage_word {page slot v type chunks : Nat} :
    (withNewPage pool page slot v type chunks).word = pool.word := rfl

theorem withNewPage_slab {page slot v type chunks : Nat} :
    ((withNewPage pool page slot v type chunks).desc page).slab = v := by
  simp [linkNewPage]

theorem newPage_small (h : PageInv sz s P pool (pre ++ ⟨i, .block, 1⟩ :: post) lists)
    (hk : pool.minShift ≤ k ∧ k < s) (hnil : lists (some (k - pool.minShift)) = [])
    (hlt : k < sz.exactShift) :
    StartsPage sz s P pool pre post i k
      (newPage sz pool (pool.pageDesc i) (k - pool.minShift) k) := by
  have hg := h.shelf.geo
  have hr : reserved sz k = bitmapChunks sz k := if_pos hlt
  have hcount := bitmapWords_mul hg hlt
  have hroom := reserved_lt hg hk.2
  set bm := pool.pageAddr sz (pool.pageDesc i) with hbm
  set pool' := withNewPage (startBitmap sz pool bm k (reserved sz k + 1)) (pool.pageDesc i)
    (k - pool.minShift) k mpsSlabSmall ((sz.pagesize >>> k) - reserved sz k) with hpool'
  have hs : SameHeader pool pool' := (sameHeader_startBitmap _).trans sameHeader_withNewPage
  have he : newPage sz pool (pool.pageDesc i) (k - pool.minShift) k =
      (pool', pool'.pageAddr sz (pool.pageDesc i) + (reserved sz k <<< k)) := by
    rw [newPage, if_pos hlt, hpool', hr]
    rfl
  rw [he]
  have hpf : pool'.pfree = pool.pfree := by simp [hpool']
  refine ⟨by rw [hs.pageAddr], hs, hpf,
    linkNewPage_spec (v := k) h hk hnil hs hpf (by simp [hpool', chunkType, hlt]) ?_ ?_⟩
  · simp only [ChunkBits]
    rw [if_pos hlt, hs.pageDesc, hs.pageAddr, ← hbm]
    refine ⟨withNewPage_slab, ?_⟩
    intro w hw b
    rw [SlabPool.bitmap, hpool', withNewPage_word, ← SlabPool.bitmap, startBitmap_testBit hw,
      decide_eq_decide, List.mem_singleton]
    omega
  · refine wordsOff_bitmap hg (k := k) ?_
    intro o ho
    rw [hpool', withNewPage_word]
    exact startBitmap_word (by omega) ho

theorem newPage_exact (h : PageInv sz s P pool (pre ++ ⟨i, .block, 1⟩ :: post) lists)
    (hk : pool.minShift ≤ k ∧ k < s) (hnil : lists (some (k - pool.minShift)) = [])
    (heq : k = sz.exactShift) :
    StartsPage sz s P pool pre post i k
      (newPage sz pool (pool.pageDesc i) (k - pool.minShift) k) := by
  have hnlt : ¬ k < sz.exactShift := by omega
  have hr : reserved sz k = 0 := if_neg hnlt
  set pool' := withNewPage pool (pool.pageDesc i) (k - pool.minShift) 1 mpsSlabExact 64 with hpool'
  have hs : SameHeader pool pool' := sameHeader_withNewPage
  have he : newPage sz pool (pool.pageDesc i) (k - pool.minShift) k =
      (pool', pool'.pageAddr sz (pool.pageDesc i)) := by
    rw [newPage, if_neg hnlt, if_pos heq]
    rfl
  rw [he]
  have hpf : pool'.pfree = pool.pfree := by simp [hpool']
  refine ⟨by simp [hs.pageAddr, hr], hs, hpf,
    linkNewPage_spec (v := 1) h hk hnil hs hpf (by simp [hpool', chunkType, heq]) ?_
      fun _ _ => by simp [hpool']⟩
  simp only [ChunkBits]
  rw [if_neg hnlt, if_pos heq, hr, hs.pageDesc, withNewPage_slab]
  intro j
  rw [show 1 = 2 ^ 0 from rfl, Nat.testBit_two_pow]
  simp [eq_comm]

theorem newPage_big (h : PageInv sz s P pool (pre ++ ⟨i, .block, 1⟩ :: post) lists)
    (hk : pool.minShift ≤ k ∧ k < s) (hnil : lists (some (k - pool.minShift)) = [])
    (hgt : sz.exactShift < k) :
    StartsPage sz s P pool pre post i k
      (newPage sz pool (pool.pageDesc i) (k - pool.minShift) k) := by
  have hnlt : ¬ k < sz.exactShift := by omega
  have hne : k ≠ sz.exactShift := by omega
  have hr : reserved sz k = 0 := if_neg hnlt
  set v := 1 <<< mpsSlabMapShift ||| k with hv
  set pool' := withNewPage pool (pool.pageDesc i) (k - pool.minShift) v mpsSlabBig
    (sz.pagesize >>> k) with hpool'
  have hs : SameHeader pool pool' := sameHeader_withNewPage
  have he : newPage sz pool (pool.pageDesc i) (k - pool.minShift) k =
      (pool', pool'.pageAddr sz (pool.pageDesc i)) := by
    rw [newPage, if_neg hnlt, if_neg hne]
    rfl
  have hk32 : k < 2 ^ 32 := by
    have := h.shelf.geo.s_le
    omega
  have hvk : v = 2 ^ 32 * 1 + k := by
    rw [Nat.two_pow_add_eq_or_of_lt hk32]
    rfl
  rw [he]
  have hpf : pool'.pfree = pool.pfree := by simp [hpool']
  refine ⟨by simp [hs.pageAddr, hr], hs, hpf,
    linkNewPage_spec (v := v) h hk hnil hs hpf (by simp [hpool', chunkType, hnlt, hne]) ?_
      fun _ _ => by simp [hpool']⟩
  simp only [ChunkBits]
  rw [if_neg hnlt, if_neg hne, hr, hs.pageDesc, withNewPage_slab]
  refine ⟨by omega, ?_⟩
  intro j
  rw [hv, Nat.testBit_or, Nat.testBit_lt_two_pow (i := mpsSlabMapShift + j) (x := k)]
  · rw [Nat.one_shiftLeft, Nat.testBit_two_pow, Bool.or_false, decide_eq_decide, List.mem_singleton]
    omega
  · exact hk32.trans_le (Nat.pow_le_pow_right (by decide) (Nat.le_add_right 32 j))

/-- **The first chunk of a new page.** It is the first one behind those that hold the
bitmap, and the first of the page where the bits are kept elsewhere. -/
theorem newPage_spec (h : PageInv sz s P pool (pre ++ ⟨i, .block, 1⟩ :: post) lists)
    (hk : pool.minShift ≤ k ∧ k < s) (hnil : lists (some (k - pool.minShift)) = []) :
    StartsPage sz s P pool pre post i k
      (newPage sz pool (pool.pageDesc i) (k - pool.minShift) k) := by
  rcases Nat.lt_trichotomy k sz.exactShift with hlt | heq | hgt
  · exact newPage_small h hk hnil hlt
  · exact newPage_exact h hk hnil heq
  · exact newPage_big h hk hnil hgt

end Bits

end MpsShdict
