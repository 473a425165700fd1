import MpsShdict.SlabAlloc
import MpsShdict.SlabFrame

/-! # A chunk comes back

The offset of a chunk gives its page and its number in the page, whatever the address at
which the pool is mapped, as long as that is the start of a page. The bit is cleared, a
page that was full comes back to its list, and one with no live chunk left goes back to
the free runs.

The code computes with addresses where the model has offsets: it masks the address of the
chunk to find the start of its page and its position there. `chunk_addr` and `chunk_page`
say what comes out for an address that does belong to a chunk. `GivesChunk` is the common
outcome of the three ways in which a page keeps its bits, and says what is counted and
what is written besides.
-/
namespace MpsShdict

open Words Links

section Give
variable {sz : Sizes} {s P i j k base p slot n : Nat} {pool pool' : SlabPool}
  {pre post : List Cell} {used : List Nat} {lists : Option Nat → List Nat}

/-! ### Addresses -/

/-- What the code reads off the address of chunk `j` of page `i`: it is aligned, its
number is `j`, and the bitmap begins where the page does. The base is a multiple of the
page size, so it drops out. -/
theorem chunk_addr (g : Geometry sz s P pool) (hbase : 2 ^ s ∣ base) (hk : k ≤ s)
    (hj : j < chunkCount sz k) (hp : p = pool.pageAddr sz (pool.pageDesc i) + (j <<< k)) :
    (base + p) &&& (1 <<< k - 1) = 0 ∧ ((base + p) &&& (sz.pagesize - 1)) >>> k = j ∧
      andNot (base + p) (sz.pagesize - 1) - base = pool.pageAddr sz (pool.pageDesc i) := by
  obtain ⟨b, rfl⟩ := hbase
  obtain ⟨t, ht⟩ := g.start_dvd
  have hlt : j * 2 ^ k < 2 ^ s := by
    rw [← chunkCount_mul g hk]
    exact Nat.mul_lt_mul_of_pos_right hj (Nat.two_pow_pos k)
  have haddr : 2 ^ s * b + p = 2 ^ s * (b + i + t) + j * 2 ^ k := by
    rw [hp, Geometry.pageAddr_eq, g.pagesizeShift, ht, Nat.shiftLeft_eq, Nat.mul_add, Nat.mul_add,
      Nat.mul_comm i]
    omega
  rw [haddr, g.pagesize, Nat.one_shiftLeft, Nat.and_two_pow_sub_one_eq_mod,
    Nat.and_two_pow_sub_one_eq_mod, andNot_two_pow_sub_one, Nat.mul_add_mod,
    Nat.mod_eq_of_lt hlt, Nat.mul_add_div (Nat.two_pow_pos s), Nat.div_eq_of_lt hlt]
  refine ⟨?_, ?_, ?_⟩
  · have hs : s = k + (s - k) := by omega
    rw [hs, Nat.pow_add, Nat.mul_assoc, Nat.mul_add_mod, Nat.mul_mod_left]
  · rw [Nat.shiftRight_eq_div_pow, Nat.mul_div_cancel _ (Nat.two_pow_pos k)]
  · rw [Geometry.pageAddr_eq, g.pagesizeShift, ht]
    apply Nat.sub_eq_of_eq_add
    simp only [Nat.add_mul, Nat.mul_comm (2 ^ s)]
    omega

/-- The page behind an offset in it. -/
theorem chunk_page (g : Geometry sz s P pool) {r : Nat} (hr : r < 2 ^ s)
    (hp : p = pool.pageAddr sz (pool.pageDesc i) + r) :
    (p - pool.start) >>> sz.pagesizeShift = i := by
  rw [hp, Geometry.pageAddr_eq, g.pagesizeShift, Nat.shiftRight_eq_div_pow,
    show i * 2 ^ s + pool.start + r - pool.start = 2 ^ s * i + r by rw [Nat.mul_comm]; omega,
    Nat.mul_add_div (Nat.two_pow_pos s), Nat.div_eq_of_lt hr, Nat.add_zero]

/-! ### Bookkeeping -/

/-- The statistics are not looked at. -/
theorem PageInv.setStat {cells : List Cell} {f : SlabStat → SlabStat}
    (h : PageInv sz s P pool cells lists) : PageInv sz s P (pool.setStat slot f) cells lists :=
  ⟨h.shelf.frame ⟨rfl, rfl, rfl, rfl, rfl, rfl, rfl, rfl, rfl⟩ (fun _ _ => rfl)
    (fun _ _ _ _ _ _ _ => rfl), h.contiguous, h.apart, h.pfree⟩

/-- Giving pages back writes descriptors and the number of free pages. -/
theorem freePages_frame (pool : SlabPool) (page n : Nat) :
    SameHeader pool (mpsSlabFreePages pool page n) ∧
    (mpsSlabFreePages pool page n).stat = pool.stat ∧
      (mpsSlabFreePages pool page n).log = pool.log ∧
      (mpsSlabFreePages pool page n).word = pool.word :=
  ⟨⟨rfl, rfl, rfl, rfl, rfl, rfl, rfl, rfl, rfl⟩, rfl, rfl, rfl⟩

/-- What giving a chunk of `2 ^ k` bytes back counts, the `last` of its page or not: one
chunk less is used, and with the last one the page's chunks are no longer counted as
there. -/
def CountsFree (sz : Sizes) (pool : SlabPool) (k : Nat) (last : Prop) [Decidable last]
    (r : SlabPool) : Prop :=
  ∀ q, ((r.stat q).used = if q = k - pool.minShift then sub64 (pool.stat q).used 1
      else (pool.stat q).used) ∧
    ((r.stat q).total = if q = k - pool.minShift ∧ last
      then sub64 (pool.stat q).total (usable sz k) else (pool.stat q).total)

/-- What giving a chunk of page `i` back writes, but for the header of the pool:
descriptors and list heads, and the bitmap of its own page. -/
structure ChunkWrites (sz : Sizes) (s P : Nat) (pool : SlabPool) (i k : Nat)
    (r : SlabPool) : Prop where
  desc : DescsOnly s P pool pool.desc r.desc
  stat : ∀ q, q ≠ k - pool.minShift → r.stat q = pool.stat q
  word : ∀ o, (k < sz.exactShift → ∀ n < bitmapWords sz k,
    o ≠ pool.pageAddr sz (pool.pageDesc i) + 8 * n) → r.word o = pool.word o

/-- The outcome of giving chunk `j` of page `i` back: the page has one live chunk less, or
is gone with its last one, and nothing is reported. -/
def GivesChunk (sz : Sizes) (s P : Nat) (pool : SlabPool) (pre post : List Cell) (i k : Nat)
    (used : List Nat) (j : Nat) (r : SlabPool) : Prop :=
  SameHeader pool r ∧ r.log = pool.log ∧ CountsFree sz pool k (used.erase j = []) r ∧
    ChunkWrites sz s P pool i k r ∧ ∃ cells' lists', PageInv sz s P r cells' lists' ∧
    taken cells' = taken (pre ++ ((if used.erase j = [] then []
      else [⟨i, .chunks k (used.erase j), 1⟩]) ++ post))

/-- The end of the three ways: the page goes back where its last chunk has. The three
differ in how the bits are cleared and agree from here on. -/
theorem givesChunk_of (slot n : Nat)
    (h : PageInv sz s P pool' (pre ++ ⟨i, .chunks k (used.erase j), 1⟩ :: post) lists)
    (hs : SameHeader pool pool') (hlog : pool'.log = pool.log) (hstat : pool'.stat = pool.stat)
    (hslot : slot = k - pool.minShift) (hn : n = usable sz k)
    (hdesc : DescsOnly s P pool pool.desc pool'.desc)
    (hword : ∀ o, (k < sz.exactShift → ∀ n < bitmapWords sz k,
      o ≠ pool.pageAddr sz (pool.pageDesc i) + 8 * n) → pool'.word o = pool.word o) {r : SlabPool}
    (hr : r = if used.erase j = [] then freeDone (freeChunkPage pool' (pool.pageDesc i) slot n) slot
      else freeDone pool' slot) : GivesChunk sz s P pool pre post i k used j r := by
  subst hr
  -- with its last chunk a page is given back, else it stays
  by_cases hu : used.erase j = []
  · rw [if_pos hu]
    rw [hu] at h
    have hpages := mpsSlabFreePages_descsOnly h (by simp)
    obtain ⟨cells', lists', hinv, htaken⟩ := mpsSlabFreePages_spec h (by simp)
    rw [show pool'.pageDesc _ = pool.pageDesc i from hs.pageDesc i] at hinv hpages
    obtain ⟨hs', hstat', hlog', hword'⟩ := freePages_frame pool' (pool.pageDesc i) 1
    rw [freeChunkPage]
    generalize mpsSlabFreePages pool' (pool.pageDesc i) 1 = r at *
    refine ⟨hs.trans (hs'.trans ⟨rfl, rfl, rfl, rfl, rfl, rfl, rfl, rfl, rfl⟩),
      hlog'.trans hlog, ?_, ⟨hdesc.trans (hpages.same hs), ?_, fun o ho => ?_⟩,
      cells', lists', hinv.setStat.setStat, ?_⟩
    · intro q
      rw [← hslot, ← hn, ← hstat, ← hstat']
      by_cases hq : q = slot <;> simp [freeDone, SlabPool.setStat, hq, hu]
    · intro q hq
      rw [← hslot] at hq
      simp [freeDone, SlabPool.setStat, hq, hstat, hstat']
    · exact (congrFun hword' o).trans (hword o ho)
    · rw [htaken, if_pos hu]
      rfl
  · rw [if_neg hu]
    refine ⟨hs.trans ⟨rfl, rfl, rfl, rfl, rfl, rfl, rfl, rfl, rfl⟩, hlog, ?_,
      ⟨hdesc, ?_, hword⟩, _, lists, h.setStat, ?_⟩
    · intro q
      rw [← hslot, ← hstat]
      by_cases hq : q = slot <;> simp [freeDone, SlabPool.setStat, hq, hu]
    · intro q hq
      rw [← hslot] at hq
      simp [freeDone, SlabPool.setStat, hq, hstat]
    · rw [if_neg hu]
      rfl

/-- A bitmap in which the bit of one chunk is cleared. -/
theorem cleared_iff {inWord reserved used bit chunk : Prop} (hsame : inWord → (bit ↔ chunk))
    (hres : inWord → reserved → ¬ bit) :
    (inWord ∧ (reserved ∨ used)) ∧ ¬ bit ↔ inWord ∧ (reserved ∨ used ∧ ¬ chunk) := by
  constructor
  · rintro ⟨⟨hin, hr | hu⟩, hbit⟩
    · exact ⟨hin, .inl hr⟩
    · exact ⟨hin, .inr ⟨hu, fun hc => hbit ((hsame hin).mpr hc)⟩⟩
  · rintro ⟨hin, hr | ⟨hu, hc⟩⟩
    · exact ⟨⟨hin, .inl hr⟩, hres hin hr⟩
    · exact ⟨⟨hin, .inr hu⟩, fun hbit => hc ((hsame hin).mp hbit)⟩

theorem erase_nil_iff (hu : used.Nodup) : used.erase j = [] ↔ ∀ j', ¬ (j' ∈ used ∧ j' ≠ j) := by
  rw [List.eq_nil_iff_forall_not_mem]
  refine forall_congr' ?_
  intro j'
  rw [hu.mem_erase_iff]
  tauto

/-- The bits of a chunk change, and the page may come back to its list. -/
theorem relink_descsOnly {c : Cell} {d : DescMem} {v type : Nat}
    (h : Shelf sz s P pool (pre ++ c :: post) lists) (hslot : slot < s - pool.minShift)
    (b : Prop) [Decidable b]
    (hd : d = if b then relinkFull pool.desc (pool.pageDesc c.pos) slot type else pool.desc) :
    DescsOnly s P pool pool.desc d ∧
      DescsOnly s P pool pool.desc (d.setSlab (pool.pageDesc c.pos) v) := by
  have hb := h.bound c (Shelf.mem_middle.mpr (.inl rfl))
  have hpos : c.pos < P := by omega
  have hlinks : DescsOnly s P pool pool.desc d := by
    rw [hd]
    split
    · exact relinkFull_descsOnly h hpos hslot
    · exact .refl _
  exact ⟨hlinks, hlinks.trans (.setSlab (isDesc_page hpos))⟩

/-! ### The three ways -/

theorem freeExact_spec (h : PageInv sz s P pool (pre ++ ⟨i, .chunks k used, 1⟩ :: post) lists)
    (hk : k = sz.exactShift) (hj : j ∈ used) (hbase : 2 ^ s ∣ base)
    (hp : p = pool.pageAddr sz (pool.pageDesc i) + (j <<< k)) :
    GivesChunk sz s P pool pre post i k used j (freeExact sz base pool p (pool.pageDesc i)) := by
  have hg := h.shelf.geo
  have hnk : ¬ k < sz.exactShift := by omega
  have hcount : chunkCount sz k = 64 := hk ▸ chunkCount_exact hg
  obtain ⟨-, hshift, -, hused, hbits, -⟩ :=
    h.shelf.ok (⟨i, .chunks k used, 1⟩ : Cell) (Shelf.mem_middle.mpr (.inl rfl))
  simp only [ChunkBits] at hbits
  rw [if_neg hnk, if_pos hk] at hbits
  have hks : k ≤ s := by
    have := hg.pagesizeShift
    omega
  obtain ⟨haddr, hnum, -⟩ := chunk_addr hg hbase hks (hused.2 j hj).2 hp
  have hsize : sz.exactSize = 1 <<< k := by
    rw [hg.exactSize, hk, hg.exactShift, Nat.one_shiftLeft]
  have hbit : (pool.desc (pool.pageDesc i)).slab &&& (1 <<< j) ≠ 0 := by
    rw [Ne, and_one_shiftLeft, hbits j]
    simpa using hj
  have hfull : (pool.desc (pool.pageDesc i)).slab = mpsSlabBusy ↔ Full sz k used := by
    rw [full_iff_mem hnk, hcount]
    refine eq_ones_iff fun b =>
      (hbits b).trans (decide_eq_decide.mpr ⟨fun hb => ⟨?_, hb⟩, And.right⟩)
    have := (hused.2 b hb).2
    omega
  -- the descriptors with the page on its list
  set d := if (pool.desc (pool.pageDesc i)).slab = mpsSlabBusy
    then relinkFull pool.desc (pool.pageDesc i) (sz.exactShift - pool.minShift) mpsSlabExact
    else pool.desc with hd
  have hdesc : d = if Full sz k used
      then relinkFull pool.desc (pool.pageDesc i) (k - pool.minShift) (chunkType sz k)
      else pool.desc := by
    rw [hd, chunkType, if_neg hnk, if_pos hk, ← hk]
    exact if_congr hfull rfl rfl
  have hdslab : (d (pool.pageDesc i)).slab = (pool.desc (pool.pageDesc i)).slab := by
    rw [hd]
    split <;> simp [relinkFull]
  set pool₂ : SlabPool := { pool with
    desc := d.setSlab (pool.pageDesc i) (andNot (d (pool.pageDesc i)).slab (1 <<< j)) } with hpool₂
  have hslab : (pool₂.desc (pool.pageDesc i)).slab =
      andNot (pool.desc (pool.pageDesc i)).slab (1 <<< j) := by
    rw [hpool₂, ← hdslab]
    simp
  have hbits' : ∀ b, (pool₂.desc (pool.pageDesc i)).slab.testBit b = decide (b ∈ used ∧ b ≠ j) := by
    intro b
    rw [hslab, testBit_andNot_one_shiftLeft, hbits b]
    simp
  have hs : SameHeader pool pool₂ := ⟨rfl, rfl, rfl, rfl, rfl, rfl, rfl, rfl, rfl⟩
  obtain ⟨lists', hinv⟩ := giveChunk (d := d) h hs rfl hj (by simp [hpool₂])
    (fun z hz => DescMem.setSlab_ne hz) hdesc
    (by
      simp only [ChunkBits]
      rw [if_neg hnk, if_pos hk]
      intro b
      refine (hbits' b).trans (decide_eq_decide.mpr ?_)
      rw [hused.1.mem_erase_iff]
      exact and_comm)
    (fun _ _ => rfl)
  have hempty : (pool₂.desc (pool.pageDesc i)).slab = 0 ↔ used.erase j = [] := by
    rw [erase_nil_iff hused.1]
    exact eq_zero_iff hbits'
  refine givesChunk_of (sz.exactShift - pool.minShift) 64 hinv hs rfl rfl (by rw [hk])
    (by rw [usable, reserved, if_neg hnk, hcount])
    (relink_descsOnly h.shelf (hg.slot_lt hshift) _ hdesc).2 (fun _ _ => rfl) ?_
  subst hk
  simp only [freeExact, hnum, hsize]
  rw [if_neg (not_not.mpr haddr), if_pos hbit, ← hd, ← hpool₂, ite_not]
  exact if_congr hempty rfl rfl

/-- With a page on its list again the bits are as they were. -/
theorem relink_slab (m : DescMem) (x type : Nat) (c : Prop) [Decidable c] :
    ((if c then relinkFull m x slot type else m) x).slab = (m x).slab := by
  split <;> simp [relinkFull]

theorem freeBig_spec (h : PageInv sz s P pool (pre ++ ⟨i, .chunks k used, 1⟩ :: post) lists)
    (hk : sz.exactShift < k) (hj : j ∈ used) (hbase : 2 ^ s ∣ base)
    (hp : p = pool.pageAddr sz (pool.pageDesc i) + (j <<< k)) :
    GivesChunk sz s P pool pre post i k used j (freeBig sz base pool p (pool.pageDesc i)) := by
  have hg := h.shelf.geo
  have hnk : ¬ k < sz.exactShift := by omega
  have hne : k ≠ sz.exactShift := by omega
  obtain ⟨-, hshift, -, hused, hbits, -⟩ :=
    h.shelf.ok (⟨i, .chunks k used, 1⟩ : Cell) (Shelf.mem_middle.mpr (.inl rfl))
  have hks : k < s := hg.pagesizeShift ▸ hshift.2
  have hshift' : (pool.desc (pool.pageDesc i)).slab &&& mpsSlabShiftMask = k :=
    hbits.shiftMask hg hks hne
  simp only [ChunkBits] at hbits
  rw [if_neg hnk, if_neg hne] at hbits
  have hcount : chunkCount sz k ≤ 32 := chunkCount_big hg hk (by omega)
  obtain ⟨haddr, hnum, -⟩ := chunk_addr hg hbase hks.le (hused.2 j hj).2 hp
  have hbit : (pool.desc (pool.pageDesc i)).slab &&& (1 <<< (j + mpsSlabMapShift)) ≠ 0 := by
    rw [Ne, and_one_shiftLeft, Nat.add_comm, hbits.2 j]
    simpa using hj
  have hfull : (pool.desc (pool.pageDesc i)).next = 0 ↔ Full sz k used := by
    refine (next_eq_zero_iff h.shelf).trans ?_
    by_cases hf : Full sz k used <;> simp [Cell.list, hf]
  -- the descriptors with the page on its list
  set d := if (pool.desc (pool.pageDesc i)).next = 0
    then relinkFull pool.desc (pool.pageDesc i) (k - pool.minShift) mpsSlabBig
    else pool.desc with hd
  have hdesc : d = if Full sz k used
      then relinkFull pool.desc (pool.pageDesc i) (k - pool.minShift) (chunkType sz k)
      else pool.desc := by
    rw [hd, chunkType, if_neg hnk, if_neg hne]
    exact if_congr hfull rfl rfl
  set pool₂ : SlabPool := { pool with
    desc := d.setSlab (pool.pageDesc i)
      (andNot (d (pool.pageDesc i)).slab (1 <<< (j + mpsSlabMapShift))) } with hpool₂
  have hslab : (pool₂.desc (pool.pageDesc i)).slab =
      andNot (pool.desc (pool.pageDesc i)).slab (1 <<< (j + mpsSlabMapShift)) := by
    rw [hpool₂, DescMem.setSlab_slab, if_pos rfl, hd, relink_slab]
  have hbits' : ∀ b, (pool₂.desc (pool.pageDesc i)).slab.testBit (mpsSlabMapShift + b) =
      decide (b ∈ used ∧ b ≠ j) := by
    intro b
    rw [hslab, testBit_andNot_one_shiftLeft, hbits.2 b]
    simp [Nat.add_comm j]
  have hlow : (pool₂.desc (pool.pageDesc i)).slab % 2 ^ 32 = k := by
    rw [← hbits.1, hslab]
    refine Nat.eq_of_testBit_eq ?_
    intro b
    simp only [Nat.testBit_mod_two_pow, testBit_andNot_one_shiftLeft]
    by_cases hb : b < 32
    · simp [hb, mpsSlabMapShift, show b ≠ j + 32 by omega]
    · simp [hb]
  have hs : SameHeader pool pool₂ := ⟨rfl, rfl, rfl, rfl, rfl, rfl, rfl, rfl, rfl⟩
  obtain ⟨lists', hinv⟩ := giveChunk (d := d) h hs rfl hj (by simp [hpool₂])
    (fun z hz => DescMem.setSlab_ne hz) hdesc
    (by
      simp only [ChunkBits]
      rw [if_neg hnk, if_neg hne]
      refine ⟨hlow, fun b => (hbits' b).trans (decide_eq_decide.mpr ?_)⟩
      rw [hused.1.mem_erase_iff]
      exact and_comm)
    (fun _ _ => rfl)
  have hempty : (pool₂.desc (pool.pageDesc i)).slab &&& mpsSlabMapMask = 0 ↔
      used.erase j = [] := by
    rw [erase_nil_iff hused.1]
    have hmap : ∀ b, ((pool₂.desc (pool.pageDesc i)).slab &&& mpsSlabMapMask).testBit b =
        decide (32 ≤ b ∧ (b - 32 ∈ used ∧ b - 32 ≠ j)) := by
      intro b
      rw [Nat.testBit_and, mpsSlabMapMask, Nat.testBit_mul_two_pow, Nat.testBit_two_pow_sub_one]
      by_cases hb : 32 ≤ b
      · obtain ⟨c, rfl⟩ := Nat.exists_eq_add_of_le hb
        rw [show 32 + c = mpsSlabMapShift + c from rfl, hbits']
        by_cases hc : c ∈ used
        · have := (hused.2 c hc).2
          simp [mpsSlabMapShift, show c < 32 by omega]
        · simp [mpsSlabMapShift, hc]
      · simp [hb]
    rw [eq_zero_iff hmap]
    constructor
    · intro hall j' hj'
      exact hall (32 + j') ⟨by omega, by simpa using hj'⟩
    · intro hall b hb
      exact hall (b - 32) hb.2
  refine givesChunk_of (k - pool.minShift) (sz.pagesize >>> k) hinv hs rfl rfl rfl
    (by rw [usable, reserved, if_neg hnk]; rfl)
    (relink_descsOnly h.shelf (hg.slot_lt hshift) _ hdesc).2 (fun _ _ => rfl) ?_
  simp only [freeBig, hshift', hnum]
  rw [if_neg (not_not.mpr haddr), if_pos hbit, ← hd, ← hpool₂, ite_not]
  exact if_congr hempty rfl rfl

/-- The test for a page whose bitmap marks no chunk but the `r` reserved ones: one word
for the part that is shared with them, and zero in all words behind. -/
theorem rest_clear {w : Nat → Nat} {r W : Nat} {live : Nat → Prop} [DecidablePred live]
    (hr : r / 64 < W)
    (hbits : ∀ n < W, ∀ b, (w n).testBit b =
      decide (b < 64 ∧ (n * 64 + b < r ∨ live (n * 64 + b))))
    (hlive : ∀ j, live j → r ≤ j ∧ j < 64 * W) :
    ¬ (andNot (w (r / 64)) (1 <<< (r % 64) - 1) ≠ 0 ∨
      ((List.range W).drop (r / 64 + 1)).any fun j => w j ≠ 0) ↔ ∀ j, ¬ live j := by
  have hfirst : andNot (w (r / 64)) (1 <<< (r % 64) - 1) = 0 ↔
      ∀ b, ¬ (b < 64 ∧ r ≤ r / 64 * 64 + b ∧ live (r / 64 * 64 + b)) := by
    refine eq_zero_iff ?_
    intro b
    rw [testBit_andNot, hbits _ hr, Nat.one_shiftLeft, Nat.testBit_two_pow_sub_one,
      ← decide_not, ← Bool.decide_and, decide_eq_decide]
    have h1 : b < r % 64 ↔ r / 64 * 64 + b < r := by omega
    rw [h1, ← Nat.not_lt]
    tauto
  have hlater : ∀ n < W, r / 64 < n → (w n = 0 ↔ ∀ b, ¬ (b < 64 ∧ live (n * 64 + b))) := by
    intro n hn hlt
    refine eq_zero_iff fun b => (hbits n hn b).trans (decide_eq_decide.mpr ?_)
    have : ¬ n * 64 + b < r := by omega
    tauto
  have hany : ¬ (((List.range W).drop (r / 64 + 1)).any fun j => w j ≠ 0) = true ↔
      ∀ n, r / 64 < n → n < W → w n = 0 := by
    simp only [List.any_eq_true, mem_drop_range, decide_eq_true_eq, not_exists, not_and, not_not,
      and_imp, Nat.succ_le_iff, ne_eq]
  rw [not_or, not_not, hfirst, hany]
  -- a live chunk has its bit in the first word of the rest or in a later one
  constructor
  · rintro ⟨h1, h2⟩ j hj
    have hb := hlive j hj
    have he := Nat.div_add_mod' j 64
    have hm := Nat.mod_lt j (show 64 > 0 by decide)
    rcases Nat.lt_or_ge (r / 64) (j / 64) with hlt | hge
    · have hn : j / 64 < W := by omega
      refine (hlater _ hn hlt).mp (h2 _ hlt hn) (j % 64) ?_
      rw [he]
      exact ⟨hm, hj⟩
    · have heq : j / 64 = r / 64 := by omega
      apply h1 (j % 64)
      rw [← heq, he]
      exact ⟨hm, hb.1, hj⟩
  · intro hall
    refine ⟨fun b hb => hall _ hb.2.2, fun n hlt hn => (hlater n hn hlt).mpr ?_⟩
    intro b hb
    exact hall _ hb.2

theorem freeSmall_spec (h : PageInv sz s P pool (pre ++ ⟨i, .chunks k used, 1⟩ :: post) lists)
    (hk : k < sz.exactShift) (hj : j ∈ used) (hbase : 2 ^ s ∣ base)
    (hp : p = pool.pageAddr sz (pool.pageDesc i) + (j <<< k)) :
    GivesChunk sz s P pool pre post i k used j (freeSmall sz base pool p (pool.pageDesc i)) := by
  have hg := h.shelf.geo
  obtain ⟨-, hshift, -, hused, hbits, -⟩ :=
    h.shelf.ok (⟨i, .chunks k used, 1⟩ : Cell) (Shelf.mem_middle.mpr (.inl rfl))
  have hks : k < s := hg.pagesizeShift ▸ hshift.2
  have hshift' : (pool.desc (pool.pageDesc i)).slab &&& mpsSlabShiftMask = k :=
    hbits.shiftMask hg hks hk.ne
  simp only [ChunkBits] at hbits
  rw [if_pos hk] at hbits
  obtain ⟨hslab, hbits⟩ := hbits
  obtain ⟨haddr, hnum, hpage⟩ := chunk_addr hg hbase hks.le (hused.2 j hj).2 hp
  set bm := pool.pageAddr sz (pool.pageDesc i) with hbm
  have hcount := bitmapWords_mul hg hk
  have hres : reserved sz k = bitmapChunks sz k := if_pos hk
  have hroom := reserved_lt hg hks
  have hjb := hused.2 j hj
  have hword : j / 64 < bitmapWords sz k := by omega
  have hbit : pool.bitmap bm (j / 64) &&& (1 <<< (j % 64)) ≠ 0 := by
    rw [Ne, and_one_shiftLeft, hbits _ hword, Nat.div_add_mod']
    simp [hj, Nat.mod_lt]
  have hfull : (pool.desc (pool.pageDesc i)).next = 0 ↔ Full sz k used := by
    refine (next_eq_zero_iff h.shelf).trans ?_
    by_cases hf : Full sz k used <;> simp [Cell.list, hf]
  -- a full page goes back to its list first, and the bit is cleared after that
  set d := if Full sz k used
    then relinkFull pool.desc (pool.pageDesc i) (k - pool.minShift) (chunkType sz k)
    else pool.desc with hd
  set pool₁ : SlabPool := { pool with desc := d } with hpool₁
  set pool₂ := pool₁.setBitmap bm (j / 64) (andNot (pool.bitmap bm (j / 64)) (1 <<< (j % 64)))
    with hpool₂
  have hbits' : ∀ n < bitmapWords sz k, ∀ b, (pool₂.bitmap bm n).testBit b =
      decide (b < 64 ∧ (n * 64 + b < reserved sz k ∨ n * 64 + b ∈ used ∧ n * 64 + b ≠ j)) := by
    intro n hn b
    rw [hpool₂, setBitmap_bitmap]
    split
    · next heq =>
      subst heq
      rw [testBit_andNot_one_shiftLeft, hbits _ hn, ← decide_not, ← Bool.decide_and,
        decide_eq_decide]
      exact cleared_iff (by omega) (by omega)
    · next hne =>
      refine (hbits _ hn b).trans
        (decide_eq_decide.mpr (and_congr_right fun hb => or_congr_right ?_))
      exact (and_iff_left (by omega)).symm
  have hs : SameHeader pool pool₂ := ⟨rfl, rfl, rfl, rfl, rfl, rfl, rfl, rfl, rfl⟩
  obtain ⟨lists', hinv⟩ := giveChunk (d := d) h hs rfl hj ⟨rfl, rfl⟩
    (fun _ _ => rfl) hd
    (by
      simp only [ChunkBits]
      rw [if_pos hk, hs.pageDesc, hs.pageAddr, ← hbm]
      refine ⟨?_, fun n hn b => (hbits' n hn b).trans (decide_eq_decide.mpr ?_)⟩
      · show (d (pool.pageDesc i)).slab = k
        rw [hd, relink_slab, hslab]
      · rw [hused.1.mem_erase_iff]
        exact and_congr_right fun _ => or_congr_right and_comm)
    (wordsOff_bitmap hg (k := k) fun o ho => Function.update_of_ne (ho _ hword) _ _)
  have hempty : ¬ (andNot (pool₂.bitmap bm (bitmapChunks sz k / 64))
        (1 <<< (bitmapChunks sz k % 64) - 1) ≠ 0 ∨
      ((List.range (bitmapWords sz k)).drop (bitmapChunks sz k / 64 + 1)).any
        fun j => pool₂.bitmap bm j ≠ 0) ↔ used.erase j = [] := by
    rw [← hres, erase_nil_iff hused.1]
    refine rest_clear (w := pool₂.bitmap bm) (by omega) hbits' ?_
    intro j' hj'
    have := hused.2 j' hj'.1
    omega
  refine givesChunk_of (k - pool.minShift) ((sz.pagesize >>> k) - bitmapChunks sz k) hinv hs rfl
    rfl rfl (by rw [usable, hres]; rfl)
    (relink_descsOnly (v := 0) h.shelf (hg.slot_lt hshift) _ hd).1
    (fun o ho => Function.update_of_ne (ho hk _ hword) _ _) ?_
  simp only [freeSmall, hshift', hnum, hpage]
  rw [if_neg (not_not.mpr haddr), if_pos hbit]
  have hdesc : (if (pool.desc (pool.pageDesc i)).next = 0 then { pool with
      desc := relinkFull pool.desc (pool.pageDesc i) (k - pool.minShift) mpsSlabSmall }
      else pool) = pool₁ := by
    rw [hpool₁, hd, chunkType, if_pos hk]
    by_cases hf : Full sz k used
    · rw [if_pos (hfull.mpr hf), if_pos hf]
    · rw [if_neg fun hn => hf (hfull.mp hn), if_neg hf]
  rw [hdesc]
  rw [show pool₁.setBitmap bm (j / 64) (andNot (pool₁.bitmap bm (j / 64)) (1 <<< (j % 64))) = pool₂
    from rfl]
  rw [← if_congr hempty rfl rfl, ite_not]

end Give

end MpsShdict
