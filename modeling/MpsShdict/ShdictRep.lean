import MpsShdict.ShdictShape
import MpsShdict.SlabComplete

/-! # Entries and chunks

`Rep` ties the entries of a dictionary to the allocator: the live blocks are the header of
the tree, one chunk for each entry and for each element, and whatever else is listed as
`spare`. What the code does to the entries is stated here once and for all, in terms of
the list of entries, the one used last first.

A call may come from any process. `base` is where that process has the pool mapped, and
every result holds for all of them alike: the pool after a step is the same one. The spare
blocks are those that the code holds in between, a chunk that has just been allocated or
the elements of a list that is being freed, and in the end those that it has lost track
of.

The steps that most calls share are done here: an entry is used, one is removed with its
list, entries are evicted off the end of the queue, a chunk is allocated with or without
eviction, and a key is looked up. `expireEntries` and `evictEntries` say what becomes of
the list.
-/
namespace MpsShdict

open RedBlack RedBlack.RbTree
open Words

/-- The blocks of a dictionary: the header of the tree, those of the entries, and the
spare ones. -/
def dictBlocks (d : Shdict) (L : List Entry) (spare : List Block) : List Block :=
  ⟨d.pool.data, sizeofTree⟩ :: (L.flatMap Entry.blocks ++ spare)

/-- The live blocks of the pool. -/
def Owns (sz : Sizes) (s : Nat) (pool : SlabPool) (live : List Block) : Prop :=
  SlabInv sz s pool.pageTotal pool live

/-- **The dictionary holds the entries `L`**, and the blocks `spare` besides. Every live
block of the pool is accounted for. -/
structure Rep (sz : Sizes) (s : Nat) (ord : Prop) (d : Shdict) (L : List Entry)
    (spare : List Block) : Prop where
  shape : Shape ord d L
  owns : Owns sz s d.pool (dictBlocks d L spare)
  spare_pos : ∀ b ∈ spare, 0 < b.size

/-- The header of the pool stays, and no message but of a lack of memory is written. So no
free of a call is ever refused. -/
structure Quiet (p q : SlabPool) : Prop extends SameHeader p q where
  log : ∀ m ∈ q.log, m ∈ p.log ∨ m = .noMemory

theorem Quiet.refl (p : SlabPool) : Quiet p p := ⟨.refl p, fun _ h => .inl h⟩

theorem Quiet.trans {p q r : SlabPool} (h₁ : Quiet p q) (h₂ : Quiet q r) : Quiet p r := by
  refine ⟨h₁.toSameHeader.trans h₂.toSameHeader, ?_⟩
  intro m hm
  rcases h₂.log m hm with hm | hm
  · exact h₁.log m hm
  · exact .inr hm

section Pool
variable {sz : Sizes} {s base size i : Nat} {ord : Prop} {pool : SlabPool} {live live' : List Block}
  {b : Block} {d d' : Shdict} {L : List Entry} {spare spare' : List Block} {env : Env}

theorem Owns.perm (h : Owns sz s pool live) (hp : live.Perm live') : Owns sz s pool live' :=
  SlabInv.perm h hp

/-- A block of one's own goes back, from wherever the pool is mapped. -/
theorem Owns.free (h : Owns sz s pool (b :: live)) :
    (∀ base, 2 ^ s ∣ base →
      mpsSlabFreeLocked sz base pool b.off = mpsSlabFreeLocked sz 0 pool b.off) ∧
      Quiet pool (mpsSlabFreeLocked sz 0 pool b.off) ∧
      Owns sz s (mpsSlabFreeLocked sz 0 pool b.off) live := by
  obtain ⟨hs, hlog, hinv⟩ := mpsSlabFreeLocked_spec h (Nat.dvd_zero (2 ^ s)) (b := b) (by simp)
  refine ⟨fun base hbase => h.free_base hbase (by simp), ⟨hs, fun m hm => .inl (hlog ▸ hm)⟩, ?_⟩
  rw [List.erase_cons_head] at hinv
  rw [Owns, hs.pageTotal]
  exact hinv

/-- An allocation, from a pool of one page or more. -/
theorem Owns.alloc (h : Owns sz s pool live) (hne : live ≠ []) (size : Nat) :
    ∃ pool' p, mpsSlabAllocLocked sz pool.poolEnd pool size = some (pool', p) ∧
      Quiet pool pool' ∧ Owns sz s pool' ((p.map fun p => ⟨p, size⟩).toList ++ live) := by
  obtain ⟨b, hb⟩ := List.exists_mem_of_ne_nil live hne
  have hP := SlabInv.pages_pos h hb
  have hquiet : ∀ {pool' p}, mpsSlabAllocLocked sz pool.poolEnd pool size = some (pool', p) →
      SameHeader pool pool' → Quiet pool pool' := by
    intro pool' p he hs
    refine ⟨hs, ?_⟩
    intro m hm
    rcases SlabInv.alloc_log h hP he with hlog | hlog
    · exact .inl (hlog ▸ hm)
    · rw [hlog] at hm
      rcases List.mem_cons.mp hm with hm | hm
      · exact .inr hm
      · exact .inl hm
  rcases mpsSlabAllocLocked_spec h size (SlabInv.pageTotal_lt h hP) with
    ⟨pool', p, he, hs, -, h'⟩ | ⟨pool', he, hs, -, -, h'⟩
  · refine ⟨pool', some p, he, hquiet he hs, ?_⟩
    rw [Owns, hs.pageTotal]
    exact h'
  · refine ⟨pool', none, he, hquiet he hs, ?_⟩
    rw [Owns, hs.pageTotal]
    exact h'

/-- The pages begin behind the header of the pool. -/
theorem Owns.start_pos (h : Owns sz s pool live) : 0 < pool.start := by
  obtain ⟨cells, lists, h⟩ := h
  have hg := h.inv.shelf.geo
  have h1 := hg.last_le
  have h2 := hg.last
  have h3 := hg.pages
  simp only [SlabPool.pageDesc, slotOff, sizeofPool] at h2 h3
  omega

theorem Owns.le_s (h : Owns sz s pool live) : 12 ≤ s := by
  obtain ⟨cells, lists, h⟩ := h
  exact h.inv.shelf.geo.le_s

/-- A header of a list is in a chunk of more than 64 bytes. -/
theorem Owns.aligned (h : Owns sz s d.pool (dictBlocks d L spare)) :
    ∀ e ∈ L, ∀ elems, e.value = .list elems → 8 ∣ e.off := by
  intro e he elems hv
  have hb : e.block ∈ dictBlocks d L spare := by
    simp only [dictBlocks, List.mem_cons, List.mem_append, List.mem_flatMap]
    exact .inr (.inl ⟨e, he, List.mem_cons_self⟩)
  apply SlabInv.aligned (j := 3) h hb (by have := Owns.le_s h; omega)
  have := e.le_size
  simp only [Entry.block, offsetofColor, offsetofData] at this ⊢
  omega

/-- The chunks of a dictionary are apart. -/
theorem Owns.laid (h : Owns sz s d.pool (dictBlocks d L spare)) (hsp : ∀ b ∈ spare, 0 < b.size) :
    Laid d.pool.poolEnd d.pool.data L :=
  (SlabInv.apart h).laid (Owns.start_pos h) hsp h.aligned

theorem Rep.laid (h : Rep sz s ord d L spare) : Laid d.pool.poolEnd d.pool.data L :=
  h.owns.laid h.spare_pos

theorem Rep.eight_dvd (h : Rep sz s ord d L spare) (hbase : 2 ^ s ∣ base) : 8 ∣ base :=
  (Nat.pow_dvd_pow 2 (show 3 ≤ s by have := Owns.le_s h.owns; omega)).trans hbase

theorem dictBlocks_data (hdata : d'.pool.data = d.pool.data) :
    dictBlocks d' L spare = dictBlocks d L spare := by
  rw [dictBlocks, dictBlocks, hdata]

/-- **`mps_slab_alloc_locked`** gives a block to the dictionary, or none. -/
theorem Rep.slabAlloc (h : Rep sz s ord d L spare) (env : Env) (i size : Nat) :
    ∃ pool p, d.slabAlloc sz env i size = some ({ d with pool := pool }, p) ∧
      Quiet d.pool pool ∧
      Rep sz s ord { d with pool := pool } L
        ((p.map fun p => ⟨p, max 1 size⟩).toList ++ spare) := by
  by_cases hr : env.refuse i = true
  · exact ⟨d.pool, none, by rw [Shdict.slabAlloc, if_pos hr], .refl _, h⟩
  · obtain ⟨pool, p, he, hs, hown⟩ := Owns.alloc h.owns (by simp [dictBlocks]) size
    replace hown :
        Owns sz s pool ((p.map fun p => ⟨p, max 1 size⟩).toList ++ dictBlocks d L spare) := by
      cases p with
      | none => exact hown
      | some p => exact SlabInv.atLeastOne hown
    refine ⟨pool, p, ?_, hs, h.shape.setPool hs.data, ?_, ?_⟩
    · rw [Shdict.slabAlloc, if_neg hr, Shdict.rounds, he]
      rfl
    · rw [dictBlocks, hs.data]
      apply hown.perm
      rw [dictBlocks]
      refine List.perm_middle.trans (List.Perm.cons _ ?_)
      rw [← List.append_assoc, ← List.append_assoc]
      exact List.perm_append_comm.append_right _
    · intro b hb
      rcases List.mem_append.mp hb with hb | hb
      · cases p <;> simp at hb
        rw [hb]
        exact Nat.le_max_left 1 size
      · exact h.spare_pos b hb

end Pool

/-! ### Taking entries out -/

section Remove
variable {sz : Sizes} {s n : Nat} {ord : Prop} {d : Shdict} {e : Entry} {A B L : List Entry}
  {spare rest : List Block}

/-- An entry is used. -/
theorem Rep.touch (h : Rep sz s ord d (A ++ e :: B) spare) :
    Rep sz s ord (d.touch e.off) (e :: (A ++ B)) spare := by
  refine ⟨h.shape.touch h.laid, h.owns.perm ?_, h.spare_pos⟩
  refine List.Perm.cons _ (List.Perm.append_right _ ?_)
  exact (List.perm_middle.flatMap_right Entry.blocks)

/-- **The node of an entry is taken out and freed.**  What becomes of its elements is
not looked at. -/
theorem unlink_spec (hl : Laid d.pool.poolEnd d.pool.data (A ++ e :: B))
    (h : Hung ord d ((A ++ e :: B).map Entry.off)) (hok : ∀ x ∈ A ++ B, EntryOk d x)
    (hown : Owns sz s d.pool (e.block :: dictBlocks d (A ++ B) rest))
      (hpos : ∀ b ∈ rest, 0 < b.size) :
    ∃ d', (∀ base, 2 ^ s ∣ base → d.unlink sz base e.off = some d') ∧
      Rep sz s ord d' (A ++ B) rest ∧ d'.sd = d.sd ∧ Quiet d.pool d'.pool := by
  obtain ⟨rb, hdel, hshape⟩ := h.unlink hl rfl hok
  obtain ⟨hbase, hs, hown'⟩ := hown.free
  refine ⟨_, ?_, ⟨hshape.setPool hs.data, ?_, hpos⟩, rfl, hs⟩
  · intro base hb
    have hrounds : ({ d with queue := mpsQueueRemove d.queue (sdQueue e.off) } : Shdict).rounds =
        d.rounds := rfl
    rw [Shdict.unlink]
    simp only [hrounds, hdel, Option.bind_eq_bind, Option.bind_some, Shdict.slabFree]
    rw [show mpsSlabFreeLocked sz base d.pool e.off = mpsSlabFreeLocked sz 0 d.pool e.off from
      hbase base hb]
    rfl
  · have : dictBlocks d (A ++ B) rest =
        ⟨(mpsSlabFreeLocked sz 0 d.pool e.block.off).data, sizeofTree⟩ ::
        ((A ++ B).flatMap Entry.blocks ++ rest) := by rw [dictBlocks, hs.data]
    rw [this] at hown'
    exact hown'

/-- The elements of a list are freed, from any of them on. -/
theorem freeListNodes_spec {head : Nat} (ys : List Elem) :
    ∀ (xs : List Nat) (fuel : Nat) {d : Shdict},
    IsQueue d.queue head (xs ++ ys.map Elem.off) → Owns sz s d.pool (ys.map Elem.block ++ rest) →
    ys.length < fuel →
    ∃ pool, (∀ base, 2 ^ s ∣ base → Shdict.freeListNodes sz base head fuel d
        ((ys.map Elem.off).head?.getD head) = some { d with pool := pool }) ∧
      Quiet d.pool pool ∧ Owns sz s pool rest := by
  induction ys with
  | nil =>
    intro xs fuel d _ hown hfuel
    obtain ⟨fuel, rfl⟩ : ∃ k, fuel = k + 1 := ⟨fuel - 1, by omega⟩
    exact ⟨d.pool, fun base _ => by simp [Shdict.freeListNodes], .refl _, hown⟩
  | cons y ys ih =>
    intro xs fuel d hq hown hfuel
    obtain ⟨fuel, rfl⟩ : ∃ k, fuel = k + 1 := ⟨fuel - 1, by omega⟩
    obtain ⟨hbase, hs, hown'⟩ := Owns.free hown
    have hnext : mpsQueueNext d.queue y.off = (ys.map Elem.off).head?.getD head := hq.next
    have hne : y.off ≠ head := by
      intro he
      exact (List.nodup_cons.mp hq.nodup).1 (by simp [← he])
    have hq' : IsQueue (d.slabFree sz 0 y.off).queue head ((xs ++ [y.off]) ++ ys.map Elem.off) := by
      show IsQueue d.queue head _
      simpa using hq
    obtain ⟨pool, hrun, hs', hown''⟩ := ih _ fuel (d := d.slabFree sz 0 y.off) hq' hown'
      (by simp only [List.length_cons] at hfuel; omega)
    refine ⟨pool, ?_, hs.trans hs', hown''⟩
    intro base hb
    have hfree : d.slabFree sz base y.off = d.slabFree sz 0 y.off := by
      rw [Shdict.slabFree, Shdict.slabFree]
      exact congrArg (fun pool => { d with pool := pool }) (hbase base hb)
    simp only [List.map_cons, List.head?_cons, Option.getD_some]
    rw [Shdict.freeListNodes, if_neg hne, hfree]
    show Shdict.freeListNodes sz base head fuel _ (mpsQueueNext d.queue y.off) = _
    rw [hnext]
    exact hrun base hb

theorem IsQueue.first {q : QueueMem} {head : Nat} {xs : List Nat} (h : IsQueue q head xs) :
    mpsQueueHead q head = xs.head?.getD head := by
  cases xs with
  | nil => exact h.head_nil
  | cons x xs => exact h.head

/-- The entries beside one of them, as the owner of their blocks sees them. -/
theorem dictBlocks_middle : (dictBlocks d (A ++ e :: B) rest).Perm
    (e.blocks ++ dictBlocks d (A ++ B) rest) := by
  simp only [dictBlocks, List.flatMap_append, List.flatMap_cons]
  refine List.Perm.trans (List.Perm.cons _ ?_) List.perm_middle.symm
  rw [List.append_assoc, List.append_assoc, List.append_assoc]
  refine List.perm_append_comm_assoc _ _ _

/-- **An entry is taken out and freed, with its list if it has one.** All of its chunks go
back, from whichever process it happens. -/
theorem Rep.removeEntry (h : Rep sz s ord d (A ++ e :: B) spare) :
    ∃ d', (∀ base, 2 ^ s ∣ base → d.removeEntry sz base e.off e.key.length = some d') ∧
      Rep sz s ord d' (A ++ B) spare ∧ d'.sd = d.sd ∧ Quiet d.pool d'.pool := by
  have he := h.shape.entries e mem_middle
  have hl := h.laid
  have hv := he.value
  have hown : Owns sz s d.pool (e.blocks ++ dictBlocks d (A ++ B) spare) :=
    h.owns.perm dictBlocks_middle
  unfold ValueOk at hv
  cases hval : e.value with
  | plain valueType bytes =>
    rw [hval] at hv
    have hne : ¬ (d.sd e.off).valueType = .tlist := by
      rw [hv.1]
      exact hv.2.1
    rw [Entry.blocks_plain hval] at hown
    obtain ⟨d', hrun, hrep, hsd, hs⟩ := unlink_spec hl h.shape.hung
      (fun x hx => h.shape.entries x (mem_sides hx)) hown h.spare_pos
    refine ⟨d', ?_, hrep, hsd, hs⟩
    intro base hb
    rw [Shdict.removeEntry, if_neg hne]
    exact hrun base hb
  | list elems =>
    rw [hval] at hv
    obtain ⟨htype, -, hq, -⟩ := hv
    rw [Entry.blocks_of_list hval] at hown
    replace hown : Owns sz s d.pool
      (elems.map Elem.block ++ (e.block :: dictBlocks d (A ++ B) spare)) :=
      hown.perm List.perm_middle.symm
    have hlen : elems.length < d.rounds := by
      have := hl.elems e mem_middle
      rwa [hval] at this
    -- the elements are freed one by one before the entry goes
    obtain ⟨pool, hfree, hsp, hown'⟩ := freeListNodes_spec elems [] _ hq hown hlen
    set d₁ : Shdict := { d with pool := pool } with hd₁
    have hshape := h.shape.setPool hsp.data
    have hl₁ : Laid d₁.pool.poolEnd d₁.pool.data (A ++ e :: B) := by
      rw [hd₁]
      simp only [hsp.poolEnd, hsp.data]
      exact hl
    have hown₁ : Owns sz s d₁.pool (e.block :: dictBlocks d₁ (A ++ B) spare) := by
      rw [dictBlocks_data (d := d) hsp.data]
      exact hown'
    obtain ⟨d', hrun, hrep, hsd, hs⟩ := unlink_spec hl₁ hshape.hung
      (fun x hx => hshape.entries x (mem_sides hx)) hown₁ h.spare_pos
    refine ⟨d', ?_, hrep, hsd, hsp.trans hs⟩
    intro base hb
    rw [Shdict.removeEntry, if_pos htype]
    simp only [mpsShdictGetListHead_base (h.eight_dvd hb)]
    have hhead : mpsQueueHead d.queue (mpsShdictGetListHead 0 e.off e.key.length) =
        (elems.map Elem.off).head?.getD e.listHead := hq.first
    rw [hhead]
    rw [show Shdict.freeListNodes sz base (mpsShdictGetListHead 0 e.off e.key.length) d.rounds d
      ((elems.map Elem.off).head?.getD e.listHead) = some d₁ from hfree base hb]
    exact hrun base hb

end Remove

/-! ### Expiry and eviction -/

/-- What `mps_shdict_expire` leaves of the entries, `left` being `3 - n`, and how many it
takes. It looks at the end of the list only. -/
def expireEntries (now : Nat) : Nat → List Entry → List Entry × Nat
  | 0, L => (L, 0)
  | left + 1, L =>
    match L.getLast? with
    | none => (L, 0)
    | some e =>
      if 3 - (left + 1) ≠ 0 ∧ expireKeeps e.expires now then (L, 0)
      else
        let r := expireEntries now left L.dropLast
        (r.1, r.2 + 1)

/-- What is left of the entries by `rounds` rounds of the loop that evicts, the first of
them being round `i`. -/
def evictEntries (env : Env) : Nat → Nat → List Entry → List Entry
  | _, 0, L => L
  | i, rounds + 1, L =>
    evictEntries env (i + 1) rounds (expireEntries (env.mpsClockTimeMs (3 + i)) 3 L).1

section Evict
variable {sz : Sizes} {s size : Nat} {ord : Prop} {d : Shdict} {e : Entry} {A B L : List Entry}
  {spare : List Block} {env : Env}

theorem expireEntries_nil (now left : Nat) : expireEntries now left [] = ([], 0) := by
  cases left <;> rfl

/-- Nothing but the oldest entries goes. -/
theorem expireEntries_front (now left : Nat) (L : List Entry) :
    (expireEntries now left L).1 <+: L := by
  induction left generalizing L with
  | zero => exact List.prefix_rfl
  | succ left ih =>
    rw [expireEntries]
    cases L.getLast? with
    | none => exact List.prefix_rfl
    | some e =>
      simp only
      split
      · exact List.prefix_rfl
      · exact (ih _).trans (List.dropLast_prefix L)

/-- **`mps_shdict_expire`** takes entries off the end of the LRU queue. -/
theorem expireLoop_spec (now left : Nat) (h : Rep sz s ord d L spare) :
    ∃ d', (∀ base, 2 ^ s ∣ base →
        expireLoop sz base now left d = some (d', (expireEntries now left L).2)) ∧
      Rep sz s ord d' (expireEntries now left L).1 spare ∧ d'.sd = d.sd ∧
      Quiet d.pool d'.pool := by
  -- induction on the rounds left; the loop also ends at an empty queue or an entry that is kept
  induction left generalizing d L with
  | zero => exact ⟨d, fun _ _ => rfl, h, rfl, .refl _⟩
  | succ left ih =>
    have hlru := h.shape.hung.lru
    rcases List.eq_nil_or_concat' L with rfl | ⟨A, e, rfl⟩
    · have hempty : mpsQueueEmpty d.queue d.lruQueue = true := hlru.empty_iff.mpr rfl
      refine ⟨d, ?_, h, rfl, .refl _⟩
      intro base _
      rw [expireLoop, if_pos hempty]
      rfl
    · have hempty : ¬ mpsQueueEmpty d.queue d.lruQueue = true := by
        rw [hlru.empty_iff]
        simp
      have hlast : nodeOfQueue (mpsQueueLast d.queue d.lruQueue) = e.off := by
        simp only [List.map_append, List.map_cons, List.map_nil] at hlru
        rw [hlru.last]
        simp only [nodeOfQueue, sdQueue, offsetofQueue, offsetofColor]
        omega
      have he := h.shape.entries e (by simp)
      have hexp : (d.sd e.off).expires = e.expires := he.expires
      have hgl : (A ++ [e]).getLast? = some e := by simp
      rw [expireEntries, hgl]
      simp only [List.dropLast_concat]
      by_cases hkeep : 3 - (left + 1) ≠ 0 ∧ expireKeeps e.expires now
      · rw [if_pos hkeep]
        refine ⟨d, ?_, h, rfl, .refl _⟩
        intro base _
        rw [expireLoop, if_neg hempty]
        simp only [hlast, hexp]
        rw [if_pos hkeep]
      · rw [if_neg hkeep]
        obtain ⟨d₁, hrun, hrep, hsd, hs⟩ := Rep.removeEntry (A := A) (B := []) h
        rw [List.append_nil] at hrep
        obtain ⟨d', hrun', hrep', hsd', hs'⟩ := ih hrep
        refine ⟨d', ?_, hrep', hsd'.trans hsd, hs.trans hs'⟩
        intro base hb
        rw [expireLoop, if_neg hempty]
        simp only [hlast, hexp]
        rw [if_neg hkeep, he.keyLen, hrun base hb]
        simp only [Option.bind_eq_bind, Option.bind_some, hrun' base hb]

/-- What an allocation for an entry has come to: the chunk, if there is one, and the
rounds of forced eviction. -/
structure Allocated where
  node : Option Nat
  rounds : Nat

/-- What the code sees to in an allocation: there are no more than 30 rounds, and none for
a call that does not evict by force. -/
structure Allocated.Ok (r : Allocated) (force : Bool) : Prop where
  rounds_le : r.rounds ≤ 30
  unforced : force = false → r.rounds = 0

/-- **The loop that evicts.** It ends with a chunk, with nothing left to evict, or after
its last round; in each case the entries that are left are the first ones. -/
theorem evictLoop_spec (env : Env) (size left : Nat) (hleft : left ≤ 30)
    (h : Rep sz s ord d L spare) :
    ∃ d' node rounds, (∀ base, 2 ^ s ∣ base →
        evictLoop sz base env size left d = some (d', node, rounds)) ∧ rounds ≤ left ∧
      Rep sz s ord d' (evictEntries env (30 - left) rounds L)
        ((node.map fun p => ⟨p, max 1 size⟩).toList ++ spare) ∧ Quiet d.pool d'.pool := by
  -- induction on the rounds left, each of which reads the clock and may free something
  induction left generalizing d L with
  | zero => exact ⟨d, none, 0, fun _ _ => rfl, le_rfl, h, .refl _⟩
  | succ left ih =>
    set now := env.mpsClockTimeMs (3 + (30 - (left + 1))) with hnow
    obtain ⟨d₁, hrun₁, hrep₁, -, hs₁⟩ := expireLoop_spec now 3 h
    by_cases hfreed : (expireEntries now 3 L).2 = 0
    -- a round takes the last entry whatever its deadline, so nothing was left
    · have hL : L = [] := by
        by_contra hne
        obtain ⟨e, he⟩ : ∃ e, L.getLast? = some e :=
          ⟨L.getLast hne, List.getLast?_eq_some_getLast hne⟩
        rw [expireEntries, he] at hfreed
        simp at hfreed
      subst hL
      refine ⟨d₁, none, 0, ?_, Nat.zero_le _, ?_, hs₁⟩
      · intro base hb
        rw [evictLoop]
        simp only [mpsShdictExpire, ← hnow, hrun₁ base hb,
          Option.bind_eq_bind, Option.bind_some, hfreed, ↓reduceIte]
      · rw [expireEntries_nil] at hrep₁
        exact hrep₁
    · obtain ⟨pool, p, halloc, hs₂, hrep₂⟩ := hrep₁.slabAlloc env (1 + (30 - (left + 1))) size
      cases p with
      | some p =>
        refine ⟨_, some p, 1, ?_, by omega, hrep₂, hs₁.trans hs₂⟩
        intro base hb
        rw [evictLoop]
        simp only [mpsShdictExpire, ← hnow, hrun₁ base hb,
          Option.bind_eq_bind, Option.bind_some, hfreed, ↓reduceIte, halloc]
      | none =>
        obtain ⟨d', node, rounds, hrun', hle, hrep', hs'⟩ := ih (by omega) hrep₂
        refine ⟨d', node, rounds + 1, ?_, by omega, ?_, hs₁.trans (hs₂.trans hs')⟩
        · intro base hb
          rw [evictLoop]
          simp only [mpsShdictExpire, ← hnow, hrun₁ base hb,
            Option.bind_eq_bind, Option.bind_some, hfreed, ↓reduceIte, halloc, hrun' base hb]
        · rw [evictEntries, ← hnow, show 30 - (left + 1) + 1 = 30 - left by omega]
          exact hrep'

/-- **The chunk for a new entry**, and what is left of the entries for it. -/
theorem allocEntry_spec (env : Env) (size : Nat) (force : Bool) (h : Rep sz s ord d L spare) :
    ∃ d', ∃ r : Allocated, (∀ base, 2 ^ s ∣ base →
        allocEntry sz base env size force d = some (d', r.node, r.rounds)) ∧ r.Ok force ∧
      Rep sz s ord d' (evictEntries env 0 r.rounds L)
        ((r.node.map fun p => ⟨p, max 1 size⟩).toList ++ spare) ∧ Quiet d.pool d'.pool := by
  obtain ⟨pool, p, halloc, hs, hrep⟩ := h.slabAlloc env 0 size
  cases p with
  | some p =>
    refine ⟨_, ⟨some p, 0⟩, ?_, ⟨by simp, fun _ => rfl⟩, hrep, hs⟩
    intro base _
    simp only [allocEntry, halloc, Option.bind_eq_bind, Option.bind_some]
  | none =>
    cases force with
    | false =>
      refine ⟨_, ⟨none, 0⟩, ?_, ⟨by simp, fun _ => rfl⟩, hrep, hs⟩
      intro base _
      simp only [allocEntry, halloc, Option.bind_eq_bind, Option.bind_some]
      rfl
    | true =>
      obtain ⟨d', node, rounds, hrun, hle, hrep', hs'⟩ := evictLoop_spec env size 30 le_rfl hrep
      refine ⟨d', ⟨node, rounds⟩, ?_, ⟨hle, fun hf => by cases hf⟩, hrep', hs.trans hs'⟩
      intro base hb
      simp only [allocEntry, halloc, Option.bind_eq_bind, Option.bind_some, ↓reduceIte]
      exact hrun base hb

end Evict

/-! ### Looking up -/

/-- What a lookup of `key` finds among the entries `L`: an entry of the key, and under
`ord` one whenever there is any. -/
structure Finds (ord : Prop) (L : List Entry) (key : Bytes) (found : Option Entry) : Prop where
  sound : ∀ e, found = some e → e ∈ L ∧ e.key = key
  complete : ord → found = none → ∀ e ∈ L, e.key ≠ key

/-- What a lookup comes to: an entry that has not expired, one that has, or none. -/
inductive Hit where
  | live (e : Entry)
  | expired (e : Entry)
  | absent

/-- What a lookup comes to at `now` that finds `found`. -/
def hit (now : Nat) : Option Entry → Hit
  | none => .absent
  | some e => if lookupExpired e.expires now then .expired e else .live e

/-- The answer of a lookup. -/
def Hit.lookup : Hit → Lookup
  | .live e => .ok e.off
  | .expired e => .done e.off
  | .absent => .declined

/-- The entries after a lookup. -/
def lookupEntries (found : Option Entry) (L : List Entry) : List Entry :=
  match found with
  | none => L
  | some e => e :: L.erase e

section Find
variable {sz : Sizes} {s : Nat} {ord : Prop} {d : Shdict} {e : Entry} {L : List Entry}
  {spare : List Block}

/-- The way down of a lookup ends at an entry of the key or nowhere. -/
theorem Rep.findNode (h : Rep sz s ord d L spare) (key : Bytes) :
    ∃ found, Finds ord L key found ∧
      findNode d (ngxMurmurHash2 key) key d.rounds d.rbtree.tree.root =
        some (found.map Entry.off) := by
  obtain ⟨t, hr, hp, hs⟩ := h.shape.hung.tree
  have hfuel : t.inorder.length < d.rounds := by
    have := h.laid.length
    rw [hp.length_eq, List.length_map, Shdict.rounds]
    omega
  obtain ⟨found, hrun, hreach⟩ := findNode_root (ngxMurmurHash2 key) key hr hfuel
  cases found with
  | none =>
    refine ⟨none, ⟨by simp, ?_⟩, hrun⟩
    intro ho _ e he hkey
    have hm : e.off ∈ t.inorder := hp.mem_iff.mpr (List.mem_map.mpr ⟨e, he, rfl⟩)
    have hok := h.shape.entries e he
    exact hreach.complete (hs ho) rfl e.off hm ⟨hkey ▸ hok.hash, hok.keyOf.trans hkey⟩
  | some x =>
    obtain ⟨hm, hhash, hkey⟩ := hreach.sound x rfl
    obtain ⟨e, he, rfl⟩ := List.mem_map.mp (hp.mem_iff.mp hm)
    refine ⟨some e, ⟨?_, by simp⟩, hrun⟩
    intro e' he'
    obtain rfl := Option.some.inj he'
    exact ⟨he, (h.shape.entries e he).keyOf.symm.trans hkey⟩

theorem erase_middle {A B : List Entry} (hnd : (A ++ e :: B).Nodup) :
    (A ++ e :: B).erase e = A ++ B := by
  have : e ∉ A := fun hm => (List.nodup_middle.mp hnd).notMem (List.mem_append_left _ hm)
  rw [List.erase_append_right _ this, List.erase_cons_head]

/-- The entry that is used is at the head. -/
theorem Rep.touch_erase (h : Rep sz s ord d L spare) (he : e ∈ L) :
    Rep sz s ord (d.touch e.off) (e :: L.erase e) spare := by
  have hnd := h.laid.nodup
  obtain ⟨A, B, rfl⟩ := List.append_of_mem he
  rw [erase_middle hnd]
  exact h.touch

/-- **`mps_shdict_lookup`** finds an entry or none, and moves it to the head. -/
theorem mpsShdictLookup_spec (h : Rep sz s ord d L spare) (now : Nat) (key : Bytes) :
    ∃ found d', Finds ord L key found ∧
      mpsShdictLookup d now (ngxMurmurHash2 key) key = some (d', (hit now found).lookup) ∧
      Rep sz s ord d' (lookupEntries found L) spare ∧ d'.sd = d.sd ∧ d'.pool = d.pool := by
  obtain ⟨found, hfound, hrun⟩ := h.findNode key
  cases found with
  | none =>
    refine ⟨none, d, hfound, ?_, h, rfl, rfl⟩
    rw [mpsShdictLookup, hrun]
    rfl
  | some e =>
    obtain ⟨he, -⟩ := hfound.sound e rfl
    refine ⟨some e, d.touch e.off, hfound, ?_, h.touch_erase he, rfl, rfl⟩
    have hexp : ((d.touch e.off).sd e.off).expires = e.expires := (h.shape.entries e he).expires
    rw [mpsShdictLookup, hrun]
    simp only [Option.map_some, Option.bind_eq_bind, Option.bind_some, hexp, hit]
    split <;> rfl

/-- **`mps_shdict_peek`** finds an entry or none. -/
theorem mpsShdictPeek_spec (h : Rep sz s ord d L spare) (key : Bytes) :
    ∃ found, Finds ord L key found ∧ mpsShdictPeek d (ngxMurmurHash2 key) key =
      some (match found with | none => .declined | some e => .ok e.off) := by
  obtain ⟨found, hfound, hrun⟩ := h.findNode key
  refine ⟨found, hfound, ?_⟩
  rw [mpsShdictPeek, hrun]
  cases found <;> rfl

end Find

end MpsShdict
