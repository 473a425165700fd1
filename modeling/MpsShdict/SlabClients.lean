import MpsShdict.Lib.Memory
import MpsShdict.SlabBooks

/-! # What the clients of the allocator write

The callers write to the blocks that they hold, and to nothing else. Their writes never
change what a call does: a run with them is, but for the contents of the chunks, a run
without. So nothing that holds of the pools of a `SlabRun` depends on them. And no call
changes what a client has written: the pool stores a heap of separate objects.

`ClientRun` is a run of allocations, cleared allocations, frees, and writes of any bytes
at any place of a live block. The first theorem removes the writes from it
(`writes_unseen`): the twin run makes the same calls and gets the same answers, so the
model of the allocator, in which nobody writes, is enough for what is said of it
elsewhere. The second theorem is about the contents (`blocks_keep_bytes`), with the heap
of the library for the objects that the events make: a byte is what its owner last wrote
there, whatever the allocator and the other owners have done since.
-/
namespace MpsShdict

open Words Links Memory

/-! ### Clients -/

/-- `ngx_memzero`. -/
def ngxMemzero (w : Nat → Nat) (p n : Nat) : Nat → Nat := store w p (List.replicate n 0)

/-- `mps_slab_calloc_locked`. -/
def mpsSlabCallocLocked (sz : Sizes) (fuel : Nat) (pool : SlabPool) (size : Nat) :
    Option (SlabPool × Option Nat) := do
  let (pool, p) ← mpsSlabAllocLocked sz fuel pool size
  match p with
  | some p => some ({ pool with word := ngxMemzero pool.word p size }, some p)
  | none => some (pool, none)

/-- What a client does, and what it is given: a block or none. A write is of any bytes,
from any place in a block on. -/
inductive SlabEvent where
  | alloc (size : Nat) (p : Option Nat)
  | calloc (size : Nat) (p : Option Nat)
  | free (b : Block)
  | write (b : Block) (i : Nat) (bs : List Nat)
  deriving DecidableEq, Repr

namespace SlabEvent

/-- What becomes of the objects. -/
def apply (h : Heap Block) : SlabEvent → Heap Block
  | alloc size (some p) => h.create ⟨p, size⟩
  | calloc size (some p) => (h.create ⟨p, size⟩).write ⟨p, size⟩ 0 (List.replicate size 0)
  | alloc _ none | calloc _ none => h
  | free b => h.drop b
  | write b i bs => h.write b i bs

/-- The event without what is written. -/
def purge : SlabEvent → Option SlabEvent
  | calloc size p => some (alloc size p)
  | write _ _ _ => none
  | ev => some ev

end SlabEvent

/-- The objects that the events make: their blocks, and the bytes that have been written
to each. -/
def heapOf (es : List SlabEvent) : Heap Block := es.foldl SlabEvent.apply Heap.empty

/-- **The pools that the clients lead to** from a pool with nothing live. A client gives
back a block that is live, and writes bytes of one that it asked for, within the size it
asked for. -/
inductive ClientRun (s : Nat) (pool₀ : SlabPool) : List SlabEvent → SlabPool → Prop where
  | start (h : SlabRun s pool₀ []) : ClientRun s pool₀ [] pool₀
  | alloc {es : List SlabEvent} {pool pool' : SlabPool} {size : Nat} {p : Option Nat}
      (run : ClientRun s pool₀ es pool)
      (h : mpsSlabAllocLocked (mpsSlabSizesInit (2 ^ s)) pool.poolEnd pool size = some (pool', p)) :
      ClientRun s pool₀ (es ++ [.alloc size p]) pool'
  | calloc {es : List SlabEvent} {pool pool' : SlabPool} {size : Nat} {p : Option Nat}
      (run : ClientRun s pool₀ es pool)
      (h : mpsSlabCallocLocked (mpsSlabSizesInit (2 ^ s)) pool.poolEnd pool size =
        some (pool', p)) :
      ClientRun s pool₀ (es ++ [.calloc size p]) pool'
  | free {es : List SlabEvent} {pool : SlabPool} {b : Block} {base : Nat}
      (run : ClientRun s pool₀ es pool) (hb : b ∈ (heapOf es).live) (hbase : 2 ^ s ∣ base) :
      ClientRun s pool₀ (es ++ [.free b])
        (mpsSlabFreeLocked (mpsSlabSizesInit (2 ^ s)) base pool b.off)
  | write {es : List SlabEvent} {pool : SlabPool} {b : Block} {i : Nat} {bs : List Nat}
      (run : ClientRun s pool₀ es pool) (hb : b ∈ (heapOf es).live) (hi : i + bs.length ≤ b.size)
      (hbs : ∀ v ∈ bs, v < 256) :
      ClientRun s pool₀ (es ++ [.write b i bs]) { pool with word := store pool.word (b.off + i) bs }

section Heaps
variable {es : List SlabEvent} {ev : SlabEvent}

@[simp] theorem heapOf_nil : heapOf [] = Heap.empty := rfl

@[simp] theorem heapOf_snoc : heapOf (es ++ [ev]) = ev.apply (heapOf es) := by
  rw [heapOf, List.foldl_append, List.foldl_cons, List.foldl_nil, heapOf]

/-- The live blocks do not depend on what is written. -/
theorem heapOf_purge : (heapOf (es.filterMap SlabEvent.purge)).live = (heapOf es).live := by
  induction es using List.reverseRecOn with
  | nil => rfl
  | append_singleton es ev ih =>
    rw [List.filterMap_append, heapOf_snoc]
    rcases ev with ⟨size, _ | p⟩ | ⟨size, _ | p⟩ | b | ⟨b, i, bs⟩ <;>
      simp [List.filterMap_cons, SlabEvent.purge, SlabEvent.apply, ih]

end Heaps

section Clients
variable {s size base i o : Nat} {pool pool₀ pool' : SlabPool} {w : Nat → Nat}
  {e : Nat → Option Nat} {live : List Block} {b c : Block} {bs : List Nat}
  {p : Option Nat} {es : List SlabEvent} {heap : Heap Block}

/-! ### Books and blocks -/

/-- A pool with no page has no book. -/
theorem BookWord.pageTotal_pos {sz : Sizes} (h : BookWord sz pool o) : 0 < pool.pageTotal := by
  obtain ⟨i, hi, -⟩ := h
  omega

/-- The books are in no live block. -/
theorem RunInv.clear (h : RunInv s pool live) (hb : b ∈ live)
    (ho : BookWord (mpsSlabSizesInit (2 ^ s)) pool o) :
    o + 8 ≤ b.off ∨ b.off + b.size ≤ o := by
  rcases h with ⟨-, rfl, -⟩ | ⟨-, h⟩
  · cases hb
  · obtain ⟨cells, lists, hh⟩ := h
    have hcap := size_le_capacity hh.inv.shelf.geo.toSizing b.size
    have := ho.clear ⟨cells, lists, hh⟩ hb
    omega

/-- Two live blocks do not meet. -/
theorem RunInv.apart (h : RunInv s pool live) (hb : b ∈ live) (hc : c ∈ live) (hne : c ≠ b) :
    c.off + c.size ≤ b.off ∨ b.off + b.size ≤ c.off := by
  rcases h with ⟨-, rfl, -⟩ | ⟨-, cells, lists, hh⟩
  · cases hb
  · have hg := hh.inv.shelf.geo.toSizing
    have h1 := size_le_capacity hg b.size
    have h2 := size_le_capacity hg c.size
    have : Std.Symm fun a b : Block =>
        Clear a.off (capacity (mpsSlabSizesInit (2 ^ s)) pool a.size) b.off
        (capacity (mpsSlabSizesInit (2 ^ s)) pool b.size) := ⟨fun _ _ hxy => hxy.symm⟩
    have := hh.pairwise_clear.forall hc hb hne
    simp only [Clear] at this
    omega

/-- The invariant does not depend on other words. -/
theorem RunInv.withWords (h : RunInv s pool live)
    (hw : ∀ o, BookWord (mpsSlabSizesInit (2 ^ s)) pool o → w o = pool.word o) :
    RunInv s (pool.withWords w) live := by
  rcases h with ⟨hempty, rfl, hend⟩ | ⟨hP, cells, lists, h⟩
  · exact .inl ⟨hempty.same ⟨rfl, rfl, rfl, rfl, rfl, rfl,
      rfl, rfl, rfl⟩ rfl fun _ => ⟨rfl, rfl⟩, rfl, hend⟩
  · exact .inr ⟨hP, cells, lists, h.withWords hw⟩

theorem noRun_withWords (pool : SlabPool) (w : Nat → Nat) :
    noRun (pool.withWords w) = (noRun pool).withWords w := by
  rw [noRun, noRun]
  cases pool.logNomem <;> rfl

theorem noRun_word (pool : SlabPool) : (noRun pool).word = pool.word := by
  rw [noRun]
  split <;> rfl

theorem refused_withWords (sz : Sizes) (pool : SlabPool) (w : Nat → Nat) (size : Nat) :
    refused sz (pool.withWords w) size = (refused sz pool size).withWords w ∧
      (refused sz pool size).word = pool.word := by
  rw [refused, refused]
  split
  · exact ⟨noRun_withWords pool w, noRun_word pool⟩
  · refine ⟨?_, noRun_word _⟩
    show allocFail (noRun ((pool.withWords w).setStat _ _)) _ = _
    rw [setStat_withWords, noRun_withWords]
    rfl

/-- **One allocation**, with other contents of the chunks. -/
theorem RunInv.alloc_twin (h : RunInv s pool live)
    (hw : ∀ o, BookWord (mpsSlabSizesInit (2 ^ s)) pool o → w o = pool.word o)
    (he : mpsSlabAllocLocked (mpsSlabSizesInit (2 ^ s)) pool.poolEnd pool size = some (pool', p)) :
    ∃ e, mpsSlabAllocLocked (mpsSlabSizesInit (2 ^ s)) pool.poolEnd (pool.withWords w) size =
        some (pool'.withWords (overwrite w e), p) ∧
          Edits (mpsSlabSizesInit (2 ^ s)) pool pool' e := by
  rcases h with ⟨hempty, rfl, hend⟩ | ⟨hP, h⟩
  · have hother : EmptyPool (mpsSlabSizesInit (2 ^ s)) s (pool.withWords w) :=
      hempty.same ⟨rfl, rfl, rfl, rfl, rfl, rfl, rfl, rfl, rfl⟩ rfl fun _ => ⟨rfl, rfl⟩
    obtain ⟨hrun, hempty', -⟩ := hempty.alloc size hend
    obtain ⟨hsame, hword⟩ := refused_withWords (mpsSlabSizesInit (2 ^ s)) pool w size
    obtain ⟨rfl, rfl⟩ := Prod.mk.inj (Option.some.inj (hrun.symm.trans he))
    refine ⟨fun _ => none, ?_, hword, fun _ ho => absurd rfl ho, fun o ho => ?_⟩
    · rw [(hother.alloc size hend).1, hsame]
      rfl
    · have := ho.pageTotal_pos
      rw [hempty'.total] at this
      omega
  · exact h.alloc_twin (h.pageTotal_lt hP) hw he

/-- **One free**, with other contents of the chunks. -/
theorem RunInv.free_twin (h : RunInv s pool live) (hbase : 2 ^ s ∣ base) (hb : b ∈ live)
    (hw : ∀ o, BookWord (mpsSlabSizesInit (2 ^ s)) pool o → w o = pool.word o) :
    ∃ e, mpsSlabFreeLocked (mpsSlabSizesInit (2 ^ s)) base (pool.withWords w) b.off =
      (mpsSlabFreeLocked (mpsSlabSizesInit (2 ^ s)) base pool b.off).withWords (overwrite w e) ∧
      Edits (mpsSlabSizesInit (2 ^ s)) pool
        (mpsSlabFreeLocked (mpsSlabSizesInit (2 ^ s)) base pool b.off) e := by
  rcases h with ⟨-, rfl, -⟩ | ⟨-, h⟩
  · cases hb
  · exact h.free_twin hbase hb hw

/-- One free keeps the invariant. -/
theorem RunInv.free_step (h : RunInv s pool live) (hbase : 2 ^ s ∣ base) (hb : b ∈ live) :
    RunInv s (mpsSlabFreeLocked (mpsSlabSizesInit (2 ^ s)) base pool b.off) (live.erase b) := by
  rcases h with ⟨-, rfl, -⟩ | ⟨hP, h⟩
  · cases hb
  · obtain ⟨hs, -, h'⟩ := mpsSlabFreeLocked_spec h hbase hb
    refine .inr ?_
    rw [hs.pageTotal]
    exact ⟨hP, h'⟩

/-- The books still agree after a call. -/
theorem Edits.agree {sz : Sizes} (hed : Edits sz pool pool' e)
    (hw : ∀ o, BookWord sz pool o → w o = pool.word o) (ho : BookWord sz pool' o) :
    overwrite w e o = pool'.word o := by
  rw [hed.word]
  rcases hed.books o ho with hne | hold
  · obtain ⟨v, hv⟩ := Option.ne_none_iff_exists'.mp hne
    rw [overwrite, overwrite, hv]
    rfl
  · exact overwrite_congr (hw o hold)

/-- A store to a live block changes no book. -/
theorem RunInv.store_books (h : RunInv s pool live) (hb : b ∈ live) (hi : i + bs.length ≤ b.size)
    (ho : BookWord (mpsSlabSizesInit (2 ^ s)) pool o) :
    store pool.word (b.off + i) bs o = pool.word o := by
  have := h.clear hb ho
  exact store_word (by omega)

/-- `mps_slab_calloc_locked` is an allocation and a write. -/
theorem calloc_spec {sz : Sizes} {fuel : Nat}
    (h : mpsSlabCallocLocked sz fuel pool size = some (pool', p)) :
    ∃ pool₁, mpsSlabAllocLocked sz fuel pool size = some (pool₁, p) ∧ pool' =
      p.elim pool₁ fun q => pool₁.withWords (store pool₁.word (q + 0) (List.replicate size 0)) := by
  rw [mpsSlabCallocLocked] at h
  obtain ⟨⟨pool₁, _ | q⟩, he, h⟩ := Option.bind_eq_some_iff.mp h <;> cases h <;> exact ⟨_, he, rfl⟩

/-! ### A run without the writes -/

/-- The pool, but for what is written, is that of a run in which nobody writes. This is
what the induction over the events carries along. -/
structure Unwritten (s : Nat) (pool : SlabPool) (live : List Block) (w : Nat → Nat) : Prop where
  run : SlabRun s (pool.withWords w) live
  books : ∀ o, BookWord (mpsSlabSizesInit (2 ^ s)) pool o → w o = pool.word o

theorem Unwritten.inv (hs : 12 ≤ s) (hs' : s ≤ 16) (h : Unwritten s pool live w) :
    RunInv s pool live :=
  (h.run.inv hs hs').withWords (w := pool.word) fun o ho => (h.books o ho).symm

theorem Unwritten.alloc (hs : 12 ≤ s) (hs' : s ≤ 16) (h : Unwritten s pool live w)
    (he : mpsSlabAllocLocked (mpsSlabSizesInit (2 ^ s)) pool.poolEnd pool size = some (pool', p)) :
    ∃ w', mpsSlabAllocLocked (mpsSlabSizesInit (2 ^ s)) pool.poolEnd (pool.withWords w) size =
      some (pool'.withWords w', p) ∧
        Unwritten s pool' ((p.map fun p => ⟨p, size⟩).toList ++ live) w' := by
  obtain ⟨e, hrun, hed⟩ := (h.inv hs hs').alloc_twin h.books he
  refine ⟨_, hrun, ?_, fun o ho => hed.agree h.books ho⟩
  cases p with
  | none => exact h.run.allocFail hrun
  | some p => exact h.run.alloc hrun

theorem Unwritten.free (hs : 12 ≤ s) (hs' : s ≤ 16) (h : Unwritten s pool live w)
    (hbase : 2 ^ s ∣ base) (hb : b ∈ live) :
    ∃ w', mpsSlabFreeLocked (mpsSlabSizesInit (2 ^ s)) base (pool.withWords w) b.off =
      (mpsSlabFreeLocked (mpsSlabSizesInit (2 ^ s)) base pool b.off).withWords w' ∧
      Unwritten s (mpsSlabFreeLocked (mpsSlabSizesInit (2 ^ s)) base pool b.off)
        (live.erase b) w' := by
  obtain ⟨e, hrun, hed⟩ := (h.inv hs hs').free_twin hbase hb h.books
  exact ⟨_, hrun, hrun ▸ h.run.free hb hbase, fun o ho => hed.agree h.books ho⟩

/-- What is written is not seen. -/
theorem Unwritten.write (hs : 12 ≤ s) (hs' : s ≤ 16) (h : Unwritten s pool live w) (hb : b ∈ live)
    (hi : i + bs.length ≤ b.size) :
    Unwritten s (pool.withWords (store pool.word (b.off + i) bs)) live w :=
  ⟨h.run, fun o ho => (h.books o ho).trans ((h.inv hs hs').store_books hb hi ho).symm⟩

/-- **The clients' writes are not seen by the allocator.** Leave them out of a run, and
every call is answered as before; only the contents of chunks differ in the end. -/
theorem writes_unseen (hs : 12 ≤ s) (hs' : s ≤ 16) (run : ClientRun s pool₀ es pool) :
    ∃ w, ClientRun s pool₀ (es.filterMap SlabEvent.purge) (pool.withWords w) ∧
      SlabRun s (pool.withWords w) (heapOf es).live ∧
      ∀ o, BookWord (mpsSlabSizesInit (2 ^ s)) pool o → w o = pool.word o := by
  suffices hmain : ∃ w, ClientRun s pool₀ (es.filterMap SlabEvent.purge) (pool.withWords w) ∧
      Unwritten s pool (heapOf es).live w by
    obtain ⟨w, hpurged, h⟩ := hmain
    exact ⟨w, hpurged, h.run, h.books⟩
  -- the twin makes the same calls without the writes, and agrees on the books
  induction run with
  | start h => exact ⟨_, .start h, h, fun _ _ => rfl⟩
  | @alloc es pool pool' size p run he ih =>
    obtain ⟨w, hpurged, h⟩ := ih
    obtain ⟨w', hrun, h'⟩ := h.alloc hs hs' he
    refine ⟨w', ?_, ?_⟩
    · rw [List.filterMap_append]
      exact hpurged.alloc hrun
    · rw [heapOf_snoc]
      cases p <;> exact h'
  | @calloc es pool pool' size p run he ih =>
    obtain ⟨w, hpurged, h⟩ := ih
    obtain ⟨pool₁, he₁, rfl⟩ := calloc_spec he
    obtain ⟨w', hrun, h'⟩ := h.alloc hs hs' he₁
    refine ⟨w', ?_, ?_⟩
    · rw [List.filterMap_append]
      cases p <;> exact hpurged.alloc hrun
    · rw [heapOf_snoc]
      cases p with
      | none => exact h'
      | some q => exact h'.write (b := ⟨q, size⟩) hs hs' List.mem_cons_self (by simp)
  | @free es pool b base run hb hbase ih =>
    obtain ⟨w, hpurged, h⟩ := ih
    obtain ⟨w', hrun, h'⟩ := h.free hs hs' hbase hb
    refine ⟨w', ?_, by rw [heapOf_snoc]; exact h'⟩
    rw [List.filterMap_append, ← hrun]
    exact hpurged.free (by rw [heapOf_purge]; exact hb) hbase
  | @write es pool b i bs run hb hi hbs ih =>
    obtain ⟨w, hpurged, h⟩ := ih
    refine ⟨w, ?_, by rw [heapOf_snoc]; exact h.write hs hs' hb hi⟩
    rw [List.filterMap_append]
    simpa [List.filterMap_cons, SlabEvent.purge] using hpurged

/-- In a pool of four pages, a cleared block of 100 bytes and a write to it. The twin is
the allocation alone. -/
theorem writes_unseen_two : ∃ pool₀ pool w,
    ClientRun 12 pool₀ [.alloc 100 (some 4096)] (pool.withWords w) ∧
    SlabRun 12 (pool.withWords w) [⟨4096, 100⟩] ∧
    ∀ o, BookWord (mpsSlabSizesInit (2 ^ 12)) pool o → w o = pool.word o :=
  have run : ClientRun 12 _ ([] ++ [.calloc 100 (some 4096)] ++ [.write ⟨4096, 100⟩ 3 [7]]) _ :=
    .write (.calloc
      (.start (.init 0 20480 3 (fun _ => ⟨0, 0, 0⟩) (fun _ => ⟨0, 0, 0, 0⟩) (fun _ => 0)
      (by decide) (by decide) (by decide) (by decide) rfl)) rfl) (by decide) (by decide) (by decide)
  ⟨_, _, writes_unseen (by decide) (by decide) run⟩

/-! ### What is in the blocks -/

/-- The pool stores the objects: the invariant of the allocator for the live blocks, and
the known bytes of each at its place. -/
structure KeepsBytes (s : Nat) (pool : SlabPool) (heap : Heap Block) : Prop where
  inv : RunInv s pool heap.live
  stored : heap.Stored Block.off Block.size pool.word

/-- A byte of a live block is in no book that is written. -/
theorem KeepsBytes.edits (h : KeepsBytes s pool heap)
    (hed : Edits (mpsSlabSizesInit (2 ^ s)) pool pool' e) {live' : List Block}
    (hinv' : RunInv s pool' live') (hb : b ∈ heap.live) (hb' : b ∈ live') {x : Nat}
    (h1 : b.off ≤ x) (h2 : x < b.off + b.size) : byteAt pool'.word x = byteAt pool.word x := by
  have hnone : e (8 * (x / 8)) = none := by
    by_contra hne
    rcases hed.onBooks _ hne with ho | ho
    · have := h.inv.clear hb ho
      omega
    · have := hinv'.clear hb' ho
      omega
  rw [byteAt, hed.word, overwrite, hnone]
  rfl

theorem KeepsBytes.alloc (h : KeepsBytes s pool heap)
    (he : mpsSlabAllocLocked (mpsSlabSizesInit (2 ^ s)) pool.poolEnd pool size = some (pool', p)) :
    KeepsBytes s pool' ((SlabEvent.alloc size p).apply heap) := by
  obtain ⟨pool₁, p₁, he₁, hinv⟩ := h.inv.alloc_step size
  obtain ⟨rfl, rfl⟩ := Prod.mk.inj (Option.some.inj (he₁.symm.trans he))
  obtain ⟨e, -, hed⟩ := h.inv.alloc_twin (fun _ _ => rfl) he
  cases p₁ with
  | none => exact ⟨hinv, h.stored.congr fun b hb x => h.edits hed hinv hb hb⟩
  | some p =>
    exact ⟨hinv, (h.stored.congr fun b hb x =>
      h.edits hed hinv hb (List.mem_cons_of_mem _ hb)).create⟩

theorem KeepsBytes.write (h : KeepsBytes s pool heap) (hb : b ∈ heap.live)
    (hi : i + bs.length ≤ b.size) (hbs : ∀ v ∈ bs, v < 256) :
    KeepsBytes s (pool.withWords (store pool.word (b.off + i) bs)) (heap.write b i bs) :=
  ⟨h.inv.withWords fun _ ho => h.inv.store_books hb hi ho,
    h.stored.write hb hi hbs fun _ hc hne => h.inv.apart hb hc hne⟩

theorem KeepsBytes.free (h : KeepsBytes s pool heap) (hbase : 2 ^ s ∣ base) (hb : b ∈ heap.live) :
    KeepsBytes s (mpsSlabFreeLocked (mpsSlabSizesInit (2 ^ s)) base pool b.off) (heap.drop b) := by
  obtain ⟨e, -, hed⟩ := h.inv.free_twin hbase hb (w := pool.word) fun _ _ => rfl
  have hinv := h.inv.free_step hbase hb
  exact ⟨hinv, h.stored.drop.congr fun c hc x => h.edits hed hinv (List.mem_of_mem_erase hc) hc⟩

/-- **Nobody but its owner changes what is in a block.** In every run each byte of a live
block that the owner has written, or `mps_slab_calloc` has cleared, is what was written
last. -/
theorem blocks_keep_bytes (hs : 12 ≤ s) (hs' : s ≤ 16) (run : ClientRun s pool₀ es pool)
    (hb : b ∈ (heapOf es).live) {v : Nat} (hv : (heapOf es).data b i = some v) :
    i < b.size ∧ byteAt pool.word (b.off + i) = v := by
  suffices h : KeepsBytes s pool (heapOf es) from h.stored b hb i v hv
  clear hb hv
  induction run with
  | start h => exact ⟨h.inv hs hs', Heap.stored_empty⟩
  | @alloc es pool pool' size p run he ih =>
    rw [heapOf_snoc]
    exact ih.alloc he
  | @calloc es pool pool' size p run he ih =>
    rw [heapOf_snoc]
    obtain ⟨pool₁, he₁, rfl⟩ := calloc_spec he
    have h₁ := ih.alloc he₁
    cases p with
    | none => exact h₁
    | some q => exact h₁.write (b := ⟨q, size⟩) List.mem_cons_self (by simp) (by simp)
  | free run hb hbase ih =>
    rw [heapOf_snoc]
    exact ih.free hbase hb
  | write run hb hi hbs ih =>
    rw [heapOf_snoc]
    exact ih.write hb hi hbs

/-- In a pool of four pages, a cleared block of 100 bytes and a write to it. The byte that
was written is read back. -/
theorem blocks_keep_bytes_two : ∃ pool₀ pool,
    ClientRun 12 pool₀ [.calloc 100 (some 4096), .write ⟨4096, 100⟩ 3 [7]] pool ∧
      3 < 100 ∧ byteAt pool.word (4096 + 3) = 7 := by
  have run : ClientRun 12 _ ([] ++ [.calloc 100 (some 4096)] ++ [.write ⟨4096, 100⟩ 3 [7]]) _ :=
    .write (.calloc
      (.start (.init 0 20480 3 (fun _ => ⟨0, 0, 0⟩) (fun _ => ⟨0, 0, 0, 0⟩) (fun _ => 0)
      (by decide) (by decide) (by decide) (by decide) rfl)) rfl) (by decide) (by decide) (by decide)
  exact ⟨_, _, run, blocks_keep_bytes (b := ⟨4096, 100⟩)
    (by decide) (by decide) run (by decide) (by decide)⟩

end Clients

end MpsShdict
