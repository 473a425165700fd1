import Mathlib.Algebra.Order.BigOperators.Group.List
import Mathlib.Algebra.Order.Group.Nat
import MpsShdict.ShdictFind
import MpsShdict.SlabBlocks

/-! # Entries

What the pool of a dictionary holds, as a list of entries, the one used last first. An
`Entry` is read off the fields of its chunk and, for a list, off the chunks of its
elements. The chunks lie apart from one another (`Laid`), the tree and the LRU queue name
the same ones (`Hung`), and the fields spell out the entries (`EntryOk`).

The list of entries is the abstract state of the dictionary, and `Shdict.entries` computes
it from any pool, by a walk along the queue. An entry keeps its offset: two states are
compared entry by entry, and the offset says which is which even where keys are equal.
What a chunk was asked for with is a function of the entry, so the live blocks of the
allocator follow from the entries.
-/
namespace MpsShdict

open RedBlack RedBlack.RbTree
open Words

/-- An element of a list: the offset of its node, its type and its bytes, those of a
number being the eight bytes of the `double`. -/
structure Elem where
  off : Nat
  valueType : ValueType
  bytes : Bytes
  deriving DecidableEq

/-- What is stored under a key: bytes with a type, or a list of elements. -/
inductive Value where
  | plain (valueType : ValueType) (bytes : Bytes)
  | list (elems : List Elem)
  deriving DecidableEq

/-- An entry, by the offset of its node: the key, the flags, the deadline and the value. -/
structure Entry where
  off : Nat
  key : Bytes
  userFlags : Nat
  expires : Nat
  value : Value
  deriving DecidableEq

/-- The chunk of an element. -/
def Elem.block (x : Elem) : Block := ⟨x.off, offsetofListData + x.bytes.length⟩

/-- The elements of a list. -/
def Value.elems : Value → List Elem
  | .plain _ _ => []
  | .list elems => elems

namespace Entry
variable (e : Entry)

/-- The bytes that the chunk of an entry was asked for with. -/
def size : Nat :=
  match e.value with
  | .plain _ bytes => offsetofColor + offsetofData + e.key.length + bytes.length
  | .list _ => alignUp (offsetofColor + offsetofData + e.key.length + sizeofQueue) ngxAlignment

/-- The chunk of an entry. -/
def block : Block := ⟨e.off, e.size⟩

/-- The chunks of an entry and of its elements. -/
def blocks : List Block := e.block :: e.value.elems.map Elem.block

/-- The header of the list of an entry, behind the key in the chunk of the entry. -/
def listHead : Nat := mpsShdictGetListHead 0 e.off e.key.length

/-- The queue cells of the list of an entry. -/
def listCells : List Nat :=
  match e.value with
  | .plain _ _ => []
  | .list elems => e.listHead :: elems.map Elem.off

/-- The queue cells in the chunks of an entry. -/
def cells : List Nat := sdQueue e.off :: e.listCells

end Entry

/-! ### Reading -/

/-- The cells from `x` on, up to the header `h`. -/
def walk (q : QueueMem) (h : Nat) : Nat → Nat → List Nat
  | 0, _ => []
  | fuel + 1, x => if x = h then [] else x :: walk q h fuel (mpsQueueNext q x)

namespace Shdict
variable (d : Shdict)

/-- The element at `lnode`. -/
def readElem (lnode : Nat) : Elem :=
  ⟨lnode, (d.lnode lnode).valueType, readBytes (d.lnode lnode).data 0 (d.lnode lnode).valueLen⟩

/-- The value of the entry at `node`. -/
def readValue (node : Nat) : Value :=
  let sd := d.sd node
  if sd.valueType = .tlist then
    let head := mpsShdictGetListHead 0 node sd.keyLen
    .list ((walk d.queue head d.rounds (mpsQueueHead d.queue head)).map d.readElem)
  else .plain sd.valueType (readBytes sd.data sd.keyLen sd.valueLen)

/-- The entry at `node`. -/
def readEntry (node : Nat) : Entry :=
  ⟨node, d.keyOf node, (d.sd node).userFlags, (d.sd node).expires, d.readValue node⟩

/-- **The entries of a dictionary**, in the order of the LRU queue, read off the pool as
it is. Nothing is assumed of the pool here. -/
def entries : List Entry :=
  (walk d.queue d.lruQueue d.rounds (mpsQueueHead d.queue d.lruQueue)).map fun q =>
    d.readEntry (nodeOfQueue q)

end Shdict

/-! ### Chunks apart -/

/-- The queue cells in the chunks of a dictionary are all different, within an entry and
between two of them, and there are fewer entries and elements than the pool has bytes. -/
structure Laid (poolEnd data : Nat) (L : List Entry) : Prop where
  length : L.length + 2 ≤ poolEnd
  elems : ∀ e ∈ L, e.value.elems.length < poolEnd
  own : ∀ e ∈ L, ((data + offsetofLruQueue) :: e.cells).Nodup
  apart : L.Pairwise fun e e' => e.cells.Disjoint e'.cells
  sentinel : ∀ e ∈ L, e.off ≠ data + offsetofSentinel

section Laid
variable {n start data base x : Nat} {e e' : Entry} {L L' : List Entry} {spare bs : List Block}
  {b c : Block}

theorem Clear.ne {y : Nat} (h : Clear b.off b.size c.off c.size) (hx : b.Has x) (hy : c.Has y) :
    x ≠ y := by
  unfold Clear at h
  unfold Block.Has at hx hy
  omega

/-- Blocks that are apart have different offsets, of which there are few. -/
theorem BlocksApart.length_lt (h : BlocksApart n start bs) (h0 : 0 < start)
    (hpos : ∀ b ∈ bs, 0 < b.size) (hne : bs ≠ []) : bs.length < n := by
  have hnd : (0 :: bs.map Block.off).Nodup := by
    refine List.nodup_cons.mpr ⟨?_, ?_⟩
    · intro hm
      obtain ⟨b, hb, he⟩ := List.mem_map.mp hm
      have := (h.inside b hb).1
      omega
    · refine List.pairwise_map.mpr (h.apart.imp_of_mem fun {a b} ha hb hab => ?_)
      have h1 := hpos a ha
      have h2 := hpos b hb
      unfold Clear at hab
      omega
  have hsub : 0 :: bs.map Block.off ⊆ List.range n := by
    have hlt : ∀ b ∈ bs, b.off < n := by
      intro b hb
      have h1 := (h.inside b hb).2
      have h2 := hpos b hb
      omega
    obtain ⟨b, hb⟩ := List.exists_mem_of_ne_nil bs hne
    intro y hy
    rw [List.mem_range]
    rcases List.mem_cons.mp hy with rfl | hy
    · exact Nat.lt_of_le_of_lt (Nat.zero_le _) (hlt b hb)
    · obtain ⟨b, hb, rfl⟩ := List.mem_map.mp hy
      exact hlt b hb
  have hle := (hnd.subperm hsub).length_le
  rw [List.length_cons, List.length_map, List.length_range] at hle
  exact hle

/-- The position of a list header does not depend on where the pool is mapped, as long as
the base is a multiple of eight. -/
theorem mpsShdictGetListHead_base (hbase : 8 ∣ base) (node len : Nat) :
    mpsShdictGetListHead base node len = mpsShdictGetListHead 0 node len := by
  have h : ∀ b, 8 ∣ b → mpsShdictGetListHead b node len =
      alignUp (node + offsetofColor + offsetofData + len) (2 ^ 3) := by
    intro b hb
    rw [mpsShdictGetListHead, show b + node + offsetofColor + offsetofData + len =
      b + (node + offsetofColor + offsetofData + len) by omega, show ngxAlignment = 2 ^ 3 from rfl,
      alignUp_add hb, Nat.add_sub_cancel_left]
  rw [h base hbase, h 0 (Nat.dvd_zero 8)]

theorem Entry.le_size : offsetofColor + offsetofData + e.key.length ≤ e.size := by
  unfold Entry.size
  split
  · exact Nat.le_add_right _ _
  · exact (Nat.le_add_right _ _).trans (le_alignUp _ 3)

theorem Entry.size_pos : 0 < e.size := by
  have := e.le_size
  simp only [offsetofColor] at this
  omega

theorem Entry.blocks_plain {valueType : ValueType} {bytes : Bytes}
    (hv : e.value = .plain valueType bytes) :
    e.blocks = [e.block] := by
  rw [Entry.blocks, hv]
  rfl

theorem Entry.blocks_of_list {elems : List Elem} (hv : e.value = .list elems) :
    e.blocks = e.block :: elems.map Elem.block := by
  rw [Entry.blocks, hv]
  rfl

theorem Entry.blocks_pos (hb : b ∈ e.blocks) : 0 < b.size := by
  rcases List.mem_cons.mp hb with rfl | hb
  · exact e.size_pos
  · obtain ⟨y, -, rfl⟩ := List.mem_map.mp hb
    show 0 < offsetofListData + y.bytes.length
    simp only [offsetofListData]
    omega

theorem Entry.has_cell : e.block.Has (sdQueue e.off) := by
  have := e.le_size
  simp only [Block.Has, Entry.block, sdQueue, offsetofColor, offsetofData, offsetofQueue] at *
  omega

/-- The header of a list lies behind the key, in the chunk of the entry. -/
theorem Entry.has_listHead {elems : List Elem} (hv : e.value = .list elems) (hal : 8 ∣ e.off) :
    e.block.Has e.listHead ∧ sdQueue e.off < e.listHead := by
  have h1 : e.listHead = e.off + alignUp (offsetofColor + offsetofData + e.key.length) (2 ^ 3) := by
    rw [Entry.listHead, mpsShdictGetListHead, show 0 + e.off + offsetofColor + offsetofData +
      e.key.length = e.off + (offsetofColor + offsetofData + e.key.length) by omega,
      show ngxAlignment = 2 ^ 3 from rfl, alignUp_add hal, Nat.sub_zero]
  have h2 := le_alignUp (offsetofColor + offsetofData + e.key.length) 3
  have h3 := alignUp_lt (offsetofColor + offsetofData + e.key.length) 3
  have h4 := le_alignUp (offsetofColor + offsetofData + e.key.length + sizeofQueue) 3
  have h5 :
      e.size = alignUp (offsetofColor + offsetofData + e.key.length + sizeofQueue) (2 ^ 3) := by
    unfold Entry.size
    rw [hv]
    rfl
  simp only [Block.Has, Entry.block, sdQueue, offsetofColor, offsetofData, offsetofQueue,
    sizeofQueue] at *
  omega

/-- Every cell of an entry is in a chunk of it. -/
theorem Entry.mem_cells (hal : ∀ elems, e.value = .list elems → 8 ∣ e.off) (hx : x ∈ e.cells) :
    ∃ b ∈ e.blocks, b.Has x := by
  rcases List.mem_cons.mp hx with rfl | hx
  · exact ⟨e.block, List.mem_cons_self, e.has_cell⟩
  · unfold Entry.listCells at hx
    cases hv : e.value with
    | plain valueType bytes => simp [hv] at hx
    | list elems =>
      simp only [hv, List.mem_cons, List.mem_map] at hx
      rcases hx with rfl | ⟨y, hy, rfl⟩
      · exact ⟨e.block, List.mem_cons_self, (e.has_listHead hv (hal elems hv)).1⟩
      · refine ⟨y.block, List.mem_cons_of_mem _
          (List.mem_map.mpr ⟨y, by rw [hv]; exact hy, rfl⟩), ?_⟩
        simp only [Block.Has, Elem.block, offsetofListData]
        omega

/-- The cells of one entry are different. -/
theorem Entry.cells_nodup (hal : ∀ elems, e.value = .list elems → 8 ∣ e.off)
    (hap : e.blocks.Pairwise fun a b => Clear a.off a.size b.off b.size) : e.cells.Nodup := by
  unfold Entry.cells Entry.listCells
  cases hv : e.value with
  | plain valueType bytes => simp
  | list elems =>
    obtain ⟨h1, h2⟩ := e.has_listHead hv (hal elems hv)
    unfold Entry.blocks at hap
    rw [hv, List.pairwise_cons] at hap
    have hne : ∀ x, e.block.Has x → x ∉ elems.map Elem.off := by
      intro x hx hm
      obtain ⟨y, hy, rfl⟩ := List.mem_map.mp hm
      refine (hap.1 y.block (List.mem_map.mpr ⟨y, hy, rfl⟩)).ne hx (y := y.off) ?_ rfl
      simp only [Block.Has, Elem.block, offsetofListData]
      omega
    have hnd : (elems.map Elem.off).Nodup := by
      refine List.pairwise_map.mpr ((List.pairwise_map.mp hap.2).imp fun {a b} hab => ?_)
      simp only [Clear, Elem.block, offsetofListData] at hab
      omega
    refine List.nodup_cons.mpr ⟨?_, List.nodup_cons.mpr ⟨hne _ h1, hnd⟩⟩
    intro hm
    rcases List.mem_cons.mp hm with he | hm
    · omega
    · exact hne _ e.has_cell hm

/-- **The live blocks of a dictionary are laid out as they should be.** The allocator
keeps live blocks apart; that the headers of the lists are aligned in them is asked for
besides. -/
theorem BlocksApart.laid
    (h : BlocksApart n start (⟨data, sizeofTree⟩ :: (L.flatMap Entry.blocks ++ spare)))
    (h0 : 0 < start) (hsp : ∀ b ∈ spare, 0 < b.size)
    (hal : ∀ e ∈ L, ∀ elems, e.value = .list elems → 8 ∣ e.off) : Laid n data L := by
  have hpos : ∀ b ∈ ⟨data, sizeofTree⟩ :: (L.flatMap Entry.blocks ++ spare), 0 < b.size := by
    intro b hb
    simp only [List.mem_cons, List.mem_append, List.mem_flatMap] at hb
    rcases hb with rfl | ⟨e, -, hb⟩ | hb
    · show 0 < sizeofTree
      decide
    · exact Entry.blocks_pos hb
    · exact hsp b hb
  -- each block has a byte, and they do not overlap: so there are fewer of them than bytes
  have hlen := h.length_lt h0 hpos (by simp)
  simp only [List.length_cons, List.length_append, List.length_flatMap] at hlen
  obtain ⟨htree, hrest⟩ := List.pairwise_cons.mp h.apart
  obtain ⟨hin, hcross⟩ := List.pairwise_flatMap.mp (List.pairwise_append.mp hrest).1
  have hclear : ∀ e ∈ L, ∀ x ∈ e.cells, ∀ y, (⟨data, sizeofTree⟩ : Block).Has y → y ≠ x := by
    intro e he x hx y hy
    obtain ⟨b, hb, hbx⟩ := Entry.mem_cells (hal e he) hx
    refine (htree b ?_).ne (b := ⟨data, sizeofTree⟩) hy hbx
    simp only [List.mem_append, List.mem_flatMap]
    exact .inl ⟨e, he, hb⟩
  have hsum : L.length ≤ (L.map fun e => e.blocks.length).sum := by
    have := List.length_le_sum_of_one_le (L.map fun e => e.blocks.length) fun i hi => by
      obtain ⟨e, -, rfl⟩ := List.mem_map.mp hi
      simp [Entry.blocks]
    rwa [List.length_map] at this
  refine ⟨by omega, ?_, ?_, ?_, ?_⟩
  · intro e he
    have h1 : e.blocks.length ≤ (L.map fun e => e.blocks.length).sum :=
      List.le_sum_of_mem (List.mem_map.mpr ⟨e, he, rfl⟩)
    simp only [Entry.blocks, List.length_cons, List.length_map] at h1 hlen
    omega
  · intro e he
    refine List.nodup_cons.mpr ⟨?_, Entry.cells_nodup (hal e he) (hin e he)⟩
    intro hm
    refine hclear e he _ hm (data + offsetofLruQueue) ?_ rfl
    simp [Block.Has, offsetofLruQueue, sizeofTree]
  · refine hcross.imp_of_mem fun {e e'} he he' hee => ?_
    intro x hx hx'
    obtain ⟨b, hb, hbx⟩ := Entry.mem_cells (hal e he) hx
    obtain ⟨c, hc, hcx⟩ := Entry.mem_cells (hal e' he') hx'
    exact (hee b hb c hc).ne hbx hcx rfl
  · intro e he heq
    have hb := htree e.block (by
      simp only [List.mem_append, List.mem_flatMap]
      exact .inl ⟨e, he, List.mem_cons_self⟩)
    refine hb.ne (b := ⟨data, sizeofTree⟩) (x := data + offsetofSentinel) (y := e.off)
      ?_ ?_ heq.symm
    · simp [Block.Has, offsetofSentinel, sizeofTree]
    · have := e.size_pos
      simp only [Block.Has, Entry.block]
      omega

theorem disjoint_comm {xs ys : List Nat} : xs.Disjoint ys ↔ ys.Disjoint xs :=
  ⟨fun h _ h1 h2 => h h2 h1, fun h _ h1 h2 => h h2 h1⟩

namespace Laid

theorem disjoint (h : Laid n data L) (he : e ∈ L) (he' : e' ∈ L) (hne : e ≠ e') :
    e.cells.Disjoint e'.cells := by
  have : Std.Symm fun e e' : Entry => e.cells.Disjoint e'.cells :=
    ⟨fun _ _ hd => disjoint_comm.mp hd⟩
  exact h.apart.forall he he' hne

/-- An entry is told by its offset. -/
theorem off_inj (h : Laid n data L) (he : e ∈ L) (he' : e' ∈ L)
    (hoff : e.off = e'.off) : e = e' := by
  by_contra hne
  exact h.disjoint he he' hne (a := sdQueue e.off) List.mem_cons_self
    (hoff ▸ List.mem_cons_self)

theorem off_nodup (h : Laid n data L) : (L.map Entry.off).Nodup := by
  refine List.pairwise_map.mpr (h.apart.imp fun {e e'} hd he => ?_)
  exact hd (a := sdQueue e.off) List.mem_cons_self (he ▸ List.mem_cons_self)

theorem nodup (h : Laid n data L) : L.Nodup := h.off_nodup.of_map _

/-- The cells of the lists are not those of the LRU queue. -/
theorem listCell_notMem (h : Laid n data L) (he : e ∈ L) (hx : x ∈ e.listCells) :
    x ∉ (data + offsetofLruQueue) :: (L.map Entry.off).map sdQueue := by
  have hown := h.own e he
  have hxc : x ∈ e.cells := List.mem_cons_of_mem _ hx
  simp only [List.mem_cons, List.mem_map, not_or]
  refine ⟨fun hxl => (List.nodup_cons.mp hown).1 (hxl ▸ hxc), ?_⟩
  rintro ⟨_, ⟨e', he', rfl⟩, hxe⟩
  by_cases hee : e = e'
  · subst hee
    exact (List.nodup_cons.mp (List.nodup_cons.mp hown).2).1 (hxe ▸ hx)
  · exact h.disjoint he he' hee hxc (hxe ▸ List.mem_cons_self)

theorem perm (h : Laid n data L) (hp : L.Perm L') : Laid n data L' :=
  ⟨hp.length_eq ▸ h.length, fun e he => h.elems e (hp.mem_iff.mpr he),
    fun e he => h.own e (hp.mem_iff.mpr he),
    (hp.pairwise_iff fun hd => disjoint_comm.mp hd).mp h.apart,
    fun e he => h.sentinel e (hp.mem_iff.mpr he)⟩

end Laid

end Laid

end MpsShdict
