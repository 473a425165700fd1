import MpsShdict.ShdictLengths

/-! # The place of a list header

The size of the chunk of a list is rounded up, and so is the address behind the key, where
the header is put. The one leaves room for the other because such a chunk is aligned, and
the header is found again because neither the chunk nor the length of its key changes.

The processes compute the address each in their own mapping. As all mappings are aligned
alike, what they get is one and the same offset in the pool.
-/
namespace MpsShdict

open Words

/-- The size that is computed at `init_list`: the entry, the key and the header, rounded
up as one. -/
def initListSize (keyLen : Nat) : Nat :=
  intSize (alignUp (offsetofColor + offsetofData + keyLen + sizeofQueue) ngxAlignment)

/-- The header of a list, in a chunk of `size` bytes at `node` with a key of `len` bytes,
as a process sees it that has the pool mapped at `base`: aligned, behind the key, and with
its end in the chunk. -/
structure HeadPlaced (base node len size : Nat) : Prop where
  aligned : ngxAlignment ∣ base + mpsShdictGetListHead base node len
  behind : node + offsetofColor + offsetofData + len ≤ mpsShdictGetListHead base node len
  inside : mpsShdictGetListHead base node len + sizeofQueue ≤ node + size

section Head
variable {s base base' node len size : Nat} {ord : Prop} {pool pool' : SlabPool}
  {live : List Block} {d d' : Shdict} {L : List Entry} {spare : List Block} {e : Entry}
  {key : Bytes} {xs : List Event} {now : Nat} {rc : Lookup}

theorem initListSize_eq (hlen : len < 2 ^ 16) :
    initListSize len = alignUp (offsetofColor + offsetofData + len + sizeofQueue) ngxAlignment := by
  have h : alignUp (offsetofColor + offsetofData + len + sizeofQueue) ngxAlignment <
      offsetofColor + offsetofData + len + sizeofQueue + 2 ^ 3 := alignUp_lt _ 3
  apply intSize_of_lt
  apply h.trans
  simp only [offsetofColor, offsetofData, sizeofQueue]
  omega

/-- An address and a size are rounded up alike where the chunk is aligned. -/
theorem headPlaced_of_aligned (hbase : 8 ∣ base) (hnode : 8 ∣ node)
    (hsize : alignUp (offsetofColor + offsetofData + len + sizeofQueue) ngxAlignment ≤ size) :
    HeadPlaced base node len size := by
  have hhead : mpsShdictGetListHead base node len =
      node + alignUp (offsetofColor + offsetofData + len) (2 ^ 3) := by
    rw [mpsShdictGetListHead,
      show base + node + offsetofColor + offsetofData + len =
        (base + node) + (offsetofColor + offsetofData + len) by omega,
      show ngxAlignment = 2 ^ 3 from rfl, alignUp_add (Nat.dvd_add hbase hnode),
      Nat.add_assoc, Nat.add_sub_cancel_left]
  have hdvd := dvd_alignUp (offsetofColor + offsetofData + len) 3
  refine ⟨?_, ?_, ?_⟩
  · rw [hhead]
    exact Nat.dvd_add hbase (Nat.dvd_add hnode hdvd)
  · have hle := le_alignUp (offsetofColor + offsetofData + len) 3
    rw [hhead]
    omega
  · -- the header takes up whole units, so that it may be counted before or after rounding
    have hunits : alignUp (offsetofColor + offsetofData + len + sizeofQueue) (2 ^ 3) =
        sizeofQueue + alignUp (offsetofColor + offsetofData + len) (2 ^ 3) := by
      rw [Nat.add_comm _ sizeofQueue]
      exact alignUp_add (by decide) _
    have hsize' : alignUp (offsetofColor + offsetofData + len + sizeofQueue) (2 ^ 3) ≤ size := hsize
    rw [hhead]
    omega

/-- The header fits into whatever chunk the allocator gives. Chunks of 8 bytes and more
are aligned to 8, and no list gets a smaller one. -/
theorem SlabRun.headPlaced (hs : 12 ≤ s) (hs' : s ≤ 16) (run : SlabRun s pool live)
    (hlen : len < 2 ^ 16)
    (halloc : mpsSlabAllocLocked (mpsSlabSizesInit (2 ^ s)) pool.poolEnd pool (initListSize len) =
      some (pool', some node)) (hbase : 2 ^ s ∣ base) :
    HeadPlaced base node len (initListSize len) := by
  have hsize := initListSize_eq hlen
  have hroom : offsetofColor + offsetofData + len + sizeofQueue ≤ initListSize len :=
    hsize ▸ le_alignUp _ 3
  have height : 8 ∣ 2 ^ s := Nat.pow_dvd_pow 2 (show 3 ≤ s by omega)
  rcases (SlabRun.alloc run halloc).inv hs hs' with ⟨-, hnil, -⟩ | ⟨-, hinv⟩
  · cases hnil
  · refine headPlaced_of_aligned (height.trans hbase) ?_ hsize.ge
    apply SlabInv.aligned (j := 3) hinv List.mem_cons_self (by omega)
    simp only [offsetofColor] at hroom
    show 2 ^ 3 ≤ initListSize len
    omega

/-- The list of an entry is where every process looks for it, whatever state a call finds
the entry in. -/
structure HeadFound (d : Shdict) (node : Nat) (key : Bytes) (s : Nat) : Prop where
  /-- The length in the entry and the one that the caller gives lead to the same place,
  wherever the pool is mapped. -/
  same : ∀ base base', 2 ^ s ∣ base → 2 ^ s ∣ base' →
    mpsShdictGetListHead base node key.length = mpsShdictGetListHead base' node (d.sd node).keyLen
  /-- The elements of the list hang there, in the chunk. -/
  list : (d.sd node).valueType = .tlist → ∀ base, 2 ^ s ∣ base →
    HeadPlaced base node key.length (initListSize key.length) ∧
      ∃ cells, IsQueue d.queue (mpsShdictGetListHead base node key.length) cells

theorem Rep.headFound (h : Rep (mpsSlabSizesInit (2 ^ s)) s ord d L spare) (he : e ∈ L)
    (hlen : e.key.length < 2 ^ 16) : HeadFound d e.off e.key s := by
  have hok := h.shape.entries e he
  have hhead : ∀ {b}, 2 ^ s ∣ b → mpsShdictGetListHead b e.off e.key.length = e.listHead :=
    fun hb => mpsShdictGetListHead_base (h.eight_dvd hb) _ _
  refine ⟨fun base base' hb hb' => ?_, ?_⟩
  · rw [hok.keyLen, hhead hb, hhead hb']
  · intro htype base hb
    have hv := hok.value
    unfold ValueOk at hv
    cases hval : e.value with
    | plain valueType bytes =>
      rw [hval] at hv
      exact absurd (hv.1.symm.trans htype) hv.2.1
    | list elems =>
      rw [hval] at hv
      refine ⟨headPlaced_of_aligned (h.eight_dvd hb) (h.owns.aligned e he elems hval) ?_,
        elems.map Elem.off, ?_⟩
      · exact (initListSize_eq hlen).ge
      · rw [hhead hb]
        exact hv.2.2.1

/-- **The header of a list is in its chunk** behind the key and aligned, for every chunk that
the allocator gives for the size computed at `init_list`.  Every operation that finds the
entry, in whatever state, computes the same place for it. -/
theorem list_head_in_chunk (hs : 12 ≤ s) (hs' : s ≤ 16) :
    (∀ pool live len pool' node base, SlabRun s pool live → 0 < len → len < 2 ^ 16 →
      mpsSlabAllocLocked (mpsSlabSizesInit (2 ^ s)) pool.poolEnd pool (initListSize len) =
        some (pool', some node) → 2 ^ s ∣ base → HeadPlaced base node len (initListSize len)) ∧
    ∀ xs d key now d' rc node, Run s xs d → KeyOk key →
      mpsShdictLookup d now (ngxMurmurHash2 key) key = some (d', rc) → rc.node = some node →
        HeadFound d node key s := by
  refine ⟨fun pool live len pool' node base run _ hlen halloc hbase =>
    run.headPlaced hs hs' hlen halloc hbase, ?_⟩
  intro xs d key now d' rc node run hkey hlook hnode
  obtain ⟨L, spare, hrep⟩ := run.rep hs hs'
  obtain ⟨found, d'', hfound, hrun, -⟩ := mpsShdictLookup_spec hrep now key
  obtain ⟨-, rfl⟩ := Prod.mk.inj (Option.some.inj (hrun.symm.trans hlook))
  cases found with
  | none => cases hnode
  | some e =>
    obtain ⟨he, rfl⟩ := hfound.sound e rfl
    have hoff : e.off = node := by
      simp only [hit] at hnode
      split at hnode
      · exact Option.some.inj hnode
      · exact Option.some.inj hnode
    exact hoff ▸ hrep.headFound he hkey.2

end Head

/-- The headers of two lists with a key of one byte, in the pool of four pages and in the
dictionary on it. -/
theorem list_head_in_chunk_one :
    HeadPlaced 8192 4096 1 (initListSize 1) ∧ HeadFound ListClients.oneDict 4224 [65] 12 := by
  obtain ⟨hplaced, hfound⟩ := @list_head_in_chunk 12 (by decide) (by decide)
  have hpool : SlabRun 12 blankDict.pool [] :=
    .init 0 20480 3 (fun _ => ⟨0, 0, 0⟩)
      (fun _ => ⟨0, 0, 0, 0⟩) (fun _ => 0) (by decide) (by decide)
      (by decide) (by decide) rfl
  have hrun : Run 12 _ ListClients.oneDict := .call (.init fresh_emptyDict) ListClients.runs_oneDict
  refine ⟨hplaced _ _ 1 _ 4096 8192 hpool (by decide) (by decide) rfl (by decide), ?_⟩
  exact hfound _ _ [65] 7 _ (.ok 4224) 4224 hrun ⟨by decide, by decide⟩ rfl rfl

end MpsShdict
