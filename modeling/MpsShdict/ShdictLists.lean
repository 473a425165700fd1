import MpsShdict.ShdictRefine

/-! # The calls on lists

A list hangs at the end of the chunk of its entry; each of its elements is a chunk.
Between two chunks that a push takes, and between two that it gives back, the list is
never seen: what is proved is where the entries stand once the call is through.

The header of a list is at an aligned address behind the key, and its position is computed
from the address and not stored. It is inside the chunk of the entry, in front of the
chunk's end, and does not depend on the base, all because the allocator aligns chunks of
more than 64 bytes to at least 8. The length of a list is counted in a field of 32 bits
beside the queue; what the lemmas say of it is that it is the number of elements modulo
that width, so that every result holds for lists of any length and one module
(`ShdictWrap`) can say what happens when it overflows.
-/
namespace MpsShdict

open RedBlack RedBlack.RbTree
open Words

/-! ### Blocks that are given back -/

section Spare
variable {sz : Sizes} {s : Nat} {ord : Prop} {d : Shdict} {e : Entry} {L : List Entry}
  {b : Block} {bs spare : List Block}

/-- A block that is none of the dictionary's moves to the front. -/
theorem dictBlocks_spare (bs : List Block) :
    (dictBlocks d L (bs ++ spare)).Perm (bs ++ dictBlocks d L spare) := by
  simp only [dictBlocks]
  refine List.Perm.trans (List.Perm.cons _ ?_) List.perm_middle.symm
  exact List.perm_append_comm_assoc _ _ _

/-- The pool may lose the blocks that are none of the dictionary's. -/
theorem Rep.dropSpare {pool : SlabPool} (bs : List Block) (h : Rep sz s ord d L (bs ++ spare))
    (hs : Quiet d.pool pool) (hown : Owns sz s pool (dictBlocks d L spare)) :
    Rep sz s ord { d with pool := pool } L spare := by
  refine ⟨h.shape.setPool hs.data, ?_, fun b hb => h.spare_pos b (List.mem_append_right _ hb)⟩
  rw [dictBlocks_data (d := d) hs.data]
  exact hown

/-- A block that is none of the dictionary's is freed. -/
theorem Rep.freeSpare (h : Rep sz s ord d L (b :: spare)) :
    (∀ base, 2 ^ s ∣ base → d.slabFree sz base b.off = d.slabFree sz 0 b.off) ∧
      Quiet d.pool (d.slabFree sz 0 b.off).pool ∧
      Rep sz s ord (d.slabFree sz 0 b.off) L spare := by
  obtain ⟨hbase, hs, hown⟩ := Owns.free (h.owns.perm (dictBlocks_spare [b]))
  refine ⟨?_, hs, Rep.dropSpare [b] h hs hown⟩
  intro base hb
  rw [Shdict.slabFree, Shdict.slabFree]
  exact congrArg (fun pool => { d with pool := pool }) (hbase base hb)

/-- A chunk for the header of a list is aligned. -/
theorem Rep.spare_aligned (h : Rep sz s ord d L (b :: spare)) (hb : 64 < b.size) : 8 ∣ b.off := by
  have hm : b ∈ dictBlocks d L (b :: spare) := by simp [dictBlocks]
  have hs := Owns.le_s h.owns
  exact SlabInv.aligned (j := 3) h.owns hm (by omega) (by omega)

end Spare

/-! ### Elements -/

section Elements
variable {sz : Sizes} {s : Nat} {ord : Prop} {d : Shdict} {e : Entry} {L : List Entry}
  {spare : List Block} {env : Env} {a : PushArgs} {elems elems' : List Elem} {x : Elem}
  {direction : Direction} {v : Bytes}

/-- What a push may be given: a key of 1 to 65535 bytes, and a value whose chunk has a
size that fits into an `int`. -/
structure PushArgs.Ok (a : PushArgs) : Prop where
  key : KeyOk a.key
  size : offsetofListData + a.strValue.length < 2 ^ 31

theorem PushArgs.Ok.value (h : a.Ok) (hv : pushValue a = .ok v) :
    offsetofListData + v.length < 2 ^ 31 := by
  have hsize := h.size
  unfold pushValue at hv
  cases ht : a.valueType with
  | tstring =>
    simp only [ht, Except.ok.injEq] at hv
    rwa [← hv]
  | tnumber =>
    simp only [ht, Except.ok.injEq] at hv
    rw [← hv, a.numValue.size]
    decide
  | tnil => simp [ht] at hv
  | tboolean => simp [ht] at hv
  | tlist => simp [ht] at hv
  | unknown code => simp [ht] at hv

theorem u32_succ (n : Nat) : u32 (u32 n + 1) = u32 (n + 1) := by
  unfold u32
  omega

/-- The list of an entry, written over: its blocks. -/
theorem Entry.blocks_list (hv : e.value = .list elems) :
    ({ e with value := .list elems' } : Entry).blocks = e.block :: elems'.map Elem.block := by
  have hsize : ({ e with value := .list elems' } : Entry).size = e.size := by
    unfold Entry.size
    rw [hv]
  simp only [Entry.blocks, Value.elems, Entry.block, hsize]

theorem insertElem_perm (direction : Direction) (x : Elem) (elems : List Elem) :
    (insertElem direction x elems).Perm (x :: elems) := by
  cases direction with
  | left => exact .refl _
  | right => exact List.perm_append_comm

/-- The node of an entry spells it out with other elements, once their number is written. -/
theorem EntryOk.setElems {d' : Shdict} {expires : Nat} (hok : EntryOk d e)
    (hv : e.value = .list elems) (hk : (d'.rbtree.node e.off).key = (d.rbtree.node e.off).key)
    (hsd : d'.sd e.off = { d.sd e.off with valueLen := u32 elems'.length, expires := expires })
    (hq : IsQueue d'.queue e.listHead (elems'.map Elem.off)) (helems : ∀ x ∈ elems', ElemOk d' x) :
    EntryOk d' { e with expires := expires, value := .list elems' } := by
  have hval := hok.value
  simp only [ValueOk, hv] at hval
  refine ⟨hk.trans hok.hash, ?_, ?_, ?_, ?_, ?_⟩
  · simp only [hsd]
    exact hok.keyLen
  · simp only [hsd]
    exact hok.key
  · simp only [hsd]
    exact hok.userFlags
  · simp only [hsd]
  · simp only [ValueOk, hsd]
    exact ⟨hval.1, trivial, hq, helems⟩

/-- **An element is put into a list**, whatever the end. Its chunk was a spare block and
is one of the entry's afterwards. -/
theorem Rep.addElem {q : QueueMem} {ln : ShdictListNode} (direction : Direction)
    (h : Rep sz s ord d (e :: L) (x.block :: spare)) (hv : e.value = .list elems)
    (hq : IsQueue q e.listHead ((insertElem direction x elems).map Elem.off))
    (hframe : ∀ c, c ∉ e.listHead :: x.off :: elems.map Elem.off → q c = d.queue c)
    (hln : ln.valueType = x.valueType ∧ ln.valueLen = x.bytes.length ∧
      readBytes ln.data 0 x.bytes.length = x.bytes) :
    Rep sz s ord
      { d.setSd e.off fun sd => { sd with valueLen := u32 (sd.valueLen + 1) } with
        lnode := Function.update d.lnode x.off ln
        queue := q }
      ({ e with value := .list (insertElem direction x elems) } :: L) spare := by
  have hok := h.shape.entries e (by simp)
  have hval := hok.value
  simp only [ValueOk, hv] at hval
  obtain ⟨htype, hlen, -, helems⟩ := hval
  have hperm := insertElem_perm direction x elems
  have hmem : ∀ y ∈ insertElem direction x elems, y = x ∨ y ∈ elems := by
    intro y hy
    exact List.mem_cons.mp (hperm.mem_iff.mp hy)
  -- the chunk of the new element is none of those of the old ones
  have hcell : ∀ y ∈ elems, y.off ≠ x.off := by
    intro y hy hoff
    have hy' : y.off ∈ e.cells := by
      unfold Entry.cells Entry.listCells
      rw [hv]
      exact List.mem_cons_of_mem _ (List.mem_cons_of_mem _ (List.mem_map.mpr ⟨y, hy, rfl⟩))
    apply h.spare_cells List.mem_cons_self hy'
    rw [hoff]
    exact Block.has_off (b := x.block) (h.spare_pos _ List.mem_cons_self)
  refine Rep.modify (A := []) h rfl rfl ?_ rfl rfl (fun z hz => Function.update_of_ne hz _ _) ?_
    ?_ ?_ fun b hb => h.spare_pos b (List.mem_cons_of_mem _ hb)
  · rw [Entry.blocks_list hv, Entry.blocks, hv]
    apply List.Perm.cons _
    apply List.perm_middle.trans
    exact ((hperm.map Elem.block).symm.append_right spare)
  · intro z _ hz
    refine Function.update_of_ne (fun hzx => hz ?_) _ _
    unfold Entry.cells Entry.listCells
    refine List.mem_cons_of_mem _ (List.mem_cons_of_mem _ ?_)
    rw [hzx]
    exact (hperm.map Elem.off).mem_iff.mpr List.mem_cons_self
  · intro c hc hc'
    refine hframe c fun hm => hc' ?_
    unfold Entry.listCells
    rcases List.mem_cons.mp hm with hm | hm
    · rw [hm]
      exact List.mem_cons_self
    · exact List.mem_cons_of_mem _ ((hperm.map Elem.off).mem_iff.mpr hm)
  · set d₁ : Shdict := { d.setSd e.off fun sd => { sd with valueLen := u32 (sd.valueLen + 1) } with
      lnode := Function.update d.lnode x.off ln
      queue := q }
    have hk : (d₁.rbtree.node e.off).key = (d.rbtree.node e.off).key := rfl
    refine hok.setElems hv hk ?_ hq ?_
    · have hn : u32 ((d.sd e.off).valueLen + 1) = u32 (insertElem direction x elems).length := by
        rw [hlen, u32_succ, hperm.length_eq, List.length_cons]
      rw [← hn, ← hok.expires]
      exact Function.update_self _ _ _
    · intro y hy
      rcases hmem y hy with rfl | hy
      · have hnode : d₁.lnode y.off = ln := Function.update_self _ _ _
        exact ⟨hnode ▸ hln.1, hnode ▸ hln.2.1, hnode ▸ hln.2.2⟩
      · exact (helems y hy).frame (Function.update_of_ne (hcell y hy) _ _)

/-- A spare block is no cell of a list. -/
theorem Rep.spare_notMem {lnode n : Nat} (h : Rep sz s ord d (e :: L) (⟨lnode, n⟩ :: spare))
    (hv : e.value = .list elems) : lnode ∉ e.listHead :: elems.map Elem.off := by
  intro hm
  have hc : lnode ∈ e.cells := by
    unfold Entry.cells Entry.listCells
    rw [hv]
    exact List.mem_cons_of_mem _ hm
  apply h.spare_cells List.mem_cons_self hc
  exact Block.has_off (b := ⟨lnode, _⟩) (h.spare_pos _ List.mem_cons_self)

/-- **From the label `push_node` on, if there is a chunk.** -/
theorem pushElement_spec (env : Env) (lnode : Nat) (hv : e.value = .list elems)
    (hkey : e.key = a.key) (hlen : offsetofListData + v.length < 2 ^ 31)
    (h : Rep sz s ord d (e :: L) (⟨lnode, offsetofListData + v.length⟩ :: spare)) :
    ∃ d', (∀ base, 2 ^ s ∣ base → pushElement base env a v e.off lnode d = d') ∧
      Rep sz s ord d'
        ({ e with value := .list (insertElem a.direction ⟨lnode, a.valueType, v⟩ elems) } ::
          L) spare ∧
      d'.pool = d.pool := by
  have hok := h.shape.entries e (by simp)
  have hval := hok.value
  simp only [ValueOk, hv] at hval
  have hq : IsQueue d.queue e.listHead (elems.map Elem.off) := hval.2.2.1
  have hnot : lnode ∉ e.listHead :: elems.map Elem.off := h.spare_notMem hv
  have hhead : ∀ base, 2 ^ s ∣ base → mpsShdictGetListHead base e.off a.key.length = e.listHead :=
    fun base hb => by rw [mpsShdictGetListHead_base (h.eight_dvd hb), Entry.listHead, hkey]
  have hlnode : ({ valueLen := u32 v.length
                   valueType := a.valueType
                   data := ngxMemcpy env.listJunk 0 v } : ShdictListNode).valueLen = v.length :=
    u32_of_lt (by omega)
  cases hdir : a.direction with
  | left =>
    refine ⟨_, ?_, Rep.addElem (x := ⟨lnode, a.valueType, v⟩) .left h hv
      (hq.insertHead hnot)
      (fun c hc => hq.insertHead_frame hc) ⟨rfl, hlnode, readBytes_memcpy⟩, rfl⟩
    intro base hb
    simp only [pushElement, hdir, hhead base hb]
    rfl
  | right =>
    refine ⟨_, ?_, Rep.addElem (x := ⟨lnode, a.valueType, v⟩) .right h hv
      (by simpa [insertElem] using hq.insertTail hnot) (fun c hc => hq.insertTail_frame hc)
      ⟨rfl, hlnode, readBytes_memcpy⟩, rfl⟩
    intro base hb
    simp only [pushElement, hdir, hhead base hb]
    rfl

end Elements

/-- The answer of a push or of `mps_shdict_llen` whose return finds the pool as the locked
section has left it. What others may do in between is the business of another module. -/
def answer (r : Shdict × Option Nat × Return × Option String) : Shdict × Option Nat × ListResult :=
  (r.1, r.2.1, ⟨r.2.2.1, r.2.2.2, r.2.2.1.value r.1⟩)

/-! ### Pushes -/

section Push
variable {sz : Sizes} {s : Nat} {ord : Prop} {d : Shdict} {e : Entry} {L : List Entry}
  {spare : List Block} {env : Env} {a : PushArgs} {elems : List Elem} {v : Bytes}

theorem answer_length {sd : Option Nat} (h : EntryOk d e) (hv : e.value = .list elems) :
    answer (d, sd, .valueLen e.off, none) = (d, sd, .length e) := by
  have hval := h.value
  simp only [ValueOk, hv] at hval
  simp only [answer, Return.value, hval.2.1, ListResult.length, hv, Value.elems]

/-- **Nobody looks at the length of a list that leaves**: whatever `value_len` counts, the
entry is unlinked and its elements are spare. -/
theorem Rep.unlinkStale (n : Nat) (hv : e.value = .list elems) (h : Rep sz s ord d (e :: L) spare) :
    ∃ d', (∀ base, 2 ^ s ∣ base →
        (d.setSd e.off fun sd => { sd with valueLen := n }).unlink sz base e.off = some d') ∧
      Rep sz s ord d' L (elems.map Elem.block ++ spare) ∧ Quiet d.pool d'.pool := by
  set d₁ := d.setSd e.off fun sd => { sd with valueLen := n } with hd₁
  have hself : d₁.sd e.off = { d.sd e.off with valueLen := n } := Function.update_self _ _ _
  have hsd : ∀ z, z ≠ e.off → d₁.sd z = d.sd z := fun z hz => Function.update_of_ne hz _ _
  have hkeys : ∀ z, d₁.keyOf z = d.keyOf z := by
    intro z
    by_cases hz : z = e.off
    · rw [hz, Shdict.keyOf, Shdict.keyOf, hself]
    · rw [Shdict.keyOf, Shdict.keyOf, hsd z hz]
  have hhung : Hung ord d₁ (([] ++ e :: L).map Entry.off) :=
    h.shape.hung.frame rfl rfl (fun _ _ => rfl) fun _ z _ => hkeys z
  have hentries : ∀ y ∈ [] ++ L, EntryOk d₁ y := by
    intro y hy
    refine (h.shape.entries y (List.mem_cons_of_mem _ hy)).frame rfl (hsd _ ?_)
      (fun _ _ => rfl) fun _ _ => rfl
    intro hoff
    exact (List.nodup_cons.mp h.laid.off_nodup).1 (List.mem_map.mpr ⟨y, hy, hoff⟩)
  have hblocks := Entry.blocks_of_list hv
  have hown :
      Owns sz s d₁.pool (e.block :: dictBlocks d₁ ([] ++ L) (elems.map Elem.block ++ spare)) := by
    refine h.owns.perm ((dictBlocks_middle (A := [])).trans ?_)
    rw [hblocks]
    exact List.Perm.cons _ (dictBlocks_spare _).symm
  obtain ⟨d', hrun, hrep, -, hs⟩ := unlink_spec (d := d₁) (A := []) h.laid hhung hentries hown
    fun b hb => by
      rcases List.mem_append.mp hb with hb | hb
      · exact e.blocks_pos (hblocks ▸ List.mem_cons_of_mem _ hb)
      · exact h.spare_pos b hb
  exact ⟨d', hrun, hrep, hs⟩

/-- From the label `push_node` on. -/
theorem pushNode_spec (env : Env) (c : Choice) (hv : e.value = .list elems) (hkey : e.key = a.key)
    (hlen : offsetofListData + v.length < 2 ^ 31) (h : Rep sz s ord d (e :: L) spare) :
    ∃ r : Option Nat, Does sz s ord d spare
      (fun base => (pushNode sz base env a v e.off d).map answer)
      (pushNodeEntries a v { c with elem := r } e elems L) := by
  have hpos : 0 < offsetofListData + v.length := by
    simp only [offsetofListData]
    omega
  obtain ⟨pool, p, halloc, hs, hrep⟩ := h.slabAlloc env 31 (offsetofListData + v.length)
  rw [Nat.max_eq_right hpos] at hrep
  set d₁ : Shdict := { d with pool := pool } with hd₁
  have hok := hrep.shape.entries e (by simp)
  have hval := hok.value
  simp only [ValueOk, hv] at hval
  have hlenv : (d₁.sd e.off).valueLen = u32 elems.length := hval.2.1
  -- no chunk: a list that counts as empty is unlinked, any other is left
  cases p with
  | none =>
    by_cases hzero : u32 elems.length = 0
    · obtain ⟨d', hrun, hrep', hs'⟩ := hrep.unlinkStale (d₁.sd e.off).valueLen hv
      rw [show d₁.setSd e.off (fun sd => { sd with valueLen := (d₁.sd e.off).valueLen }) = d₁ by
        simp [Shdict.setSd]] at hrun
      refine ⟨none, d', ?_, ?_, hs.trans hs'⟩
      · intro base hb
        simp only [pushNode, intSize_of_lt hlen, halloc,
          Option.bind_eq_bind, Option.bind_some, hlenv,
          hzero, ↓reduceIte, hrun base hb, pushNodeEntries]
        rfl
      · simp only [pushNodeEntries, if_pos hzero]
        exact hrep'
    · refine ⟨none, d₁, ?_, ?_, hs⟩
      · intro base hb
        simp only [pushNode, intSize_of_lt hlen, halloc,
          Option.bind_eq_bind, Option.bind_some, hlenv, hzero, ↓reduceIte, pushNodeEntries]
        rfl
      · simp only [pushNodeEntries, if_neg hzero, ← hv]
        exact hrep
  | some p =>
    obtain ⟨d', hrun, hrep', hpool⟩ := pushElement_spec env p hv hkey hlen hrep
    refine ⟨some p, d', ?_, hrep', ?_⟩
    · intro base hb
      simp only [pushNode, intSize_of_lt hlen, halloc, Option.bind_eq_bind, Option.bind_some,
        hrun base hb, pushNodeEntries, Option.map_some]
      have hok' := hrep'.shape.entries _ List.mem_cons_self
      exact congrArg some (answer_length hok' rfl)
    · rw [hpool]
      exact hs

/-- From the label `init_list` to the label `push_node`. -/
theorem initList_spec (env : Env) (node : Nat) (hk : KeyOk a.key)
    (h : Rep sz s ord d L
      (⟨node, alignUp (offsetofColor + offsetofData + a.key.length + sizeofQueue) ngxAlignment⟩ ::
        spare))
    (hnew : ord → ∀ x ∈ L, x.key ≠ a.key) :
    ∃ d', (∀ base, 2 ^ s ∣ base → initList base env a (ngxMurmurHash2 a.key) node d = some d') ∧
      Rep sz s ord d' (⟨node, a.key, env.junk.userFlags, 0, .list []⟩ :: L) spare ∧
      d'.pool = d.pool := by
  set e : Entry := ⟨node, a.key, env.junk.userFlags, 0, .list []⟩ with he
  have hkey : a.key.length % 2 ^ 16 = a.key.length := Nat.mod_eq_of_lt hk.2
  have hblock : (⟨node, alignUp (offsetofColor + offsetofData + a.key.length + sizeofQueue)
    ngxAlignment⟩ : Block) = e.block := rfl
  rw [hblock] at h
  have hal : 8 ∣ e.off := h.spare_aligned (by
    have := e.le_size
    have := hk.1
    simp only [Entry.block, offsetofColor, offsetofData, he] at *
    omega)
  have hhead : ∀ base, 2 ^ s ∣ base → mpsShdictGetListHead base node a.key.length = e.listHead :=
    fun base hb => mpsShdictGetListHead_base (h.eight_dvd hb) node a.key.length
  set f : ShdictNode → ShdictNode := fun _ =>
    { env.junk with
      keyLen := a.key.length % 2 ^ 16
      expires := 0
      valueLen := 0
      valueType := .tlist
      data := ngxMemcpy env.junk.data 0 a.key } with hf
  -- the chunk is written before the tree gets to know the entry
  set d₁ : Shdict :=
    { Shdict.setSd
          { d with rbtree.node := d.rbtree.node.setKey node (ngxMurmurHash2 a.key) } node f with
      queue := mpsQueueInit d.queue e.listHead } with hd₁
  have hsame : d₁.sd node = f (d.sd node) := Function.update_self _ _ _
  have hrep : Rep sz s ord d₁ L (e.block :: spare) := by
    refine h.scratch rfl rfl (fun z hz => RbMem.setKey_ne hz)
      (fun z hz => Function.update_of_ne hz _ _)
      rfl fun c hc => mpsQueueInit_frame ?_
    rintro rfl
    exact hc (Entry.has_listHead rfl hal).1
  have hok : EntryOk d₁ e := by
    refine ⟨?_, ?_, ?_, ?_, ?_, ?_⟩
    · show (d.rbtree.node.setKey node (ngxMurmurHash2 a.key) node).key = _
      simp [RbMem.setKey, he]
    · simp only [he, hsame, hf, hkey]
    · simp only [he, hsame, hf]
      exact readBytes_memcpy
    · simp only [he, hsame, hf]
    · simp only [he, hsame, hf]
    · simp only [ValueOk, he, hsame, hf]
      exact ⟨trivial, rfl, IsQueue.init, by simp⟩
  obtain ⟨d', hrun, hpool, hspec⟩ := hrep.link rfl hok.hash
  refine ⟨d', ?_, ?_, hpool⟩
  · intro base hb
    simp only [initList, hhead base hb]
    exact hrun
  · have := hspec id (by rwa [Shdict.setSd_id]) fun ho => ⟨hnew ho, .inl hok.keyOf⟩
    rwa [Shdict.setSd_id] at this

/-- The size of a new entry with a list can be computed. -/
theorem initList_size {key : Bytes} (hk : KeyOk key) :
    0 < alignUp (offsetofColor + offsetofData + key.length + sizeofQueue) ngxAlignment ∧
      intSize (alignUp (offsetofColor + offsetofData + key.length + sizeofQueue) ngxAlignment) =
        alignUp (offsetofColor + offsetofData + key.length + sizeofQueue) ngxAlignment := by
  have h1 := le_alignUp (offsetofColor + offsetofData + key.length + sizeofQueue) 3
  have h2 := alignUp_lt (offsetofColor + offsetofData + key.length + sizeofQueue) 3
  have h3 := hk.2
  rw [show (2 : Nat) ^ 3 = ngxAlignment from rfl] at h1 h2
  refine ⟨?_, intSize_of_lt ?_⟩
  · simp only [offsetofColor, offsetofData, sizeofQueue, ngxAlignment] at *
    omega
  · simp only [offsetofColor, offsetofData, sizeofQueue, ngxAlignment] at *
    omega

/-- From the label `init_list` on. -/
theorem pushInitList_spec (env : Env) (c : Choice) (sd : Option Nat) (hk : KeyOk a.key)
    (hlen : offsetofListData + v.length < 2 ^ 31) (h : Rep sz s ord d L spare)
    (hnew : ord → ∀ x ∈ L, x.key ≠ a.key) :
    ∃ node elem, (∀ n, node = some n → ∀ x ∈ L, x.off ≠ n) ∧ Does sz s ord d spare
      (fun base => (pushInitList sz base env a (ngxMurmurHash2 a.key) v d sd).map answer)
      (initListEntries env a v ⟨c.found, ⟨node, 0⟩, elem⟩ L sd) := by
  obtain ⟨hpos, hsize⟩ := initList_size hk
  obtain ⟨pool, p, halloc, hs, hrep⟩ := h.slabAlloc env 0
    (alignUp (offsetofColor + offsetofData + a.key.length + sizeofQueue) ngxAlignment)
  rw [Nat.max_eq_right hpos] at hrep
  cases p with
  | none =>
    refine ⟨none, none, by simp, _, ?_, hrep, hs⟩
    intro base hb
    simp only [pushInitList, hsize, halloc, Option.bind_eq_bind, Option.bind_some, initListEntries]
    rfl
  | some node =>
    obtain ⟨d₁, hrun, hrep₁, hpool⟩ := initList_spec env node hk hrep hnew
    obtain ⟨elem, d', hrun', hrep', hs'⟩ := pushNode_spec env (v := v)
      ⟨c.found, ⟨some node, 0⟩, none⟩ rfl rfl hlen hrep₁
    rw [hpool] at hs'
    refine ⟨some node, elem, fun n hn x hx => ?_, d', fun base hb => ?_, hrep', hs.trans hs'⟩
    · obtain rfl := Option.some.inj hn
      exact hrep.spare_off hx
    simp only [pushInitList, hsize, halloc, Option.bind_eq_bind, Option.bind_some, hrun base hb]
    exact hrun' base hb

/-- **The list of an entry that has expired is emptied**, and the deadline goes. All of
its elements are given back. -/
theorem resetList_spec (hv : e.value = .list elems) (h : Rep sz s ord d (e :: L) spare) :
    ∃ d', (∀ base, 2 ^ s ∣ base → resetList sz base e.key.length e.off d = some d') ∧
      Rep sz s ord d' ({ e with expires := 0, value := .list [] } :: L) spare ∧
      Quiet d.pool d'.pool := by
  have hok := h.shape.entries e (by simp)
  have hval := hok.value
  simp only [ValueOk, hv] at hval
  have hq : IsQueue d.queue e.listHead (elems.map Elem.off) := hval.2.2.1
  set d₁ : Shdict := d.setSd e.off fun sd => { sd with expires := 0, valueLen := 0 } with hd₁
  set d₂ : Shdict := { d₁ with queue := mpsQueueInit d.queue e.listHead } with hd₂
  set e₁ : Entry := { e with expires := 0, value := .list [] } with he₁
  -- the elements are spare before they are freed
  have hrep : Rep sz s ord d₂ (e₁ :: L) (elems.map Elem.block ++ spare) := by
    refine Rep.modify (A := []) h rfl rfl ?_ rfl rfl (fun z hz => Function.update_of_ne hz _ _)
      (fun _ _ _ => rfl) (fun c hc _ => mpsQueueInit_frame ?_) ?_ ?_
    · have hblock : e₁.blocks = [e.block] := Entry.blocks_list hv
      rw [hblock, Entry.blocks, hv]
      exact .refl _
    · rintro rfl
      apply hc
      unfold Entry.listCells
      rw [hv]
      exact List.mem_cons_self
    · have hk : (d₂.rbtree.node e.off).key = (d.rbtree.node e.off).key := rfl
      exact hok.setElems hv hk (Function.update_self _ _ _) IsQueue.init (by simp)
    · intro b hb
      rcases List.mem_append.mp hb with hb | hb
      · refine e.blocks_pos (List.mem_cons_of_mem _ ?_)
        rw [hv]
        exact hb
      · exact h.spare_pos b hb
  have hlen : elems.length < d.rounds := by
    have := h.laid.elems e (by simp)
    rwa [hv] at this
  have hown : Owns sz s d₁.pool (elems.map Elem.block ++ dictBlocks d₂ (e₁ :: L) spare) :=
    hrep.owns.perm (dictBlocks_spare _)
  obtain ⟨pool, hrun, hs, hown'⟩ :=
    freeListNodes_spec (d := d₁) elems [] d.rounds hq hown hlen
  have hrep' := (Rep.dropSpare _ hrep hs hown').touch_head
  refine ⟨_, ?_, hrep', hs⟩
  intro base hb
  have hhead : mpsShdictGetListHead base e.off e.key.length = e.listHead :=
    mpsShdictGetListHead_base (h.eight_dvd hb) _ _
  have hfirst : mpsQueueHead d₁.queue e.listHead = (elems.map Elem.off).head?.getD e.listHead :=
    IsQueue.first hq
  have hrounds : d₁.rounds = d.rounds := rfl
  simp only [resetList, ← hd₁, hhead, hfirst, hrounds,
    hrun base hb, Option.bind_eq_bind, Option.bind_some]
  rfl

/-- **Where a push goes on with its value** when it has looked for its key: at the label
`init_list`, at `push_node` for a list, or back to the caller. -/
inductive PushGoes (sz : Sizes) (s : Nat) (ord : Prop) (env : Env) (a : PushArgs)
    (v : Bytes) (d : Shdict) (L : List Entry) (spare : List Block) (found : Option Entry) : Prop
  | init (d' : Shdict) (sd : Option Nat)
      (hrep : Rep sz s ord d' (others found (afterExpire env L)) spare) (hs : Quiet d.pool d'.pool)
      (hrun : ∀ base, 2 ^ s ∣ base → mpsShdictPushHelper sz base env a d =
        pushInitList sz base env a (ngxMurmurHash2 a.key) v d' sd)
      (hgo : ∀ alloc elem, pushEntries env a ⟨found, alloc, elem⟩ L =
        initListEntries env a v ⟨found, alloc, elem⟩ (others found (afterExpire env L)) sd)
  | node (d' : Shdict) (e : Entry) (elems : List Elem) (hv : e.value = .list elems)
      (hkey : e.key = a.key) (hrep : Rep sz s ord d' (e :: others found (afterExpire env L)) spare)
      (hs : Quiet d.pool d'.pool)
      (hrun : ∀ base, 2 ^ s ∣ base → mpsShdictPushHelper sz base env a d =
        pushNode sz base env a v e.off d')
      (hgo : ∀ alloc elem, pushEntries env a ⟨found, alloc, elem⟩ L =
        pushNodeEntries a v ⟨found, alloc, elem⟩ e elems (others found (afterExpire env L)))
  | back (d' : Shdict) (e : Entry)
      (hrep : Rep sz s ord d' (e :: others found (afterExpire env L)) spare)
        (hs : Quiet d.pool d'.pool)
      (hrun : ∀ base, 2 ^ s ∣ base → mpsShdictPushHelper sz base env a d =
        some (d', some e.off, .code ngxError, some "value not a list"))
      (hgo : ∀ alloc elem, pushEntries env a ⟨found, alloc, elem⟩ L =
        ⟨e :: others found (afterExpire env L), [],
          some e.off, .code ngxError (some "value not a list")⟩)

/-- A push finds what the entries have and goes where they say. -/
theorem mpsShdictPushHelper_goes (env : Env) (hval : pushValue a = .ok v)
    (h : Rep sz s ord d L spare) :
    ∃ found, Way ord env a.key L found ∧ PushGoes sz s ord env a v d L spare found := by
  obtain ⟨d₀, n, found, d₁, hexp, hlook, hway, hrep, -, hs⟩ := way_spec env a.key h
  refine ⟨found, hway, ?_⟩
  cases found with
  | none =>
    refine .init d₁ none hrep hs ?_ fun alloc elem => ?_
    · intro base hb
      simp only [mpsShdictPushHelper, hval, hexp base hb,
        hlook, Option.bind_eq_bind, Option.bind_some, hit, Hit.lookup]
    · simp only [pushEntries, hval, hit]
  | some e =>
    have hkey := (hway.finds.sound e rfl).2
    have hv := (hrep.shape.entries e (by simp [lookupEntries])).value
    unfold ValueOk at hv
    by_cases hx : lookupExpired e.expires (env.mpsClockTimeMs 2) = true
    · -- an expired value is given up for a new entry, an expired list is emptied and used again
      cases hve : e.value with
      | plain valueType bytes =>
        simp only [hve] at hv
        have htype : (d₁.sd e.off).valueType ≠ .tlist := hv.1 ▸ hv.2.1
        obtain ⟨d₂, hrem, hrep₂, -, hs₂⟩ := Rep.removeEntry (A := []) hrep
        refine .init d₂ (some e.off) hrep₂ (hs.trans hs₂) ?_ fun alloc elem => ?_
        · intro base hb
          have hunlink := hrem base hb
          rw [Shdict.removeEntry, if_neg htype] at hunlink
          replace hunlink : d₁.unlink sz base e.off = some d₂ := hunlink
          simp only [mpsShdictPushHelper, hval, hexp base hb, hlook, Option.bind_eq_bind,
            Option.bind_some, hit, if_pos hx, Hit.lookup, if_pos htype, hunlink]
        · simp only [pushEntries, hval, hit, if_pos hx, hve]
      | list elems =>
        simp only [hve] at hv
        have htype : ¬ (d₁.sd e.off).valueType ≠ .tlist := not_not.mpr hv.1
        obtain ⟨d₂, hreset, hrep₂, hs₂⟩ := resetList_spec hve hrep
        refine .node d₂ { e with expires := 0, value := .list [] } [] rfl hkey hrep₂
          (hs.trans hs₂) ?_ ?_
        · intro base hb
          have hreset' := hreset base hb
          rw [hkey] at hreset'
          simp only [mpsShdictPushHelper, hval, hexp base hb, hlook, Option.bind_eq_bind,
            Option.bind_some, hit, if_pos hx, Hit.lookup, if_neg htype, hreset']
        · intro alloc elem
          simp only [pushEntries, hval, hit, if_pos hx, hve]
          rfl
    · -- a live value is no list, a live list takes the element
      cases hve : e.value with
      | plain valueType bytes =>
        simp only [hve] at hv
        have htype : (d₁.sd e.off).valueType ≠ .tlist := hv.1 ▸ hv.2.1
        refine .back d₁ e hrep hs ?_ fun alloc elem => ?_
        · intro base hb
          simp only [mpsShdictPushHelper, hval, hexp base hb, hlook, Option.bind_eq_bind,
            Option.bind_some, hit, if_neg hx, Hit.lookup, if_pos htype]
        · simp only [pushEntries, hval, hit, if_neg hx, hve]
      | list elems =>
        simp only [hve] at hv
        have htype : ¬ (d₁.sd e.off).valueType ≠ .tlist := not_not.mpr hv.1
        refine .node (d₁.touch e.off) e elems hve hkey hrep.touch_head hs ?_
          fun alloc elem => ?_
        · intro base hb
          simp only [mpsShdictPushHelper, hval, hexp base hb, hlook, Option.bind_eq_bind,
            Option.bind_some, hit, if_neg hx, Hit.lookup, if_neg htype]
        · simp only [pushEntries, hval, hit, if_neg hx, hve]

/-- **`mps_shdict_push_helper`** does to the pool what `pushEntries` does to the entries.
Where it unlinks a list whose length is counted as zero, the elements of that list are
spare blocks. -/
theorem mpsShdictPushHelper_spec (env : Env) (hok : a.Ok) (h : Rep sz s ord d L spare) :
    ∃ c : Choice, Way ord env a.key L c.found ∧ c.alloc.rounds = 0 ∧
      (∀ n, c.alloc.node = some n → ∀ x ∈ others c.found (afterExpire env L), x.off ≠ n) ∧
      Does sz s ord d spare (fun base => (mpsShdictPushHelper sz base env a d).map answer)
        (pushEntries env a c L) := by
  cases hval : pushValue a with
  | error msg =>
    obtain ⟨-, -, found, -, -, -, hway, -⟩ := way_spec env a.key h
    refine ⟨⟨found, ⟨none, 0⟩, none⟩, hway, rfl, by simp, d, ?_, ?_, .refl _⟩
    · intro base _
      simp only [mpsShdictPushHelper, pushEntries, hval]
      rfl
    · simp only [pushEntries, hval]
      exact h
  | ok v =>
    have hlen := hok.value hval
    obtain ⟨found, hway, hgoes⟩ := mpsShdictPushHelper_goes env hval h
    -- the labels `init_list` and `push_node`, or a value that is no list
    cases hgoes with
    | init d₁ sd hrep hs hrun hgo =>
      obtain ⟨node, elem, hfresh, d', hrun', hrep', hs'⟩ := pushInitList_spec env
        ⟨found, ⟨none, 0⟩, none⟩ sd hok.key hlen hrep hway.only
      refine ⟨⟨found, ⟨node, 0⟩, elem⟩, hway, rfl, hfresh, ?_⟩
      rw [hgo]
      refine ⟨d', ?_, hrep', hs.trans hs'⟩
      intro base hb
      simp only [hrun base hb]
      exact hrun' base hb
    | node d₁ e elems hv hkey hrep hs hrun hgo =>
      obtain ⟨elem, d', hrun', hrep', hs'⟩ := pushNode_spec env (v := v)
        ⟨found, ⟨none, 0⟩, none⟩ hv hkey hlen hrep
      refine ⟨⟨found, ⟨none, 0⟩, elem⟩, hway, rfl, by simp, ?_⟩
      rw [hgo]
      refine ⟨d', ?_, hrep', hs.trans hs'⟩
      intro base hb
      simp only [hrun base hb]
      exact hrun' base hb
    | back d₁ e hrep hs hrun hgo =>
      refine ⟨⟨found, ⟨none, 0⟩, none⟩, hway, rfl, by simp, ?_⟩
      rw [hgo]
      refine ⟨d₁, ?_, hrep, hs⟩
      intro base hb
      simp only [hrun base hb]
      rfl

end Push

/-! ### Pops and lengths -/

section Pop
variable {sz : Sizes} {s : Nat} {ord : Prop} {d : Shdict} {e : Entry} {L : List Entry}
  {spare : List Block} {env : Env} {elems elems' : List Elem} {x : Elem} {direction : Direction}

/-- What is read out of the pool is the element. -/
theorem popValue_spec (hok : ElemOk d x) (env : Env) (bufLen : Nat) :
    popValue env (d.lnode x.off) bufLen = elemResult env x bufLen := by
  have hread : readBytes (d.lnode x.off).data 0 (d.lnode x.off).valueLen = x.bytes := by
    rw [hok.valueLen, hok.bytes]
  unfold popValue elemResult
  simp only [hread, hok.valueType]
  cases x.valueType with
  | tstring => rfl
  | tnumber =>
    by_cases h8 : x.bytes.length = 8
    · have hnum : readDouble (d.lnode x.off).data 0 = ⟨x.bytes, h8⟩ := by
        simp only [readDouble, Double.mk.injEq]
        rw [← h8, hok.bytes]
      simp only [sizeofDouble, h8, ne_eq, not_true_eq_false, ↓reduceIte, ↓reduceDIte, hnum]
    · simp [sizeofDouble, h8]
  | tnil => rfl
  | tboolean => rfl
  | tlist => rfl
  | unknown code => rfl

/-- The element that is taken, and its place in the list. -/
theorem takeElem_spec {q : QueueMem} {head : Nat} (h : takeElem direction elems = some (x, elems'))
    (hq : IsQueue q head (elems.map Elem.off)) :
    (match direction with
      | .left => mpsQueueHead q head
      | .right => mpsQueueLast q head) = x.off ∧
      ∃ A B, elems = A ++ x :: B ∧ elems' = A ++ B := by
  cases direction with
  | left =>
    cases elems with
    | nil => simp [takeElem] at h
    | cons y ys =>
      simp only [takeElem, List.head?_cons, Option.map_some, List.tail_cons, Option.some.injEq,
        Prod.mk.injEq] at h
      obtain ⟨rfl, rfl⟩ := h
      exact ⟨hq.head, [], ys, rfl, rfl⟩
  | right =>
    rcases List.eq_nil_or_concat' elems with rfl | ⟨ys, y, rfl⟩
    · simp [takeElem] at h
    · simp only [takeElem, List.getLast?_append, List.getLast?_singleton, Option.some_or,
        Option.map_some, List.dropLast_concat, Option.some.injEq, Prod.mk.injEq] at h
      obtain ⟨rfl, rfl⟩ := h
      rw [List.map_append] at hq
      exact ⟨hq.last, ys, [], rfl, by simp⟩

/-- **An element leaves a list**, its chunk is spare. The queue is that of the others, in
their order. -/
theorem Rep.takeElem {A B : List Elem} (hv : e.value = .list (A ++ x :: B))
    (h : Rep sz s ord d (e :: L) spare) :
    Rep sz s ord
      { d.setSd e.off fun sd => { sd with valueLen := u32 (A ++ B).length } with
        queue := mpsQueueRemove d.queue x.off }
      ({ e with value := .list (A ++ B) } :: L) (x.block :: spare) := by
  have hok := h.shape.entries e (by simp)
  have hval := hok.value
  simp only [ValueOk, hv] at hval
  obtain ⟨htype, hlen, hq, helems⟩ := hval
  rw [List.map_append, List.map_cons] at hq
  refine Rep.modify (A := []) h rfl rfl ?_ rfl rfl (fun z hz => Function.update_of_ne hz _ _)
    (fun _ _ _ => rfl) (fun c hc _ => hq.remove_frame fun hm => hc ?_) ?_ ?_
  · rw [Entry.blocks_list hv, Entry.blocks, hv]
    apply List.Perm.cons _
    simp only [Value.elems, List.map_append, List.map_cons]
    refine (List.perm_middle.append_right spare).trans ?_
    exact List.perm_middle.symm
  · unfold Entry.listCells
    rw [hv]
    simp only [List.map_append, List.map_cons, List.mem_cons, List.mem_append] at hm ⊢
    tauto
  · set d₁ : Shdict := { d.setSd e.off fun sd => { sd with valueLen := u32 (A ++ B).length } with
      queue := mpsQueueRemove d.queue x.off }
    have hk : (d₁.rbtree.node e.off).key = (d.rbtree.node e.off).key := rfl
    have hrem : IsQueue d₁.queue e.listHead ((A ++ B).map Elem.off) := by
      rw [List.map_append]
      exact hq.remove
    refine hok.setElems hv hk ?_ hrem fun y hy => (helems y (by simp at hy ⊢; tauto)).frame rfl
    rw [← hok.expires]
    exact Function.update_self _ _ _
  · intro b hb
    rcases List.mem_cons.mp hb with rfl | hb
    · show 0 < offsetofListData + x.bytes.length
      simp only [offsetofListData]
      omega
    · exact h.spare_pos b hb

/-- What an element is popped from. -/
theorem popElement_spec {A B : List Elem} (hv : e.value = .list (A ++ x :: B))
    (hne : u32 (A ++ x :: B).length ≠ 0) (h : Rep sz s ord d (e :: L) spare) :
    ∃ d', (∀ base, 2 ^ s ∣ base → popElement sz base e.off x.off d = some d') ∧
      Quiet d.pool d'.pool ∧
      if u32 (A ++ x :: B).length = 1 then Rep sz s ord d' L ((A ++ B).map Elem.block ++ spare)
      else Rep sz s ord d' ({ e with value := .list (A ++ B) } :: L) spare := by
  have hok := h.shape.entries e (by simp)
  have hval := hok.value
  simp only [ValueOk, hv] at hval
  have hlen : (d.sd e.off).valueLen = u32 (A ++ x :: B).length := hval.2.1
  obtain ⟨hbase, hs, hrep⟩ := (h.takeElem hv).freeSpare
  set d₁ : Shdict := { d with queue := mpsQueueRemove d.queue x.off } with hd₁
  set d₂ : Shdict := { d.setSd e.off fun sd => { sd with valueLen := u32 (A ++ B).length } with
    queue := mpsQueueRemove d.queue x.off } with hd₂
  have hfree : ∀ base, 2 ^ s ∣ base → d₁.slabFree sz base x.off = d₁.slabFree sz 0 x.off := by
    intro base hb
    have hpool : mpsSlabFreeLocked sz base d₁.pool x.off = mpsSlabFreeLocked sz 0 d₁.pool x.off :=
      congrArg Shdict.pool (hbase base hb)
    rw [Shdict.slabFree, Shdict.slabFree, hpool]
  have hlen₁ : ((d₁.slabFree sz 0 x.off).sd e.off).valueLen = u32 (A ++ x :: B).length := hlen
  by_cases hone : u32 (A ++ x :: B).length = 1
  · -- the field `value_len` still counts the element
    have hstale : d₁.slabFree sz 0 x.off = (d₂.slabFree sz 0 x.off).setSd e.off
        fun sd => { sd with valueLen := (d.sd e.off).valueLen } := by
      simp [hd₁, hd₂, Shdict.slabFree, Shdict.setSd]
    obtain ⟨d', hrun, hrep', hs'⟩ := Rep.unlinkStale (e := { e with value := .list (A ++ B) })
      (d.sd e.off).valueLen rfl hrep
    refine ⟨d', ?_, hs.trans hs', ?_⟩
    · intro base hb
      simp only [popElement, ← hd₁, hfree base hb, hlen₁, if_pos hone]
      rw [hstale]
      exact hrun base hb
    · rw [if_pos hone]
      exact hrep'
  · refine ⟨(d₂.slabFree sz 0 x.off).touch e.off, ?_, hs, ?_⟩
    · intro base hb
      have hn : (d.sd e.off).valueLen - 1 = u32 (A ++ B).length := by
        rw [hlen]
        simp only [List.length_append, List.length_cons, u32] at hne ⊢
        omega
      have hset : (d₁.slabFree sz 0 x.off).setSd e.off
          (fun sd => { sd with valueLen := sd.valueLen - 1 }) =
          d₂.slabFree sz 0 x.off := by
        rw [hd₂, ← hn]
        rfl
      simp only [popElement, ← hd₁, hfree base hb, hlen₁, if_neg hone, hset]
    · rw [if_neg hone]
      exact hrep.touch_head

/-- **`mps_shdict_pop_helper`** does to the pool what `popEntries` does to the entries. -/
theorem mpsShdictPopHelper_spec (env : Env) (direction : Direction) (key : Bytes) (bufLen : Nat)
    (h : Rep sz s ord d L spare) :
    ∃ c : Choice, Way ord env key L c.found ∧ c.alloc.rounds = 0 ∧
      Does sz s ord d spare (fun base => mpsShdictPopHelper sz base env direction key bufLen d)
        (popEntries env direction bufLen c L) := by
  obtain ⟨d₀, n, found, d₁, hexp, hlook, hway, hrep, -, hs⟩ := way_spec env key h
  refine ⟨⟨found, ⟨none, 0⟩, none⟩, hway, rfl, ?_⟩
  cases found with
  | none =>
    refine ⟨d₁, ?_, hrep, hs⟩
    intro base hb
    simp only [mpsShdictPopHelper, hexp base hb, hlook, Option.bind_eq_bind, Option.bind_some, hit,
      Hit.lookup, popEntries]
  | some e =>
    have hkey := (hway.finds.sound e rfl).2
    have hok := hrep.shape.entries e (by simp [lookupEntries])
    have hval := hok.value
    unfold ValueOk at hval
    by_cases hx : lookupExpired e.expires (env.mpsClockTimeMs 2) = true
    · refine ⟨d₁, ?_, ?_, hs⟩
      · intro base hb
        simp only [mpsShdictPopHelper, hexp base hb, hlook,
          Option.bind_eq_bind, Option.bind_some, hit, if_pos hx, Hit.lookup, popEntries]
      · simp only [popEntries, hit, if_pos hx]
        exact hrep
    · cases hv : e.value with
      | plain valueType bytes =>
        simp only [hv] at hval
        have htype : (d₁.sd e.off).valueType ≠ .tlist := hval.1 ▸ hval.2.1
        refine ⟨d₁, ?_, ?_, hs⟩
        · intro base hb
          simp only [mpsShdictPopHelper, hexp base hb, hlook,
            Option.bind_eq_bind, Option.bind_some, hit,
            if_neg hx, Hit.lookup, popEntries, hv, if_pos htype]
        · simp only [popEntries, hit, if_neg hx, hv]
          exact hrep
      | list elems =>
        simp only [hv] at hval
        obtain ⟨htype, hlen, hq, helems⟩ := hval
        have htype' : ¬ (d₁.sd e.off).valueType ≠ .tlist := not_not.mpr htype
        have hhead : ∀ base, 2 ^ s ∣ base →
            mpsShdictGetListHead base e.off key.length = e.listHead := by
          intro base hb
          rw [mpsShdictGetListHead_base (hrep.eight_dvd hb), Entry.listHead, hkey]
        -- what is read is `value_len`, which a list of `2 ^ 32` elements has at zero
        by_cases hzero : u32 elems.length = 0
        · have hout : popEntries env direction bufLen ⟨some e, ⟨none, 0⟩, none⟩ L =
              ⟨e :: (afterExpire env L).erase e, [], some e.off,
                .plain ngxError none (some "bad empty value")⟩ := by
            simp only [popEntries, hit, if_neg hx, hv, popList, if_pos hzero]
            split <;> rfl
          rw [hout]
          refine ⟨d₁, ?_, hrep, hs⟩
          intro base hb
          simp only [mpsShdictPopHelper, hexp base hb, hlook,
            Option.bind_eq_bind, Option.bind_some, hit, if_neg hx,
            Hit.lookup, if_neg htype', hlen, if_pos hzero]
        · obtain ⟨x, elems', htake⟩ : ∃ x elems', takeElem direction elems = some (x, elems') := by
            rcases List.eq_nil_or_concat' elems with rfl | ⟨ys, y, rfl⟩
            · exact absurd rfl hzero
            · cases direction with
              | left => cases ys <;> exact ⟨_, _, rfl⟩
              | right => exact ⟨y, ys, by simp [takeElem]⟩
          obtain ⟨hend, A, B, rfl, rfl⟩ := takeElem_spec htake hq
          have hpop := popValue_spec (helems x (by simp)) env bufLen
          -- both ends come to the same: read the element out, and take it out if that went well
          have hcode : ∀ base, 2 ^ s ∣ base →
              mpsShdictPopHelper sz base env direction key bufLen d =
              if (elemResult env x bufLen).2 then
                (popElement sz base e.off x.off d₁).map fun d =>
                  (d, some e.off, (elemResult env x bufLen).1)
              else some (d₁, some e.off, (elemResult env x bufLen).1) := by
            intro base hb
            cases direction with
            | left =>
              replace hend : mpsQueueHead d₁.queue e.listHead = x.off := hend
              simp only [mpsShdictPopHelper, hexp base hb,
                hlook, Option.bind_eq_bind, Option.bind_some, hit, if_neg hx,
                Hit.lookup, if_neg htype', hlen, if_neg hzero, hhead base hb, hend, hpop]
              cases popElement sz base e.off x.off d₁ <;> rfl
            | right =>
              replace hend : mpsQueueLast d₁.queue e.listHead = x.off := hend
              simp only [mpsShdictPopHelper, hexp base hb,
                hlook, Option.bind_eq_bind, Option.bind_some, hit, if_neg hx,
                Hit.lookup, if_neg htype', hlen, if_neg hzero, hhead base hb, hend, hpop]
              cases popElement sz base e.off x.off d₁ <;> rfl
          by_cases hr : (elemResult env x bufLen).2 = true
          · obtain ⟨d', hrun, hs', hrep'⟩ := popElement_spec hv hzero hrep
            by_cases hone : u32 (A ++ x :: B).length = 1
            · rw [if_pos hone] at hrep'
              refine ⟨d', ?_, ?_, hs.trans hs'⟩
              · intro base hb
                simp only [hcode base hb, if_pos hr, hrun base hb, Option.map_some, popEntries, hit,
                  if_neg hx, hv, popList, htake, if_neg hzero, if_pos hone]
              · simp only [popEntries, hit, if_neg hx, hv, popList, htake, if_neg hzero, if_pos hr,
                  if_pos hone]
                exact hrep'
            · rw [if_neg hone] at hrep'
              refine ⟨d', ?_, ?_, hs.trans hs'⟩
              · intro base hb
                simp only [hcode base hb, if_pos hr, hrun base hb, Option.map_some, popEntries, hit,
                  if_neg hx, hv, popList, htake, if_neg hzero, if_neg hone]
              · simp only [popEntries, hit, if_neg hx, hv, popList, htake, if_neg hzero, if_pos hr,
                  if_neg hone]
                exact hrep'
          · refine ⟨d₁, ?_, ?_, hs⟩
            · intro base hb
              simp only [hcode base hb, if_neg hr, popEntries, hit, if_neg hx, hv, popList, htake,
                if_neg hzero]
            · simp only [popEntries, hit, if_neg hx, hv, popList, htake, if_neg hzero, if_neg hr]
              exact hrep

/-- **`mps_shdict_llen`** does to the pool what `llenEntries` does to the entries. -/
theorem mpsShdictLlen_spec (env : Env) (key : Bytes) (h : Rep sz s ord d L spare) :
    ∃ c : Choice, Way ord env key L c.found ∧ c.alloc.rounds = 0 ∧
      Does sz s ord d spare (fun base => (mpsShdictLlen sz base env key d).map answer)
        (llenEntries env c L) := by
  obtain ⟨d₀, n, found, d₁, hexp, hlook, hway, hrep, -, hs⟩ := way_spec env key h
  refine ⟨⟨found, ⟨none, 0⟩, none⟩, hway, rfl, ?_⟩
  -- no entry, an expired one, a value that is no list, a list
  cases found with
  | none =>
    refine ⟨d₁, ?_, hrep, hs⟩
    intro base hb
    simp only [mpsShdictLlen, hexp base hb, hlook, Option.bind_eq_bind, Option.bind_some, hit,
      Hit.lookup, llenEntries]
    rfl
  | some e =>
    have hok := hrep.shape.entries e (by simp [lookupEntries])
    have hval := hok.value
    unfold ValueOk at hval
    by_cases hx : lookupExpired e.expires (env.mpsClockTimeMs 2) = true
    · refine ⟨d₁, ?_, ?_, hs⟩
      · intro base hb
        simp only [mpsShdictLlen, hexp base hb, hlook, Option.bind_eq_bind, Option.bind_some, hit,
          if_pos hx, Hit.lookup, llenEntries]
        rfl
      · simp only [llenEntries, hit, if_pos hx]
        exact hrep
    · cases hv : e.value with
      | plain valueType bytes =>
        simp only [hv] at hval
        have htype : (d₁.sd e.off).valueType ≠ .tlist := hval.1 ▸ hval.2.1
        refine ⟨d₁, ?_, ?_, hs⟩
        · intro base hb
          simp only [mpsShdictLlen, hexp base hb, hlook, Option.bind_eq_bind, Option.bind_some, hit,
            if_neg hx, Hit.lookup, if_pos htype, llenEntries, hv]
          rfl
        · simp only [llenEntries, hit, if_neg hx, hv]
          exact hrep
      | list elems =>
        simp only [hv] at hval
        have htype : ¬ (d₁.sd e.off).valueType ≠ .tlist := not_not.mpr hval.1
        have hrep' := Rep.touch_head hrep
        refine ⟨d₁.touch e.off, ?_, ?_, hs⟩
        · intro base hb
          simp only [mpsShdictLlen, hexp base hb, hlook, Option.bind_eq_bind, Option.bind_some, hit,
            if_neg hx, Hit.lookup, if_neg htype, llenEntries, hv, Option.map_some]
          have hok' := hrep'.shape.entries e List.mem_cons_self
          exact congrArg some (answer_length hok' hv)
        · simp only [llenEntries, hit, if_neg hx, hv]
          exact hrep'

end Pop

end MpsShdict
