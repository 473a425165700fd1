import MpsShdict.ShdictModel

/-! # The calls do to the pool what they do to the entries

One lemma for each label of the source: on a pool that holds the entries `L` the code
returns, whichever process runs it, and leaves a pool that holds what the same step leaves
of `L`.

`Does` is the relation between the code and the step on the entries. It is stated for a
fixed pool and for all places at which a process may have it mapped, so refinement and
independence of the position are one statement. Each call begins with the same steps, the
expiry of old entries and the lookup, which `way_spec` does once and for all. What remains
of a call is the part behind its lookup, and there the cases of the proof are the branches
of the source.

Two of the steps need care. A new node is hung up before some of its fields are written,
so `Rep.link` allows for later writes; and a counter's key is written after the node is
hung up, which keeps the order only where no other key has the hash (`IncrSafe`).
-/
namespace MpsShdict

open RedBlack RedBlack.RbTree
open Words

/-! ### Bytes -/

section Bytes
variable {data : Data} {src : Bytes} {i j n : Nat}

@[simp] theorem length_readBytes : (readBytes data i n).length = n := by simp [readBytes]

theorem readBytes_memcpy : readBytes (ngxMemcpy data i src) i src.length = src := by
  refine List.ext_getElem (by simp) ?_
  intro k h1 h2
  simp only [readBytes, List.getElem_map, List.getElem_range, ngxMemcpy]
  rw [if_pos ⟨Nat.le_add_right _ _, by omega⟩, Nat.add_sub_cancel_left, List.getD_eq_getElem _ _ h2]

theorem readBytes_memcpy_before (h : i + n ≤ j) :
    readBytes (ngxMemcpy data j src) i n = readBytes data i n := by
  refine List.map_congr_left ?_
  intro k hk
  rw [List.mem_range] at hk
  rw [ngxMemcpy, if_neg (by omega)]

theorem intSize_of_lt (h : n < 2 ^ 31) : intSize n = n := by
  rw [intSize, int32_of_lt h, ofInt64]
  omega

end Bytes

/-! ### What a call may be given -/

/-- A key of 1 to 65535 bytes. -/
def KeyOk (key : Bytes) : Prop := 0 < key.length ∧ key.length < 2 ^ 16

/-- The size of the entry can be computed: it fits into the `int` that the source computes
it in. -/
structure StoreArgs.Ok (a : StoreArgs) : Prop where
  key : KeyOk a.key
  size : ∀ v, a.strValue = some v → offsetofColor + offsetofData + a.key.length + v.length < 2 ^ 31

theorem StoreArgs.Ok.value {a : StoreArgs} (h : a.Ok) {op : Nat} {v : Bytes}
    (hv : storeValue op a = .ok (some v)) :
    offsetofColor + offsetofData + a.key.length + v.length < 2 ^ 31 ∧ a.valueType ≠ .tlist := by
  have hkey := h.key.2
  unfold storeValue at hv
  cases ht : a.valueType with
  | tstring =>
    simp only [ht, Except.ok.injEq] at hv
    exact ⟨h.size v hv, by simp⟩
  | tnumber =>
    simp only [ht, Except.ok.injEq, Option.some.injEq] at hv
    have := a.numValue.size
    simp only [← hv, this, offsetofColor, offsetofData]
    exact ⟨by omega, by simp⟩
  | tboolean =>
    simp only [ht, Except.ok.injEq, Option.some.injEq] at hv
    simp only [← hv, List.length_singleton, offsetofColor, offsetofData]
    exact ⟨by omega, by simp⟩
  | tnil =>
    simp only [ht] at hv
    split at hv <;> simp at hv
  | tlist => simp [ht] at hv
  | unknown code => simp [ht] at hv

/-! ### A chunk that is not linked -/

section Scratch
variable {sz : Sizes} {s : Nat} {ord : Prop} {d d' : Shdict} {b : Block}
  {e : Entry} {L : List Entry} {spare : List Block}

/-- A spare block is away from the header of the tree and from the entries. -/
theorem Rep.spare_clear (h : Rep sz s ord d L (b :: spare)) :
    (∀ x, b.Has x → d.pool.data + sizeofTree ≤ x ∨ x < d.pool.data) ∧
      ∀ e ∈ L, ∀ c ∈ e.blocks, ∀ x, b.Has x → ¬ c.Has x := by
  have hap := (SlabInv.apart h.owns).apart
  rw [dictBlocks, List.pairwise_cons, List.pairwise_append] at hap
  obtain ⟨htree, -, -, hcross⟩ := hap
  have h1 := htree b (by simp)
  refine ⟨?_, fun e he c hc x hx hcx => ?_⟩
  · intro x hx
    unfold Clear at h1
    unfold Block.Has at hx
    simp only at h1
    omega
  · exact (hcross c (List.mem_flatMap.mpr ⟨e, he, hc⟩) b (by simp)).ne hcx hx rfl

theorem Rep.spare_cells (h : Rep sz s ord d L (b :: spare)) (he : e ∈ L) {x : Nat}
    (hx : x ∈ e.cells) :
    ¬ b.Has x := by
  obtain ⟨c, hc, hcx⟩ := Entry.mem_cells (Owns.aligned h.owns e he) hx
  exact fun hbx => h.spare_clear.2 e he c hc x hbx hcx

theorem Block.has_off (hb : 0 < b.size) : b.Has b.off := by
  unfold Block.Has
  omega

theorem Rep.spare_off (h : Rep sz s ord d L (b :: spare)) (he : e ∈ L) : e.off ≠ b.off := by
  intro hoff
  have hb := Block.has_off (h.spare_pos b (by simp))
  apply h.spare_clear.2 e he e.block List.mem_cons_self b.off hb
  have := e.size_pos
  simp only [Block.Has, Entry.block]
  omega

/-- **What is written into a spare block changes nothing.** A new entry is written field
by field before it is hung up. -/
theorem Rep.scratch (h : Rep sz s ord d L (b :: spare)) (hpool : d'.pool = d.pool)
    (htree : d'.rbtree.tree = d.rbtree.tree)
    (hrb : ∀ z, z ≠ b.off → d'.rbtree.node z = d.rbtree.node z)
    (hsd : ∀ z, z ≠ b.off → d'.sd z = d.sd z) (hln : d'.lnode = d.lnode)
    (hq : ∀ a, ¬ b.Has a → d'.queue a = d.queue a) : Rep sz s ord d' L (b :: spare) := by
  obtain ⟨⟨t, hr, hp, hs⟩, h1, h2, hlru⟩ := h.shape.hung
  -- nothing that the dictionary uses is in the block `b`
  have hoff : ∀ z ∈ t.inorder, z ≠ b.off := by
    intro z hz
    obtain ⟨e, he, rfl⟩ := List.mem_map.mp (hp.mem_iff.mp hz)
    exact h.spare_off he
  have hb := Block.has_off (h.spare_pos b (by simp))
  have hsent : d.rbtree.tree.sentinel ≠ b.off := by
    intro he
    have := h.spare_clear.1 b.off hb
    rw [← he, h2] at this
    simp only [offsetofSentinel, sizeofTree] at this
    omega
  have hlruq : d'.lruQueue = d.lruQueue := by rw [Shdict.lruQueue, Shdict.lruQueue, hpool]
  have hkeys : ∀ z, z ≠ b.off → d'.keyOf z = d.keyOf z := by
    intro z hz
    rw [Shdict.keyOf, Shdict.keyOf, hsd z hz]
  refine ⟨⟨⟨⟨t, hr.frame htree ?_, hp, fun ho => ?_⟩, htree ▸ h1, ?_, ?_⟩, ?_⟩,
    ?_, h.spare_pos⟩
  · intro y hy
    rcases hy with hy | rfl
    · exact hrb y (hoff y hy)
    · exact hrb _ hsent
  · exact Before.congr (hs ho) (fun z hz => by rw [hrb z (hoff z hz)]) fun z hz =>
      hkeys z (hoff z hz)
  · rw [htree, hpool]
    exact h2
  · rw [hlruq]
    refine hlru.frame fun a ha => hq a ?_
    rcases List.mem_cons.mp ha with rfl | ha
    · intro hba
      have := h.spare_clear.1 _ hba
      simp only [Shdict.lruQueue, offsetofLruQueue, sizeofTree] at this
      omega
    · obtain ⟨_, hm, rfl⟩ := List.mem_map.mp ha
      obtain ⟨e, he, rfl⟩ := List.mem_map.mp hm
      exact h.spare_cells he List.mem_cons_self
  · intro e he
    refine (h.shape.entries e he).frame ?_ (hsd _ (h.spare_off he)) (fun _ _ => by rw [hln])
      fun a ha => hq a (h.spare_cells he (List.mem_cons_of_mem _ ha))
    rw [hrb _ (h.spare_off he)]
  · rw [hpool, dictBlocks_data (d := d) (by rw [hpool])]
    exact h.owns

/-- **A chunk becomes an entry** without elements. Its fields may still be written
afterwards, and under a condition its key. -/
theorem Rep.link (h : Rep sz s ord d L (e.block :: spare)) (helems : e.value.elems = [])
    (hhash : (d.rbtree.node e.off).key = ngxMurmurHash2 e.key) :
    ∃ d', d.link e.off = some d' ∧ d'.pool = d.pool ∧
      ∀ f, EntryOk (d.setSd e.off f) e →
        (ord → (∀ x ∈ L, x.key ≠ e.key) ∧
          (d.keyOf e.off = e.key ∨ ∀ x ∈ L, ngxMurmurHash2 x.key ≠ ngxMurmurHash2 e.key)) →
        Rep sz s ord (d'.setSd e.off f) (e :: L) spare := by
  have hblocks : e.blocks = [e.block] := by rw [Entry.blocks, helems, List.map_nil]
  have hown : Owns sz s d.pool (dictBlocks d (e :: L) spare) := by
    refine h.owns.perm (List.Perm.cons _ ?_)
    rw [List.flatMap_cons, hblocks]
    exact List.perm_middle
  have hpos : ∀ b ∈ spare, 0 < b.size := fun b hb => h.spare_pos b (List.mem_cons_of_mem _ hb)
  obtain ⟨d', hrun, hpool, hsd, hln, hspec⟩ := h.shape.link (hown.laid hpos) rfl hhash
  refine ⟨d', hrun, hpool, fun f hok hord => ⟨hspec f hok hord, ?_, hpos⟩⟩
  show Owns sz s d'.pool _
  rw [dictBlocks_data (d := d) (by
    show d'.pool.data = d.pool.data
    rw [hpool]), hpool]
  exact hown

@[simp] theorem Shdict.setSd_same {node : Nat} {f : ShdictNode → ShdictNode} :
    (d.setSd node f).sd node = f (d.sd node) := by simp [Shdict.setSd]

theorem Shdict.setSd_ne {node z : Nat} {f : ShdictNode → ShdictNode} (h : z ≠ node) :
    (d.setSd node f).sd z = d.sd z := by simp [Shdict.setSd, h]

/-- **One entry becomes another** with the same chunks. This is every write to an entry in
place. -/
theorem Rep.modify {d' : Shdict} {e' : Entry} {A B : List Entry} {spare' : List Block}
    (h : Rep sz s ord d (A ++ e :: B) spare) (hoff : e'.off = e.off) (hkey : e'.key = e.key)
    (hblocks : (e.blocks ++ spare).Perm (e'.blocks ++ spare')) (hpool : d'.pool = d.pool)
    (htree : d'.rbtree = d.rbtree) (hsd : ∀ z, z ≠ e.off → d'.sd z = d.sd z)
    (hln : ∀ z, z ∉ e.cells → z ∉ e'.cells → d'.lnode z = d.lnode z)
    (hq : ∀ a, a ∉ e.listCells → a ∉ e'.listCells → d'.queue a = d.queue a)
    (hok : EntryOk d' e') (hpos : ∀ b ∈ spare', 0 < b.size) :
    Rep sz s ord d' (A ++ e' :: B) spare' := by
  have hown : Owns sz s d.pool (dictBlocks d (A ++ e' :: B) spare') := by
    refine h.owns.perm (List.Perm.cons _ ?_)
    simp only [List.flatMap_append, List.flatMap_cons, List.append_assoc]
    apply List.Perm.append_left _
    refine (List.perm_append_comm_assoc _ _ _).trans ((hblocks.append_left _).trans ?_)
    exact List.perm_append_comm_assoc _ _ _
  refine ⟨h.shape.modify h.laid (hown.laid hpos) hoff hkey (by rw [hpool]) htree hsd hln hq hok, ?_,
    hpos⟩
  rw [dictBlocks_data (d := d) (by rw [hpool]), hpool]
  exact hown

/-- The fields of an entry are written. -/
theorem Rep.setSd {f : ShdictNode → ShdictNode} {e' : Entry} {A B : List Entry}
    (h : Rep sz s ord d (A ++ e :: B) spare) (hoff : e'.off = e.off) (hkey : e'.key = e.key)
    (hblocks : e'.blocks = e.blocks) (hok : EntryOk (d.setSd e.off f) e') :
    Rep sz s ord (d.setSd e.off f) (A ++ e' :: B) spare :=
  h.modify hoff hkey (by rw [hblocks]) rfl rfl (fun _ hz => Shdict.setSd_ne hz) (fun _ _ _ => rfl)
    (fun _ _ _ => rfl) hok h.spare_pos

theorem Rep.touch_head {B : List Entry} (h : Rep sz s ord d (e :: B) spare) :
    Rep sz s ord (d.touch e.off) (e :: B) spare :=
  Rep.touch (A := []) h

end Scratch

/-- **The code does what the step on the entries does**, whichever process runs it: it
returns, the pool afterwards holds the entries that the step leaves, and the blocks that
the step loses are spare. -/
def Does {α : Type} (sz : Sizes) (s : Nat) (ord : Prop) (d : Shdict) (spare : List Block)
    (run : Nat → Option (Shdict × Option Nat × α)) (out : Outcome α) : Prop :=
  ∃ d', (∀ base, 2 ^ s ∣ base → run base = some (d', out.sd, out.result)) ∧
    Rep sz s ord d' out.entries (out.leaked ++ spare) ∧ Quiet d.pool d'.pool

/-! ### The way to an entry -/

section Way
variable {sz : Sizes} {s : Nat} {ord : Prop} {d : Shdict} {e : Entry} {L : List Entry}
  {spare : List Block} {env : Env} {key : Bytes} {found : Option Entry}

/-- What a call finds is one of the entries, and none that is left has the key. The second
half is what an insertion needs to keep keys apart. -/
structure Way (ord : Prop) (env : Env) (key : Bytes) (L : List Entry)
    (found : Option Entry) : Prop where
  finds : Finds ord (afterExpire env L) key found
  /-- The key is only once in a sorted tree. -/
  only : ord → ∀ x ∈ others found (afterExpire env L), x.key ≠ key

/-- A sorted tree holds a key once. -/
theorem Rep.key_inj (h : Rep sz s ord d L spare) (ho : ord) {x y : Entry} (hx : x ∈ L) (hy : y ∈ L)
    (hk : x.key = y.key) : x = y := by
  obtain ⟨t, hr, hp, hs⟩ := h.shape.hung.tree
  apply h.laid.off_inj hx hy
  by_contra hne
  have hmx : x.off ∈ t.inorder := hp.mem_iff.mpr (List.mem_map.mpr ⟨x, hx, rfl⟩)
  have hmy : y.off ∈ t.inorder := hp.mem_iff.mpr (List.mem_map.mpr ⟨y, hy, rfl⟩)
  have hok := h.shape.entries x hx
  have hok' := h.shape.entries y hy
  have hkeys : (d.rbtree.node x.off).key = (d.rbtree.node y.off).key ∧
    d.keyOf x.off = d.keyOf y.off :=
    ⟨by rw [hok.hash, hok'.hash, hk], by rw [hok.keyOf, hok'.keyOf, hk]⟩
  have hall : t.inorder.Pairwise fun a b =>
      ¬ ((d.rbtree.node a).key = (d.rbtree.node b).key ∧ d.keyOf a = d.keyOf b) :=
    (hs ho).imp Before.ne
  have hsymm : Std.Symm fun a b =>
      ¬ ((d.rbtree.node a).key = (d.rbtree.node b).key ∧ d.keyOf a = d.keyOf b) :=
    ⟨fun _ _ hab hba => hab ⟨hba.1.symm, hba.2.symm⟩⟩
  exact hall.forall hmx hmy hne hkeys

theorem others_ne (h : Rep sz s ord d L spare) (hf : Finds ord L key found) (ho : ord) :
    ∀ x ∈ others found L, x.key ≠ key := by
  intro x hx hk
  cases found with
  | none => exact hf.complete ho rfl x hx hk
  | some e =>
    obtain ⟨he, hke⟩ := hf.sound e rfl
    have hxL : x ∈ L := List.mem_of_mem_erase hx
    obtain rfl := h.key_inj ho hxL he (hk.trans hke.symm)
    exact absurd hx h.laid.nodup.not_mem_erase

/-- **The way to an entry**: `mps_shdict_expire` and `mps_shdict_lookup`, with which every
call begins that takes an entry for used. -/
theorem way_spec (env : Env) (key : Bytes) (h : Rep sz s ord d L spare) :
    ∃ d₀ n found d₁, (∀ base, 2 ^ s ∣ base →
        mpsShdictExpire sz base (env.mpsClockTimeMs 1) d 1 = some (d₀, n)) ∧
      mpsShdictLookup d₀ (env.mpsClockTimeMs 2) (ngxMurmurHash2 key) key =
        some (d₁, (hit (env.mpsClockTimeMs 2) found).lookup) ∧
      Way ord env key L found ∧
      Rep sz s ord d₁ (lookupEntries found (afterExpire env L)) spare ∧ d₁.sd = d.sd ∧
      Quiet d.pool d₁.pool := by
  obtain ⟨d₀, hrun, hrep, hsd, hs⟩ := expireLoop_spec (env.mpsClockTimeMs 1) 2 h
  obtain ⟨found, d₁, hf, hlook, hrep', hsd', hpool⟩ :=
    mpsShdictLookup_spec hrep (env.mpsClockTimeMs 2) key
  exact ⟨d₀, _, found, d₁, hrun, hlook, ⟨hf, fun ho => others_ne hrep hf ho⟩, hrep', hsd'.trans hsd,
    hpool ▸ hs⟩

end Way

/-! ### Stores -/

section Store
variable {sz : Sizes} {s : Nat} {ord : Prop} {d : Shdict} {e : Entry} {L : List Entry}
  {spare : List Block} {env : Env} {op : Nat} {a : StoreArgs} {v : Bytes}

/-- From the label `allocated` on. -/
theorem storeAllocated_spec (env : Env) (node : Nat) (hk : KeyOk a.key) (ht : a.valueType ≠ .tlist)
    (hsize : offsetofColor + offsetofData + a.key.length + v.length < 2 ^ 31)
    (h : Rep sz s ord d L
      (⟨node, offsetofColor + offsetofData + a.key.length + v.length⟩ :: spare))
    (hnew : ord → ∀ x ∈ L, x.key ≠ a.key) :
    ∃ d', storeAllocated env a (ngxMurmurHash2 a.key) v node d = some d' ∧
      Rep sz s ord d' (storedEntry env a v node :: L) spare ∧ Quiet d.pool d'.pool := by
  set e := storedEntry env a v node with he
  have hkey : a.key.length % 2 ^ 16 = a.key.length := Nat.mod_eq_of_lt hk.2
  have hlen : u32 v.length = v.length := u32_of_lt (by
    simp only [offsetofColor, offsetofData] at hsize
    omega)
  set f : ShdictNode → ShdictNode := fun _ =>
    { valueType := a.valueType
      keyLen := a.key.length % 2 ^ 16
      valueLen := u32 v.length
      expires := deadline (env.mpsClockTimeMs 33) a.exptime
      userFlags := ofInt32 a.userFlags
      data := ngxMemcpy (ngxMemcpy env.junk.data 0 a.key) a.key.length v } with hf
  set d₁ : Shdict :=
    { d with rbtree.node := d.rbtree.node.setKey node (ngxMurmurHash2 a.key) } with hd₁
  have hrep : Rep sz s ord (d₁.setSd node f) L (e.block :: spare) := by
    refine h.scratch rfl rfl (fun z hz => RbMem.setKey_ne hz) ?_ rfl fun _ _ => rfl
    intro z hz
    exact Shdict.setSd_ne hz
  have hok : EntryOk (d₁.setSd node f) e := by
    refine ⟨?_, ?_, ?_, ?_, ?_, ?_⟩
    · show (d.rbtree.node.setKey node (ngxMurmurHash2 a.key) node).key = _
      simp [RbMem.setKey, he, storedEntry]
    · simp only [he, storedEntry, Shdict.setSd_same, hf, hkey]
    · simp only [he, storedEntry, Shdict.setSd_same, hf]
      rw [readBytes_memcpy_before (by omega), readBytes_memcpy]
    · simp only [he, storedEntry, Shdict.setSd_same, hf]
    · simp only [he, storedEntry, Shdict.setSd_same, hf]
    · simp only [ValueOk, he, storedEntry, Shdict.setSd_same, hf]
      exact ⟨trivial, ht, hlen, readBytes_memcpy⟩
  obtain ⟨d', hrun, hpool, hspec⟩ := hrep.link rfl hok.hash
  refine ⟨d', hrun, ?_, by rw [hpool]; exact .refl _⟩
  have := hspec id (by rwa [Shdict.setSd_id]) fun ho => ⟨hnew ho, .inl hok.keyOf⟩
  rwa [Shdict.setSd_id] at this

theorem mem_evictEntries {x : Entry} {i rounds : Nat} {L : List Entry}
    (h : x ∈ evictEntries env i rounds L) : x ∈ L := by
  induction rounds generalizing i L with
  | zero => exact h
  | succ rounds ih => exact (expireEntries_front _ _ _).subset (ih h)

/-- From the label `insert` on. -/
theorem storeInsert_spec (env : Env) (c : Choice) (value : Option Bytes)
    (sd : Option Nat) (hok : a.Ok) (hv : storeValue op a = .ok value) (h : Rep sz s ord d L spare)
    (hnew : ord → ∀ x ∈ L, x.key ≠ a.key) :
    ∃ r : Allocated, r.Ok (decide (op &&& mpsShdictSafeStoreFlag = 0)) ∧
      Does sz s ord d spare
        (fun base => storeInsert sz base env op a (ngxMurmurHash2 a.key) value d sd)
        (storeInsertEntries env a value { c with alloc := r } L sd) := by
  cases value with
  | none => exact ⟨⟨none, 0⟩, ⟨by simp, fun _ => rfl⟩, d, fun _ _ => rfl, h, .refl _⟩
  | some v =>
    obtain ⟨hsize, ht⟩ := hok.value hv
    have hpos : 0 < offsetofColor + offsetofData + a.key.length + v.length := by
      simp only [offsetofColor]
      omega
    obtain ⟨d₁, r, hrun, hr, hrep, hs⟩ := allocEntry_spec env
      (offsetofColor + offsetofData + a.key.length + v.length)
      (decide (op &&& mpsShdictSafeStoreFlag = 0)) h
    rw [Nat.max_eq_right hpos] at hrep
    cases hnode : r.node with
    | none =>
      rw [hnode] at hrep
      refine ⟨r, hr, d₁, ?_, ?_, hs⟩
      · intro base hb
        simp only [storeInsert, intSize_of_lt hsize, hrun base hb, Option.bind_eq_bind,
          Option.bind_some, hnode, storeInsertEntries, insertEntry]
      · simp only [storeInsertEntries, insertEntry, hnode]
        exact hrep
    | some node =>
      rw [hnode] at hrep
      obtain ⟨d', hrun', hrep', hs'⟩ := storeAllocated_spec env node hok.key ht hsize hrep
        fun ho x hx => hnew ho x (mem_evictEntries hx)
      refine ⟨r, hr, d', ?_, ?_, hs.trans hs'⟩
      · intro base hb
        simp only [storeInsert, intSize_of_lt hsize, hrun base hb, Option.bind_eq_bind,
          Option.bind_some, hnode, hrun', storeInsertEntries, insertEntry]
      · simp only [storeInsertEntries, insertEntry, hnode]
        exact hrep'

/-- A value is written over. -/
theorem storeInPlace_spec (ht : a.valueType ≠ .tlist) (hkey : e.key = a.key)
    (hfit : e.fits v.length = true) (h : Rep sz s ord d (e :: L) spare) :
    Rep sz s ord (storeInPlace d env a v e.off)
      ({ e with
        expires := deadline (env.mpsClockTimeMs 3) a.exptime
        userFlags := ofInt32 a.userFlags
        value := .plain a.valueType v } :: L) spare := by
  have hok := h.shape.entries e (by simp)
  have hrep := h.touch_head
  unfold Entry.fits at hfit
  cases hv : e.value with
  | list elems => simp [hv] at hfit
  | plain valueType bytes =>
    simp only [hv, decide_eq_true_eq] at hfit
    have hval := hok.value
    simp only [ValueOk, hv] at hval
    refine Rep.setSd (A := []) hrep rfl rfl ?_ ⟨hok.hash, ?_, ?_, ?_, ?_, ?_⟩
    · simp [Entry.blocks, Entry.block, Entry.size, hv, Value.elems, hfit]
    · simp only [Shdict.setSd_same]
      exact hok.keyLen
    · simp only [Shdict.setSd_same]
      rw [readBytes_memcpy_before (by rw [hkey]; omega)]
      exact hok.key
    · simp only [Shdict.setSd_same]
    · simp only [Shdict.setSd_same]
    · simp only [ValueOk, Shdict.setSd_same]
      refine ⟨trivial, ht, hval.2.2.1.trans hfit.symm, ?_⟩
      rw [hkey]
      exact readBytes_memcpy

/-- The test of the code whether a value can be written over. -/
theorem fits_iff (hok : EntryOk d e) (n : Nat) :
    (n = (d.sd e.off).valueLen ∧ (d.sd e.off).valueType ≠ .tlist) ↔ e.fits n = true := by
  have hval := hok.value
  unfold ValueOk at hval
  unfold Entry.fits
  cases hv : e.value with
  | plain valueType bytes =>
    simp only [hv] at hval
    simp only [hval.1, hval.2.2.1, decide_eq_true_eq, and_iff_left_iff_imp]
    exact fun _ => hval.2.1
  | list elems =>
    simp only [hv] at hval
    simp [hval.1]

/-- From the label `remove` on. -/
theorem storeRemove_spec (env : Env) (c : Choice) (value : Option Bytes) (hok : a.Ok)
    (hv : storeValue op a = .ok value) (hkey : e.key = a.key) (h : Rep sz s ord d (e :: L) spare)
    (hnew : ord → ∀ x ∈ L, x.key ≠ a.key) :
    ∃ r : Allocated, r.Ok (decide (op &&& mpsShdictSafeStoreFlag = 0)) ∧
      Does sz s ord d spare
        (fun base => storeRemove sz base env op a (ngxMurmurHash2 a.key) value d e.off)
        (storeInsertEntries env a value { c with alloc := r } L (some e.off)) := by
  obtain ⟨d₁, hrun, hrep, -, hs⟩ := Rep.removeEntry (A := []) h
  obtain ⟨r, hr, d', hrun', hrep', hs'⟩ := storeInsert_spec env c value (some e.off) hok hv
    hrep hnew
  refine ⟨r, hr, d', ?_, hrep', hs.trans hs'⟩
  intro base hb
  simp only [storeRemove, ← hkey, hrun base hb]
  rw [hkey]
  exact hrun' base hb

/-- From the label `replace` on. -/
theorem storeReplace_spec (env : Env) (c : Choice) (value : Option Bytes) (hok : a.Ok)
    (hv : storeValue op a = .ok value) (hkey : e.key = a.key) (h : Rep sz s ord d (e :: L) spare)
    (hnew : ord → ∀ x ∈ L, x.key ≠ a.key) :
    ∃ r : Allocated, r.Ok (decide (op &&& mpsShdictSafeStoreFlag = 0)) ∧
      Does sz s ord d spare
        (fun base => storeReplace sz base env op a (ngxMurmurHash2 a.key) value d e.off)
        (storeReplaceEntries env a value { c with alloc := r } e L) := by
  have heok := h.shape.entries e (by simp)
  cases value with
  | none => exact storeRemove_spec env c none hok hv hkey h hnew
  | some v =>
    have hiff := fits_iff heok v.length
    by_cases hfit : e.fits v.length = true
    · refine ⟨⟨none, 0⟩, ⟨by simp, fun _ => rfl⟩,
        storeInPlace d env a v e.off, fun base _ => ?_, ?_, .refl _⟩
      · simp only [storeReplace, if_pos (hiff.mpr hfit), storeReplaceEntries, if_pos hfit]
      · simp only [storeReplaceEntries, if_pos hfit]
        exact storeInPlace_spec (hok.value hv).2 hkey hfit h
    · obtain ⟨r, hr, d', hrun, hrep, hs⟩ := storeRemove_spec env c (some v) hok hv hkey h hnew
      refine ⟨r, hr, d', ?_, ?_, hs⟩
      · intro base hb
        simp only [storeReplace, if_neg (fun hc => hfit (hiff.mp hc)),
          storeReplaceEntries, if_neg hfit]
        exact hrun base hb
      · simp only [storeReplaceEntries, if_neg hfit]
        exact hrep

/-- `mps_shdict_store`, with what the lookup comes to. -/
theorem storeFound_spec (env : Env) (c : Choice) (value : Option Bytes) (hok : a.Ok)
    (hv : storeValue op a = .ok value) {found : Option Entry} (now : Nat)
    (hkey : ∀ e, found = some e → e.key = a.key) (h : Rep sz s ord d (lookupEntries found L) spare)
    (hnew : ord → ∀ x ∈ others found L, x.key ≠ a.key) :
    ∃ r : Allocated, r.Ok (decide (op &&& mpsShdictSafeStoreFlag = 0)) ∧
      Does sz s ord d spare
        (fun base => storeFound sz base env op a
          (ngxMurmurHash2 a.key) value d (hit now found).lookup)
        (storeFoundEntries env op a value { c with alloc := r } (others found L)
          (hit now found)) := by
  have hquiet : Allocated.Ok ⟨none, 0⟩ (decide (op &&& mpsShdictSafeStoreFlag = 0)) :=
    ⟨by simp, fun _ => rfl⟩
  cases found with
  | none =>
    have hinsert := storeInsert_spec env c value none hok hv h hnew
    simp only [hit, Hit.lookup, storeFound, storeFoundEntries]
    split
    · exact ⟨_, hquiet, d, fun _ _ => rfl, h, .refl _⟩
    · split
      · exact hinsert
      · exact hinsert
  | some e =>
    have hreplace := storeReplace_spec env c value hok hv (hkey e rfl) h hnew
    by_cases hexp : lookupExpired e.expires now = true
    · simp only [hit, if_pos hexp, Hit.lookup, storeFound, storeFoundEntries]
      split
      · exact ⟨_, hquiet, d, fun _ _ => rfl, h, .refl _⟩
      · split
        · exact hreplace
        · exact hreplace
    · simp only [hit, if_neg hexp, Hit.lookup, storeFound, storeFoundEntries]
      split
      · exact hreplace
      · split
        · exact ⟨_, hquiet, d, fun _ _ => rfl, h, .refl _⟩
        · exact hreplace

/-- **`mps_shdict_store`** does to the pool what `storeEntries` does to the entries, for
some choice of the entry that is found and the chunk that is given. -/
theorem mpsShdictStore_spec (env : Env) (op : Nat) (hok : a.Ok) (h : Rep sz s ord d L spare) :
    ∃ c : Choice, Way ord env a.key L c.found ∧
      c.alloc.Ok (decide (op &&& mpsShdictSafeStoreFlag = 0)) ∧
      Does sz s ord d spare (fun base => mpsShdictStore sz base env op a d)
        (storeEntries env op a c L) := by
  obtain ⟨d₀, n, found, d₁, hexp, hlook, hway, hrep, -, hs⟩ := way_spec env a.key h
  cases hv : storeValue op a with
  | error e =>
    refine ⟨⟨found, ⟨none, 0⟩, none⟩, hway,
      ⟨by simp, fun _ => rfl⟩, d, fun base _ => ?_, ?_, .refl _⟩
    · simp only [mpsShdictStore, storeEntries, hv]
    · simp only [storeEntries, hv]
      exact h
  | ok value =>
    obtain ⟨r, hr, d', hrun, hrep', hs'⟩ := storeFound_spec env ⟨found, ⟨none, 0⟩, none⟩ value
      hok hv (env.mpsClockTimeMs 2) (fun e he => (hway.finds.sound e he).2) hrep hway.only
    refine ⟨⟨found, r, none⟩, hway, hr, d', ?_, ?_, hs.trans hs'⟩
    · intro base hb
      simp only [mpsShdictStore, hv, hexp base hb, hlook, Option.bind_eq_bind, Option.bind_some,
        storeEntries]
      exact hrun base hb
    · simp only [storeEntries, hv]
      exact hrep'

end Store

/-! ### Reads and counters -/

section Read
variable {sz : Sizes} {s : Nat} {ord : Prop} {d : Shdict} {e : Entry} {L : List Entry}
  {spare : List Block} {env : Env}

/-- What is read out of the pool is the value of the entry. -/
theorem getValue_spec (env : Env) (hok : EntryOk d e) (bufLen : Nat) (getStale stale : Bool) :
    getValue env (d.sd e.off) bufLen getStale stale =
      valueResult env e.value e.userFlags bufLen getStale stale := by
  have hval := hok.value
  unfold ValueOk at hval
  cases hv : e.value with
  | list elems =>
    simp only [hv] at hval
    simp [getValue, valueResult, hval.1]
  | plain valueType bytes =>
    simp only [hv] at hval
    obtain ⟨htype, hne, hlen, hbytes⟩ := hval
    have hread : readBytes (d.sd e.off).data (d.sd e.off).keyLen (d.sd e.off).valueLen = bytes := by
      rw [hok.keyLen, hlen, hbytes]
    simp only [getValue, valueResult, htype, hread, hok.userFlags]
    split
    · rfl
    · cases valueType with
      | tnumber =>
        by_cases h8 : bytes.length = 8
        · have hnum : readDouble (d.sd e.off).data (d.sd e.off).keyLen = ⟨bytes, h8⟩ := by
            simp only [readDouble, Double.mk.injEq]
            rw [← h8, ← hlen, hread]
          simp only [sizeofDouble, h8, ne_eq, not_true_eq_false, ↓reduceIte, ↓reduceDIte, hnum]
        · simp [sizeofDouble, h8]
      | tnil => rfl
      | tboolean => rfl
      | tstring => rfl
      | tlist => rfl
      | unknown code => rfl

/-- **`mps_shdict_get`** does to the pool what `getEntries` does to the entries. -/
theorem mpsShdictGet_spec (env : Env) (key : Bytes) (bufLen : Nat) (getStale : Bool)
    (h : Rep sz s ord d L spare) :
    ∃ c : Choice, Finds ord L key c.found ∧ c.alloc.rounds = 0 ∧
      Does sz s ord d spare (fun _ => mpsShdictGet env key bufLen getStale d)
        (getEntries env bufLen getStale c L) := by
  obtain ⟨found, d₁, hf, hlook, hrep, -, hpool⟩ := mpsShdictLookup_spec h (env.mpsClockTimeMs 2) key
  refine ⟨⟨found, ⟨none, 0⟩, none⟩, hf, rfl, d₁, ?_, ?_, hpool ▸ .refl _⟩
  · intro base _
    simp only [mpsShdictGet, hlook, Option.bind_eq_bind, Option.bind_some]
    cases found with
    | none => rfl
    | some e =>
      have hok := hrep.shape.entries e (by simp [lookupEntries])
      have hvalue := fun stale => getValue_spec env hok bufLen getStale stale
      by_cases hexp : lookupExpired e.expires (env.mpsClockTimeMs 2) = true
      · simp only [hit, if_pos hexp, Hit.lookup, getEntries, hvalue]
        split <;> rfl
      · simp only [hit, if_neg hexp, Hit.lookup, getEntries, hvalue]
  · cases found with
    | none => exact hrep
    | some e =>
      by_cases hexp : lookupExpired e.expires (env.mpsClockTimeMs 2) = true
      · simp only [getEntries, hit, if_pos hexp]
        split <;> exact hrep
      · simp only [getEntries, hit, if_neg hexp]
        exact hrep

end Read

section Incr
variable {sz : Sizes} {s : Nat} {ord : Prop} {d : Shdict} {e : Entry} {L : List Entry}
  {spare : List Block} {env : Env} {a : IncrArgs} {num : Double}

/-- A counter that is not stored yet may be hung up before its key is written: no other
key has its hash. Where no node is hung up there is nothing to ask for. -/
def IncrSafe (env : Env) (a : IncrArgs) (L : List Entry) : Prop :=
  a.init = none ∨
    (∃ e ∈ afterExpire env L, e.key = a.key ∧
      (lookupExpired e.expires (env.mpsClockTimeMs 2) = false ∨ e.fits 8 = true)) ∨
    ∀ x ∈ L, ngxMurmurHash2 x.key = ngxMurmurHash2 a.key → x.key = a.key

/-- From the label `insert` on. -/
theorem incrInsert_spec (env : Env) (c : Choice) (num : Double) (sd : Option Nat) (hk : KeyOk a.key)
    (h : Rep sz s ord d L spare)
    (hclear : ord → ∀ x ∈ L, ngxMurmurHash2 x.key ≠ ngxMurmurHash2 a.key) :
    ∃ r : Allocated, r.Ok true ∧
      Does sz s ord d spare (fun base => incrInsert sz base env a (ngxMurmurHash2 a.key) num d sd)
        (incrInsertEntries env a num { c with alloc := r } L sd) := by
  have hsize : offsetofColor + offsetofData + a.key.length + sizeofDouble < 2 ^ 31 := by
    have := hk.2
    simp only [offsetofColor, offsetofData, sizeofDouble]
    omega
  have hpos : 0 < offsetofColor + offsetofData + a.key.length + sizeofDouble := by
    simp only [offsetofColor]
    omega
  obtain ⟨d₁, r, hrun, hr, hrep, hs⟩ := allocEntry_spec env
    (offsetofColor + offsetofData + a.key.length + sizeofDouble) true h
  rw [Nat.max_eq_right hpos] at hrep
  cases hnode : r.node with
  | none =>
    rw [hnode] at hrep
    refine ⟨r, hr, d₁, ?_, ?_, hs⟩
    · intro base hb
      simp only [incrInsert, intSize_of_lt hsize, hrun base hb, Option.bind_eq_bind,
        Option.bind_some, hnode, incrInsertEntries, insertEntry]
    · simp only [incrInsertEntries, insertEntry, hnode]
      exact hrep
  | some node =>
    rw [hnode] at hrep
    set e := countedEntry env a num node with he
    -- `g` is written before the entry is hung up, `f` (and with it the key) after that
    set f : ShdictNode → ShdictNode := fun sd =>
      { sd with
        userFlags := 0
        expires := deadline (env.mpsClockTimeMs 0) a.initTtl
        valueType := .tnumber
        data := ngxMemcpy (ngxMemcpy sd.data 0 a.key) a.key.length num.bytes } with hf
    set g : ShdictNode → ShdictNode := fun _ =>
      { env.junk with keyLen := a.key.length % 2 ^ 16, valueLen := u32 sizeofDouble } with hg
    set d₂ : Shdict := { d₁ with rbtree.node := d₁.rbtree.node.setKey node (ngxMurmurHash2 a.key) }
      with hd₂
    have hblock : e.block = ⟨node, offsetofColor + offsetofData + a.key.length + sizeofDouble⟩ := by
      simp [he, Entry.block, Entry.size, countedEntry, num.size, sizeofDouble]
    have hscr : Rep sz s ord (d₂.setSd node g)
        (evictEntries env 0 r.rounds L) (e.block :: spare) := by
      rw [hblock]
      refine hrep.scratch rfl rfl (fun z hz => RbMem.setKey_ne hz) ?_ rfl fun _ _ => rfl
      intro z hz
      exact Shdict.setSd_ne hz
    have hhash : ((d₂.setSd node g).rbtree.node e.off).key = ngxMurmurHash2 e.key := by
      show (d₁.rbtree.node.setKey node (ngxMurmurHash2 a.key) node).key = _
      simp [RbMem.setKey, he, countedEntry]
    have hok : EntryOk ((d₂.setSd node g).setSd e.off f) e := by
      have hnoff : e.off = node := rfl
      refine ⟨hhash, ?_, ?_, ?_, ?_, ?_⟩
      · simp only [hnoff, Shdict.setSd_same, hf, hg]
        exact Nat.mod_eq_of_lt hk.2
      · simp only [hnoff, Shdict.setSd_same, hf]
        rw [readBytes_memcpy_before (by simp [he, countedEntry])]
        exact readBytes_memcpy
      · simp only [hnoff, Shdict.setSd_same, hf]
        rfl
      · simp only [hnoff, Shdict.setSd_same, hf]
        rfl
      · simp only [ValueOk, Shdict.setSd_same, hf, hg, he, countedEntry]
        refine ⟨trivial, by simp, ?_, readBytes_memcpy⟩
        rw [num.size]
        rfl
    obtain ⟨d', hlink, hpool, hspec⟩ := hscr.link rfl hhash
    refine ⟨r, hr, d'.setSd node f, ?_, ?_, hs.trans (by
      show Quiet d₁.pool d'.pool
      rw [hpool]
      exact .refl _)⟩
    · intro base hb
      have hlink' : incrAllocated env a (ngxMurmurHash2 a.key) node d₁ = some d' := hlink
      simp only [incrInsert, intSize_of_lt hsize, hrun base hb, Option.bind_eq_bind,
        Option.bind_some, hnode, hlink', incrInsertEntries, insertEntry]
      rfl
    · simp only [incrInsertEntries, insertEntry, hnode]
      refine hspec f hok ?_
      intro ho
      have hne : ∀ x ∈ evictEntries env 0 r.rounds L,
          ngxMurmurHash2 x.key ≠ ngxMurmurHash2 a.key :=
            fun x hx => hclear ho x (mem_evictEntries hx)
      exact ⟨fun x hx he => hne x hx (congrArg _ he), .inr hne⟩

/-- The value of an entry that has not expired is counted up. -/
theorem incrInPlace_spec (env : Env) (hkey : e.key = a.key) (h : Rep sz s ord d (e :: L) spare) :
    Does sz s ord d spare (fun _ => some (incrInPlace env a d e.off)) (incrLive env a e L) := by
  have hok := h.shape.entries e (by simp)
  have hval := hok.value
  unfold ValueOk at hval
  -- what is no number is left alone
  have hfail : ((d.sd e.off).valueType ≠ .tnumber ∨ (d.sd e.off).valueLen ≠ sizeofDouble) →
      incrLive env a e L =
        ⟨e :: L, [], some e.off, ⟨ngxError, none, some "not a number", 0⟩⟩ →
      Does sz s ord d spare (fun _ => some (incrInPlace env a d e.off)) (incrLive env a e L) := by
    intro hc hout
    rw [hout]
    refine ⟨d, ?_, h, .refl _⟩
    intro base _
    simp only [incrInPlace, if_pos hc]
  cases hv : e.value with
  | list elems =>
    simp only [hv] at hval
    exact hfail (.inl (by rw [hval.1]; simp)) (by simp [incrLive, hv])
  | plain valueType bytes =>
    simp only [hv] at hval
    obtain ⟨htype, hne, hlen, hbytes⟩ := hval
    by_cases hnum : valueType = .tnumber ∧ bytes.length = 8
    · obtain ⟨rfl, h8⟩ := hnum
      have hread : readDouble (d.sd e.off).data a.key.length = ⟨bytes, h8⟩ := by
        simp only [readDouble, Double.mk.injEq]
        rw [← h8, ← hkey, hbytes]
      have hout : incrLive env a e L =
          ⟨{ e with value := .plain .tnumber (env.add ⟨bytes, h8⟩ a.value).bytes } :: L, [],
            some e.off, ⟨ngxOk, some (env.add ⟨bytes, h8⟩ a.value), none, 0⟩⟩ := by
        simp [incrLive, hv, h8]
      have hc : ¬ ((d.sd e.off).valueType ≠ .tnumber ∨ (d.sd e.off).valueLen ≠ sizeofDouble) := by
        rw [htype, hlen, h8]
        simp [sizeofDouble]
      rw [hout]
      set num := env.add ⟨bytes, h8⟩ a.value with hnumdef
      refine ⟨(d.touch e.off).setSd e.off fun sd =>
        { sd with data := ngxMemcpy sd.data a.key.length num.bytes }, fun base _ => ?_, ?_, .refl _⟩
      · simp only [incrInPlace, if_neg hc, hread, ← hnumdef]
      · refine Rep.setSd (A := []) h.touch_head rfl rfl ?_ ⟨hok.hash, ?_, ?_, ?_, ?_, ?_⟩
        · simp [Entry.blocks, Entry.block, Entry.size, hv, Value.elems, h8, num.size]
        · simp only [Shdict.setSd_same]
          exact hok.keyLen
        · simp only [Shdict.setSd_same]
          rw [readBytes_memcpy_before (by rw [hkey]; omega)]
          exact hok.key
        · simp only [Shdict.setSd_same]
          exact hok.userFlags
        · simp only [Shdict.setSd_same]
          exact hok.expires
        · simp only [ValueOk, Shdict.setSd_same]
          refine ⟨htype, by simp, ?_, ?_⟩
          · rw [num.size]
            exact hlen.trans h8
          · rw [hkey]
            exact readBytes_memcpy
    · refine hfail ?_ ?_
      · rw [htype, hlen]
        simp only [sizeofDouble]
        tauto
      · unfold incrLive
        rw [hv]
        cases valueType with
        | tnumber =>
          have h8 : ¬ bytes.length = 8 := fun h8 => hnum ⟨rfl, h8⟩
          simp [h8]
        | tnil => rfl
        | tboolean => rfl
        | tstring => rfl
        | tlist => rfl
        | unknown code => rfl

/-- An expired entry of the right size becomes the counter. -/
theorem incrSetValue_spec (hkey : e.key = a.key) (hfit : e.fits 8 = true)
    (num : Double) (h : Rep sz s ord d (e :: L) spare) :
    Rep sz s ord (incrSetValue env a num e.off (d.touch e.off)) (countedEntry env a num e.off :: L)
      spare := by
  have hok := h.shape.entries e (by simp)
  unfold Entry.fits at hfit
  cases hv : e.value with
  | list elems => simp [hv] at hfit
  | plain valueType bytes =>
    simp only [hv, decide_eq_true_eq] at hfit
    have hval := hok.value
    simp only [ValueOk, hv] at hval
    refine Rep.setSd (A := []) h.touch_head rfl hkey.symm ?_ ⟨?_, ?_, ?_, ?_, ?_, ?_⟩
    · simp [Entry.blocks, Entry.block, Entry.size, hv,
        Value.elems, ← hfit, num.size, countedEntry, hkey]
    · show (d.rbtree.node e.off).key = ngxMurmurHash2 a.key
      rw [hok.hash, hkey]
    · simp only [countedEntry, Shdict.setSd_same]
      exact hok.keyLen.trans (congrArg _ hkey)
    · simp only [countedEntry, Shdict.setSd_same]
      rw [readBytes_memcpy_before (by simp)]
      exact readBytes_memcpy
    · simp only [countedEntry, Shdict.setSd_same]
    · simp only [countedEntry, Shdict.setSd_same]
    · simp only [ValueOk, countedEntry, Shdict.setSd_same]
      refine ⟨trivial, by simp, ?_, readBytes_memcpy⟩
      rw [num.size]
      exact hval.2.2.1.trans hfit.symm

/-- **`mps_shdict_incr`** does to the pool what `incrEntries` does to the entries. The
tree stays sorted where the call is safe, and is a red-black tree in any case. -/
theorem mpsShdictIncr_spec (env : Env) (hk : KeyOk a.key) (h : Rep sz s ord d L spare)
    (hsafe : ord → IncrSafe env a L) :
    ∃ c : Choice, Way ord env a.key L c.found ∧ c.alloc.Ok true ∧
      Does sz s ord d spare (fun base => mpsShdictIncr sz base env a d)
        (incrEntries env a c L) := by
  obtain ⟨d₀, n, found, d₁, hexp, hlook, hway, hrep, -, hs⟩ := way_spec env a.key h
  have hquiet : Allocated.Ok ⟨none, 0⟩ true := ⟨by simp, fun _ => rfl⟩
  -- where a new entry is made, no other one has the hash of its key
  have hclear : ∀ init, a.init = some init →
      (∀ e, found = some e → lookupExpired e.expires (env.mpsClockTimeMs 2) = true ∧
        e.fits 8 = false) →
      ord → ∀ x ∈ others found (afterExpire env L),
      ngxMurmurHash2 x.key ≠ ngxMurmurHash2 a.key := by
    intro init hinit hgone ho x hx hhash
    have hxL : x ∈ afterExpire env L := by
      cases found with
      | none => exact hx
      | some e => exact List.mem_of_mem_erase hx
    rcases hsafe ho with h0 | ⟨e, he, hke, hlive⟩ | hall
    · rw [hinit] at h0
      cases h0
    · cases found with
      | none => exact hway.finds.complete ho rfl e he hke
      | some e' =>
        obtain ⟨he', hke'⟩ := hway.finds.sound e' rfl
        have hsub : ∀ y ∈ afterExpire env L, y ∈ e' :: (afterExpire env L).erase e' := by
          intro y hy
          by_cases hye : y = e'
          · simp [hye]
          · exact List.mem_cons_of_mem _ ((List.mem_erase_of_ne hye).mpr hy)
        obtain rfl := hrep.key_inj ho (hsub e he) (hsub e' he') (hke.trans hke'.symm)
        obtain ⟨g1, g2⟩ := hgone e rfl
        rw [g1, g2] at hlive
        simp at hlive
    · have hxmem : x ∈ L := (expireEntries_front _ _ _).subset hxL
      exact hway.only ho x hx (hall x hxmem hhash)
  cases found with
  | none =>
    cases hinit : a.init with
    | none =>
      refine ⟨⟨none, ⟨none, 0⟩, none⟩, hway, hquiet, d₁, ?_, ?_, hs⟩
      · intro base hb
        simp only [mpsShdictIncr, hexp base hb, hlook, Option.bind_eq_bind, Option.bind_some, hit,
          Hit.lookup, hinit, incrEntries]
      · simp only [incrEntries, hit, hinit]
        exact hrep
    | some init =>
      obtain ⟨r, hr, d', hrun, hrep', hs'⟩ := incrInsert_spec env ⟨none, ⟨none, 0⟩, none⟩
        (env.add a.value init) none hk hrep (hclear init hinit (by simp))
      refine ⟨⟨none, r, none⟩, hway, hr, d', ?_, ?_, hs.trans hs'⟩
      · intro base hb
        simp only [mpsShdictIncr, hexp base hb, hlook, Option.bind_eq_bind, Option.bind_some, hit,
          Hit.lookup, hinit, incrEntries]
        exact hrun base hb
      · simp only [incrEntries, hit, hinit]
        exact hrep'
  | some e =>
    have hkey := (hway.finds.sound e rfl).2
    have hok := hrep.shape.entries e (by simp [lookupEntries])
    by_cases hx : lookupExpired e.expires (env.mpsClockTimeMs 2) = true
    · cases hinit : a.init with
      | none =>
        refine ⟨⟨some e, ⟨none, 0⟩, none⟩, hway, hquiet, d₁, ?_, ?_, hs⟩
        · intro base hb
          simp only [mpsShdictIncr, hexp base hb, hlook, Option.bind_eq_bind, Option.bind_some, hit,
            if_pos hx, Hit.lookup, hinit, incrEntries]
        · simp only [incrEntries, hit, if_pos hx, hinit]
          exact hrep
      | some init =>
        have hiff := fits_iff hok 8
        by_cases hfit : e.fits 8 = true
        · have hc : (d₁.sd e.off).valueLen = sizeofDouble ∧ (d₁.sd e.off).valueType ≠ .tlist := by
            obtain ⟨h1, h2⟩ := hiff.mpr hfit
            exact ⟨h1.symm, h2⟩
          refine ⟨⟨some e, ⟨none, 0⟩, none⟩, hway, hquiet,
            incrSetValue env a (env.add a.value init) e.off (d₁.touch e.off), ?_, ?_, ?_⟩
          · intro base hb
            simp only [mpsShdictIncr, hexp base hb, hlook,
              Option.bind_eq_bind, Option.bind_some, hit, if_pos hx,
              Hit.lookup, hinit, incrEntries, if_pos hc, if_pos hfit]
          · simp only [incrEntries, hit, if_pos hx, hinit, if_pos hfit]
            exact incrSetValue_spec hkey hfit _ hrep
          · exact hs
        · have hc : ¬ ((d₁.sd e.off).valueLen = sizeofDouble ∧ (d₁.sd e.off).valueType ≠ .tlist) :=
            fun hc => hfit (hiff.mp ⟨hc.1.symm, hc.2⟩)
          obtain ⟨d₂, hrem, hrep₂, -, hs₂⟩ := Rep.removeEntry (A := []) hrep
          obtain ⟨r, hr, d', hrun, hrep', hs'⟩ := incrInsert_spec env ⟨some e, ⟨none, 0⟩, none⟩
            (env.add a.value init) (some e.off) hk hrep₂ (hclear init hinit fun e' he' => by
              obtain rfl := Option.some.inj he'
              exact ⟨hx, by simpa using hfit⟩)
          refine ⟨⟨some e, r, none⟩, hway, hr, d', ?_, ?_, hs.trans (hs₂.trans hs')⟩
          · intro base hb
            have hrem' := hrem base hb
            rw [hkey] at hrem'
            simp only [mpsShdictIncr, hexp base hb, hlook,
              Option.bind_eq_bind, Option.bind_some, hit, if_pos hx,
              Hit.lookup, hinit, incrEntries, if_neg hc, if_neg hfit, hrem']
            exact hrun base hb
          · simp only [incrEntries, hit, if_pos hx, hinit, if_neg hfit]
            exact hrep'
    · obtain ⟨d', hrun, hrep', hs'⟩ := incrInPlace_spec env hkey hrep
      refine ⟨⟨some e, ⟨none, 0⟩, none⟩, hway, hquiet, d', ?_, ?_, hs.trans hs'⟩
      · intro base hb
        simp only [mpsShdictIncr, hexp base hb, hlook, Option.bind_eq_bind, Option.bind_some, hit,
          if_neg hx, Hit.lookup, incrEntries]
        exact hrun base hb
      · simp only [incrEntries, hit, if_neg hx]
        exact hrep'

end Incr

/-! ### Deadlines -/

section Deadlines
variable {sz : Sizes} {s n data : Nat} {ord : Prop} {d : Shdict} {e : Entry} {A B L : List Entry}
  {spare : List Block}

theorem setExpires_middle (hl : Laid n data (A ++ e :: B)) (expires : Nat) :
    setExpires e.off expires (A ++ e :: B) = A ++ { e with expires := expires } :: B := by
  have hne : ∀ x ∈ A ++ B, x.off ≠ e.off := by
    intro x hx hoff
    have hnd := hl.off_nodup
    rw [List.map_append, List.map_cons] at hnd
    refine (List.nodup_middle.mp hnd).notMem ?_
    rw [← List.map_append]
    exact List.mem_map.mpr ⟨x, hx, hoff⟩
  have hid : ∀ C : List Entry, (∀ x ∈ C, x.off ≠ e.off) → setExpires e.off expires C = C := by
    intro C hC
    refine (List.map_congr_left ?_).trans (List.map_id C)
    intro x hx
    rw [if_neg (hC x hx)]
    rfl
  have hA := hid A fun x hx => hne x (List.mem_append_left _ hx)
  have hB := hid B fun x hx => hne x (List.mem_append_right _ hx)
  unfold setExpires at *
  rw [List.map_append, List.map_cons, hA, hB, if_pos rfl]

/-- The deadline of an entry is written. -/
theorem Rep.setExpires (h : Rep sz s ord d (A ++ e :: B) spare) (expires : Nat) :
    Rep sz s ord (d.setSd e.off fun sd => { sd with expires := expires })
      (A ++ { e with expires := expires } :: B) spare := by
  have hok := h.shape.entries e mem_middle
  have hval := hok.value
  refine h.setSd rfl rfl rfl ⟨hok.hash, ?_, ?_, ?_, ?_, ?_⟩
  · simp only [Shdict.setSd_same]
    exact hok.keyLen
  · simp only [Shdict.setSd_same]
    exact hok.key
  · simp only [Shdict.setSd_same]
    exact hok.userFlags
  · simp only [Shdict.setSd_same]
  · unfold ValueOk at hval ⊢
    simp only [Shdict.setSd_same]
    cases hv : e.value with
    | plain valueType bytes =>
      rw [hv] at hval
      exact hval
    | list elems =>
      rw [hv] at hval
      obtain ⟨h1, h2, h3, h4⟩ := hval
      exact ⟨h1, h2, h3, fun x hx => (h4 x hx).frame rfl⟩

/-- **`mps_shdict_set_expire`.** -/
theorem mpsShdictSetExpire_spec (env : Env) (key : Bytes) (exptime : Int)
    (h : Rep sz s ord d L spare) :
    ∃ c : Choice, Finds ord L key c.found ∧ c.alloc.rounds = 0 ∧
      Does sz s ord d spare
        (fun _ => (mpsShdictSetExpire env key exptime d).map fun r => (r.1, none, r.2))
        (setExpireEntries env exptime c L) := by
  obtain ⟨found, hf, hpeek⟩ := mpsShdictPeek_spec h key
  refine ⟨⟨found, ⟨none, 0⟩, none⟩, hf, rfl, ?_⟩
  cases found with
  | none =>
    refine ⟨d, ?_, h, .refl _⟩
    intro base _
    simp only [mpsShdictSetExpire, hpeek, Option.bind_eq_bind, Option.bind_some, Option.map_some,
      setExpireEntries]
  | some e =>
    obtain ⟨he, -⟩ := hf.sound e rfl
    obtain ⟨A, B, rfl⟩ := List.append_of_mem he
    refine ⟨d.setSd e.off fun sd => { sd with expires := deadline (env.mpsClockTimeMs 0) exptime },
      ?_, ?_, .refl _⟩
    · intro base _
      simp only [mpsShdictSetExpire, hpeek, Option.bind_eq_bind, Option.bind_some, Option.map_some,
        setExpireEntries]
    · simp only [setExpireEntries, setExpires_middle h.laid]
      exact h.setExpires _

/-- **`mps_shdict_get_ttl`** changes nothing. -/
theorem mpsShdictGetTtl_spec (env : Env) (key : Bytes) (h : Rep sz s ord d L spare) :
    ∃ c : Choice, Finds ord L key c.found ∧ c.alloc.rounds = 0 ∧
      mpsShdictGetTtl env key d = some (ttlResult env c) := by
  obtain ⟨found, hf, hpeek⟩ := mpsShdictPeek_spec h key
  refine ⟨⟨found, ⟨none, 0⟩, none⟩, hf, rfl, ?_⟩
  cases found with
  | none => simp only [mpsShdictGetTtl, hpeek, Option.bind_eq_bind, Option.bind_some, ttlResult]
  | some e =>
    have hexp := (h.shape.entries e (hf.sound e rfl).1).expires
    simp only [mpsShdictGetTtl, hpeek, Option.bind_eq_bind, Option.bind_some, hexp, ttlResult]
    split <;> rfl

/-- The loop writes the deadlines from any entry on. The induction is on the entries that
are left to visit; the links are not written. -/
theorem flushLoop_spec (B : List Entry) : ∀ {fuel : Nat} {d : Shdict} {A : List Entry},
    Rep sz s ord d (A ++ B) spare → B.length < fuel →
    ∃ d', flushLoop fuel d ((B.map fun e => sdQueue e.off).head?.getD d.lruQueue) = some d' ∧
      Rep sz s ord d' (A ++ B.map fun e => { e with expires := 1 }) spare ∧ d'.pool = d.pool := by
  induction B with
  | nil =>
    intro fuel d A h hfuel
    obtain ⟨fuel, rfl⟩ : ∃ k, fuel = k + 1 := ⟨fuel - 1, by omega⟩
    exact ⟨d, by simp [flushLoop], h, rfl⟩
  | cons e B ih =>
    intro fuel d A h hfuel
    obtain ⟨fuel, rfl⟩ : ∃ k, fuel = k + 1 := ⟨fuel - 1, by omega⟩
    have hlru := h.shape.hung.lru
    simp only [List.map_append, List.map_cons] at hlru
    have hne : sdQueue e.off ≠ d.lruQueue := by
      intro he
      exact (List.nodup_cons.mp hlru.nodup).1 (by simp [← he])
    have hnode : nodeOfQueue (sdQueue e.off) = e.off := by
      simp only [nodeOfQueue, sdQueue, offsetofQueue, offsetofColor]
      omega
    have hnext : mpsQueueNext d.queue (sdQueue e.off) =
        (B.map fun e => sdQueue e.off).head?.getD d.lruQueue := by
      rw [hlru.next, List.map_map]
      rfl
    have hrep := h.setExpires 1
    rw [← List.singleton_append, ← List.append_assoc] at hrep
    obtain ⟨d', hrun, hrep', hpool⟩ := ih hrep (by simpa using hfuel)
    refine ⟨d', ?_, by simpa using hrep', hpool⟩
    simp only [List.map_cons, List.head?_cons, Option.getD_some]
    rw [flushLoop, if_neg hne]
    simp only [hnode]
    show flushLoop fuel _ (mpsQueueNext d.queue (sdQueue e.off)) = some d'
    rw [hnext]
    exact hrun

/-- **`mps_shdict_flush_all`** gives every entry the deadline 1 and then evicts up to
three. -/
theorem mpsShdictFlushAll_spec (env : Env) (h : Rep sz s ord d L spare) :
    Does sz s ord d spare
      (fun base => (mpsShdictFlushAll sz base env d).map fun r => (r.1, none, r.2))
      (flushEntries env L) := by
  have hfuel : L.length < d.rounds := by
    have := h.laid.length
    rw [Shdict.rounds]
    omega
  obtain ⟨d₁, hrun, hrep, hpool⟩ := flushLoop_spec (A := []) L h hfuel
  obtain ⟨d', hexp, hrep', -, hs⟩ := expireLoop_spec (env.mpsClockTimeMs 1) 3 hrep
  refine ⟨d', ?_, hrep', hpool ▸ hs⟩
  intro base hb
  have hhead : mpsQueueHead d.queue d.lruQueue =
      (L.map fun e => sdQueue e.off).head?.getD d.lruQueue := by
    rw [h.shape.hung.lru.first, List.map_map]
    rfl
  have hexp' : mpsShdictExpire sz base (env.mpsClockTimeMs 1) d₁ 0 = some (d', _) := hexp base hb
  simp only [mpsShdictFlushAll, hhead, hrun, hexp', Option.bind_eq_bind, Option.bind_some,
    Option.map_some, flushEntries]

end Deadlines

end MpsShdict
