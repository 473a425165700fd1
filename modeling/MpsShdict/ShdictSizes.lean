import MpsShdict.ShdictValues
import MpsShdict.SlabCapacity

/-! # Sizes that are computed in an `int`

The size of an entry is a sum of `size_t`s that passes through an `int` on its way to the
allocator. From `2 ^ 31` on the allocator is asked for more than there is; from `2 ^ 32`
on it is asked for less than what is copied.

So a store or a push that succeeds has got a chunk for all that it copies just where the
size fits 32 bits. Both directions are proved for every state of a run, along the branches
of the store and of the push: a new chunk, a chunk that is written over, a list that is
started and one that is there. A value that is written over must itself have a length
below `2 ^ 31`, which is what the runs of calls with such values keep (`Run.short`).
-/
namespace MpsShdict

open Words

/-- The chunk of the entry at `node` has room for a key and a value of these lengths, and
its fields say how long they are. The room is what the allocator counts as usable at that
offset. -/
structure EntrySized (sz : Sizes) (d : Shdict) (node klen vlen : Nat) : Prop where
  room : offsetofColor + offsetofData + klen + vlen ≤ d.pool.usable sz node
  keyLen : (d.sd node).keyLen = klen
  valueLen : (d.sd node).valueLen = vlen

/-- The element that a push has put into the list of the entry at `node`: the first one or
the last one. -/
def pushedElem (d : Shdict) (direction : Direction) (node keyLen : Nat) : Nat :=
  let queue := mpsShdictGetListHead 0 node keyLen
  match direction with
  | .left => mpsQueueHead d.queue queue
  | .right => mpsQueueLast d.queue queue

/-- The chunk of the entry at `node` has room for the key and for the header of its list,
and the one of the pushed element for the value; the fields say how long they are. -/
structure PushSized (sz : Sizes) (d : Shdict) (direction : Direction)
    (node klen vlen : Nat) : Prop where
  entryRoom : offsetofColor + offsetofData + klen + sizeofQueue ≤ d.pool.usable sz node
  keyLen : (d.sd node).keyLen = klen
  room : offsetofListData + vlen ≤ d.pool.usable sz (pushedElem d direction node klen)
  valueLen : (d.lnode (pushedElem d direction node klen)).valueLen = vlen

/-- A value whose length fits an `int`. Of a list it says nothing. -/
def Value.Short : Value → Prop
  | .plain _ bytes => bytes.length < 2 ^ 31
  | .list _ => True

section Sizes
variable {sz : Sizes} {s base size n : Nat} {ord : Prop} {pool : SlabPool}
  {live : List Block} {b : Block} {d d' : Shdict} {L : List Entry} {spare : List Block}
  {env : Env} {op : Nat} {a : StoreArgs} {v : Bytes}
  {sd sd' : Option Nat} {r : StoreResult} {e : Entry} {xs : List Event}

theorem intSize_low (h : n % 2 ^ 32 < 2 ^ 31) : intSize n = n % 2 ^ 32 := by
  rw [intSize, int32, if_pos h, ofInt64]
  omega

/-- A negative size is a very large one, once it is a `size_t` again. -/
theorem intSize_high (h : 2 ^ 31 ≤ n % 2 ^ 32) : 2 ^ 63 ≤ intSize n := by
  rw [intSize, int32, if_neg (by omega), ofInt64]
  omega

/-- A size of 32 bits is given enough. -/
theorem le_intSize (h : n < 2 ^ 32) : n ≤ intSize n := by
  by_cases hlow : n % 2 ^ 32 < 2 ^ 31
  · rw [intSize_low hlow]
    omega
  · have := intSize_high (Nat.not_lt.mp hlow)
    omega

/-- **A chunk has the room that was wanted** and its length field has the length, if and
only if the size fits 32 bits. The part of the size that does not depend on the value is
small, so nothing is lost by it. -/
theorem sized_iff (g : Sizing sz s pool) (hs : s ≤ 16) (hsmall : size < 2 ^ 20) (len : Nat) :
    (size + len ≤ capacity sz pool (intSize (size + len)) ∧ u32 len = len) ↔
    size + len < 2 ^ 32 := by
  constructor
  · rintro ⟨hroom, hlen⟩
    by_contra hge
    have hlt : len < 2 ^ 32 := by
      rw [← hlen]
      exact Nat.mod_lt _ (Nat.two_pow_pos 32)
    have hlow : (size + len) % 2 ^ 32 < 2 ^ 31 := by omega
    have hcap := capacity_lt g (intSize (size + len))
    have hpage : 2 ^ s ≤ 2 ^ 16 := Nat.pow_le_pow_right (by decide) hs
    rw [intSize_low hlow] at hcap hroom
    omega
  · intro h
    exact ⟨(le_intSize h).trans (size_le_capacity g _), u32_of_lt (by omega)⟩

/-- The blocks of a dictionary are as long as their requests were rounded up to, and the
pool says so of each of them. -/
theorem Owns.usable (h : Owns sz s pool live) (hb : b ∈ live) :
    pool.usable sz b.off = capacity sz pool b.size :=
  SlabInv.usable h hb

theorem Owns.sizing (h : Owns sz s pool live) : Sizing sz s pool := by
  obtain ⟨cells, lists, h⟩ := h
  exact h.inv.shelf.geo.toSizing

/-- Hanging up a node changes nothing but links. -/
theorem Shdict.link_frame {node : Nat} (h : d.link node = some d') : d'.pool = d.pool ∧
    d'.sd = d.sd := by
  rw [Shdict.link] at h
  obtain ⟨rbtree, -, h⟩ := Option.bind_eq_some_iff.mp h
  obtain rfl := Option.some.inj h
  exact ⟨rfl, rfl⟩

/-- What calls that can compute their sizes leave is short. By the induction over values
of a run, since a value comes from the arguments of a call. -/
theorem Run.short (hs : 12 ≤ s) (hs' : s ≤ 16) (run : Run s xs d) :
    ∀ e ∈ d.entries, e.value.Short := by
  refine run.values hs hs' ?_
  intro call L v hok hm hL
  cases hm with
  | kept he => exact hL _ he
  | stored h =>
    have hsize := (hok.1.value h).1
    exact Nat.lt_of_le_of_lt (Nat.le_add_left _ _) hsize
  | counted a num =>
    show num.bytes.length < 2 ^ 31
    rw [num.size]
    decide
  | pushed lnode h helems => trivial
  | popped he hv htake => trivial

/-! ### Stores -/

/-- From the label `insert` on. The chunk is a new one, as long as the size that the `int`
has let through. -/
theorem storeInsert_sized (hs : s ≤ 16) (hk : KeyOk a.key) (hrep : Rep sz s ord d L spare)
    (hbase : 2 ^ s ∣ base) {hash : Nat}
    (h : storeInsert sz base env op a hash (some v) d sd = some (d', sd', r)) (hok : r.rc = ngxOk) :
    ∃ node, sd' = some node ∧ (EntrySized sz d' node a.key.length v.length ↔
      offsetofColor + offsetofData + a.key.length + v.length < 2 ^ 32) := by
  obtain ⟨d₁, r₁, hrun, -, hrep₁, -⟩ := allocEntry_spec env
    (intSize (offsetofColor + offsetofData + a.key.length + v.length))
    (decide (op &&& mpsShdictSafeStoreFlag = 0)) hrep
  simp only [storeInsert, hrun base hbase, Option.bind_eq_bind, Option.bind_some] at h
  cases hnode : r₁.node with
  | none =>
    simp only [hnode, Option.some.injEq, Prod.mk.injEq] at h
    obtain ⟨-, -, rfl⟩ := h
    cases hok
  | some node =>
    simp only [hnode] at h hrep₁
    obtain ⟨d₂, hlink, hd₂⟩ := Option.bind_eq_some_iff.mp h
    simp only [Option.some.injEq, Prod.mk.injEq] at hd₂
    obtain ⟨rfl, rfl, -⟩ := hd₂
    obtain ⟨hpool, hsd⟩ := Shdict.link_frame hlink
    have hb :
        (⟨node, max 1 (intSize (offsetofColor + offsetofData + a.key.length + v.length))⟩ : Block) ∈
        dictBlocks d₁ (evictEntries env 0 r₁.rounds L)
          ([⟨node, max 1 (intSize (offsetofColor + offsetofData + a.key.length + v.length))⟩] ++
            spare) := by
      simp [dictBlocks]
    have hg := Owns.sizing hrep₁.owns
    have husable : d₂.pool.usable sz node =
        capacity sz d₁.pool (intSize (offsetofColor + offsetofData + a.key.length + v.length)) := by
      rw [hpool]
      exact (Owns.usable hrep₁.owns hb).trans (capacity_max hg _)
    have hfields : (d₂.sd node).keyLen = a.key.length ∧ (d₂.sd node).valueLen = u32 v.length := by
      rw [hsd]
      simp only [Shdict.setSd_same]
      exact ⟨Nat.mod_eq_of_lt hk.2, trivial⟩
    have hsmall : offsetofColor + offsetofData + a.key.length < 2 ^ 20 := by
      have := hk.2
      simp only [offsetofColor, offsetofData]
      omega
    refine ⟨node, rfl, ?_⟩
    rw [← sized_iff hg hs hsmall v.length, ← husable, ← hfields.2]
    exact ⟨fun h => ⟨h.room, h.valueLen⟩, fun h => ⟨h.1, hfields.1, h.2⟩⟩

/-- A value that is written over fits its chunk. -/
theorem storeInPlace_sized (env : Env) (hk : KeyOk a.key) (hshort : e.value.Short)
    (hkey : e.key = a.key) (hfit : e.fits v.length = true) (hrep : Rep sz s ord d (e :: L) spare) :
    EntrySized sz (storeInPlace d env a v e.off) e.off a.key.length v.length ∧
      offsetofColor + offsetofData + a.key.length + v.length < 2 ^ 32 := by
  have hok := hrep.shape.entries e List.mem_cons_self
  have hval := hok.value
  unfold ValueOk at hval
  unfold Entry.fits at hfit
  cases hv : e.value with
  | list elems => simp [hv] at hfit
  | plain valueType bytes =>
    rw [hv] at hshort hval hfit
    replace hfit : v.length = bytes.length := of_decide_eq_true hfit
    replace hshort : bytes.length < 2 ^ 31 := hshort
    have hb : e.block ∈ dictBlocks d (e :: L) spare := by simp [dictBlocks, Entry.blocks]
    have hsize : e.size = offsetofColor + offsetofData + a.key.length + v.length := by
      unfold Entry.size
      rw [hv, hkey, hfit]
    have husable : d.pool.usable sz e.off = capacity sz d.pool e.size := Owns.usable hrep.owns hb
    refine ⟨⟨?_, ?_, ?_⟩, ?_⟩
    · show _ ≤ d.pool.usable sz e.off
      rw [husable, ← hsize]
      exact size_le_capacity (Owns.sizing hrep.owns) _
    · simp only [storeInPlace, Shdict.setSd_same, ← hkey]
      exact hok.keyLen
    · simp only [storeInPlace, Shdict.setSd_same, hfit]
      exact hval.2.2.1
    · have := hk.2
      simp only [offsetofColor, offsetofData]
      omega

/-- From the label `replace` on. The value is written over the old one if it has the same
length, and goes into a new chunk if not. -/
theorem storeReplace_sized (hs : s ≤ 16) (hk : KeyOk a.key) (hshort : e.value.Short)
    (hkey : e.key = a.key) (hrep : Rep sz s ord d (e :: L) spare)
    (hbase : 2 ^ s ∣ base) {hash : Nat}
    (h : storeReplace sz base env op a hash (some v) d e.off = some (d', sd', r))
    (hok : r.rc = ngxOk) :
    ∃ node, sd' = some node ∧ (EntrySized sz d' node a.key.length v.length ↔
      offsetofColor + offsetofData + a.key.length + v.length < 2 ^ 32) := by
  have hiff := fits_iff (hrep.shape.entries e List.mem_cons_self) v.length
  rw [storeReplace] at h
  by_cases hfit : e.fits v.length = true
  · rw [if_pos (hiff.mpr hfit)] at h
    simp only [Option.some.injEq, Prod.mk.injEq] at h
    obtain ⟨rfl, rfl, -⟩ := h
    obtain ⟨hsized, hlt⟩ := storeInPlace_sized env hk hshort hkey hfit hrep
    exact ⟨e.off, rfl, iff_of_true hsized hlt⟩
  · rw [if_neg fun hc => hfit (hiff.mp hc), storeRemove, ← hkey] at h
    obtain ⟨d₁, hrun, hrep₁, -⟩ := Rep.removeEntry (A := []) hrep
    rw [hrun base hbase] at h
    exact storeInsert_sized hs hk hrep₁ hbase h hok

/-- `mps_shdict_store`, with what the lookup comes to. The flags decide which of the
labels it gets to. -/
theorem storeFound_sized (hs : s ≤ 16) (hk : KeyOk a.key) {found : Option Entry} (now : Nat)
    (hshort : ∀ e, found = some e → e.value.Short) (hkey : ∀ e, found = some e → e.key = a.key)
    (hrep : Rep sz s ord d (lookupEntries found L) spare) (hbase : 2 ^ s ∣ base) {hash : Nat}
    (h : storeFound sz base env op a hash (some v) d (hit now found).lookup = some (d', sd', r))
    (hok : r.rc = ngxOk) :
    ∃ node, sd' = some node ∧ (EntrySized sz d' node a.key.length v.length ↔
      offsetofColor + offsetofData + a.key.length + v.length < 2 ^ 32) := by
  have hdeclined : ∀ {d₁ : Shdict} {sd₁ : Option Nat} {msg : String},
      some (d₁, sd₁, (⟨ngxDeclined, some msg, 0⟩ : StoreResult)) = some (d', sd', r) → False := by
    intro d₁ sd₁ msg he
    simp only [Option.some.injEq, Prod.mk.injEq] at he
    obtain ⟨-, -, rfl⟩ := he
    cases hok
  cases found with
  | none =>
    simp only [hit, Hit.lookup, storeFound] at h
    split at h
    · exact (hdeclined h).elim
    · split at h
      · exact storeInsert_sized hs hk hrep hbase h hok
      · exact storeInsert_sized hs hk hrep hbase h hok
  | some e =>
    have hreplace : storeReplace sz base env op a hash (some v) d e.off = some (d', sd', r) →
      _ := fun hrun =>
      storeReplace_sized hs hk (hshort e rfl) (hkey e rfl) hrep hbase hrun hok
    by_cases hexp : lookupExpired e.expires now = true
    · simp only [hit, if_pos hexp, Hit.lookup, storeFound] at h
      split at h
      · exact (hdeclined h).elim
      · split at h
        · exact hreplace h
        · exact hreplace h
    · simp only [hit, if_neg hexp, Hit.lookup, storeFound] at h
      split at h
      · exact hreplace h
      · split at h
        · exact (hdeclined h).elim
        · exact hreplace h

/-- **A store that succeeds has room for what it copies**, and says how long it is, if and
only if the size fits 32 bits. -/
theorem store_sized (hs : s ≤ 16) (hk : KeyOk a.key) (hval : storeValue op a = .ok (some v))
    (hrep : Rep sz s ord d L spare) (hshort : ∀ e ∈ L, e.value.Short) (hbase : 2 ^ s ∣ base)
    (h : mpsShdictStore sz base env op a d = some (d', sd', r)) (hok : r.rc = ngxOk) :
    ∃ node, sd' = some node ∧ (EntrySized sz d' node a.key.length v.length ↔
      offsetofColor + offsetofData + a.key.length + v.length < 2 ^ 32) := by
  obtain ⟨d₀, n, found, d₁, hexp, hlook, hway, hrep₁, -⟩ := way_spec env a.key hrep
  simp only [mpsShdictStore, hval, hexp base hbase,
    hlook, Option.bind_eq_bind, Option.bind_some] at h
  refine storeFound_sized hs hk (env.mpsClockTimeMs 2) ?_
    (fun e he => (hway.finds.sound e he).2) hrep₁ hbase h hok
  intro e he
  exact hshort e (afterExpire_subset env L (hway.finds.sound e he).1)

end Sizes

/-! ### Pushes -/

section Pushes
variable {sz : Sizes} {s base : Nat} {ord : Prop} {d d' : Shdict} {L : List Entry}
  {spare : List Block}
  {env : Env} {a : PushArgs} {v : Bytes} {sd sd' : Option Nat} {e : Entry} {elems : List Elem}

/-- From the label `init_list` on, a push fails or gets to an empty list. The chunk of a
list has room for the key and the header, whose size is far below `2 ^ 31`. -/
theorem pushInitList_reaches (env : Env) (sd : Option Nat) (hk : KeyOk a.key) (hbase : 2 ^ s ∣ base)
    (hrep : Rep sz s ord d L spare) (hnew : ord → ∀ x ∈ L, x.key ≠ a.key) :
    (∃ d' sd' msg, pushInitList sz base env a (ngxMurmurHash2 a.key) v d sd =
      some (d', sd', .code ngxError, some msg)) ∨
    ∃ d₂ e, Rep sz s ord d₂ (e :: L) spare ∧ e.value = .list [] ∧ e.key = a.key ∧
      pushInitList sz base env a (ngxMurmurHash2 a.key) v d sd =
        pushNode sz base env a v e.off d₂ := by
  obtain ⟨hpos, hsize⟩ := initList_size hk
  obtain ⟨pool, p, halloc, -, hrep₁⟩ := hrep.slabAlloc env 0
    (alignUp (offsetofColor + offsetofData + a.key.length + sizeofQueue) ngxAlignment)
  rw [Nat.max_eq_right hpos] at hrep₁
  simp only [pushInitList, hsize, halloc, Option.bind_eq_bind, Option.bind_some]
  cases p with
  | none => exact .inl ⟨_, _, _, rfl⟩
  | some node =>
    obtain ⟨d₂, hrun, hrep₂, -⟩ := initList_spec env node hk hrep₁ hnew
    refine .inr ⟨d₂, _, hrep₂, rfl, rfl, ?_⟩
    simp only [hrun base hbase, Option.bind_some]

/-- **A push fails or gets to a list**, whatever the length of its value. So whether there
is room for the value is decided at the label `push_node` alone. -/
theorem push_reaches (env : Env) (hk : KeyOk a.key) (hval : pushValue a = .ok v)
    (hbase : 2 ^ s ∣ base) (hrep : Rep sz s ord d L spare) :
    (∃ d' sd' msg, mpsShdictPushHelper sz base env a d = some (d', sd', .code ngxError, some msg)) ∨
    ∃ d₂ e elems L₂, Rep sz s ord d₂ (e :: L₂) spare ∧ e.value = .list elems ∧ e.key = a.key ∧
      mpsShdictPushHelper sz base env a d = pushNode sz base env a v e.off d₂ := by
  obtain ⟨found, hway, hgoes⟩ := mpsShdictPushHelper_goes env hval hrep
  cases hgoes with
  | init d₁ sd hrep₁ _ hrun _ =>
    rw [hrun base hbase]
    rcases pushInitList_reaches (v := v) env sd hk hbase hrep₁ hway.only with
      hfail | ⟨d₂, e, hrep₂, hv, hkey, hrun'⟩
    · exact .inl hfail
    · exact .inr ⟨d₂, e, [], _, hrep₂, hv, hkey, hrun'⟩
  | node d₁ e elems hv hkey hrep₁ _ hrun _ =>
    exact .inr ⟨d₁, e, elems, _, hrep₁, hv, hkey, hrun base hbase⟩
  | back d₁ e _ _ hrun _ =>
    exact .inl ⟨d₁, _, _, hrun base hbase⟩

/-- The element that is put into a list is found at its end of it. -/
theorem pushedElem_pushElement {lnode : Nat} (hq : IsQueue d.queue e.listHead (elems.map Elem.off))
    (hkey : e.key = a.key) (hbase : 8 ∣ base) (hnot : lnode ∉ e.listHead :: elems.map Elem.off) :
    pushedElem (pushElement base env a v e.off lnode d) a.direction e.off a.key.length = lnode := by
  have hhead : mpsShdictGetListHead base e.off a.key.length = e.listHead := by
    rw [mpsShdictGetListHead_base hbase, Entry.listHead, hkey]
  have hhead0 : mpsShdictGetListHead 0 e.off a.key.length = e.listHead := by
    rw [Entry.listHead, hkey]
  cases hdir : a.direction with
  | left =>
    simp only [pushedElem, pushElement, hdir, hhead, hhead0]
    exact (hq.insertHead hnot).head
  | right =>
    simp only [pushedElem, pushElement, hdir, hhead, hhead0]
    exact (hq.insertTail hnot).last

/-- **A push that succeeds has room for what it copies**, and says how long it is, if and
only if the size fits 32 bits. -/
theorem push_sized (hs : s ≤ 16) (hk : KeyOk a.key) (hval : pushValue a = .ok v)
    (hbase : 2 ^ s ∣ base) (hrep : Rep sz s ord d L spare) {node : Nat} {msg : Option String}
    (h : mpsShdictPushHelper sz base env a d = some (d', sd', .valueLen node, msg)) :
    PushSized sz d' a.direction node a.key.length v.length ↔
    offsetofListData + v.length < 2 ^ 32 := by
  rcases push_reaches env hk hval hbase hrep with ⟨d₁, sd₁, m, hfail⟩ |
    ⟨d₂, e, elems, L₂, hrep₂, hv, hkey, hrun⟩
  · rw [hfail] at h
    simp at h
  · rw [hrun] at h
    obtain ⟨pool, p, halloc, -, hrep₃⟩ :=
      hrep₂.slabAlloc env 31 (intSize (offsetofListData + v.length))
    simp only [pushNode, halloc, Option.bind_eq_bind, Option.bind_some] at h
    set d₃ : Shdict := { d₂ with pool := pool }
    -- without a chunk the push fails, and that is not the answer in `h`
    cases p with
    | none =>
      dsimp only at h
      split at h
      · obtain ⟨d₄, -, hd₄⟩ := Option.bind_eq_some_iff.mp h
        simp at hd₄
      · simp at h
    | some lnode =>
      simp only [Option.some.injEq, Prod.mk.injEq, Return.valueLen.injEq] at h
      obtain ⟨rfl, -, rfl, -⟩ := h
      have hok := hrep₃.shape.entries e List.mem_cons_self
      have hvalue := hok.value
      simp only [ValueOk, hv] at hvalue
      have hnot : lnode ∉ e.listHead :: elems.map Elem.off := hrep₃.spare_notMem hv
      have hpushed : pushedElem
        (pushElement base env a v e.off lnode d₃) a.direction e.off a.key.length = lnode :=
        pushedElem_pushElement hvalue.2.2.1 hkey (hrep.eight_dvd hbase) hnot
      have hg := Owns.sizing hrep₃.owns
      have hpool : (pushElement base env a v e.off lnode d₃).pool = d₃.pool := by
        unfold pushElement
        cases a.direction with
        | left => rfl
        | right => rfl
      have hentry : d₃.pool.usable sz e.off = capacity sz d₃.pool e.size :=
        Owns.usable hrep₃.owns (show e.block ∈ _ by simp [dictBlocks, Entry.blocks])
      have husable : d₃.pool.usable sz lnode =
          capacity sz d₃.pool (intSize (offsetofListData + v.length)) :=
        (Owns.usable hrep₃.owns (b := ⟨lnode, max 1 (intSize (offsetofListData + v.length))⟩)
          (by simp [dictBlocks])).trans (capacity_max hg _)
      have hsd : ((pushElement base env a v e.off lnode d₃).sd e.off).keyLen =
          (d₃.sd e.off).keyLen := by
        unfold pushElement
        cases a.direction with
        | left => simp
        | right => simp
      have hlnode : ((pushElement base env a v e.off lnode d₃).lnode lnode).valueLen =
          u32 v.length := by
        unfold pushElement
        cases a.direction with
        | left => simp
        | right => simp
      -- the length of the value is that of its chunk, so `sized_iff` decides
      rw [← sized_iff hg hs (show offsetofListData < 2 ^ 20 by decide) v.length,
        ← husable, ← hlnode]
      refine ⟨?_, fun h => ⟨?_, ?_, ?_, ?_⟩⟩
      · intro h
        have hroom := h.room
        have hlen := h.valueLen
        rw [hpushed] at hlen hroom
        rw [hpool] at hroom
        exact ⟨hroom, hlen⟩
      · rw [hpool, hentry, ← hkey]
        refine Nat.le_trans ?_ (size_le_capacity hg _)
        unfold Entry.size
        rw [hv]
        exact le_alignUp _ 3
      · rw [hsd, hok.keyLen, hkey]
      · rw [hpushed, hpool]
        exact h.1
      · rw [hpushed]
        exact h.2

/-- **Length arithmetic is safe below `2 ^ 32`.**  In every run a store or a push that
succeeds has got a chunk for what it copies, and its length fields are right, if and only
if the size of the chunk fits 32 bits. -/
theorem lengths_exact_iff {xs : List Event} (hs : 12 ≤ s) (hs' : s ≤ 16) (run : Run s xs d)
    (hbase : 2 ^ s ∣ base) :
    (∀ env op (a : StoreArgs) v d' sd r, KeyOk a.key → storeValue op a = .ok (some v) →
      mpsShdictStore (mpsSlabSizesInit (2 ^ s)) base env op a d = some (d', sd, r) → r.rc = ngxOk →
      ∃ node, sd = some node ∧
        (EntrySized (mpsSlabSizesInit (2 ^ s)) d' node a.key.length v.length ↔
          offsetofColor + offsetofData + a.key.length + v.length < 2 ^ 32)) ∧
    ∀ env (a : PushArgs) v d' sd node msg, KeyOk a.key → pushValue a = .ok v →
      mpsShdictPushHelper (mpsSlabSizesInit (2 ^ s)) base env a d =
        some (d', sd, .valueLen node, msg) →
      (PushSized (mpsSlabSizesInit (2 ^ s)) d' a.direction node a.key.length v.length ↔
        offsetofListData + v.length < 2 ^ 32) := by
  obtain ⟨L, spare, hrep⟩ := run.rep hs hs'
  have hshort := run.short hs hs'
  rw [hrep.entries_eq] at hshort
  exact ⟨fun env op a v d' sd r hk hval h hok => store_sized hs' hk hval hrep hshort hbase h hok,
    fun env a v d' sd node msg hk hval h => push_sized hs' hk hval hbase hrep h⟩

end Pushes

/-! ### A string of `2 ^ 32` bytes -/

/-- The memory of a pool of 8 GiB that `mps_slab_init` has set up, with nothing else in
it. It has the same fields elsewhere as the pool of four pages. -/
def wideBlank : Shdict :=
  { blankDict with
    pool := (mpsSlabInit (mpsSlabSizesInit (2 ^ 12)) 0 (fun _ => ⟨0, 0, 0⟩) (fun _ => ⟨0, 0, 0, 0⟩)
      (fun _ => 0) (2 ^ 33) 3 0).toOption.get rfl }

/-- A dictionary of 8 GiB with nothing in it.  From any chunk of its first pages on, there
are more than `2 ^ 32` bytes up to its end. -/
def wideDict : Shdict :=
  ((mpsShdictOnInit (mpsSlabSizesInit (2 ^ 12)) wideBlank).get rfl).toOption.get rfl

theorem fresh_wideDict : Fresh 12 wideDict :=
  .intro 0 (2 ^ 33) 3 (fun _ => ⟨0, 0, 0⟩)
    (fun _ => ⟨0, 0, 0, 0⟩) (fun _ => 0) (by decide) (by decide)
    (by decide) (by decide) (show _ = Except.ok wideBlank.pool from rfl) rfl

theorem entries_wideDict : wideDict.entries = [] := by decide +kernel

/-- A string whose length is lost in the size of its entry goes into a chunk for the key.
All but the size is computed without looking at the string, so it need not be written out. -/
theorem huge_stored {v : Bytes}
    (hv : intSize (offsetofColor + offsetofData + [(65 : UInt8)].length + v.length) = 69) :
    ∃ d', mpsShdictStore (mpsSlabSizesInit (2 ^ 12)) 0 (calmEnv 5) 0 (stringArgs [65] v) wideDict =
      some (d', some 50040960, ⟨ngxOk, none, 0⟩) := by
  have hinsert : mpsShdictStore (mpsSlabSizesInit (2 ^ 12)) 0
      (calmEnv 5) 0 (stringArgs [65] v) wideDict =
      storeInsert (mpsSlabSizesInit (2 ^ 12)) 0
        (calmEnv 5) 0 (stringArgs [65] v) (ngxMurmurHash2 [65])
        (some v) wideDict none := rfl
  rw [hinsert, storeInsert, show (stringArgs [65] v).key = [65] from rfl, hv]
  exact ⟨_, rfl⟩

/-- **A string of `2 ^ 32` bytes is stored in a chunk of 128 bytes.** The copy goes on
behind the chunk, and in a pool of 8 GiB it does not leave the mapping, so the store
answers that it has gone well. -/
theorem not_lengthsExact : ¬ ∀ (s : Nat) xs d base, 12 ≤ s → s ≤ 16 → Run s xs d → 2 ^ s ∣ base →
    (∀ env op (a : StoreArgs) v d' sd r, KeyOk a.key → v.length < 2 ^ 64 →
      storeValue op a = .ok (some v) →
      mpsShdictStore (mpsSlabSizesInit (2 ^ s)) base env op a d = some (d', sd, r) → r.rc = ngxOk →
      ∃ node, sd = some node ∧
      EntrySized (mpsSlabSizesInit (2 ^ s)) d' node a.key.length v.length) ∧
    ∀ env (a : PushArgs) v d' sd node msg, KeyOk a.key → v.length < 2 ^ 64 → pushValue a = .ok v →
      mpsShdictPushHelper (mpsSlabSizesInit (2 ^ s)) base env a d =
        some (d', sd, .valueLen node, msg) →
      PushSized (mpsSlabSizesInit (2 ^ s)) d' a.direction node a.key.length v.length := by
  intro hall
  obtain ⟨v, hlen⟩ : ∃ v : Bytes, v.length = 2 ^ 32 :=
    ⟨List.replicate (2 ^ 32) 0, List.length_replicate⟩
  obtain ⟨d', hrun⟩ := huge_stored (v := v) (by rw [hlen]; decide)
  have hk : KeyOk (stringArgs [65] v).key := show KeyOk [65] from ⟨by decide, by decide⟩
  obtain ⟨L, spare, hrep⟩ := (Run.init fresh_wideDict).rep (by decide) (by decide)
  have hL : L = [] := by rw [← hrep.entries_eq, entries_wideDict]
  obtain ⟨node, hnode, hsized⟩ :=
    (hall 12 [] wideDict 0 (by decide) (by decide) (.init fresh_wideDict)
    (by decide)).1 _ _ _ v d' _ _ hk (by omega) rfl hrun rfl
  obtain ⟨node', hnode', hiff⟩ :=
    store_sized (by decide) hk rfl hrep (by simp [hL]) (by decide) hrun rfl
  obtain rfl := Option.some.inj (hnode.symm.trans hnode')
  have hlt := hiff.mp hsized
  omega

/-- **Three calls that succeed.**  A string of one byte gets a chunk that is long enough, a
pushed one gets a list node that is, and a string of `2 ^ 32` bytes does not. -/
theorem lengths_exact_iff_calls :
    (∃ d' node, mpsShdictStore (mpsSlabSizesInit (2 ^ 12)) 0
      (calmEnv 5) 0 (stringArgs [65] [66]) wideDict =
        some (d', some node, ⟨ngxOk, none, 0⟩) ∧
          EntrySized (mpsSlabSizesInit (2 ^ 12)) d' node 1 1) ∧
    (∃ d' sd node, mpsShdictPushHelper (mpsSlabSizesInit (2 ^ 12)) 0 (calmEnv 5)
        ⟨.left, [65], .tstring, [66], Double.zero⟩ wideDict = some (d', sd, .valueLen node, none) ∧
      PushSized (mpsSlabSizesInit (2 ^ 12)) d' .left node 1 1) ∧
    ∃ v d' node, v.length = 2 ^ 32 ∧
      mpsShdictStore (mpsSlabSizesInit (2 ^ 12)) 0 (calmEnv 5) 0 (stringArgs [65] v) wideDict =
        some (d', some node, ⟨ngxOk, none, 0⟩) ∧
      ¬ EntrySized (mpsSlabSizesInit (2 ^ 12)) d' node 1 (2 ^ 32) := by
  obtain ⟨hstore, hpush⟩ := lengths_exact_iff (by decide) (by decide) (.init fresh_wideDict)
    (show 2 ^ 12 ∣ 0 by decide)
  have hk : KeyOk [65] := ⟨by decide, by decide⟩
  refine ⟨?_, ?_, ?_⟩
  · obtain ⟨node, hnode, hiff⟩ :=
      hstore (calmEnv 5) 0 (stringArgs [65] [66]) [66] _ _ _ hk rfl rfl rfl
    exact ⟨_, node, hnode ▸ rfl, hiff.mpr (by decide)⟩
  · have hrun : ∃ d' sd node, mpsShdictPushHelper (mpsSlabSizesInit (2 ^ 12)) 0 (calmEnv 5)
        ⟨.left, [65], .tstring, [66], Double.zero⟩ wideDict = some (d', sd, .valueLen node, none) :=
          ⟨_, _, _, rfl⟩
    obtain ⟨d', sd, node, hrun⟩ := hrun
    exact ⟨d', sd, node, hrun, (hpush (calmEnv 5) _ [66] _ _ _ _ hk rfl hrun).mpr (by decide)⟩
  · obtain ⟨v, hlen⟩ : ∃ v : Bytes, v.length = 2 ^ 32 :=
      ⟨List.replicate (2 ^ 32) 0, List.length_replicate⟩
    obtain ⟨d', hrun⟩ := huge_stored (v := v) (by rw [hlen]; decide)
    obtain ⟨node, hnode, hiff⟩ := hstore (calmEnv 5) 0 (stringArgs [65] v) v _ _ _ hk rfl hrun rfl
    refine ⟨v, d', node, hlen, hnode ▸ hrun, fun hsized => ?_⟩
    have hlt := hiff.mp (hlen.symm ▸ hsized)
    omega

end MpsShdict
