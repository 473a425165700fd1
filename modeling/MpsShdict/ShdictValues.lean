import MpsShdict.ShdictCounts

/-! # Values and their types

A value is one that was there before, or it comes from the arguments of the call. So every
number has the size of a `double`, and every boolean that of a byte.

What holds of all values in every run is proved from what one call makes of them
(`Makes`): `Run.values` is the induction, and the sizes of the types are one use of it.
From the sizes it follows that a read never gets to the errors about bad values that
`mps_shdict_get` and `mps_shdict_pop_helper` have in store.
-/
namespace MpsShdict

open Words

/-! ### Where values come from -/

/-- Where the value of an entry comes from that a call leaves of the entries `L`: it was
there, it was stored, counted or pushed from the arguments of the call, or an element has
been popped from it. -/
inductive Makes (L : List Entry) : Call → Value → Prop where
  | kept {call : Call} {e : Entry} (he : e ∈ L) : Makes L call e.value
  | stored {op : Nat} {a : StoreArgs} {v : Bytes} (h : storeValue op a = .ok (some v)) :
      Makes L (.store op a) (.plain a.valueType v)
  | counted (a : IncrArgs) (num : Double) : Makes L (.incr a) (.plain .tnumber num.bytes)
  | pushed {a : PushArgs} {v : Bytes} {elems : List Elem} (lnode : Nat) (h : pushValue a = .ok v)
      (helems : elems = [] ∨ ∃ e ∈ L, e.value = .list elems) :
      Makes L (.push a) (.list (insertElem a.direction ⟨lnode, a.valueType, v⟩ elems))
  | popped {direction : Direction} {key : Bytes} {bufLen : Nat} {e : Entry} {x : Elem}
      {elems elems' : List Elem} (he : e ∈ L) (hv : e.value = .list elems)
      (htake : takeElem direction elems = some (x, elems')) :
      Makes L (.pop direction key bufLen) (.list elems')

/-- The value of every entry that is left is as `P` says. -/
def Outcome.Values {α : Type} (out : Outcome α) (P : Value → Prop) : Prop :=
  ∀ e ∈ out.entries, P e.value

section Makes
variable {env : Env} {c : Choice} {L M : List Entry} {e : Entry} {call : Call} {P : Value → Prop}
  {key : Bytes}

theorem evictEntries_subset (env : Env) (rounds i : Nat) (L : List Entry) :
    evictEntries env i rounds L ⊆ L := by
  obtain ⟨gs, -, hL, -⟩ := evictEntries_rounds env rounds i L
  intro e he
  rw [hL]
  exact List.mem_append_left _ he

theorem values_cons (he : P e.value) (hM : ∀ y ∈ M, P y.value) : ∀ y ∈ e :: M, P y.value := by
  intro y hy
  rcases List.mem_cons.mp hy with rfl | hy
  · exact he
  · exact hM y hy

theorem insertEntry_values {α : Type} {sd : Option Nat} {entry : Nat → Entry} {done full : Nat → α}
    (hM : ∀ y ∈ M, P y.value) (hnew : ∀ n, P (entry n).value) :
    (insertEntry env c M sd entry done full).Values P := by
  have hleft : ∀ y ∈ evictEntries env 0 c.alloc.rounds M, P y.value := fun y hy =>
    hM y (evictEntries_subset _ _ _ _ hy)
  unfold insertEntry
  cases c.alloc.node with
  | none => exact hleft
  | some node => exact values_cons (hnew node) hleft

theorem storeReplaceEntries_values (env : Env) {a : StoreArgs} {value : Option Bytes}
    (hM : ∀ y ∈ M, P y.value) (hnew : ∀ v, value = some v → P (.plain a.valueType v)) :
    (storeReplaceEntries env a value c e M).Values P ∧
      ∀ sd, (storeInsertEntries env a value c M sd).Values P := by
  cases value with
  | none => exact ⟨hM, fun _ => hM⟩
  | some v =>
    have hinsert : ∀ sd, (storeInsertEntries env a (some v) c M sd).Values P := fun sd =>
      insertEntry_values hM fun _ => hnew v rfl
    refine ⟨?_, hinsert⟩
    unfold storeReplaceEntries
    by_cases hfit : e.fits v.length = true
    · simp only [if_pos hfit]
      exact values_cons (hnew v rfl) hM
    · simp only [if_neg hfit]
      exact hinsert _

theorem storeFoundEntries_values {op : Nat} {a : StoreArgs} {value : Option Bytes} {h : Hit}
    (hM : ∀ y ∈ M, P y.value) (hown : ∀ y, h.entry = some y → P y.value)
    (hnew : ∀ v, value = some v → P (.plain a.valueType v)) :
    (storeFoundEntries env op a value c M h).Values P := by
  unfold storeFoundEntries
  cases h with
  | absent =>
    have hinsert :=
      (storeReplaceEntries_values env (c := c) (e := ⟨0, [], 0, 0, .list []⟩) hM hnew).2
    split
    · exact hM
    · split
      · exact hinsert none
      · exact hinsert none
  | live e =>
    have hreplace := (storeReplaceEntries_values env (c := c) (e := e) hM hnew).1
    split
    · exact hreplace
    · split
      · exact values_cons (hown e rfl) hM
      · exact hreplace
  | expired e =>
    have hreplace := (storeReplaceEntries_values env (c := c) (e := e) hM hnew).1
    split
    · exact values_cons (hown e rfl) hM
    · split
      · exact hreplace
      · exact hreplace

theorem incrEntries_values {a : IncrArgs} (hM : ∀ y ∈ others c.found (afterExpire env L), P y.value)
    (hown : ∀ y, c.found = some y → P y.value)
    (hnew : ∀ num : Double, P (.plain .tnumber num.bytes)) :
    (incrEntries env a c L).Values P := by
  have hh := hit_entry (env.mpsClockTimeMs 2) c.found
  unfold incrEntries
  cases h : hit (env.mpsClockTimeMs 2) c.found with
  | absent =>
    cases a.init with
    | none => exact hM
    | some init => exact insertEntry_values hM fun _ => hnew _
  | expired e =>
    have he : c.found = some e := by rw [← hh, h]; rfl
    cases a.init with
    | none => exact values_cons (hown e he) hM
    | some init =>
      by_cases hfit : e.fits 8 = true
      · simp only [if_pos hfit]
        exact values_cons (hnew _) hM
      · simp only [if_neg hfit]
        exact insertEntry_values hM fun _ => hnew _
  | live e =>
    have he : c.found = some e := by rw [← hh, h]; rfl
    have hstay := values_cons (hown e he) hM
    simp only [incrLive]
    split
    · split
      · exact values_cons (hnew _) hM
      · exact hstay
    · exact hstay

theorem pushNodeEntries_values {a : PushArgs} {v : Bytes} {elems : List Elem}
    (hM : ∀ y ∈ M, P y.value) (hold : elems ≠ [] → P (.list elems))
    (hnew : ∀ lnode, P (.list (insertElem a.direction ⟨lnode, a.valueType, v⟩ elems))) :
    (pushNodeEntries a v c e elems M).Values P := by
  unfold pushNodeEntries
  cases c.elem with
  | none =>
    by_cases hzero : u32 elems.length = 0
    · simp only [if_pos hzero]
      exact hM
    · simp only [if_neg hzero]
      refine values_cons (hold ?_) hM
      rintro rfl
      exact hzero rfl
  | some lnode => exact values_cons (hnew lnode) hM

theorem pushEntries_values {a : PushArgs} (hL : ∀ y ∈ L, P y.value)
    (hM : ∀ y ∈ others c.found (afterExpire env L), P y.value)
    (hown : ∀ y, c.found = some y → P y.value)
    (hnew : ∀ v, pushValue a = .ok v → ∀ lnode elems,
      elems = [] ∨ (∃ y, c.found = some y ∧ y.value = .list elems) →
        P (.list (insertElem a.direction ⟨lnode, a.valueType, v⟩ elems))) :
    (pushEntries env a c L).Values P := by
  have hh := hit_entry (env.mpsClockTimeMs 2) c.found
  unfold pushEntries
  cases hval : pushValue a with
  | error msg => exact hL
  | ok v =>
    have hinit :
        ∀ sd, (initListEntries env a v c (others c.found (afterExpire env L)) sd).Values P := by
      intro sd
      unfold initListEntries
      cases c.alloc.node with
      | none => exact hM
      | some node =>
        exact pushNodeEntries_values hM (fun h => absurd rfl h) fun n => hnew v hval n [] (.inl rfl)
    simp only
    cases h : hit (env.mpsClockTimeMs 2) c.found with
    | absent => exact hinit none
    | expired e =>
      cases hv : e.value with
      | plain valueType bytes =>
        simp only [hv]
        exact hinit _
      | list elems =>
        simp only [hv]
        exact pushNodeEntries_values hM (fun h => absurd rfl h) fun n => hnew v hval n [] (.inl rfl)
    | live e =>
      have he : c.found = some e := by rw [← hh, h]; rfl
      cases hv : e.value with
      | plain valueType bytes =>
        simp only [hv]
        exact values_cons (hown e he) hM
      | list elems =>
        simp only [hv]
        exact pushNodeEntries_values hM (fun _ => hv ▸ hown e he) fun n =>
          hnew v hval n elems (.inr ⟨e, he, hv⟩)

theorem popEntries_values {direction : Direction} {bufLen : Nat}
    (hM : ∀ y ∈ others c.found (afterExpire env L), P y.value)
    (hown : ∀ y, c.found = some y → P y.value)
    (hnew : ∀ y x elems elems', c.found = some y → y.value = .list elems →
      takeElem direction elems = some (x, elems') → P (.list elems')) :
    (popEntries env direction bufLen c L).Values P := by
  have hh := hit_entry (env.mpsClockTimeMs 2) c.found
  unfold popEntries
  cases h : hit (env.mpsClockTimeMs 2) c.found with
  | absent => exact hM
  | expired e =>
    have he : c.found = some e := by rw [← hh, h]; rfl
    exact values_cons (hown e he) hM
  | live e =>
    have he : c.found = some e := by rw [← hh, h]; rfl
    have hstay := values_cons (hown e he) hM
    cases hv : e.value with
    | plain valueType bytes =>
      simp only [hv]
      exact hstay
    | list elems =>
      simp only [hv, popList]
      cases htake : takeElem direction elems with
      | none => exact hstay
      | some p =>
        obtain ⟨x, elems'⟩ := p
        simp only
        split
        · exact hstay
        · split
          · split
            · exact hM
            · exact values_cons (hnew e x elems elems' he hv htake) hM
          · exact hstay

theorem getEntries_values {bufLen : Nat} {getStale : Bool} (hL : ∀ y ∈ L, P y.value)
    (hf : ∀ y, c.found = some y → y ∈ L) : (getEntries env bufLen getStale c L).Values P := by
  have hlook : ∀ y ∈ lookupEntries c.found L, P y.value :=
    fun y hy => hL y (lookupEntries_subset hf hy)
  unfold getEntries
  cases hit (env.mpsClockTimeMs 2) c.found with
  | absent => exact hlook
  | live e => exact hlook
  | expired e =>
    cases getStale with
    | true => exact hlook
    | false => exact hlook

theorem llenEntries_values (hM : ∀ y ∈ others c.found (afterExpire env L), P y.value)
    (hown : ∀ y, c.found = some y → P y.value) : (llenEntries env c L).Values P := by
  have hh := hit_entry (env.mpsClockTimeMs 2) c.found
  unfold llenEntries
  cases h : hit (env.mpsClockTimeMs 2) c.found with
  | absent => exact hM
  | expired e =>
    have he : c.found = some e := by rw [← hh, h]; rfl
    exact values_cons (hown e he) hM
  | live e =>
    have he : c.found = some e := by rw [← hh, h]; rfl
    have hstay := values_cons (hown e he) hM
    cases hv : e.value with
    | plain valueType bytes =>
      simp only [hv]
      exact hstay
    | list elems =>
      simp only [hv]
      exact hstay

/-- **Where the values after a call come from.** There is one case for each call that
writes a value, and the others leave the values as they are. -/
theorem Call.makes {ord : Prop} (hc : call.Picks ord env L c) :
    (call.entries env c L).Values (Makes L call) := by
  have hkept : ∀ {call : Call}, ∀ y ∈ L, Makes L call y.value := fun y hy => .kept hy
  have hafter := afterExpire_subset env L
  have hrest : ∀ {call : Call}, ∀ y ∈ others c.found (afterExpire env L), Makes L call y.value :=
    fun y hy => .kept (hafter (others_subset _ _ hy))
  -- each call by where the values of its model come from
  cases call with
  | store op a =>
    have hf := (hc.finds a.key rfl).sound
    simp only [Call.entries, storeEntries]
    cases hval : storeValue op a with
    | error msg => exact hkept
    | ok value =>
      refine storeFoundEntries_values hrest ?_ ?_
      · intro y hy
        rw [hit_entry] at hy
        exact .kept (hafter (hf y hy).1)
      · intro v hv
        subst hv
        exact .stored hval
  | incr a =>
    have hf := (hc.finds a.key rfl).sound
    exact incrEntries_values hrest (fun y hy => .kept (hafter (hf y hy).1)) fun num =>
      .counted a num
  | push a =>
    have hf := (hc.finds a.key rfl).sound
    refine pushEntries_values hkept hrest (fun y hy => .kept (hafter (hf y hy).1)) ?_
    rintro v hval n elems (rfl | ⟨y, hy, hv⟩)
    · exact .pushed n hval (.inl rfl)
    · exact .pushed n hval (.inr ⟨y, hafter (hf y hy).1, hv⟩)
  | pop direction k bufLen =>
    have hf := (hc.finds k rfl).sound
    refine popEntries_values hrest (fun y hy => .kept (hafter (hf y hy).1)) ?_
    exact fun y x elems elems' hy hv htake => .popped (hafter (hf y hy).1) hv htake
  | get k bufLen getStale =>
    have hf := (hc.finds k rfl).sound
    exact getEntries_values hkept fun y hy => (hf y hy).1
  | llen k =>
    have hf := (hc.finds k rfl).sound
    exact llenEntries_values hrest fun y hy => .kept (hafter (hf y hy).1)
  | getTtl k => exact hkept
  | setExpire k exptime =>
    intro e he
    obtain ⟨y, hy, hv⟩ := setExpireEntries_value he
    exact hv ▸ .kept hy
  | flushAll =>
    intro e he
    obtain ⟨y, hy, hv⟩ := flushEntries_value he
    exact hv ▸ .kept hy

end Makes

/-! ### Types -/

/-- An element is a string, or a number with the bytes of one. Other types cannot be
pushed. -/
def Elem.Typed (x : Elem) : Prop :=
  x.valueType = .tstring ∨ x.valueType = .tnumber ∧ x.bytes.length = sizeofDouble

/-- A value has the size that goes with its type: eight bytes for a number, one for a
boolean, any for a string, and each element of a list its own. -/
def Value.Typed : Value → Prop
  | .plain valueType bytes =>
    valueType = .tstring ∨ valueType = .tnumber ∧ bytes.length = sizeofDouble ∨
      valueType = .tboolean ∧ bytes.length = 1
  | .list elems => ∀ x ∈ elems, x.Typed

section Typed
variable {s : Nat} {ord : Prop} {d : Shdict} {L : List Entry} {spare : List Block}
  {env : Env} {call : Call}
  {v : Value} {x : Elem} {e : Entry} {elems elems' : List Elem} {xs : List Event}

/-- A store gives a value the size of its type. -/
theorem storeValue_typed {op : Nat} {a : StoreArgs} {bytes : Bytes}
    (h : storeValue op a = .ok (some bytes)) :
    (Value.plain a.valueType bytes).Typed := by
  unfold storeValue at h
  cases hty : a.valueType with
  | tstring => exact .inl rfl
  | tnumber =>
    rw [hty] at h
    obtain rfl := Option.some.inj (Except.ok.inj h)
    exact .inr (.inl ⟨rfl, a.numValue.size⟩)
  | tboolean =>
    rw [hty] at h
    obtain rfl := Option.some.inj (Except.ok.inj h)
    exact .inr (.inr ⟨rfl, rfl⟩)
  | tnil =>
    rw [hty] at h
    dsimp only at h
    split at h
    · cases h
    · cases h
  | tlist =>
    rw [hty] at h
    cases h
  | unknown code =>
    rw [hty] at h
    cases h

/-- A push gives its element the size of its type, and refuses the types that an element
cannot have. -/
theorem pushValue_typed {a : PushArgs} {bytes : Bytes} (h : pushValue a = .ok bytes) (lnode : Nat) :
    (⟨lnode, a.valueType, bytes⟩ : Elem).Typed := by
  unfold pushValue at h
  cases hty : a.valueType with
  | tstring => exact .inl rfl
  | tnumber =>
    rw [hty] at h
    obtain rfl := Except.ok.inj h
    exact .inr ⟨rfl, a.numValue.size⟩
  | tboolean | tnil | tlist | unknown code =>
    rw [hty] at h
    cases h

theorem takeElem_subset {direction : Direction} (h : takeElem direction elems = some (x, elems')) :
    x ∈ elems ∧ elems' ⊆ elems := by
  cases direction with
  | left =>
    obtain ⟨y, hy, he⟩ := Option.map_eq_some_iff.mp h
    obtain ⟨rfl, rfl⟩ := Prod.mk.inj he
    exact ⟨List.mem_of_mem_head? hy, fun _ => List.mem_of_mem_tail⟩
  | right =>
    obtain ⟨y, hy, he⟩ := Option.map_eq_some_iff.mp h
    obtain ⟨rfl, rfl⟩ := Prod.mk.inj he
    exact ⟨List.mem_of_getLast? hy, List.dropLast_subset _⟩

/-- **One call keeps types and sizes together.** The cases are those of where a value
comes from. -/
theorem Makes.typed (h : Makes L call v) (hL : ∀ e ∈ L, e.value.Typed) : v.Typed := by
  cases h with
  | kept he => exact hL _ he
  | stored h => exact storeValue_typed h
  | counted a num => exact .inr (.inl ⟨rfl, num.size⟩)
  | pushed lnode h helems =>
    intro x hx
    rcases List.mem_cons.mp ((insertElem_perm _ _ _).mem_iff.mp hx) with rfl | hx
    · exact pushValue_typed h lnode
    · rcases helems with rfl | ⟨e, he, hv⟩
      · cases hx
      · have hlist := hL e he
        rw [hv] at hlist
        exact hlist x hx
  | popped he hv htake =>
    have hlist := hL _ he
    rw [hv] at hlist
    exact fun x hx => hlist x ((takeElem_subset htake).2 hx)

/-- **What every call keeps true of the values is true of them in every run.** The
induction on the run is made once here, for any property of values. -/
theorem Run.values {P : Value → Prop} (hs : 12 ≤ s) (hs' : s ≤ 16)
    (hP : ∀ (call : Call) L v, call.Ok → Makes L call v → (∀ e ∈ L, P e.value) → P v)
    (run : Run s xs d) :
    ∀ e ∈ d.entries, P e.value := by
  have h : ∃ L spare, Rep (mpsSlabSizesInit (2 ^ s)) s False d L spare ∧ ∀ e ∈ L, P e.value := by
    induction run with
    | init h => exact ⟨[], [], h.rep hs hs', by simp⟩
    | call run hx ih =>
      obtain ⟨L, spare, hrep, hL⟩ := ih
      obtain ⟨c, hc, hrep', -⟩ := hx.entries hrep False.elim
      exact ⟨_, _, hrep', fun e he => hP _ _ _ hx.2.1 (Call.makes hc e he) hL⟩
  obtain ⟨L, spare, hrep, hL⟩ := h
  rwa [hrep.entries_eq]

/-- Types and sizes go together in every run. -/
theorem Run.typed (hs : 12 ≤ s) (hs' : s ≤ 16) (run : Run s xs d) :
    ∀ e ∈ d.entries, e.value.Typed :=
  run.values hs hs' fun _ _ _ _ hm hL => hm.typed hL

/-! ### What reads find -/

/-- The type and the length of the entry at `node` agree, as they are in the fields of the
chunk. A list has at least one element, and each of them is a string or a number of the
right size. -/
def Shdict.TypedAt (d : Shdict) (node : Nat) : Prop :=
  match (d.sd node).valueType with
  | .tboolean => (d.sd node).valueLen = 1
  | .tnumber => (d.sd node).valueLen = sizeofDouble
  | .tstring => True
  | .tlist => 1 ≤ (d.sd node).valueLen ∧ ∃ cells, cells ≠ [] ∧
      IsQueue d.queue (mpsShdictGetListHead 0 node (d.sd node).keyLen) cells ∧
      ∀ c ∈ cells, (d.lnode c).valueType = .tstring ∨
        (d.lnode c).valueType = .tnumber ∧ (d.lnode c).valueLen = sizeofDouble
  | .tnil | .unknown _ => False

/-- What `mps_shdict_get` fails with, the buffer having room for `bufLen` bytes, if types
and lengths agree: the value is a list, the buffer is too short for a boolean, or there is
no memory for a longer string. -/
inductive GetFails (env : Env) (bufLen : Nat) : GetResult → Prop where
  | list : GetFails env bufLen (.plain ngxError (some .tlist) (some "value is a list"))
  | short (h : bufLen < 1) : GetFails env bufLen (.plain ngxError (some .tboolean) none)
  | malloc (h : env.malloc = false) : GetFails env bufLen (.plain ngxError (some .tstring) none)

/-- The errors of `mps_shdict_pop_helper` about lists that are not as they should be. -/
def badList : List String :=
  ["bad empty value", "bad list number value size", "bad list node value type"]

/-- **Types and lengths agree** in the pool, and no read meets any that do not. A get
fails for no reason but those of `GetFails`, and a pop with none of the errors about bad
lists. -/
structure TypesAgree (s : Nat) (d : Shdict) : Prop where
  entries : ∃ nodes : List Nat, IsQueue d.queue d.lruQueue (nodes.map sdQueue) ∧
    ∀ x ∈ nodes, d.TypedAt x
  get : ∀ env key bufLen getStale d' sd r,
    mpsShdictGet env key bufLen getStale d = some (d', sd, r) →
    r.rc = ngxError → GetFails env bufLen r
  pop : ∀ base env direction key bufLen d' sd r, 2 ^ s ∣ base →
    mpsShdictPopHelper (mpsSlabSizesInit (2 ^ s)) base env direction key bufLen d =
      some (d', sd, r) →
    ∀ msg ∈ badList, r.err ≠ some msg

/-- The fields of an entry are as they should be, if its value has the size of its type
and a list is counted right. -/
theorem EntryOk.typedAt (h : EntryOk d e) (ht : e.value.Typed)
    (hcount : ∀ elems, e.value = .list elems → elems ≠ [] ∧ elems.length < 2 ^ 32) :
    d.TypedAt e.off := by
  have hval := h.value
  unfold ValueOk at hval
  unfold Shdict.TypedAt
  cases hv : e.value with
  | plain valueType bytes =>
    rw [hv] at hval ht
    obtain ⟨hty, -, hlen, -⟩ := hval
    rcases ht with rfl | ⟨rfl, hsize⟩ | ⟨rfl, hsize⟩
    · simp only [hty]
    · simp only [hty, hlen, hsize]
    · simp only [hty, hlen, hsize]
  | list elems =>
    rw [hv] at hval ht
    obtain ⟨hne, hlt⟩ := hcount elems hv
    obtain ⟨hty, hlen, hq, helems⟩ := hval
    have hpos : 0 < elems.length := List.length_pos_iff.mpr hne
    simp only [hty]
    refine ⟨?_, elems.map Elem.off, by simpa using hne, ?_, ?_⟩
    · rw [hlen, u32_of_lt hlt]
      exact hpos
    · rw [h.keyLen]
      exact hq
    · intro c hc
      obtain ⟨x, hx, rfl⟩ := List.mem_map.mp hc
      have hok := helems x hx
      rw [hok.valueType, hok.valueLen]
      exact ht x hx

/-- What a read of a value fails with. -/
theorem Value.Typed.getFails (ht : v.Typed) {userFlags bufLen : Nat} {getStale stale : Bool}
    (h : (valueResult env v userFlags bufLen getStale stale).rc = ngxError) :
    GetFails env bufLen (valueResult env v userFlags bufLen getStale stale) := by
  cases v with
  | list elems => exact .list
  | plain valueType bytes =>
    unfold valueResult at h ⊢
    dsimp only at h ⊢
    rcases ht with rfl | ⟨rfl, hsize⟩ | ⟨rfl, hsize⟩
    · by_cases hshort : bufLen < bytes.length ∧ (ValueType.tstring = .tboolean ∨
          ValueType.tstring = .tstring ∧ ¬ env.malloc)
      · rw [if_pos hshort]
        exact .malloc (by simpa using hshort.2)
      · rw [if_neg hshort] at h
        cases h
    · rw [if_neg (by simp)] at h
      simp only [dif_pos (show bytes.length = 8 from hsize)] at h
      cases h
    · by_cases hshort : bufLen < bytes.length ∧ (ValueType.tboolean = .tboolean ∨
          ValueType.tboolean = .tstring ∧ ¬ env.malloc)
      · rw [if_pos hshort]
        exact .short (hsize ▸ hshort.1)
      · rw [if_neg hshort] at h
        simp only [if_neg (not_not.mpr hsize)] at h
        cases h

/-- What a read of an element fails with: there is no memory for a longer string, or
nothing. -/
theorem Elem.Typed.elemResult_err (ht : x.Typed) (bufLen : Nat) :
    (elemResult env x bufLen).1.err = none ∨
    (elemResult env x bufLen).1.err = some "no memory" := by
  unfold elemResult
  rcases ht with hty | ⟨hty, hsize⟩
  · rw [hty]
    dsimp only
    split
    · exact .inr rfl
    · exact .inl rfl
  · rw [hty]
    dsimp only
    rw [dif_pos (show x.bytes.length = 8 from hsize)]
    exact .inl rfl

/-- What a pop does not fail with. -/
theorem popEntries_err {direction : Direction} {key : Bytes} {bufLen : Nat} {c : Choice}
    (ht : ∀ e ∈ L, e.value.Typed) (hcount : Counted L)
    (hf : ∀ e, c.found = some e → e ∈ afterExpire env L ∧ e.key = key) :
    ∀ msg ∈ badList, (popEntries env direction bufLen c L).result.err ≠ some msg := by
  have hh := hit_entry (env.mpsClockTimeMs 2) c.found
  have hnone : ∀ msg ∈ badList, (none : Option String) ≠ some msg := fun _ _ h => by cases h
  have hplain : ∀ msg ∈ badList, some "value not a list" ≠ some msg := by decide
  have hfull : ∀ msg ∈ badList, some "no memory" ≠ some msg := by decide
  unfold popEntries
  cases h : hit (env.mpsClockTimeMs 2) c.found with
  | absent => exact hnone
  | expired e => exact hnone
  | live e =>
    have he : c.found = some e := by rw [← hh, h]; rfl
    have hm := afterExpire_subset env L (hf e he).1
    cases hv : e.value with
    | plain valueType bytes =>
      simp only [hv]
      exact hplain
    | list elems =>
      have hlist := ht e hm
      obtain ⟨hne, hlt⟩ := hcount e hm elems hv
      rw [hv] at hlist
      simp only [hv, popList]
      cases htake : takeElem direction elems with
      | none =>
        cases direction with
        | left => exact absurd (List.head?_eq_none_iff.mp (Option.map_eq_none_iff.mp htake)) hne
        | right => exact absurd (List.getLast?_eq_none_iff.mp (Option.map_eq_none_iff.mp htake)) hne
      | some p =>
        obtain ⟨x, elems'⟩ := p
        have hresult : ∀ msg ∈ badList, (elemResult env x bufLen).1.err ≠ some msg := by
          rcases (hlist x (takeElem_subset htake).1).elemResult_err bufLen with herr | herr
          · exact herr ▸ hnone
          · exact herr ▸ hfull
        simp only
        rw [if_neg fun hzero => hne ((u32_eq_zero_iff hlt).mp hzero)]
        split
        · split
          · exact hresult
          · exact hresult
        · exact hresult

/-- Types and lengths agree where the lists are counted right. The fields come from the
representation, the answers from the calls on the entries. -/
theorem Rep.typesAgree (h : Rep (mpsSlabSizesInit (2 ^ s)) s ord d L spare)
    (ht : ∀ e ∈ L, e.value.Typed) (hcount : Counted L) : TypesAgree s d := by
  refine ⟨⟨L.map Entry.off, h.shape.hung.lru, ?_⟩, ?_, ?_⟩
  · intro x hx
    obtain ⟨e, he, rfl⟩ := List.mem_map.mp hx
    exact (h.shape.entries e he).typedAt (ht e he) (hcount e he)
  · intro env key bufLen getStale d' sd r hrun herr
    obtain ⟨c, hf, -, d₁, hget, -⟩ := mpsShdictGet_spec env key bufLen getStale h
    have hr := Option.some.inj ((hget 0 (Nat.dvd_zero _)).symm.trans hrun)
    simp only [Prod.mk.injEq] at hr
    obtain ⟨-, -, rfl⟩ := hr
    have hh := hit_entry (env.mpsClockTimeMs 2) c.found
    unfold getEntries at herr ⊢
    cases hhit : hit (env.mpsClockTimeMs 2) c.found with
    | absent =>
      rw [hhit] at herr
      cases herr
    | live e =>
      have he : c.found = some e := by rw [← hh, hhit]; rfl
      rw [hhit] at herr
      exact (ht e (hf.sound e he).1).getFails herr
    | expired e =>
      have he : c.found = some e := by rw [← hh, hhit]; rfl
      rw [hhit] at herr
      cases getStale with
      | true => exact (ht e (hf.sound e he).1).getFails herr
      | false => cases herr
  · intro base env direction key bufLen d' sd r hbase hrun
    obtain ⟨c, hway, -, d₁, hpop, -⟩ := mpsShdictPopHelper_spec env direction key bufLen h
    have hr := Option.some.inj ((hpop base hbase).symm.trans hrun)
    simp only [Prod.mk.injEq] at hr
    obtain ⟨-, -, rfl⟩ := hr
    exact popEntries_err ht hcount hway.finds.sound

/-- **Types and lengths agree in every state** of a run in which no push gets to a list of
`2 ^ 32 - 1` elements. -/
theorem types_agree (hs : 12 ≤ s) (hs' : s ≤ 16)
    (run : RunWith s (fun x L => x.call.Counts x.env L) xs d) : TypesAgree s d := by
  obtain ⟨hrep, hL⟩ : Rep (mpsSlabSizesInit (2 ^ s)) s False d d.entries [] ∧ Counted d.entries :=
    RunWith.tidy False hs hs' (run.mono fun _ _ h => ⟨False.elim, h⟩)
  exact hrep.typesAgree (run.run.typed hs hs') hL

end Typed

/-- A boolean, and a list of a number and a string. All three types of values are read
without an error about their size. -/
theorem types_agree_mixedDict : TypesAgree 12 mixedDict :=
  types_agree (by decide) (by decide) (.call (.call (.call (.init fresh_emptyDict)
    booleanStore_runs trivial) numberPush_runs numberPush_counts)
    stringPush_runs stringPush_counts)

end MpsShdict
