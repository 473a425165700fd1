import MpsShdict.ShdictRecency

/-! # Lists that are counted right

The length of a list is a field of 32 bits. As long as no list gets longer than that no
list is empty, and no call loses track of an element.

At `2 ^ 32` elements the field turns to zero. A push then takes the list for a fresh one
and starts its queue anew, and a pop fails to see that there is anything left; what was in
the list stays allocated for good. `Call.Counts` is the condition under which that does
not happen. It is on the list that a push finds, not on what the push makes of it.
-/
namespace MpsShdict

open Words

/-- Every list has elements, no more of them than its length field can count. A list that
has lost its last element is removed with its entry, so none is empty. -/
def Counted (L : List Entry) : Prop :=
  ∀ e ∈ L, ∀ xs, e.value = .list xs → xs ≠ [] ∧ xs.length < 2 ^ 32

/-- A push does not get to a list of `2 ^ 32 - 1` elements. A list that has expired does
not count, since the push empties it first. -/
def Call.Counts (env : Env) (L : List Entry) : Call → Prop
  | .push a => ∀ e ∈ L, e.key = a.key → lookupExpired e.expires (env.mpsClockTimeMs 2) = false →
      e.value.elems.length + 1 < 2 ^ 32
  | _ => True

section Counted
variable {s : Nat} {ord : Prop} {d d' : Shdict} {L M : List Entry} {env : Env}
  {c : Choice} {call : Call} {e : Entry} {xs elems elems' : List Elem} {x : Elem} {key : Bytes}

theorem Counted.mono (h : Counted L) (hM : M ⊆ L) : Counted M := fun e he => h e (hM he)

theorem Counted.cons (h : Counted L)
    (he : ∀ xs, e.value = .list xs → xs ≠ [] ∧ xs.length < 2 ^ 32) :
    Counted (e :: L) := by
  intro y hy
  rcases List.mem_cons.mp hy with rfl | hy
  · exact he
  · exact h y hy

theorem u32_eq_zero_iff (h : elems.length < 2 ^ 32) : u32 elems.length = 0 ↔ elems = [] := by
  rw [u32_of_lt h, List.length_eq_zero_iff]

theorem takeElem_length {direction : Direction} (h : takeElem direction elems = some (x, elems')) :
    elems.length = elems'.length + 1 := by
  cases direction with
  | left =>
    obtain ⟨y, hy, he⟩ := Option.map_eq_some_iff.mp h
    obtain ⟨-, rfl⟩ := Prod.mk.inj he
    cases elems with
    | nil => cases hy
    | cons z zs => simp
  | right =>
    obtain ⟨y, hy, he⟩ := Option.map_eq_some_iff.mp h
    obtain ⟨-, rfl⟩ := Prod.mk.inj he
    rcases List.eq_nil_or_concat' elems with rfl | ⟨zs, z, rfl⟩
    · cases hy
    · simp

/-- The entries that a call leaves are counted right, and it does not lose track of any
block. -/
def Outcome.Tidy {α : Type} (out : Outcome α) : Prop := Counted out.entries ∧ out.leaked = []

theorem pushNodeEntries_tidy {a : PushArgs} {v : Bytes} (hL : Counted L)
    (hlt : elems.length + 1 < 2 ^ 32) :
    (pushNodeEntries a v c e elems L).Tidy := by
  have hzero : u32 elems.length = 0 ↔ elems = [] := u32_eq_zero_iff (by omega)
  unfold pushNodeEntries
  cases c.elem with
  | none =>
    by_cases hnil : elems = []
    · simp only [if_pos (hzero.mpr hnil)]
      exact ⟨hL, by simp [hnil]⟩
    · simp only [if_neg fun h => hnil (hzero.mp h)]
      refine ⟨hL.cons ?_, rfl⟩
      intro xs hxs
      obtain rfl := Value.list.inj hxs
      exact ⟨hnil, by omega⟩
  | some lnode =>
    refine ⟨hL.cons ?_, rfl⟩
    intro xs hxs
    obtain rfl := Value.list.inj hxs
    have hlen := (insertElem_perm a.direction ⟨lnode, a.valueType, v⟩ elems).length_eq
    rw [List.length_cons] at hlen
    refine ⟨?_, by omega⟩
    intro hnil
    rw [hnil] at hlen
    cases hlen

theorem initListEntries_tidy {a : PushArgs} {v : Bytes} {sd : Option Nat} (hL : Counted L) :
    (initListEntries env a v c L sd).Tidy := by
  unfold initListEntries
  cases c.alloc.node with
  | none => exact ⟨hL, rfl⟩
  | some node => exact pushNodeEntries_tidy hL (by simp)

/-- A push keeps the lists counted. -/
theorem pushEntries_tidy {a : PushArgs} (hL : Counted L) (hcounts : (Call.push a).Counts env L)
    (hf : ∀ e, c.found = some e → e ∈ afterExpire env L ∧ e.key = a.key) :
    (pushEntries env a c L).Tidy := by
  have hsub := afterExpire_subset env L
  have hrest : Counted (others c.found (afterExpire env L)) :=
    (hL.mono hsub).mono (others_subset _ _)
  have hh := hit_entry (env.mpsClockTimeMs 2) c.found
  unfold pushEntries
  cases pushValue a with
  | error msg => exact ⟨hL, rfl⟩
  | ok v =>
    simp only
    cases h : hit (env.mpsClockTimeMs 2) c.found with
    | absent => exact initListEntries_tidy hrest
    | expired e =>
      cases hv : e.value with
      | plain valueType bytes =>
        simp only [hv]
        exact initListEntries_tidy hrest
      | list elems =>
        simp only [hv]
        exact pushNodeEntries_tidy hrest (by simp)
    | live e =>
      have he : c.found = some e := by rw [← hh, h]; rfl
      obtain ⟨hm, hk⟩ := hf e he
      cases hv : e.value with
      | plain valueType bytes =>
        simp only [hv]
        exact ⟨hrest.cons fun xs hxs => by simp [hv] at hxs, rfl⟩
      | list elems =>
        simp only [hv]
        have hlive : lookupExpired e.expires (env.mpsClockTimeMs 2) = false := by
          rw [he, hit] at h
          split at h
          · cases h
          · next hne => exact Bool.not_eq_true _ ▸ hne
        have hlen := hcounts e (hsub hm) hk hlive
        rw [hv] at hlen
        exact pushNodeEntries_tidy hrest hlen

theorem popList_tidy {direction : Direction} {bufLen : Nat} (hL : Counted L)
    (he : e.value = .list elems) (hne : elems ≠ []) (hlt : elems.length < 2 ^ 32) :
    (popList env direction bufLen e elems L).Tidy := by
  have hstay : Counted (e :: L) := hL.cons fun xs hxs => by
    obtain rfl := Value.list.inj (he.symm.trans hxs)
    exact ⟨hne, hlt⟩
  unfold popList
  cases htake : takeElem direction elems with
  | none => exact ⟨hstay, rfl⟩
  | some p =>
    obtain ⟨x, elems'⟩ := p
    have hlen := takeElem_length htake
    simp only
    rw [if_neg fun h => hne ((u32_eq_zero_iff hlt).mp h)]
    by_cases hpop : (elemResult env x bufLen).2 = true
    · simp only [if_pos hpop]
      rw [u32_of_lt hlt]
      by_cases hone : elems.length = 1
      · rw [if_pos hone]
        have hnil : elems' = [] := List.length_eq_zero_iff.mp (by omega)
        exact ⟨hL, by simp [hnil]⟩
      · rw [if_neg hone]
        refine ⟨hL.cons ?_, rfl⟩
        intro xs hxs
        obtain rfl := Value.list.inj hxs
        refine ⟨fun hnil => hone ?_, by omega⟩
        rw [hlen, hnil]
        rfl
    · simp only [if_neg hpop]
      exact ⟨hstay, rfl⟩

/-- A pop keeps the lists counted. -/
theorem popEntries_tidy {direction : Direction} {bufLen : Nat} (hL : Counted L)
    (hf : ∀ e, c.found = some e → e ∈ afterExpire env L ∧ e.key = key) :
    (popEntries env direction bufLen c L).Tidy := by
  have hafter := hL.mono (afterExpire_subset env L)
  have hrest : Counted (others c.found (afterExpire env L)) := hafter.mono (others_subset _ _)
  have hh := hit_entry (env.mpsClockTimeMs 2) c.found
  unfold popEntries
  cases h : hit (env.mpsClockTimeMs 2) c.found with
  | absent => exact ⟨hrest, rfl⟩
  | expired e =>
    have he : c.found = some e := by rw [← hh, h]; rfl
    exact ⟨hrest.cons (hafter e (hf e he).1), rfl⟩
  | live e =>
    have he : c.found = some e := by rw [← hh, h]; rfl
    have hcount := hafter e (hf e he).1
    cases hv : e.value with
    | plain valueType bytes =>
      simp only [hv]
      exact ⟨hrest.cons hcount, rfl⟩
    | list elems =>
      simp only [hv]
      obtain ⟨hne, hlt⟩ := hcount elems hv
      exact popList_tidy hrest hv hne hlt

/-! ### Calls that make no lists -/

theorem insertEntry_leaked {α : Type} (env : Env) (c : Choice) (L : List Entry) (sd : Option Nat)
    (entry : Nat → Entry) (done full : Nat → α) :
    (insertEntry env c L sd entry done full).leaked = [] := by
  unfold insertEntry
  cases c.alloc.node with
  | none => rfl
  | some node => rfl

theorem storeInsertEntries_leaked (env : Env) (a : StoreArgs) (value : Option Bytes) (c : Choice)
    (L : List Entry) (sd : Option Nat) : (storeInsertEntries env a value c L sd).leaked = [] := by
  cases value with
  | none => rfl
  | some v => exact insertEntry_leaked _ _ _ _ _ _ _

theorem storeReplaceEntries_leaked (env : Env) (a : StoreArgs) (value : Option Bytes)
    (c : Choice) (e : Entry) (L : List Entry) :
    (storeReplaceEntries env a value c e L).leaked = [] := by
  unfold storeReplaceEntries
  cases value with
  | none => exact storeInsertEntries_leaked _ _ _ _ _ _
  | some v =>
    by_cases hfit : e.fits v.length = true
    · simp only [if_pos hfit]
    · simp only [if_neg hfit]
      exact storeInsertEntries_leaked _ _ _ _ _ _

theorem storeEntries_leaked (env : Env) (op : Nat) (a : StoreArgs) (c : Choice) (L : List Entry) :
    (storeEntries env op a c L).leaked = [] := by
  unfold storeEntries
  cases storeValue op a with
  | error msg => rfl
  | ok value =>
    simp only [storeFoundEntries]
    cases hit (env.mpsClockTimeMs 2) c.found with
    | absent =>
      split
      · rfl
      · simp only [storeInsertEntries_leaked, ite_self]
    | live e =>
      split
      · exact storeReplaceEntries_leaked _ _ _ _ _ _
      · split
        · rfl
        · exact storeReplaceEntries_leaked _ _ _ _ _ _
    | expired e =>
      split
      · rfl
      · simp only [storeReplaceEntries_leaked, ite_self]

theorem incrEntries_leaked (env : Env) (a : IncrArgs) (c : Choice) (L : List Entry) :
    (incrEntries env a c L).leaked = [] := by
  unfold incrEntries
  cases hit (env.mpsClockTimeMs 2) c.found with
  | absent =>
    cases a.init with
    | none => rfl
    | some init => exact insertEntry_leaked _ _ _ _ _ _ _
  | expired e =>
    cases a.init with
    | none => rfl
    | some init =>
      by_cases hfit : e.fits 8 = true
      · simp only [if_pos hfit]
      · simp only [if_neg hfit]
        exact insertEntry_leaked _ _ _ _ _ _ _
  | live e =>
    simp only [incrLive]
    split
    · split
      · rfl
      · rfl
    · rfl

theorem getEntries_leaked (env : Env) (bufLen : Nat) (getStale : Bool)
    (c : Choice) (L : List Entry) :
    (getEntries env bufLen getStale c L).leaked = [] := by
  unfold getEntries
  cases hit (env.mpsClockTimeMs 2) c.found with
  | absent => rfl
  | live e => rfl
  | expired e =>
    cases getStale with
    | true => rfl
    | false => rfl

theorem llenEntries_leaked (env : Env) (c : Choice) (L : List Entry) :
    (llenEntries env c L).leaked = [] := by
  unfold llenEntries
  cases hit (env.mpsClockTimeMs 2) c.found with
  | absent => rfl
  | expired e => rfl
  | live e =>
    cases hv : e.value with
    | plain valueType bytes => simp only [hv]
    | list elems => simp only [hv]

theorem setExpireEntries_leaked (env : Env) (exptime : Int) (c : Choice) (L : List Entry) :
    (setExpireEntries env exptime c L).leaked = [] := by
  unfold setExpireEntries
  cases c.found with
  | none => rfl
  | some e => rfl

/-- A deadline that is set leaves the values alone. -/
theorem setExpireEntries_value {exptime : Int}
    (he : e ∈ (setExpireEntries env exptime c L).entries) :
    ∃ y ∈ L, y.value = e.value := by
  unfold setExpireEntries at he
  split at he
  · exact ⟨e, he, rfl⟩
  · obtain ⟨y, hy, rfl⟩ := List.mem_map.mp he
    refine ⟨y, hy, ?_⟩
    split
    · rfl
    · rfl

/-- A flush leaves the values alone. -/
theorem flushEntries_value (he : e ∈ (flushEntries env L).entries) :
    ∃ y ∈ L, y.value = e.value := by
  obtain ⟨g, hM, -⟩ := flushEntries_split env L
  have hm : e ∈ L.map Call.flushAll.marks := hM ▸ List.mem_append_left _ he
  obtain ⟨y, hy, rfl⟩ := List.mem_map.mp hm
  exact ⟨y, hy, rfl⟩

/-- Lists stay counted where values are kept. -/
theorem Counted.of_values (hL : Counted L)
    (h : ∀ e ∈ M, ∀ xs, e.value = .list xs → ∃ y ∈ L, y.value = .list xs) : Counted M := by
  intro e he xs hxs
  obtain ⟨y, hy, hyv⟩ := h e he xs hxs
  exact hL y hy xs hyv

/-- A call that takes nothing to or from a list keeps the lists counted. Each list that it
leaves was there before. -/
theorem Affects.counted {exptime : Int} {sd : Option Nat} {rounds : Nat} (hL : Counted L)
    (h : Affects env key exptime sd rounds false L M) : Counted M := by
  refine hL.of_values ?_
  intro e he xs hxs
  rcases h.origin he with he | ⟨-, -, found, hf, hw⟩
  · exact ⟨e, he, hxs⟩
  · obtain ⟨y, hy, -, hyv⟩ := hw.elems rfl xs hxs
    exact ⟨y, (hf y hy).1, hyv⟩

/-- **One call keeps the lists counted** and loses track of no block. Pushes and pops are
looked at one by one, the others only move lists as they are or remove them. -/
theorem Call.tidy (hL : Counted L) (hc : call.Picks ord env L c) (hcounts : call.Counts env L) :
    (call.entries env c L).Tidy := by
  cases call with
  | push a => exact pushEntries_tidy hL hcounts (hc.finds a.key rfl).sound
  | pop direction k bufLen => exact popEntries_tidy hL (hc.finds k rfl).sound
  | store op a => exact ⟨(Call.affects rfl (by simp) hc).counted hL, storeEntries_leaked _ _ _ _ _⟩
  | get k bufLen getStale =>
    exact ⟨(Call.affects rfl (by simp) hc).counted hL, getEntries_leaked _ _ _ _ _⟩
  | incr a => exact ⟨(Call.affects rfl (by simp) hc).counted hL, incrEntries_leaked _ _ _ _⟩
  | llen k => exact ⟨(Call.affects rfl (by simp) hc).counted hL, llenEntries_leaked _ _ _⟩
  | getTtl k => exact ⟨hL, rfl⟩
  | setExpire k exptime =>
    refine ⟨hL.of_values ?_, setExpireEntries_leaked _ _ _ _⟩
    intro e he xs hxs
    obtain ⟨y, hy, hv⟩ := setExpireEntries_value he
    exact ⟨y, hy, hv.trans hxs⟩
  | flushAll =>
    refine ⟨hL.of_values ?_, rfl⟩
    intro e he xs hxs
    obtain ⟨y, hy, hv⟩ := flushEntries_value he
    exact ⟨y, hy, hv.trans hxs⟩

/-- **A run in which no push gets to a list of `2 ^ 32 - 1` elements** loses track of no
block. With `ord` the tree is in order as well, if the counters see to it; with `False`
for it no condition on counters is needed. -/
theorem RunWith.tidy (ord : Prop) {s : Nat} {d : Shdict} {xs : List Event}
    (hs : 12 ≤ s) (hs' : s ≤ 16)
    (run : RunWith s (fun x L => (ord → x.call.Safe x.env L) ∧ x.call.Counts x.env L) xs d) :
    Rep (mpsSlabSizesInit (2 ^ s)) s ord d d.entries [] ∧ Counted d.entries := by
  have h : ∃ L, Rep (mpsSlabSizesInit (2 ^ s)) s ord d L [] ∧ Counted L := by
    induction run with
    | init h => exact ⟨[], h.rep hs hs', by simp [Counted]⟩
    | call run hx hG ih =>
      obtain ⟨L, hrep, hL⟩ := ih
      rw [hrep.entries_eq] at hG
      obtain ⟨c, hc, hrep', -⟩ := hx.entries hrep hG.1
      obtain ⟨hcounted, hleaked⟩ := Call.tidy hL hc hG.2
      rw [hleaked] at hrep'
      exact ⟨_, hrep', hcounted⟩
  obtain ⟨L, hrep, hL⟩ := h
  rw [hrep.entries_eq]
  exact ⟨hrep, hL⟩

end Counted

/-! ### A run with values of all types -/

/-- The boolean `true` is stored under "E". -/
def booleanStore : Event :=
  ⟨0, calmEnv 5, .set ⟨[69], .tboolean, none, Double.ofInt 1, 0, 0⟩, some 4224,
    .store ⟨ngxOk, none, 0⟩⟩

/-- The number 7 is pushed to "D". -/
def numberPush : Event :=
  ⟨0, calmEnv 6, .push ⟨.right, [68], .tnumber, [], Double.ofInt 7⟩, some 4352,
    .list ⟨.valueLen 4352, none, 1⟩⟩

/-- The string "F" is pushed to the other end. -/
def stringPush : Event :=
  ⟨0, calmEnv 7, .push ⟨.left, [68], .tstring, [70], Double.zero⟩, some 4352,
    .list ⟨.valueLen 4352, none, 2⟩⟩

/-- The string is popped. -/
def stringPop : Event :=
  ⟨0, calmEnv 8, .pop .left [68] 10, some 4352,
    .get ⟨ngxOk, some .tstring, some [70], some 1, none, none, none, none⟩⟩

/-- The boolean is deleted. -/
def booleanDelete : Event :=
  ⟨0, calmEnv 9, .delete [69], some 4224, .store ⟨ngxOk, none, 0⟩⟩

/-- What is stored after the first event, the second, and so on. -/
def booleanDict : Shdict := booleanStore.after 12 emptyDict
def numberDict : Shdict := numberPush.after 12 booleanDict
def mixedDict : Shdict := stringPush.after 12 numberDict
def poppedDict : Shdict := stringPop.after 12 mixedDict
def deletedDict : Shdict := booleanDelete.after 12 poppedDict

theorem booleanStore_runs : booleanStore.Runs 12 emptyDict booleanDict :=
  Event.runs_after (by decide) ⟨⟨⟨by decide, by decide⟩, nofun⟩, by decide⟩ (by decide +kernel)

theorem numberPush_runs : numberPush.Runs 12 booleanDict numberDict :=
  Event.runs_after (by decide) ⟨⟨by decide, by decide⟩, by decide⟩ (by decide +kernel)

theorem stringPush_runs : stringPush.Runs 12 numberDict mixedDict :=
  Event.runs_after (by decide) ⟨⟨by decide, by decide⟩, by decide⟩ (by decide +kernel)

theorem stringPop_runs : stringPop.Runs 12 mixedDict poppedDict :=
  Event.runs_after (by decide) ⟨by decide, by decide⟩ (by decide +kernel)

theorem booleanDelete_runs : booleanDelete.Runs 12 poppedDict deletedDict :=
  Event.runs_after (by decide) ⟨⟨⟨by decide, by decide⟩, nofun⟩, by decide⟩ (by decide +kernel)

theorem numberPush_counts : numberPush.call.Counts numberPush.env booleanDict.entries := by
  have hshort : ∀ e ∈ booleanDict.entries, e.value.elems.length < 3 := by decide +kernel
  intro e he _ _
  have hlt := hshort e he
  omega

theorem stringPush_counts : stringPush.call.Counts stringPush.env numberDict.entries := by
  have hshort : ∀ e ∈ numberDict.entries, e.value.elems.length < 3 := by decide +kernel
  intro e he _ _
  have hlt := hshort e he
  omega

end MpsShdict
