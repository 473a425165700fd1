import MpsShdict.ShdictExpiry
import MpsShdict.ShdictIncr

/-! # Calls that fail

A caller that is told of an error expects to find what it had.  Most calls see to that:
they ask for the chunk first and change the entry afterwards, or they refuse before they
have touched anything.  A store does not, where the new value has another size than the old
one.  It gives the old entry back to the allocator before it asks for the new chunk, and
if there is none the old value is lost.  That holds of `mps_shdict_safe_set`, too, which is
said never to override an unexpired value.  This module says exactly when a call that fails
leaves what was live.
-/
namespace MpsShdict

open Words

/-- A call that is to change its key: a store, a counter, a push or a pop. A get also
moves its entry, but it leaves it as it is. -/
def Call.Mutates : Call → Prop
  | .store _ _ | .incr _ | .push _ | .pop _ _ _ => True
  | _ => False

/-- The code that is returned. A push returns a length in the place of `NGX_OK`. -/
def Answer.rc : Answer → Int
  | .store r => r.rc
  | .get r => r.rc
  | .incr r => r.rc
  | .list r => r.value
  | .code rc => rc

/-- The call reports an error. -/
def Answer.Failed (r : Answer) : Prop := r.rc = ngxError ∨ r.rc = ngxDeclined

/-- `mps_shdict_safe_set` and `mps_shdict_safe_add`. -/
def Call.IsSafe : Call → Prop
  | .store op _ => op &&& mpsShdictSafeStoreFlag ≠ 0
  | _ => False

/-- The arguments are refused, before anything is looked up. Such a call has not taken the
lock. -/
def Call.Refused : Call → Prop
  | .store op a => ∃ msg, storeValue op a = .error msg
  | .push a => ∃ msg, pushValue a = .error msg
  | _ => False

/-- The call gives the entry `e` of its key up before it asks for a chunk.  A store does so
with any entry that it replaces and cannot write over, be it live or expired at `now`; the
other calls do so only with an entry that they take for expired. -/
def Call.Displaces (now : Nat) (e : Entry) : Call → Prop
  | .store op a => (∃ v, storeValue op a = .ok (some v) ∧ e.fits v.length = false) ∧
      if op &&& mpsShdictReplaceFlag ≠ 0 then lookupExpired e.expires now = false
      else op &&& mpsShdictAddFlag ≠ 0 → lookupExpired e.expires now = true
  | .incr a => lookupExpired e.expires now = true ∧ a.init ≠ none ∧ e.fits 8 = false
  | .push _ => lookupExpired e.expires now = true
  | _ => False

/-- `mps_shdict_expire` at `t` takes the entry `e`: it does not keep it, and it gets to it,
as the last one of the LRU queue or as the one before a last one that it does not keep. -/
def Reclaims (t : Nat) (L : List Entry) (e : Entry) : Prop :=
  expireKeeps e.expires t = false ∧ (L.getLast? = some e ∨
    ∃ y, L.getLast? = some y ∧ expireKeeps y.expires t = false ∧ L.dropLast.getLast? = some e)

/-- The call takes the entry `e` away before it can tell whether it fails. Either it
reclaims the entry, or it gives the entry of its own key up before it asks for a chunk. -/
def Call.Sacrifices (t : Nat) (L : List Entry) (e : Entry) (call : Call) : Prop :=
  ¬ call.Refused ∧ (Reclaims t L e ∨ call.key = some e.key ∧ call.Displaces t e)

/-- What a caller expects of a call that has failed: the entry that its key had live is
stored as it was, and after a safe store every entry that was live. -/
structure FailureKeeps (x : Event) (t : Nat) (d d' : Shdict) : Prop where
  own : ∀ e ∈ d.entries, x.call.key = some e.key → e.Live t → d'.Stores e
  safe : x.call.IsSafe → ∀ e ∈ d.entries, e.Live t → d'.Stores e

/-- A list does not get longer than an `int` can tell. Beyond that a push that has gone
well returns a negative number, which its caller takes for an error. -/
def Call.CountsInt (env : Env) (L : List Entry) : Call → Prop
  | .push a => ∀ e ∈ L, e.key = a.key → lookupExpired e.expires (env.mpsClockTimeMs 2) = false →
      e.value.elems.length + 1 < 2 ^ 31
  | _ => True

theorem Call.CountsInt.counts {call : Call} {env : Env} {L : List Entry}
    (h : call.CountsInt env L) :
    call.Counts env L := by
  cases call with
  | push a => exact fun e he hk hx => (h e he hk hx).trans (by decide)
  | store | get | incr | pop | llen | getTtl | setExpire | flushAll => trivial

/-! ### The entries that the lookup sees -/

section Fails
variable {t : Nat} {key : Bytes} {L rest : List Entry} {env : Env} {c : Choice}
  {e y : Entry} {call : Call}

/-- **What expiry takes**: the entry is one of the two that it gets to, and has expired.
So an entry that is live is reclaimed at the instant of its deadline only. -/
theorem mem_expireEntries_iff (hnodup : L.Nodup) (he : e ∈ L) :
    e ∈ (expireEntries t 2 L).1 ↔ ¬ Reclaims t L e := by
  rcases List.eq_nil_or_concat' L with rfl | ⟨A, x, rfl⟩
  · cases he
  obtain ⟨hA, -, hx⟩ := List.nodup_append'.mp hnodup
  replace hx : x ∉ A := fun hm => hx hm (List.mem_singleton_self x)
  rw [expireEntries_concat 1 A x (by omega)]
  have hlast : Reclaims t (A ++ [x]) e ↔ expireKeeps e.expires t = false ∧
      (x = e ∨ expireKeeps x.expires t = false ∧ A.getLast? = some e) := by
    simp [Reclaims]
  rw [hlast]
  by_cases hk : expireKeeps x.expires t = true
  · -- the last entry is kept, and with it all the others
    rw [if_pos hk]
    refine iff_of_true he ?_
    rintro ⟨hgone, rfl | ⟨hx', -⟩⟩
    · rw [hk] at hgone
      cases hgone
    · rw [hk] at hx'
      cases hx'
  rw [if_neg hk]
  replace hk : expireKeeps x.expires t = false := Bool.not_eq_true _ ▸ hk
  rcases List.eq_nil_or_concat' A with rfl | ⟨B, y, rfl⟩
  · obtain rfl : e = x := by simpa using he
    simp [expireEntries_nil, hk]
  obtain ⟨-, -, hy⟩ := List.nodup_append'.mp hA
  replace hy : y ∉ B := fun hm => hy hm (List.mem_singleton_self y)
  rw [expireEntries_concat 0 B y (by omega)]
  simp only [List.mem_append, List.mem_singleton, not_or] at he hx
  by_cases hky : expireKeeps y.expires t = true
  · rw [if_pos hky]
    rcases he with (he | rfl) | rfl
    · have hex : x ≠ e := fun h => hx.1 (h ▸ he)
      have hey : y ≠ e := fun h => hy (h ▸ he)
      simp [he, hex, hey]
    · simp [hky]
    · simp [hx.1, hx.2, hk]
  · rw [if_neg hky, expireEntries]
    replace hky : expireKeeps y.expires t = false := Bool.not_eq_true _ ▸ hky
    rcases he with (he | rfl) | rfl
    · have hex : x ≠ e := fun h => hx.1 (h ▸ he)
      have hey : y ≠ e := fun h => hy (h ▸ he)
      simp [he, hex, hey]
    · simp [hy, hky, hk]
    · simp [hx.1, hk]

/-- The lookup of the key of an entry that expiry has left finds that entry. -/
theorem Call.Picks.found_eq (hc : call.Picks True env L c) (hkey : call.key = some e.key)
    (hseen : call.seen env L = afterExpire env L) (hinj : ∀ x ∈ L, ∀ y ∈ L, x.key = y.key → x = y)
    (he : e ∈ afterExpire env L) : c.found = some e := by
  have hf := hc.finds e.key hkey
  rw [hseen] at hf
  cases hfd : c.found with
  | none => exact absurd rfl (hf.complete trivial hfd e he)
  | some y =>
    obtain ⟨hy, hyk⟩ := hf.sound y hfd
    rw [hinj y (afterExpire_subset env L hy) e (afterExpire_subset env L he) hyk]

/-! ### The calls on the entry that is found -/

/-- A store that goes to `replace` fails with the entry given up: it did not fit, and it
is not among those that are left. -/
theorem storeReplaceEntries_failed {a : StoreArgs} {value : Option Bytes}
    (hfail : (storeReplaceEntries env a value c e rest).result.rc ≠ ngxOk) :
    (∃ v, value = some v ∧ e.fits v.length = false) ∧
      (storeReplaceEntries env a value c e rest).entries ⊆ rest := by
  cases value with
  | none => exact absurd rfl hfail
  | some v =>
    by_cases hfit : e.fits v.length = true
    · simp only [storeReplaceEntries, if_pos hfit] at hfail
      exact absurd rfl hfail
    · simp only [storeReplaceEntries, if_neg hfit, storeInsertEntries, insertEntry] at hfail ⊢
      cases hnode : c.alloc.node with
      | some node =>
        rw [hnode] at hfail
        exact absurd rfl hfail
      | none => exact ⟨⟨v, rfl, Bool.not_eq_true _ ▸ hfit⟩, evictEntries_subset _ _ _ _⟩

/-- What a call that has failed leaves of the entry that it has found: it is where the
lookup has put it, or the call has given it up and it is not among the others. The two do
not overlap, which gives both directions of the equivalence at once. -/
def Leaves (now : Nat) (e : Entry) (L' rest : List Entry) (call : Call) : Prop :=
  e ∈ L' ∧ L' ⊆ e :: rest ∧ ¬ call.Displaces now e ∨ call.Displaces now e ∧ L' ⊆ rest

/-- A store that fails has declined, or has given the entry up. -/
theorem storeEntries_failed {op : Nat} {a : StoreArgs} {value : Option Bytes}
    (hv : storeValue op a = .ok value) (hf : c.found = some e)
    (hfail : (storeEntries env op a c L).result.rc ≠ ngxOk) :
    Leaves (env.mpsClockTimeMs 2) e (storeEntries env op a c L).entries
      (others (some e) (afterExpire env L)) (.store op a) := by
  set rest := others (some e) (afterExpire env L)
  -- `NGX_DECLINED`: the entry is where the lookup has put it
  have hdeclined : ∀ {sd : Option Nat} {r : StoreResult},
      ¬ (Call.store op a).Displaces (env.mpsClockTimeMs 2) e →
      Leaves (env.mpsClockTimeMs 2) e (⟨e :: rest, [], sd, r⟩ : Outcome StoreResult).entries rest
        (.store op a) :=
    fun hnot => .inl ⟨List.mem_cons_self, List.Subset.refl _, hnot⟩
  -- past the label `replace` the entry is gone before the chunk is asked for
  have hreplace : (storeReplaceEntries env a value c e rest).result.rc ≠ ngxOk →
      (if op &&& mpsShdictReplaceFlag ≠ 0 then
        lookupExpired e.expires (env.mpsClockTimeMs 2) = false
        else op &&& mpsShdictAddFlag ≠ 0 → lookupExpired e.expires (env.mpsClockTimeMs 2) = true) →
      Leaves (env.mpsClockTimeMs 2) e
        (storeReplaceEntries env a value c e rest).entries rest (.store op a) := by
    intro hfail hmode
    obtain ⟨⟨v, rfl, hfit⟩, hsub⟩ := storeReplaceEntries_failed hfail
    exact .inr ⟨⟨⟨v, hv, hfit⟩, hmode⟩, hsub⟩
  revert hfail
  unfold storeEntries
  simp only [hv, hf, hit]
  by_cases hexp : lookupExpired e.expires (env.mpsClockTimeMs 2) = true
  · simp only [hexp, if_true, storeFoundEntries]
    split
    · next hop =>
      refine fun _ => hdeclined ?_
      rintro ⟨-, hmode⟩
      rw [if_pos hop, hexp] at hmode
      cases hmode
    · next hop =>
      split
      · exact fun hfail => hreplace hfail (by rw [if_neg hop]; exact fun _ => hexp)
      · exact fun hfail => hreplace hfail (by rw [if_neg hop]; exact fun _ => hexp)
  · replace hexp : lookupExpired e.expires (env.mpsClockTimeMs 2) = false :=
      Bool.not_eq_true _ ▸ hexp
    simp only [hexp, Bool.false_eq_true, if_false, storeFoundEntries]
    split
    · next hop => exact fun hfail => hreplace hfail (by rw [if_pos hop]; exact hexp)
    · next hop =>
      split
      · next hadd =>
        refine fun _ => hdeclined ?_
        rintro ⟨-, hmode⟩
        rw [if_neg hop] at hmode
        rw [hmode hadd] at hexp
        cases hexp
      · next hadd =>
        exact fun hfail =>
          hreplace hfail (by rw [if_neg hop]; exact fun h => absurd h hadd)

/-- A counter that fails has left the entry, or has given up one that it takes for
expired. It refuses what is not a number before it writes. -/
theorem incrEntries_failed {a : IncrArgs} (hf : c.found = some e)
    (hfail : (incrEntries env a c L).result.rc ≠ ngxOk) :
    Leaves (env.mpsClockTimeMs 2) e (incrEntries env a c L).entries
      (others (some e) (afterExpire env L))
      (.incr a) := by
  set rest := others (some e) (afterExpire env L)
  have hkept : ∀ {L' : List Entry}, L' = e :: rest →
      ¬ (Call.incr a).Displaces (env.mpsClockTimeMs 2) e →
      Leaves (env.mpsClockTimeMs 2) e L' rest (.incr a) := by
    rintro L' rfl hnot
    exact .inl ⟨List.mem_cons_self, List.Subset.refl _, hnot⟩
  revert hfail
  unfold incrEntries
  simp only [hf, hit]
  by_cases hexp : lookupExpired e.expires (env.mpsClockTimeMs 2) = true
  · simp only [hexp, if_true]
    cases hinit : a.init with
    | none => exact fun _ => hkept rfl fun h => h.2.1 hinit
    | some init =>
      dsimp only
      by_cases hfit : e.fits 8 = true
      · rw [if_pos hfit]
        exact fun hfail => absurd rfl hfail
      · rw [if_neg hfit]
        simp only [incrInsertEntries, insertEntry]
        cases c.alloc.node with
        | some node => exact fun hfail => absurd rfl hfail
        | none =>
          exact fun _ => .inr ⟨⟨hexp, by simp [hinit], Bool.not_eq_true _ ▸ hfit⟩,
            evictEntries_subset _ _ _ _⟩
  · simp only [hexp, Bool.false_eq_true, if_false, incrLive]
    have hnot : ¬ (Call.incr a).Displaces (env.mpsClockTimeMs 2) e := fun h => hexp h.1
    split
    · split
      · exact fun hfail => absurd rfl hfail
      · exact fun _ => hkept rfl hnot
    · exact fun _ => hkept rfl hnot

/-- An element that finds no room leaves the list as it was, unless the list is empty. -/
theorem pushNodeEntries_failed {a : PushArgs} {v : Bytes} {elems : List Elem}
    (hlt : elems.length + 1 < 2 ^ 31)
    (hfail : (pushNodeEntries a v c e elems rest).result.value < 0) :
    (pushNodeEntries a v c e elems rest).entries =
      if elems = [] then rest else { e with value := .list elems } :: rest := by
  revert hfail
  unfold pushNodeEntries
  cases c.elem with
  | none =>
    have hlen : u32 elems.length = 0 ↔ elems = [] := u32_eq_zero_iff (by omega)
    simp only [hlen]
    intro _
    split
    · rfl
    · rfl
  | some lnode =>
    -- the new length is told, and it is not negative
    intro hfail
    exfalso
    have hlen : (insertElem a.direction ⟨lnode, a.valueType, v⟩ elems).length = elems.length + 1 :=
      (insertElem_perm _ _ _).length_eq
    simp only [ListResult.length, Value.elems, hlen] at hfail
    rw [u32_of_lt (by omega), int32_of_lt (by omega)] at hfail
    omega

/-- A push that finds no room for the head of a list, or for its first element, leaves none. -/
theorem initListEntries_failed {a : PushArgs} {v : Bytes} {sd : Option Nat}
    (hfail : (initListEntries env a v c rest sd).result.value < 0) :
    (initListEntries env a v c rest sd).entries = rest := by
  revert hfail
  unfold initListEntries
  cases c.alloc.node with
  | none => exact fun _ => rfl
  | some node => exact fun hfail => pushNodeEntries_failed (by simp) hfail

/-- A push that fails has left a live entry with all its elements, and given up an expired
one. -/
theorem pushEntries_failed {a : PushArgs} {v : Bytes} (hv : pushValue a = .ok v)
    (hf : c.found = some e) (hlist : lookupExpired e.expires (env.mpsClockTimeMs 2) = false →
      ∀ xs, e.value = .list xs → xs ≠ [] ∧ xs.length + 1 < 2 ^ 31)
    (hfail : (pushEntries env a c L).result.value < 0) :
    Leaves (env.mpsClockTimeMs 2) e (pushEntries env a c L).entries
      (others (some e) (afterExpire env L))
      (.push a) := by
  set rest := others (some e) (afterExpire env L)
  revert hfail
  unfold pushEntries
  simp only [hv, hf, hit]
  by_cases hexp : lookupExpired e.expires (env.mpsClockTimeMs 2) = true
  · simp only [hexp, if_true]
    cases e.value with
    | plain valueType bytes =>
      refine fun hfail => .inr ⟨hexp, fun y hy => ?_⟩
      rw [initListEntries_failed hfail] at hy
      exact hy
    | list elems =>
      refine fun hfail => .inr ⟨hexp, fun y hy => ?_⟩
      have hnil := pushNodeEntries_failed (by simp) hfail
      rw [if_pos rfl] at hnil
      rw [hnil] at hy
      exact hy
  · replace hexp : lookupExpired e.expires (env.mpsClockTimeMs 2) = false :=
      Bool.not_eq_true _ ▸ hexp
    have hkept : ∀ {L' : List Entry}, L' = e :: rest →
        Leaves (env.mpsClockTimeMs 2) e L' rest (.push a) := by
      rintro L' rfl
      refine .inl ⟨List.mem_cons_self, List.Subset.refl _, fun h => ?_⟩
      rw [show lookupExpired e.expires _ = true from h] at hexp
      cases hexp
    simp only [hexp, Bool.false_eq_true, if_false]
    cases hvalue : e.value with
    | plain valueType bytes => exact fun _ => hkept rfl
    | list elems =>
      obtain ⟨hne, hlt⟩ := hlist hexp elems hvalue
      intro hfail
      refine hkept ((pushNodeEntries_failed hlt hfail).trans ?_)
      rw [if_neg hne, ← hvalue]

/-- A pop that fails leaves the entry, with all its elements. -/
theorem popEntries_failed {direction : Direction} {k : Bytes} {bufLen : Nat} (hf : c.found = some e)
    (hfail : (popEntries env direction bufLen c L).result.rc ≠ ngxOk) :
    Leaves (env.mpsClockTimeMs 2) e (popEntries env direction bufLen c L).entries
      (others (some e) (afterExpire env L)) (.pop direction k bufLen) := by
  set rest := others (some e) (afterExpire env L)
  have hkept : ∀ {L' : List Entry}, L' = e :: rest →
      Leaves (env.mpsClockTimeMs 2) e L' rest (.pop direction k bufLen) := by
    rintro L' rfl
    exact .inl ⟨List.mem_cons_self, List.Subset.refl _, id⟩
  revert hfail
  unfold popEntries
  simp only [hf, hit]
  by_cases hexp : lookupExpired e.expires (env.mpsClockTimeMs 2) = true
  · simp only [hexp, if_true]
    exact fun _ => hkept rfl
  · simp only [hexp, Bool.false_eq_true, if_false]
    cases hv : e.value with
    | plain valueType bytes => exact fun _ => hkept rfl
    | list elems =>
      simp only [popList]
      split
      · exact fun _ => hkept rfl
      · next x elems' htake =>
        split
        · exact fun _ => hkept rfl
        · split
          · next hpopped =>
            have htaken := elemResult_taken hpopped
            simp only [GetResult.taken, decide_eq_true_eq] at htaken
            have hrc : (elemResult env x bufLen).1.rc = ngxOk := htaken.1
            split
            · exact fun hfail => absurd hrc hfail
            · exact fun hfail => absurd hrc hfail
          · exact fun _ => hkept rfl

/-- **A call that fails on the entry that it has found** leaves it or gives it up. One
case for each call that is to change its key. -/
theorem Call.failed_leaves (hm : call.Mutates) (hnot : ¬ call.Refused) (hf : c.found = some e)
    (hlist : (∃ a, call = .push a) → lookupExpired e.expires (env.mpsClockTimeMs 2) = false →
      ∀ xs, e.value = .list xs → xs ≠ [] ∧ xs.length + 1 < 2 ^ 31)
    (hfail : (call.entries env c L).result.Failed) :
    Leaves (env.mpsClockTimeMs 2) e (call.entries env c L).entries
      (others (some e) (afterExpire env L))
      call := by
  have hrc : (call.entries env c L).result.rc ≠ ngxOk := by
    intro h0
    rcases hfail with h | h <;> exact absurd (h0.symm.trans h) (by decide)
  cases call with
  | store op a =>
    cases hv : storeValue op a with
    | error msg => exact absurd ⟨msg, hv⟩ hnot
    | ok value => exact storeEntries_failed hv hf hrc
  | incr a => exact incrEntries_failed hf hrc
  | push a =>
    cases hv : pushValue a with
    | error msg => exact absurd ⟨msg, hv⟩ hnot
    | ok v =>
      refine pushEntries_failed hv hf (hlist ⟨a, rfl⟩) ?_
      rcases hfail with h | h <;> exact h.trans_lt (by decide)
  | pop direction k bufLen => exact popEntries_failed hf hrc
  | get | llen | getTtl | setExpire | flushAll => exact hm.elim

/-- A call that has found no entry and fails leaves no more than what expiry has left. -/
theorem Call.failed_absent (hm : call.Mutates) (hnot : ¬ call.Refused) (hf : c.found = none)
    (hfail : (call.entries env c L).result.Failed) :
    (call.entries env c L).entries ⊆ afterExpire env L := by
  have hrc : (call.entries env c L).result.rc ≠ ngxOk := by
    intro h0
    rcases hfail with h | h <;> exact absurd (h0.symm.trans h) (by decide)
  -- no entry of the key was there, so a call can only have evicted others
  cases call with
  | store op a =>
    have hinsert : ∀ value, (storeInsertEntries env a value c (afterExpire env L) none).entries ⊆
        afterExpire env L ∨
        (storeInsertEntries env a value c (afterExpire env L) none).result.rc = ngxOk := by
      intro value
      cases value with
      | none => exact .inr rfl
      | some v =>
        simp only [storeInsertEntries, insertEntry]
        cases c.alloc.node with
        | none => exact .inl (evictEntries_subset _ _ _ _)
        | some node => exact .inr rfl
    cases hv : storeValue op a with
    | error msg => exact absurd ⟨msg, hv⟩ hnot
    | ok value =>
      simp only [Call.entries, Outcome.map, Answer.rc, storeEntries, hv, hf, hit, others,
        storeFoundEntries, ite_self] at hrc ⊢
      split at hrc
      · next hop =>
        rw [if_pos hop]
        exact List.Subset.refl _
      · next hop =>
        rw [if_neg hop]
        exact (hinsert value).resolve_right hrc
  | incr a =>
    simp only [Call.entries, Outcome.map, Answer.rc, incrEntries, hf, hit, others] at hrc ⊢
    cases hinit : a.init with
    | none => exact List.Subset.refl _
    | some init =>
      simp only [hinit, incrInsertEntries, insertEntry] at hrc ⊢
      cases hnode : c.alloc.node with
      | none => exact evictEntries_subset _ _ _ _
      | some node =>
        rw [hnode] at hrc
        exact absurd rfl hrc
  | push a =>
    cases hv : pushValue a with
    | error msg => exact absurd ⟨msg, hv⟩ hnot
    | ok v =>
      have hneg : (pushEntries env a c L).result.value < 0 := by
        rcases hfail with h | h <;> exact h.trans_lt (by decide)
      simp only [Call.entries, Outcome.map, pushEntries, hv, hf, hit, others] at hneg ⊢
      intro y hy
      rw [initListEntries_failed hneg] at hy
      exact hy
  | pop direction k bufLen =>
    simp only [Call.entries, Outcome.map, Answer.rc, popEntries, hf, hit] at hrc
    exact absurd rfl hrc
  | get | llen | getTtl | setExpire | flushAll => exact hm.elim

/-- A call that refuses its arguments changes nothing, and does not reclaim anything
either. -/
theorem Call.refused_entries (h : call.Refused) : (call.entries env c L).entries = L := by
  cases call with
  | store op a =>
    obtain ⟨msg, hv⟩ := h
    simp only [Call.entries, Outcome.map, storeEntries, hv]
  | push a =>
    obtain ⟨msg, hv⟩ := h
    simp only [Call.entries, Outcome.map, pushEntries, hv]
  | get | incr | pop | llen | getTtl | setExpire | flushAll => exact h.elim

/-- A store that evicts nothing by force leaves all the entries of other keys that expiry
has left. -/
theorem storeEntries_keeps {op : Nat} {a : StoreArgs} {value : Option Bytes}
    (hv : storeValue op a = .ok value) (hr : c.alloc.rounds = 0)
    (he : e ∈ others c.found (afterExpire env L)) :
    e ∈ (storeEntries env op a c L).entries := by
  set rest := others c.found (afterExpire env L)
  have hinsert : ∀ sd, e ∈ (storeInsertEntries env a value c rest sd).entries := by
    intro sd
    cases value with
    | none => exact he
    | some v =>
      simp only [storeInsertEntries, insertEntry, hr, evictEntries]
      cases c.alloc.node with
      | none => exact he
      | some node => exact List.mem_cons_of_mem _ he
  have hreplace : ∀ x, e ∈ (storeReplaceEntries env a value c x rest).entries := by
    intro x
    unfold storeReplaceEntries
    split
    · split
      · exact List.mem_cons_of_mem _ he
      · exact hinsert _
    · exact hinsert _
  simp only [storeEntries, hv, storeFoundEntries]
  cases hit (env.mpsClockTimeMs 2) c.found with
  | absent =>
    split
    · exact he
    · split <;> exact hinsert _
  | live x =>
    split
    · exact hreplace x
    · split
      · exact List.mem_cons_of_mem _ he
      · exact hreplace x
  | expired x =>
    split
    · exact List.mem_cons_of_mem _ he
    · split <;> exact hreplace x

end Fails

section Errors
variable {s : Nat} {d d' : Shdict} {x : Event} {xs : List Event} {t : Nat}
  {key : Bytes} {e y : Entry} {c : Choice}

theorem Call.Mutates.seen (hm : x.call.Mutates) (L : List Entry) :
    x.call.seen x.env L = afterExpire x.env L := by
  cases hcall : x.call with
  | store | incr | push | pop => rfl
  | get | llen | getTtl | setExpire | flushAll =>
    rw [hcall] at hm
    exact hm.elim

theorem Call.Mutates.key_some (hm : x.call.Mutates) : ∃ key, x.call.key = some key := by
  cases hcall : x.call with
  | store | incr | push | pop => exact ⟨_, rfl⟩
  | get | llen | getTtl | setExpire | flushAll =>
    rw [hcall] at hm
    exact hm.elim

/-- A list that a push finds live is a list that it can count. -/
theorem Call.CountsInt.list (h : x.call.CountsInt x.env d.entries) (hd : ∀ e ∈ d.entries, ∀ elems,
      e.value = .list elems → elems ≠ []) (hy : y ∈ d.entries) (hkey : x.call.key = some y.key) :
    (∃ a, x.call = .push a) → lookupExpired y.expires (x.env.mpsClockTimeMs 2) = false →
      ∀ elems, y.value = .list elems → elems ≠ [] ∧ elems.length + 1 < 2 ^ 31 := by
  rintro ⟨a, hcall⟩ hexp elems hv
  rw [hcall] at h hkey
  have hlt := h y hy (Option.some.inj hkey).symm hexp
  rw [hv] at hlt
  exact ⟨hd y hy elems hv, hlt⟩

/-- **The step lemma**: after a call that fails, a live entry that it has to leave is stored
if and only if the call has not taken it away first. -/
theorem Event.Runs.stores_iff (hx : x.Runs s d d')
    (hrep : ∃ spare, Rep (mpsSlabSizesInit (2 ^ s)) s True d d.entries spare)
    (hlists : ∀ e ∈ d.entries, ∀ elems, e.value = .list elems → elems ≠ [])
    (hG : x.call.Safe x.env d.entries ∧ x.call.CountsInt x.env d.entries)
    (htime : ∀ i, x.env.mpsClockTimeMs i = t) (hm : x.call.Mutates) (hfail : x.answer.Failed)
    (he : e ∈ d.entries) (hown : x.call.key = some e.key ∨ x.call.IsSafe) :
    d'.Stores e ↔ ¬ x.call.Sacrifices t d.entries e := by
  obtain ⟨spare, hrep⟩ := hrep
  obtain ⟨c, hc, hrep', -, hanswer⟩ := hx.entries hrep fun _ => hG.1
  rw [hanswer] at hfail
  have hstores : d'.Stores e ↔ e ∈ (x.call.entries x.env c d.entries).entries :=
    ⟨fun h => hrep'.entries_eq ▸ h.1, fun h => hrep'.stores h⟩
  rw [hstores]
  by_cases hrefused : x.call.Refused
  · rw [Call.refused_entries hrefused]
    exact iff_of_true he fun h => h.1 hrefused
  have hnodup := hrep.laid.nodup
  have hreclaims : e ∈ afterExpire x.env d.entries ↔ ¬ Reclaims t d.entries e := by
    rw [afterExpire, htime]
    exact mem_expireEntries_iff hnodup he
  obtain ⟨key, hkey⟩ := hm.key_some
  have hfinds := (hc.finds key hkey)
  rw [hm.seen] at hfinds
  have hleaves : ∀ y, c.found = some y → Leaves (x.env.mpsClockTimeMs 2) y
      (x.call.entries x.env c d.entries).entries
        (others (some y) (afterExpire x.env d.entries)) x.call := by
    intro y hf
    obtain ⟨hy, hyk⟩ := hfinds.sound y hf
    exact Call.failed_leaves hm hrefused hf
      (hG.2.list hlists (afterExpire_subset _ _ hy) (hkey.trans (congrArg some hyk.symm))) hfail
  have hanodup : (afterExpire x.env d.entries).Nodup :=
    (expireEntries_front _ _ _).sublist.nodup hnodup
  by_cases hin : e ∈ afterExpire x.env d.entries
  · have hnot := hreclaims.mp hin
    by_cases hek : x.call.key = some e.key
    · have hf := hc.found_eq hek (hm.seen _) (fun y hy z hz => hrep.key_inj trivial hy hz) hin
      rw [Call.Sacrifices, ← htime 2]
      rcases hleaves e hf with ⟨hmem, -, hkept⟩ | ⟨hgone, hsub⟩
      · refine iff_of_true hmem ?_
        rintro ⟨-, h | ⟨-, h⟩⟩
        · exact hnot (htime 2 ▸ h)
        · exact hkept h
      · refine iff_of_false (fun hmem => ?_) fun h => h ⟨hrefused, .inr ⟨hek, hgone⟩⟩
        exact hanodup.not_mem_erase (hsub hmem)
    · -- a safe store on another key
      have hsafe := hown.resolve_left hek
      refine iff_of_true ?_ ?_
      · have hothers : e ∈ others c.found (afterExpire x.env d.entries) := by
          cases hf : c.found with
          | none => exact hin
          | some y =>
            refine (List.mem_erase_of_ne ?_).mpr hin
            rintro rfl
            exact hek (hkey.trans (congrArg some (hfinds.sound e hf).2.symm))
        cases hcall : x.call with
        | store op a =>
          rw [hcall] at hsafe hc hrefused
          have hrounds : c.alloc.rounds = 0 := hc.unforced (decide_eq_false hsafe)
          cases hv : storeValue op a with
          | error msg => exact absurd ⟨msg, hv⟩ hrefused
          | ok value => exact storeEntries_keeps hv hrounds hothers
        | get | incr | push | pop | llen | getTtl | setExpire | flushAll =>
          rw [hcall] at hsafe
          exact hsafe.elim
      · rintro ⟨-, h | ⟨h, -⟩⟩
        · exact hnot h
        · exact hek h
  · refine iff_of_false (fun hmem => hin ?_) fun h =>
      h ⟨hrefused, .inl (not_not.mp (mt hreclaims.mpr hin))⟩
    cases hf : c.found with
    | none => exact Call.failed_absent hm hrefused hf hfail hmem
    | some y =>
      have hy := (hfinds.sound y hf).1
      rcases hleaves y hf with ⟨-, hsub, -⟩ | ⟨-, hsub⟩
      · rcases List.mem_cons.mp (hsub hmem) with rfl | h
        · exact hy
        · exact List.mem_of_mem_erase h
      · exact List.mem_of_mem_erase (hsub hmem)

/-- **When a call that fails leaves what was live.**  After every run in which each counter
is hung up where the tree stays in order, and no list gets longer than an `int` can tell, a
mutating call that fails at the time `t` leaves the live entry of its key, and a safe store
the live entries of all keys, if and only if it has taken none of them away before it could
fail. -/
theorem failed_keeps_iff (hs : 12 ≤ s) (hs' : s ≤ 16)
    (run : RunWith s (fun x L => x.call.Safe x.env L ∧ x.call.CountsInt x.env L) xs d)
    (hx : x.Runs s d d') (hG : x.call.Safe x.env d.entries ∧ x.call.CountsInt x.env d.entries)
    (htime : ∀ i, x.env.mpsClockTimeMs i = t) (hm : x.call.Mutates) (hfail : x.answer.Failed) :
    FailureKeeps x t d d' ↔ ∀ e ∈ d.entries, e.Live t → x.call.key = some e.key ∨ x.call.IsSafe →
      ¬ x.call.Sacrifices t d.entries e := by
  obtain ⟨hrep, hcounted⟩ :=
    RunWith.tidy True hs hs' (run.mono fun _ _ h => ⟨fun _ => h.1, h.2.counts⟩)
  have hiff := fun {e} => hx.stores_iff (e := e) ⟨_, hrep⟩
    (fun e he elems hv => (hcounted e he elems hv).1) hG
    htime hm hfail
  constructor
  · intro h e he hl hown
    refine (hiff he hown).mp ?_
    rcases hown with hkey | hsafe
    · exact h.own e he hkey hl
    · exact h.safe hsafe e he hl
  · intro h
    exact ⟨fun e he hkey hl => (hiff he (.inl hkey)).mpr (h e he hl (.inl hkey)),
      fun hsafe e he hl => (hiff he (.inr hsafe)).mpr (h e he hl (.inr hsafe))⟩

end Errors

/-! ### A value that is lost -/

/-- The string "B" is stored under "A". -/
def oneString : Shdict := (storeEvent 5 [65] [66] 4224).after 12 emptyDict

theorem run_oneString : SafeRun 12 [storeEvent 5 [65] [66] 4224] oneString :=
  .call (.init fresh_emptyDict)
    (storeEvent_runs 5 ⟨by decide, by decide⟩ (by decide) (by decide +kernel)) trivial

theorem entries_oneString :
    oneString.entries = [⟨4224, [65], 0, 0, .plain .tstring [66]⟩] := by decide +kernel

/-- The pool, of 20480 bytes, has no room for a string of 30000 bytes, and "B" is gone.
The length of the new string is all that is known of it, so none of its bytes is looked
at. -/
theorem lost_oneString {v : Bytes} (hv : v.length = 30000) :
    ∃ d' sd, (⟨0, calmEnv 6, .safeSet (stringArgs [65] v),
      sd, .store ⟨ngxError, some "no memory", 0⟩⟩ : Event).Runs 12 oneString d' ∧
    d'.entries = [] := by
  have hok : (Call.safeSet (stringArgs [65] v)).Ok :=
    ⟨stringArgs_ok ⟨by decide, by decide⟩ (by omega), Int.pow_pos (by decide)⟩
  obtain ⟨spare, hrep⟩ := SafeRun.rep (by decide) (by decide) run_oneString
  rw [entries_oneString] at hrep
  obtain ⟨c, hc, d', hrun, hrep', hquiet⟩ := Call.run_spec (calmEnv 6) hok hrep fun _ => trivial
  have hend : d'.pool.poolEnd = 20480 := by
    rw [hquiet.poolEnd]
    decide +kernel
  have hrounds : c.alloc.rounds = 0 := hc.unforced rfl
  have hafter : afterExpire (calmEnv 6) [(⟨4224, [65], 0, 0, .plain .tstring [66]⟩ : Entry)] =
      [⟨4224, [65], 0, 0, .plain .tstring [66]⟩] := by decide +kernel
  have hfound := hc.found_eq (e := ⟨4224, [65], 0, 0, .plain .tstring [66]⟩) rfl rfl (by simp)
    (hafter ▸ List.mem_cons_self)
  have hfit : Entry.fits ⟨4224, [65], 0, 0, .plain .tstring [66]⟩ v.length = false := by
    rw [hv]
    rfl
  have hout : storeEntries (calmEnv 6) mpsShdictSafeStoreFlag (stringArgs [65] v) c
      [⟨4224, [65], 0, 0, .plain .tstring [66]⟩] = insertEntry (calmEnv 6) c [] (some 4224)
        (storedEntry (calmEnv 6) (stringArgs [65] v) v) (fun f => ⟨ngxOk, none, f⟩)
        fun f => ⟨ngxError, some "no memory", f⟩ := by
    rw [storeEntries, hafter, hfound]
    show storeReplaceEntries (calmEnv 6) (stringArgs [65] v) (some v) c
      ⟨4224, [65], 0, 0, .plain .tstring [66]⟩ [] = _
    simp only [storeReplaceEntries, hfit, Bool.false_eq_true, if_false, storeInsertEntries]
  have hanswer : (Call.safeSet (stringArgs [65] v)).entries (calmEnv 6) c
      [⟨4224, [65], 0, 0, .plain .tstring [66]⟩] = (insertEntry (calmEnv 6) c [] (some 4224)
        (storedEntry (calmEnv 6) (stringArgs [65] v) v) (fun f => ⟨ngxOk, none, f⟩)
        fun f => ⟨ngxError, some "no memory", f⟩).map Answer.store :=
    congrArg (Outcome.map Answer.store) hout
  rw [hanswer] at hrun hrep'
  simp only [insertEntry, hrounds, evictEntries] at hrun hrep'
  cases hnode : c.alloc.node with
  | none =>
    rw [hnode] at hrun hrep'
    exact ⟨d', some 4224, ⟨Nat.dvd_zero _, hok, hrun 0 (Nat.dvd_zero _)⟩, hrep'.entries_eq⟩
  | some node =>
    -- the block of the new entry would not lie in the pool
    rw [hnode] at hrep'
    exfalso
    have hin := (hrep'.owns.apart.inside (storedEntry (calmEnv 6) (stringArgs [65] v) v node).block
      (by simp [dictBlocks, Outcome.map, Entry.blocks])).2
    rw [hend] at hin
    simp only [Entry.block, Entry.size, storedEntry, hv] at hin
    omega

/-- **A safe store that fails has lost the old value.** `mps_shdict_safe_set` of a longer
string answers "no memory", and the string that was stored under the key is not there any
more. -/
theorem not_failed_keeps : ¬ ∀ (s : Nat) xs d d' (x : Event) t, 12 ≤ s → s ≤ 16 → SafeRun s xs d →
    x.Runs s d d' → (∀ i, x.env.mpsClockTimeMs i = t) → x.call.Mutates → x.answer.Failed →
    FailureKeeps x t d d' := by
  intro hall
  obtain ⟨d', sd, hx, hnil⟩ := lost_oneString (v := List.replicate 30000 0) List.length_replicate
  have hkeeps := (hall 12 _ oneString d' _ 6 (by decide) (by decide) run_oneString hx (fun _ => rfl)
    trivial (.inl rfl)).own ⟨4224, [65], 0, 0, .plain .tstring [66]⟩
    (by rw [entries_oneString]; exact List.mem_cons_self) rfl (.inl rfl)
  have hmem := hkeeps.1
  rw [hnil] at hmem
  cases hmem

/-! ### Two safe stores that fail -/

/-- A string of 12300 bytes, for which a pool of four pages has no room. -/
def tooLong : Bytes := List.replicate 12300 0

/-- It is to be stored under "A", where there is a string of one byte. -/
def displacingStore : Event :=
  ⟨0, calmEnv 7, .safeSet (stringArgs [65] tooLong),
    some 4224, .store ⟨ngxError, some "no memory", 0⟩⟩

/-- It is to be stored under "E", where there is nothing. -/
def sparingStore : Event :=
  ⟨0, calmEnv 7, .safeSet (stringArgs [69] tooLong), none, .store ⟨ngxError, some "no memory", 0⟩⟩

theorem entries_twoDict : twoDict.entries =
    [⟨4352, [67], 0, 0, .plain .tstring [68]⟩, ⟨4224, [65], 0, 0, .plain .tstring [66]⟩] := by
  decide +kernel

/-- **A store that loses the old value and one that does not.** Both are safe stores of a
string for which there is no room; the one under "A" has taken the string away that was
there, and the one under "E" leaves both strings. -/
theorem failed_keeps_iff_two :
    ¬ FailureKeeps displacingStore 7 twoDict (displacingStore.after 12 twoDict) ∧
      FailureKeeps sparingStore 7 twoDict (sparingStore.after 12 twoDict) := by
  have hok : ∀ {key : Bytes}, KeyOk key → (Call.safeSet (stringArgs key tooLong)).Ok := fun hk =>
    ⟨stringArgs_ok hk (by rw [tooLong, List.length_replicate]; decide), Int.pow_pos (by decide)⟩
  have run : RunWith 12 (fun x L => x.call.Safe x.env L ∧ x.call.CountsInt x.env L)
      [storeEvent 6 [67] [68] 4352, storeEvent 5 [65] [66] 4224] twoDict :=
    .call (.call (.init fresh_emptyDict)
      (storeEvent_runs 5 ⟨by decide, by decide⟩ (by decide) (by decide +kernel)) ⟨trivial, trivial⟩)
      (storeEvent_runs 6 ⟨by decide, by decide⟩ (by decide) (by decide +kernel)) ⟨trivial, trivial⟩
  have hdisplaces : displacingStore.Runs 12 twoDict (displacingStore.after 12 twoDict) :=
    Event.runs_after (by decide) (hok ⟨by decide, by decide⟩) (by decide +kernel)
  have hspares : sparingStore.Runs 12 twoDict (sparingStore.after 12 twoDict) :=
    Event.runs_after (by decide) (hok ⟨by decide, by decide⟩) (by decide +kernel)
  have hlive : ∀ e ∈ twoDict.entries, ¬ Reclaims 7 twoDict.entries e := by
    rw [entries_twoDict]
    intro e he h
    have hkeep : expireKeeps e.expires 7 = true := by
      rcases List.mem_pair.mp he with rfl | rfl
      · rfl
      · rfl
    rw [h.1] at hkeep
    cases hkeep
  constructor
  · rw [failed_keeps_iff (by decide) (by decide) run hdisplaces
      ⟨trivial, trivial⟩ (fun _ => rfl) trivial
      (.inl rfl)]
    intro h
    refine h ⟨4224, [65], 0, 0, .plain .tstring [66]⟩
      (by simp [entries_twoDict]) (.inl rfl) (.inl rfl)
      ⟨?_, .inr ⟨rfl, ⟨tooLong, rfl, ?_⟩, by decide⟩⟩
    · rintro ⟨msg, hmsg⟩
      cases hmsg
    · show decide (tooLong.length = 1) = false
      rw [tooLong, List.length_replicate]
      rfl
  · rw [failed_keeps_iff (by decide) (by decide) run hspares
      ⟨trivial, trivial⟩ (fun _ => rfl) trivial (.inl rfl)]
    rintro e he - - ⟨-, h | ⟨hkey, -⟩⟩
    · exact hlive e he h
    · rw [entries_twoDict] at he
      rcases List.mem_pair.mp he with rfl | rfl
      · cases hkey
      · cases hkey

end MpsShdict
