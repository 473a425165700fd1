import MpsShdict.ShdictRecency

/-! # What comes back after a flush

`mps_shdict_flush_all` takes up to three entries out and sets the deadlines of all others
to 1, which lies in the past. From then on no lookup takes them for live, but a deadline
that is set anew brings an entry back.

The state that a flush leaves is that a key is buried: whatever entry it has expires at 1.
A call keeps a key buried unless it gives the key a value or a deadline, and a lookup of a
buried key sees nothing. So the flush is a barrier for all keys to which nothing of both
happens; that a deadline alone undoes the flush is shown by an example at the end.
-/
namespace MpsShdict

open Words

/-- The call gives `key` a value: a store that is not a replace and not of nil, a counter
with an initial value, or a push, and it has gone well. -/
def Call.Sets (key : Bytes) : Call → Answer → Prop
  | .store op a, .store r =>
    a.key = key ∧ op &&& mpsShdictReplaceFlag = 0 ∧ a.valueType ≠ .tnil ∧ r.rc = ngxOk
  | .incr a, .incr r => a.key = key ∧ a.init ≠ none ∧ r.rc = ngxOk
  | .push a, .list r => a.key = key ∧ r.taken = true
  | _, _ => False

/-- The call gives the entry of `key` a deadline. `mps_shdict_set_expire` answers `NGX_OK`
for an expired entry too, and brings it back. -/
def Call.Dates (key : Bytes) : Call → Answer → Prop
  | .setExpire k _, .code rc => k = key ∧ rc = ngxOk
  | _, _ => False

/-- Where an event looks `key` up it sees nothing: a get that does not ask for stale
values and a pop answer nil, and the length of the list is 0. -/
def Event.SeesNothing (key : Bytes) (x : Event) : Prop :=
  match x.call with
  | .get k _ false => k = key → x.answer = .get (.plain ngxOk (some .tnil) none)
  | .pop _ k _ => k = key → x.answer = .get (.plain ngxOk (some .tnil) none)
  | .llen k => k = key → x.answer = .list (.code 0 none)
  | _ => True

/-- **What follows a flush** by calls of which `G` holds, the last event first. Before the
flush there may have been any run. -/
inductive AfterFlush (s : Nat) (G : Event → Prop) : List Event → Shdict → Prop where
  | flush {xs : List Event} {d d' : Shdict} {x : Event} (run : Run s xs d)
      (hcall : x.call = .flushAll) (h : x.Runs s d d') : AfterFlush s G [] d'
  | call {xs : List Event} {d d' : Shdict} {x : Event} (run : AfterFlush s G xs d)
      (h : x.Runs s d d') (hG : G x) : AfterFlush s G (x :: xs) d'

/-- Whatever entry `key` has, it expires at the time 1. There may be none. -/
def Buried (key : Bytes) (L : List Entry) : Prop := ∀ e ∈ L, e.key = key → e.expires = 1

/-- The clock is one at which the time 1 lies in the past, and not so far that the signed
difference turns around. -/
def Env.Late (env : Env) : Prop := ∀ i, 2 ≤ env.clock i ∧ env.clock i < 2 ^ 63 + 2

section Buried
variable {s : Nat} {ord : Prop} {d d' : Shdict} {env : Env} {key : Bytes}
  {L M : List Entry} {e : Entry}
  {c : Choice} {call : Call} {spare : List Block} {x : Event} {xs : List Event}

theorem Buried.mono (h : Buried key L) (hM : M ⊆ L) : Buried key M := fun e he => h e (hM he)

/-- At a late time the time 1 lies in the past. -/
theorem Env.Late.lookupExpired (h : env.Late) (i : Nat) :
    lookupExpired 1 (env.mpsClockTimeMs i) = true := by
  obtain ⟨h1, h2⟩ := h i
  have hclock : env.mpsClockTimeMs i = env.clock i := u64_of_lt (by omega)
  have hneg : int64 (sub64 1 (env.clock i)) < 0 := by
    unfold int64 sub64
    split
    · omega
    · omega
  rw [MpsShdict.lookupExpired, hclock]
  simpa using hneg

/-- A lookup does not take the entry of a buried key for live. It misses it, or finds it
expired. -/
theorem Buried.hit (h : Buried key L) (hlate : env.Late) (i : Nat) {found : Option Entry}
    (hf : ∀ e, found = some e → e ∈ L ∧ e.key = key) :
    hit (env.mpsClockTimeMs i) found = .absent ∧ found = none ∨
      ∃ e, hit (env.mpsClockTimeMs i) found = .expired e ∧ found = some e ∧ e ∈ L := by
  cases found with
  | none => exact .inl ⟨rfl, rfl⟩
  | some e =>
    obtain ⟨hm, hk⟩ := hf e rfl
    refine .inr ⟨e, ?_, rfl, hm⟩
    rw [MpsShdict.hit, h e hm hk, if_pos (hlate.lookupExpired i)]

theorem others_afterExpire_subset (env : Env) (found : Option Entry) (L : List Entry) :
    others found (afterExpire env L) ⊆ L :=
  List.Subset.trans (others_subset _ _) (afterExpire_subset env L)

theorem cons_others_subset (he : e ∈ M) (found : Option Entry) : e :: others found M ⊆ M :=
  List.cons_subset.mpr ⟨he, others_subset found M⟩

/-- A store whose value is nil makes no entry. -/
theorem storeValue_tnil {op : Nat} {a : StoreArgs} {v : Bytes}
    (h : storeValue op a = .ok (some v)) :
    a.valueType ≠ .tnil := by
  intro ht
  unfold storeValue at h
  rw [ht] at h
  simp only at h
  split at h
  · cases h
  · cases h

/-- An entry that is not made leaves the others alone. -/
theorem insertEntry_subset {α : Type} {sd : Option Nat} {entry : Nat → Entry} {done full : Nat → α}
    (h : (insertEntry env c L sd entry done full).result ≠ done c.alloc.rounds) :
    (insertEntry env c L sd entry done full).entries ⊆ L := by
  unfold insertEntry at h ⊢
  cases hnode : c.alloc.node with
  | none => exact fun e he => mem_evictEntries he
  | some node =>
    rw [hnode] at h
    exact absurd rfl h

theorem storeInsertEntries_subset {op : Nat} {a : StoreArgs} {value : Option Bytes}
    {sd : Option Nat} (hv : storeValue op a = .ok value)
    (h : ¬ (a.valueType ≠ .tnil ∧ (storeInsertEntries env a value c L sd).result.rc = ngxOk)) :
    (storeInsertEntries env a value c L sd).entries ⊆ L := by
  cases value with
  | none => exact List.Subset.refl _
  | some v =>
    refine insertEntry_subset fun hdone => h ⟨storeValue_tnil hv, ?_⟩
    rw [storeInsertEntries, hdone]

theorem storeReplaceEntries_subset {op : Nat} {a : StoreArgs} {value : Option Bytes}
    (hv : storeValue op a = .ok value)
    (h : ¬ (a.valueType ≠ .tnil ∧ (storeReplaceEntries env a value c e L).result.rc = ngxOk)) :
    (storeReplaceEntries env a value c e L).entries ⊆ L := by
  unfold storeReplaceEntries at h ⊢
  cases value with
  | none => exact storeInsertEntries_subset hv h
  | some v =>
    by_cases hfit : e.fits v.length = true
    · simp only [if_pos hfit] at h
      exact absurd ⟨storeValue_tnil hv, trivial⟩ h
    · simp only [if_neg hfit] at h ⊢
      exact storeInsertEntries_subset hv h

/-- A store on a buried key that gives it no value makes no entry. It may remove the one
that was there. -/
theorem Buried.store {op : Nat} {a : StoreArgs} (hb : Buried a.key L) (hlate : env.Late)
    (hf : ∀ e, c.found = some e → e ∈ afterExpire env L ∧ e.key = a.key)
    (h : ¬ (op &&& mpsShdictReplaceFlag = 0 ∧ a.valueType ≠ .tnil ∧
      (storeEntries env op a c L).result.rc = ngxOk)) :
    (storeEntries env op a c L).entries ⊆ L := by
  have hsub := afterExpire_subset env L
  unfold storeEntries at h ⊢
  cases hv : storeValue op a with
  | error msg => exact List.Subset.refl _
  | ok value =>
    simp only [hv] at h ⊢
    refine List.Subset.trans ?_ hsub
    -- the lookup misses the key or finds it expired, so a store goes to `insert` or `replace`
    rcases (hb.mono hsub).hit hlate 2 hf with ⟨hh, hfound⟩ | ⟨e, hh, hfound, he⟩
    · rw [hh] at h ⊢
      unfold storeFoundEntries at h ⊢
      by_cases hrep : op &&& mpsShdictReplaceFlag ≠ 0
      · simp only [if_pos hrep]
        exact others_subset _ _
      · simp only [if_neg hrep] at h ⊢
        have hne : ¬ (a.valueType ≠ .tnil ∧
            (storeInsertEntries env a value c (others c.found (afterExpire env L)) none).result.rc =
              ngxOk) := by
          intro hok
          refine h ⟨not_not.mp hrep, hok.1, ?_⟩
          split
          · exact hok.2
          · exact hok.2
        have hins := List.Subset.trans (storeInsertEntries_subset hv hne) (others_subset _ _)
        split
        · exact hins
        · exact hins
    · rw [hh] at h ⊢
      unfold storeFoundEntries at h ⊢
      by_cases hrep : op &&& mpsShdictReplaceFlag ≠ 0
      · simp only [if_pos hrep]
        exact cons_others_subset he _
      · simp only [if_neg hrep] at h ⊢
        have hne : ¬ (a.valueType ≠ .tnil ∧
            (storeReplaceEntries env a value c e (others c.found (afterExpire env L))).result.rc =
              ngxOk) := by
          intro hok
          refine h ⟨not_not.mp hrep, hok.1, ?_⟩
          split
          · exact hok.2
          · exact hok.2
        have hins := List.Subset.trans (storeReplaceEntries_subset hv hne) (others_subset _ _)
        split
        · exact hins
        · exact hins

/-- A counter on a buried key that is not started makes no entry, and it is not counted up
either. -/
theorem Buried.incr {a : IncrArgs} (hb : Buried a.key L) (hlate : env.Late)
    (hf : ∀ e, c.found = some e → e ∈ afterExpire env L ∧ e.key = a.key)
    (h : ¬ (a.init ≠ none ∧ (incrEntries env a c L).result.rc = ngxOk)) :
    (incrEntries env a c L).entries ⊆ L := by
  have hsub := afterExpire_subset env L
  have hins : ∀ num sd,
      ¬ (incrInsertEntries env a num c (others c.found (afterExpire env L)) sd).result.rc =
      ngxOk →
      (incrInsertEntries env a num c (others c.found (afterExpire env L)) sd).entries ⊆ L := by
    intro num sd hne
    refine List.Subset.trans (insertEntry_subset fun hdone => hne ?_)
      (others_afterExpire_subset _ _ _)
    rw [incrInsertEntries, hdone]
  unfold incrEntries at h ⊢
  rcases (hb.mono hsub).hit hlate 2 hf with ⟨hh, hfound⟩ | ⟨e, hh, hfound, he⟩
  · rw [hh] at h ⊢
    cases hi : a.init with
    | none => exact others_afterExpire_subset _ _ _
    | some init =>
      rw [hi] at h
      exact hins _ _ fun hok => h ⟨by simp, hok⟩
  · rw [hh] at h ⊢
    cases hi : a.init with
    | none => exact List.Subset.trans (cons_others_subset he _) hsub
    | some init =>
      rw [hi] at h
      by_cases hfit : e.fits 8 = true
      · simp only [if_pos hfit] at h
        exact absurd ⟨by simp, trivial⟩ h
      · simp only [if_neg hfit] at h ⊢
        exact hins _ _ fun hok => h ⟨by simp, hok⟩

/-- A push of an element that does not get to a new list makes no entry. -/
theorem pushNodeEntries_subset {a : PushArgs} {v : Bytes}
    (h : (pushNodeEntries a v c e [] L).result.taken ≠ true) :
    (pushNodeEntries a v c e [] L).entries ⊆ L := by
  unfold pushNodeEntries at h ⊢
  cases hnode : c.elem with
  | none =>
    simp only
    rw [if_pos (show u32 ([] : List Elem).length = 0 from rfl)]
    exact List.Subset.refl _
  | some lnode =>
    rw [hnode] at h
    exact absurd rfl h

theorem initListEntries_subset {a : PushArgs} {v : Bytes} {sd : Option Nat}
    (h : (initListEntries env a v c L sd).result.taken ≠ true) :
    (initListEntries env a v c L sd).entries ⊆ L := by
  unfold initListEntries at h ⊢
  cases hnode : c.alloc.node with
  | none => exact List.Subset.refl _
  | some node =>
    simp only [hnode] at h
    exact pushNodeEntries_subset h

/-- A push to a buried key that fails makes no entry. -/
theorem Buried.push {a : PushArgs} (hb : Buried a.key L) (hlate : env.Late)
    (hf : ∀ e, c.found = some e → e ∈ afterExpire env L ∧ e.key = a.key)
    (h : (pushEntries env a c L).result.taken ≠ true) : (pushEntries env a c L).entries ⊆ L := by
  have hsub := afterExpire_subset env L
  unfold pushEntries at h ⊢
  cases hv : pushValue a with
  | error msg => exact List.Subset.refl _
  | ok v =>
    simp only [hv] at h ⊢
    refine List.Subset.trans ?_ (others_afterExpire_subset env c.found L)
    rcases (hb.mono hsub).hit hlate 2 hf with ⟨hh, hfound⟩ | ⟨e, hh, hfound, he⟩
    · rw [hh] at h ⊢
      exact initListEntries_subset h
    · rw [hh] at h ⊢
      cases hval : e.value with
      | plain valueType bytes =>
        simp only [hval] at h ⊢
        exact initListEntries_subset h
      | list elems =>
        simp only [hval] at h ⊢
        exact pushNodeEntries_subset h

/-- **A call on a buried key makes no entry of it**, unless it gives it a value or a deadline. -/
theorem Buried.own (hb : Buried key L) (hlate : env.Late) (hc : call.Picks ord env L c)
    (hkey : call.key = some key) (hset : ¬ call.Sets key (call.entries env c L).result)
    (hdate : ¬ call.Dates key (call.entries env c L).result) :
    (call.entries env c L).entries ⊆ L := by
  have hsub := afterExpire_subset env L
  have hf := (hc.finds key hkey).sound
  -- the calls that may make an entry have lemmas of their own
  cases call with
  | store op a =>
    obtain rfl := Option.some.inj hkey
    exact hb.store hlate hf fun h => hset ⟨rfl, h⟩
  | incr a =>
    obtain rfl := Option.some.inj hkey
    exact hb.incr hlate hf fun h => hset ⟨rfl, h⟩
  | push a =>
    obtain rfl := Option.some.inj hkey
    exact hb.push hlate hf fun h => hset ⟨rfl, h⟩
  | get k bufLen getStale =>
    have hlook : lookupEntries c.found L ⊆ L := lookupEntries_subset fun e he => (hf e he).1
    simp only [Call.entries, Outcome.map, getEntries]
    rcases hb.hit hlate 2 hf with ⟨hh, -⟩ | ⟨e, hh, -, -⟩
    · rw [hh]
      exact hlook
    · rw [hh]
      cases getStale with
      | true => exact hlook
      | false => exact hlook
  | pop direction k bufLen =>
    simp only [Call.entries, Outcome.map, popEntries]
    rcases (hb.mono hsub).hit hlate 2 hf with ⟨hh, -⟩ | ⟨e, hh, -, he⟩
    · rw [hh]
      exact others_afterExpire_subset _ _ _
    · rw [hh]
      exact List.Subset.trans (cons_others_subset he _) hsub
  | llen k =>
    simp only [Call.entries, Outcome.map, llenEntries]
    rcases (hb.mono hsub).hit hlate 2 hf with ⟨hh, -⟩ | ⟨e, hh, -, he⟩
    · rw [hh]
      exact others_afterExpire_subset _ _ _
    · rw [hh]
      exact List.Subset.trans (cons_others_subset he _) hsub
  | getTtl k => exact List.Subset.refl _
  | setExpire k exptime =>
    simp only [Call.entries, Outcome.map, setExpireEntries] at hdate ⊢
    cases hfound : c.found with
    | none => exact List.Subset.refl _
    | some e =>
      rw [hfound] at hdate
      exact absurd ⟨Option.some.inj hkey, rfl⟩ hdate
  | flushAll => cases hkey

/-- Other calls leave the key buried. They do not touch the deadline of its entry, but for
another flush, which sets it to 1 again. -/
theorem Buried.other (hb : Buried key L) (hnd : (L.map Entry.off).Nodup)
    (hc : call.Picks ord env L c) (hkey : call.key ≠ some key) :
    Buried key (call.entries env c L).entries := by
  cases hcall : call with
  | flushAll =>
    intro e he _
    obtain ⟨g, hL, -⟩ := flushEntries_split env L
    have hm : e ∈ L.map Call.flushAll.marks := hL ▸ List.mem_append_left _ he
    obtain ⟨y, -, rfl⟩ := List.mem_map.mp hm
    rfl
  | setExpire k exptime =>
    rw [hcall] at hc hkey
    have hstr := setExpireEntries_strangers env exptime hnd (hc.finds k rfl).sound
    intro e he hk
    have hne : some k ≠ some e.key := by
      rw [hk]
      exact hkey
    have hm : e ∈ strangers (some k) (setExpireEntries env exptime c L).entries :=
      List.mem_filter.mpr ⟨he, by simpa using hne⟩
    rw [hstr] at hm
    exact hb e (List.mem_of_mem_filter hm) hk
  | store | get | incr | push | pop | llen | getTtl =>
    obtain ⟨k, hk⟩ : ∃ k, call.key = some k := by
      rw [hcall]
      exact ⟨_, rfl⟩
    have haff := Call.affects hk (fun k t h => by rw [hcall] at h; cases h) hc
    rw [← hcall]
    intro e he hek
    rcases haff.origin he with he | ⟨-, hek', -⟩
    · exact hb e he hek
    · exact absurd (hk.trans (congrArg some (hek'.symm.trans hek))) hkey

/-- **One call leaves the key buried.** -/
theorem Buried.step (hb : Buried key L) (hlate : env.Late) (hnd : (L.map Entry.off).Nodup)
    (hc : call.Picks ord env L c) (hset : ¬ call.Sets key (call.entries env c L).result)
    (hdate : ¬ call.Dates key (call.entries env c L).result) :
    Buried key (call.entries env c L).entries := by
  by_cases hkey : call.key = some key
  · exact hb.mono (hb.own hlate hc hkey hset hdate)
  · exact hb.other hnd hc hkey

/-- **A lookup of a buried key sees nothing.** Each of the calls that look a value up has
the same answer for an expired entry as for none. -/
theorem Buried.seesNothing (hb : Buried key L) (hlate : x.env.Late)
    (hc : x.call.Picks ord x.env L c) (hanswer : x.answer = (x.call.entries x.env c L).result) :
    x.SeesNothing key := by
  have hsub := afterExpire_subset x.env L
  unfold Event.SeesNothing
  rw [hanswer]
  cases hcall : x.call with
  | get k bufLen getStale =>
    rw [hcall] at hc
    cases getStale with
    | true => trivial
    | false =>
      rintro rfl
      simp only [Call.entries, Outcome.map, getEntries]
      rcases hb.hit hlate 2 (hc.finds k rfl).sound with ⟨hh, -⟩ | ⟨e, hh, -, -⟩
      · rw [hh]
      · rw [hh]
        rfl
  | pop direction k bufLen =>
    rw [hcall] at hc
    rintro rfl
    simp only [Call.entries, Outcome.map, popEntries]
    rcases (hb.mono hsub).hit hlate 2 (hc.finds k rfl).sound with ⟨hh, -⟩ | ⟨e, hh, -, -⟩
    · rw [hh]
    · rw [hh]
  | llen k =>
    rw [hcall] at hc
    rintro rfl
    simp only [Call.entries, Outcome.map, llenEntries]
    rcases (hb.mono hsub).hit hlate 2 (hc.finds k rfl).sound with ⟨hh, -⟩ | ⟨e, hh, -, -⟩
    · rw [hh]
    · rw [hh]
  | store | incr | push | getTtl | setExpire | flushAll => trivial

/-- What holds after a flush, as long as `key` gets no value and no deadline: the key is
buried, and all lookups so far have seen nothing. By induction on the calls after the
flush. -/
theorem AfterFlush.inv (hs : 12 ≤ s) (hs' : s ≤ 16)
    (run : AfterFlush s (fun x => ¬ x.call.Sets key x.answer ∧ ¬ x.call.Dates key x.answer) xs d)
    (hlate : ∀ x ∈ xs, x.env.Late) :
    (∃ L spare, Rep (mpsSlabSizesInit (2 ^ s)) s False d L spare ∧ Buried key L) ∧
      ∀ x ∈ xs, x.SeesNothing key := by
  induction run with
  | flush run hcall h =>
    obtain ⟨L, spare, hrep⟩ := run.rep hs hs'
    obtain ⟨c, hc, hrep', -⟩ := h.entries hrep False.elim
    rw [hcall] at hc hrep'
    refine ⟨⟨_, _, hrep', ?_⟩, by simp⟩
    intro e he _
    obtain ⟨g, hL, -⟩ := flushEntries_split _ L
    have hm : e ∈ L.map Call.flushAll.marks := hL ▸ List.mem_append_left _ he
    obtain ⟨y, -, rfl⟩ := List.mem_map.mp hm
    rfl
  | call run h hG ih =>
    next x =>
    obtain ⟨⟨L, spare, hrep, hb⟩, hsees⟩ := ih fun y hy => hlate y (List.mem_cons_of_mem _ hy)
    have hnow := hlate x List.mem_cons_self
    obtain ⟨c, hc, hrep', -, hanswer⟩ := h.entries hrep False.elim
    obtain ⟨hset, hdate⟩ := hG
    rw [hanswer] at hset hdate
    refine ⟨⟨_, _, hrep', hb.step hnow hrep.laid.off_nodup hc hset hdate⟩, ?_⟩
    intro y hy
    rcases List.mem_cons.mp hy with rfl | hy
    · exact hb.seesNothing hnow hc hanswer
    · exact hsees y hy

/-- **A flush is a barrier** for every key that gets no value and no deadline after it. No
get, pop or llen of the key sees anything, over any number of calls on any keys. -/
theorem flush_is_barrier (hs : 12 ≤ s) (hs' : s ≤ 16)
    (run : AfterFlush s (fun x => ¬ x.call.Sets key x.answer ∧ ¬ x.call.Dates key x.answer) xs d)
    (hlate : ∀ x ∈ xs, x.env.Late) : ∀ x ∈ xs, x.SeesNothing key :=
  (run.inv hs hs' hlate).2

end Buried

/-! ### Four strings, and a flush -/

/-- Four strings have been stored. -/
def fourDict : Shdict :=
  (storeEvent 8 [71] [72] 4608).after 12 ((storeEvent 7 [69] [70] 4480).after 12 twoDict)

/-- The string that was stored last. -/
def lastEntry : Entry := ⟨4608, [71], 0, 0, .plain .tstring [72]⟩

/-- The four calls. -/
def fourStores : List Event := [storeEvent 8 [71] [72] 4608, storeEvent 7 [69] [70] 4480,
  storeEvent 6 [67] [68] 4352, storeEvent 5 [65] [66] 4224]

theorem safeRun_fourDict : SafeRun 12 fourStores fourDict :=
  .call (.call safeRun_twoDict
    (storeEvent_runs 7 ⟨by decide, by decide⟩ (by decide) (by decide +kernel)) trivial)
    (storeEvent_runs 8 ⟨by decide, by decide⟩ (by decide) (by decide +kernel)) trivial

theorem entries_fourDict : fourDict.entries = [lastEntry, ⟨4480, [69], 0, 0, .plain .tstring [70]⟩,
    ⟨4352, [67], 0, 0, .plain .tstring [68]⟩, ⟨4224, [65], 0, 0, .plain .tstring [66]⟩] := by
  decide +kernel

/-- A flush leaves the string that was stored last, with the deadline 1. -/
theorem flush_fourDict : ∃ x d, x.call = .flushAll ∧ x.Runs 12 fourDict d ∧
    SafeRun 12 (x :: fourStores) d ∧
    d.entries = [{ lastEntry with expires := 1 }] := by
  obtain ⟨c, d, -, hentries, hx⟩ :=
    safeRun_fourDict.extend (by decide) (by decide) (calmEnv 9) .flushAll trivial trivial
  refine ⟨_, d, rfl, hx, safeRun_fourDict.call hx trivial, ?_⟩
  rw [hentries, entries_fourDict]
  show (flushEntries (calmEnv 9) _).entries = _
  decide

/-- A lookup after the flush. The string is still in the pool, with the deadline 1, and
the lookup answers nil. -/
theorem flush_is_barrier_get : ∃ x d, x.call = .get [71] 10 false ∧ x.SeesNothing [71] ∧
    AfterFlush 12 (fun x => ¬ x.call.Sets [71] x.answer ∧ ¬ x.call.Dates [71] x.answer) [x] d := by
  obtain ⟨x, d, hcall, hx, hsafe, -⟩ := flush_fourDict
  obtain ⟨c, d', -, -, hy⟩ := hsafe.extend (by decide) (by decide) (calmEnv 10)
    (.get [71] 10 false) ⟨by decide, by decide⟩ trivial
  have hafter := AfterFlush.call (.flush safeRun_fourDict.run hcall hx) hy
    (G := fun x => ¬ x.call.Sets [71] x.answer ∧ ¬ x.call.Dates [71] x.answer) ⟨id, id⟩
  exact ⟨_, d', rfl, flush_is_barrier (by decide) (by decide) hafter (by simp [Env.Late, calmEnv]) _
    List.mem_cons_self, hafter⟩

/-- What a lookup of `lastEntry` finds where nothing else is stored. -/
theorem finds_last {e : Entry} {key : Bytes} {found : Option Entry} (hk : e.key = key)
    (h : Finds True [e] key found) : found = some e := by
  cases hfound : found with
  | none => exact absurd hk (h.complete trivial hfound e List.mem_cons_self)
  | some x => rw [List.mem_singleton.mp (h.sound x hfound).1]

/-- **A deadline that is set after a flush brings the value back**: the string that was
stored last gets a deadline and is seen again. -/
theorem not_flush_is_barrier :
    ¬ ∀ key xs d, AfterFlush 12 (fun x => ¬ x.call.Sets key x.answer) xs d →
    (∀ x ∈ xs, ∀ i, 2 ≤ x.env.clock i) → Nondecreasing xs → ∀ x ∈ xs, x.SeesNothing key := by
  intro h
  obtain ⟨x, d, hcall, hx, hsafe, hentries⟩ := flush_fourDict
  obtain ⟨c, d₁, hc, hentries₁, hy⟩ := hsafe.extend (by decide) (by decide) (calmEnv 10)
    (.setExpire [71] 0) ⟨⟨by decide, by decide⟩, by decide⟩ trivial
  have hsafe₁ : SafeRun 12 _ d₁ := hsafe.call hy trivial
  rw [hentries] at hc hentries₁ hy
  have hfound : c.found = some { lastEntry with expires := 1 } := finds_last rfl (hc.finds [71] rfl)
  have hlast : d₁.entries = [lastEntry] := by
    rw [hentries₁]
    simp only [Call.entries, Outcome.map, setExpireEntries, hfound]
    decide
  obtain ⟨c', d₂, hc', -, hz⟩ := hsafe₁.extend (by decide) (by decide) (calmEnv 11)
    (.get [71] 10 false) ⟨by decide, by decide⟩ trivial
  rw [hlast] at hc' hz
  have hfound' : c'.found = some lastEntry := finds_last rfl (hc'.finds [71] rfl)
  have hafter := AfterFlush.call (.call (.flush safeRun_fourDict.run hcall hx) hy id) hz
    (G := fun x => ¬ x.call.Sets [71] x.answer) id
  have hsees := h _ _ _ hafter (by simp [calmEnv])
    ⟨by simp [calmEnv], by simp [calmEnv, monotone_const], by simp [calmEnv]⟩
      _ List.mem_cons_self rfl
  simp only [Call.entries, Outcome.map, getEntries, hfound'] at hsees
  exact absurd hsees (by decide)

end MpsShdict
