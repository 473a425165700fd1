import MpsShdict.ShdictRecency

/-! # Two tests for a deadline

`mps_shdict_expire` frees an entry from the instant of its deadline on, and
`mps_shdict_lookup` takes it for live until that instant is over.

The one compares with `ms > 0` and the other with `ms < 0`. So expiry takes away nothing
that a lookup would still report, except at the very millisecond of a deadline, and only
of an entry that expiry gets to: the last one of the LRU queue or the one before it.
`DueNow` is that condition, and the main result says that expiry is invisible just where
it does not hold.
-/
namespace MpsShdict

open Words

/-! ### The tests -/

section Tests
variable {a t : Nat}

/-- The two tests differ at the deadline and nowhere else. -/
theorem expireKeeps_eq_false (ha : a < 2 ^ 64) (ht : t < 2 ^ 64) :
    expireKeeps a t = false ↔ lookupExpired a t = true ∨ a ≠ 0 ∧ a = t := by
  have hzero : int64 (sub64 a t) = 0 ↔ a = t := by
    unfold int64 sub64
    split
    · omega
    · omega
  simp only [expireKeeps, lookupExpired, Bool.or_eq_false_iff,
    Bool.and_eq_true, decide_eq_false_iff_not, decide_eq_true_eq, not_lt, ne_eq]
  constructor
  · rintro ⟨h0, hle⟩
    rcases Int.lt_or_eq_of_le hle with hlt | heq
    · exact .inl ⟨h0, hlt⟩
    · exact .inr ⟨h0, hzero.mp heq⟩
  · rintro (⟨h0, hlt⟩ | ⟨h0, heq⟩)
    · exact ⟨h0, hlt.le⟩
    · exact ⟨h0, (hzero.mpr heq).le⟩

theorem lookupExpired_self (t : Nat) : lookupExpired t t = false := by
  have hsub : sub64 t t = 2 ^ 64 % 2 ^ 64 := by
    unfold sub64
    omega
  rw [lookupExpired, hsub]
  simp [int64]

end Tests

/-! ### Deadlines fit their field -/

section Deadlines
variable {s : Nat} {ord : Prop} {d : Shdict} {L : List Entry} {env : Env} {c : Choice} {call : Call}
  {xs : List Event}

theorem deadline_lt_size (now : Nat) (exptime : Int) : deadline now exptime < 2 ^ 64 := by
  unfold deadline
  split
  · exact u64_lt _
  · omega

theorem Call.expires_lt (hc : call.Picks ord env L c) (h : ∀ e ∈ L, e.expires < 2 ^ 64) :
    ∀ e ∈ (call.entries env c L).entries, e.expires < 2 ^ 64 := by
  intro e he
  cases hcall : call with
  | flushAll =>
    rw [hcall] at he
    obtain ⟨g, hL, -⟩ := flushEntries_split env L
    have hm : e ∈ L.map Call.flushAll.marks := hL ▸ List.mem_append_left _ he
    obtain ⟨y, -, rfl⟩ := List.mem_map.mp hm
    show 1 < 2 ^ 64
    omega
  | setExpire k exptime =>
    rw [hcall] at he
    simp only [Call.entries, Outcome.map, setExpireEntries] at he
    split at he
    · exact h e he
    · obtain ⟨y, hy, rfl⟩ := List.mem_map.mp he
      split
      · exact deadline_lt_size _ _
      · exact h y hy
  | store | get | incr | push | pop | llen | getTtl =>
    obtain ⟨k, hk⟩ : ∃ k, call.key = some k := by
      rw [hcall]
      exact ⟨_, rfl⟩
    have haff := Call.affects hk (fun k t h => by rw [hcall] at h; cases h) hc
    rcases haff.origin he with he | ⟨-, -, found, hf, hw⟩
    · exact h e he
    · rcases hw.due with ⟨y, hy, heq⟩ | heq | ⟨i, heq⟩
      · rw [heq]
        exact h y (hf y hy).1
      · omega
      · rw [heq]
        exact deadline_lt_size _ _

theorem Run.expires_lt (hs : 12 ≤ s) (hs' : s ≤ 16) (run : Run s xs d) :
    ∀ e ∈ d.entries, e.expires < 2 ^ 64 := by
  have h : ∃ L spare, Rep (mpsSlabSizesInit (2 ^ s)) s False d L spare ∧
      ∀ e ∈ L, e.expires < 2 ^ 64 := by
    induction run with
    | init h => exact ⟨[], [], h.rep hs hs', by simp⟩
    | call run h ih =>
      obtain ⟨L, spare, hrep, hlt⟩ := ih
      obtain ⟨c, hc, hrep', -⟩ := h.entries hrep False.elim
      exact ⟨_, _, hrep', Call.expires_lt hc hlt⟩
  obtain ⟨L, spare, hrep, hlt⟩ := h
  rwa [hrep.entries_eq]

end Deadlines

/-! ### What expiry removes -/

/-- One of the entries that `mps_shdict_expire` looks at has the deadline `t`: the last
one of the LRU queue, or the one before it if the last one has expired. At a deadline of 0
an entry never expires. -/
def DueNow (t : Nat) (L : List Entry) : Prop :=
  t ≠ 0 ∧ ((∃ e, L.getLast? = some e ∧ e.expires = t) ∨
    ∃ e e', L.getLast? = some e ∧ lookupExpired e.expires t = true ∧ L.dropLast.getLast? = some e' ∧
      e'.expires = t)

section Removed
variable {t : Nat} {L A : List Entry} {e : Entry}

/-- An entry is removed by a step of expiry unless it is kept, and expiry stops at the
first one that is. -/
theorem expireEntries_concat (left : Nat) (A : List Entry) (e : Entry) (hleft : left < 2) :
    (expireEntries t (left + 1) (A ++ [e])).1 =
      if expireKeeps e.expires t then A ++ [e] else (expireEntries t left A).1 := by
  have hgl : (A ++ [e]).getLast? = some e := by simp
  have hn : 3 - (left + 1) ≠ 0 := by omega
  rw [expireEntries, hgl]
  simp only [hn, ne_eq, not_false_eq_true, true_and, List.dropLast_concat]
  split
  · rfl
  · rfl

theorem dueNow_nil (t : Nat) : ¬ DueNow t [] := by
  rintro ⟨-, ⟨e, he, -⟩ | ⟨e, e', he, -⟩⟩
  · cases he
  · cases he

theorem dueNow_concat (t : Nat) (A : List Entry) (e : Entry) :
    DueNow t (A ++ [e]) ↔ t ≠ 0 ∧ (e.expires = t ∨
      lookupExpired e.expires t = true ∧ ∃ e', A.getLast? = some e' ∧ e'.expires = t) := by
  simp [DueNow]

/-- An entry that expiry does not keep has expired, or is due now. -/
theorem expired_or_due (ht : t < 2 ^ 64) (hlt : e.expires < 2 ^ 64)
    (hk : ¬ expireKeeps e.expires t = true) :
    lookupExpired e.expires t = true ∧ e.expires ≠ t ∨
      lookupExpired e.expires t = false ∧ e.expires = t ∧ t ≠ 0 := by
  rcases (expireKeeps_eq_false hlt ht).mp (Bool.not_eq_true _ ▸ hk) with h | ⟨h0, heq⟩
  · refine .inl ⟨h, ?_⟩
    intro heq
    rw [heq, lookupExpired_self] at h
    cases h
  · refine .inr ⟨?_, heq, heq ▸ h0⟩
    rw [heq, lookupExpired_self]

/-- An entry that expiry keeps has not expired, and is not due now. -/
theorem not_expired_of_keeps (ht : t < 2 ^ 64) (hlt : e.expires < 2 ^ 64)
    (hk : expireKeeps e.expires t = true) :
    lookupExpired e.expires t = false ∧ ¬ (e.expires = t ∧ t ≠ 0) := by
  have h : ¬ (lookupExpired e.expires t = true ∨ e.expires ≠ 0 ∧ e.expires = t) := by
    intro h
    rw [(expireKeeps_eq_false hlt ht).mpr h] at hk
    cases hk
  rw [not_or] at h
  refine ⟨Bool.not_eq_true _ ▸ h.1, fun ⟨heq, h0⟩ => h.2 ⟨heq ▸ h0, heq⟩⟩

/-- **Everything that expiry removes has expired**, unless a deadline is just reached.
Expiry looks at two entries at most, so the cases are the last entry and the one before
it. -/
theorem expireEntries_removed (ht : t < 2 ^ 64) (hlt : ∀ e ∈ L, e.expires < 2 ^ 64) :
    ∃ R, L = (expireEntries t 2 L).1 ++ R ∧
      ((∀ e ∈ R, lookupExpired e.expires t = true) ↔ ¬ DueNow t L) := by
  rcases List.eq_nil_or_concat' L with rfl | ⟨A, e, rfl⟩
  · exact ⟨[], by simp [expireEntries_nil], by simp [dueNow_nil]⟩
  rw [expireEntries_concat 1 A e (by omega), dueNow_concat]
  have hle := hlt e (by simp)
  by_cases hk : expireKeeps e.expires t = true
  · obtain ⟨hexp, hdue⟩ := not_expired_of_keeps ht hle hk
    refine ⟨[], by rw [if_pos hk, List.append_nil], ?_⟩
    simp only [List.not_mem_nil, false_implies, implies_true,
      hexp, Bool.false_eq_true, false_and, or_false, true_iff]
    exact fun h => hdue ⟨h.2, h.1⟩
  rw [if_neg hk]
  obtain ⟨R, hA, -, hR⟩ := expireEntries_split t (show 1 ≤ 2 by omega) A
  rcases expired_or_due ht hle hk with ⟨hexp, hne⟩ | ⟨hexp, heq, h0⟩
  · -- the last entry has expired, and the one before it decides
    rcases List.eq_nil_or_concat' A with rfl | ⟨B, e', rfl⟩
    · exact ⟨[e], by simp [expireEntries_nil], by simp [hexp, hne]⟩
    have hle' := hlt e' (by simp)
    rw [expireEntries_concat 0 B e' (by omega)]
    by_cases hk' : expireKeeps e'.expires t = true
    · obtain ⟨-, hdue⟩ := not_expired_of_keeps ht hle' hk'
      refine ⟨[e], by rw [if_pos hk'], ?_⟩
      simp only [List.mem_singleton, forall_eq, hexp, hne, false_or, true_and, List.getLast?_append,
        List.getLast?_singleton, Option.some_or, Option.some.injEq, exists_eq_left', true_iff]
      exact fun h => hdue ⟨h.2, h.1⟩
    · refine ⟨[e', e], by rw [if_neg hk']; simp [expireEntries], ?_⟩
      rcases expired_or_due ht hle' hk' with ⟨hexp', hne'⟩ | ⟨hexp', heq', h0⟩
      · simp [hexp, hexp', hne, hne']
      · simp [hexp, hne, heq', h0, lookupExpired_self]
  · -- the last entry is due now
    refine ⟨R ++ [e], ?_, ?_⟩
    · rw [← List.append_assoc, ← hA]
    · simp [heq, h0, lookupExpired_self]

end Removed

/-! ### What lookups report -/

/-- The entry that a lookup of `key` at `now` reports as live, with what it reads from it.
An expired entry is not reported. -/
def Shdict.reports (d : Shdict) (now : Nat) (key : Bytes) : Option Entry :=
  match mpsShdictLookup d now (ngxMurmurHash2 key) key with
  | some (d', .ok node) => some (d'.readEntry node)
  | _ => none

/-- Expiry at `t` is invisible: lookups at `t` report the same live entries before and after
it, and it removes nothing but entries that have expired. -/
structure ExpiryInvisible (s : Nat) (d : Shdict) (t : Nat) : Prop where
  reports : ∀ base d' n, 2 ^ s ∣ base →
    mpsShdictExpire (mpsSlabSizesInit (2 ^ s)) base t d 1 = some (d', n) →
    ∀ key, d'.reports t key = d.reports t key
  removed : ∀ base d' n, 2 ^ s ∣ base →
    mpsShdictExpire (mpsSlabSizesInit (2 ^ s)) base t d 1 = some (d', n) →
    ∀ e ∈ d.entries, e ∉ d'.entries → lookupExpired e.expires t = true

section Reports
variable {s : Nat} {d d' : Shdict} {L A R : List Entry} {spare : List Block}
  {xs : List Event} {t : Nat}

/-- The live entry of a key among the entries `L`, by the test that a lookup makes. -/
def liveEntry (t : Nat) (key : Bytes) (L : List Entry) : Option Entry :=
  L.find? fun e => e.key = key && !lookupExpired e.expires t

/-- **A lookup reports the live entry of its key.** -/
theorem Rep.reports (h : Rep (mpsSlabSizesInit (2 ^ s)) s True d L spare) (t : Nat) (key : Bytes) :
    d.reports t key = liveEntry t key L := by
  obtain ⟨found, d', hf, hlook, hrep, -⟩ := mpsShdictLookup_spec h t key
  rw [Shdict.reports, hlook]
  cases found with
  | none =>
    have hnone : liveEntry t key L = none := by
      refine List.find?_eq_none.mpr ?_
      intro e he
      simp [hf.complete trivial rfl e he]
    rw [hnone]
    rfl
  | some e =>
    obtain ⟨he, hk⟩ := hf.sound e rfl
    have huniq : ∀ x ∈ L, x.key = key → x = e := fun x hx hxk =>
      h.key_inj trivial hx he (hxk.trans hk.symm)
    by_cases hexp : lookupExpired e.expires t = true
    · have hnone : liveEntry t key L = none := by
        refine List.find?_eq_none.mpr ?_
        intro x hx
        by_cases hxk : x.key = key
        · rw [huniq x hx hxk]
          simp [hexp]
        · simp [hxk]
      rw [hnone]
      simp only [hit, if_pos hexp, Hit.lookup]
    · have hread : d'.readEntry e.off = e := by
        have hmem : e ∈ lookupEntries (some e) L := List.mem_cons_self
        refine (hrep.shape.entries e hmem).readEntry ?_
        have hlen := hrep.laid.elems e hmem
        rwa [Shdict.rounds]
      have hsome : liveEntry t key L = some e := by
        obtain ⟨x, hx⟩ := Option.isSome_iff_exists.mp (show (liveEntry t key L).isSome by
          refine List.find?_isSome.mpr ⟨e, he, ?_⟩
          simp [hk, hexp])
        have hxk := List.find?_some hx
        simp only [Bool.and_eq_true, decide_eq_true_eq] at hxk
        rw [hx, huniq x (List.mem_of_find?_eq_some hx) hxk.1]
      rw [hsome]
      simp only [hit, if_neg hexp, Hit.lookup, hread]

/-- What has expired is not reported. -/
theorem liveEntry_append (key : Bytes) (hR : ∀ e ∈ R, lookupExpired e.expires t = true) :
    liveEntry t key (A ++ R) = liveEntry t key A := by
  have hnone : R.find? (fun e => e.key = key && !lookupExpired e.expires t) = none := by
    refine List.find?_eq_none.mpr ?_
    intro e he
    simp [hR e he]
  rw [liveEntry, List.find?_append, hnone, Option.or_none]
  rfl

/-- Expiry is invisible unless a deadline is just reached. -/
theorem SafeRun.expiryInvisible_iff (hs : 12 ≤ s) (hs' : s ≤ 16) (run : SafeRun s xs d)
    (ht : t < 2 ^ 64) :
    ExpiryInvisible s d t ↔ ¬ DueNow t d.entries := by
  obtain ⟨spare, hrep⟩ := run.rep hs hs'
  obtain ⟨R, hL, hiff⟩ := expireEntries_removed ht (run.run.expires_lt hs hs')
  obtain ⟨d', hrun, hrep', -⟩ := expireLoop_spec t 2 hrep
  set A := (expireEntries t 2 d.entries).1 with hA
  have honly : ∀ base d₁ n, 2 ^ s ∣ base →
      mpsShdictExpire (mpsSlabSizesInit (2 ^ s)) base t d 1 = some (d₁, n) → d₁ = d' := by
    intro base d₁ n hbase h
    exact (Prod.mk.inj (Option.some.inj (h.symm.trans (hrun base hbase)))).1
  have hnodup : (A ++ R).Nodup := hL ▸ hrep.laid.nodup
  rw [← hiff]
  constructor
  · intro h e he
    by_contra hlive
    refine hlive (h.removed 0 d' _ (Nat.dvd_zero _) (hrun 0 (Nat.dvd_zero _)) e ?_ ?_)
    · rw [hL]
      exact List.mem_append_right _ he
    · rw [hrep'.entries_eq]
      exact fun hm => List.disjoint_of_nodup_append hnodup hm he
  · intro hR
    constructor
    · intro base d₁ n hbase h key
      obtain rfl := honly base d₁ n hbase h
      rw [hrep'.reports, hrep.reports, hL, liveEntry_append key hR]
    · intro base d₁ n hbase h e he hgone
      obtain rfl := honly base d₁ n hbase h
      rw [hrep'.entries_eq] at hgone
      rw [hL] at he
      exact hR e ((List.mem_append.mp he).resolve_left hgone)

/-- **Opportunistic expiry is invisible** in every state of a safe run, at every time that is
not the deadline of an entry that it looks at, and at no other. -/
theorem expiry_invisible_iff (hs : 12 ≤ s) (hs' : s ≤ 16) (run : SafeRun s xs d) (ht : t < 2 ^ 64) :
    ExpiryInvisible s d t ↔ ¬ DueNow t d.entries :=
  run.expiryInvisible_iff hs hs' ht

end Reports

/-! ### A string with a deadline -/

/-- A string is stored at the time 5, for 5 milliseconds. Its deadline is 10. -/
def dueEvent : Event :=
  ⟨0, calmEnv 5, .set ⟨[65], .tstring, some [66], Double.zero, 5, 0⟩,
    some 4224, .store ⟨ngxOk, none, 0⟩⟩

/-- The dictionary with that string. -/
def dueDict : Shdict := dueEvent.after 12 emptyDict

theorem safeRun_dueDict : SafeRun 12 [dueEvent] dueDict := by
  refine .call (.init fresh_emptyDict)
    (Event.runs_after (by decide) ⟨⟨⟨by decide, by decide⟩, ?_⟩, by decide⟩
    (by decide +kernel)) trivial
  intro v hv
  obtain rfl := Option.some.inj hv
  decide

theorem entries_dueDict : dueDict.entries = [⟨4224, [65], 0, 10, .plain .tstring [66]⟩] := by
  decide +kernel

/-- **At its deadline an entry is live for a lookup and gone for expiry.** The string with
the deadline 10 is reported at 10, and expiry at 10 takes it away. -/
theorem not_expiryInvisible : ¬ ∀ (s : Nat) xs d t, 12 ≤ s → s ≤ 16 → Run s xs d → t < 2 ^ 64 →
    ExpiryInvisible s d t := by
  intro h
  have hinv := h 12 [dueEvent] dueDict 10 (by decide) (by decide) safeRun_dueDict.run (by decide)
  refine (safeRun_dueDict.expiryInvisible_iff (by decide) (by decide) (by decide)).mp hinv ?_
  rw [entries_dueDict]
  exact ⟨by decide, .inl ⟨_, rfl, rfl⟩⟩

/-- One millisecond later it is gone for both, and expiry that takes it away changes
nothing that a lookup reports. -/
theorem expiry_invisible_iff_later : ExpiryInvisible 12 dueDict 11 ↔ ¬ DueNow 11 dueDict.entries :=
  expiry_invisible_iff (by decide) (by decide) safeRun_dueDict (by decide)

end MpsShdict
