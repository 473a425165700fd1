import MpsShdict.ShdictFrame
import MpsShdict.ShdictInvariant
import MpsShdict.ShdictValues

/-! # What a counter counts

As long as the tree is in order, what a call sees at a time is what is live then. A
counter that is not live is started anew in one of three ways, and ends up the same.

There may be no entry, an expired one whose value has eight bytes, or another expired one;
the source inserts a new entry, writes the number into the old one, or removes the old one
before it inserts. `IncrExact` does not tell these apart. It says what a counter is for: a
number that is live is added to and keeps its flags and its deadline, and one that is not
is the sum of the initial value and the increment.

`Sees` is used for the other calls as well: it says of what a lookup and a reclaim have
come to which entry of the key is live, and that no live entry of another key has gone.
-/
namespace MpsShdict

open Words

/-! ### What a call sees -/

/-- A call on `key` at the time `t` meets its entry, if it is live, and all others in
`rest` that are. What is in `rest` belongs to other keys. -/
structure Sees (t : Nat) (key : Bytes) (L rest : List Entry) (h : Hit) : Prop where
  live : ∀ e, h = .live e → e ∈ L ∧ e.key = key ∧ e.Live t
  expired : ∀ e, h = .expired e → e ∈ L ∧ e.key = key ∧ ¬ e.Live t
  found : ∀ e ∈ L, e.key = key → e.Live t → h = .live e
  own : ∀ y ∈ rest, y.key ≠ key
  subset : rest ⊆ L
  others : ∀ y ∈ L, y.key ≠ key → y.Live t → y ∈ rest

section Sees
variable {t : Nat} {key : Bytes} {L M R rest : List Entry} {found : Option Entry}
  {e e' : Entry} {h : Hit} {env : Env}

/-- What a lookup takes for expired is not live, unless it is due this very moment. The
signed difference is right since no deadline is further away than a time to live. -/
theorem Entry.lookupExpired_iff (ht : t < 2 ^ 62) (hdue : e.expires < t + 2 ^ 63)
    (hne : e.expires ≠ 0 → e.expires ≠ t) : lookupExpired e.expires t = true ↔ ¬ e.Live t := by
  have hsub : int64 (sub64 e.expires t) = (e.expires : Int) - t := int64_sub64 (by omega) (by omega)
  simp only [lookupExpired, hsub, Bool.and_eq_true, decide_eq_true_eq, Entry.Live]
  omega

/-- An entry that has been reclaimed is not live. The test of `mps_shdict_expire` is the
stricter one. -/
theorem not_live_of_expired (hdue : DueBy t R) (hR : ∀ e ∈ R, expireKeeps e.expires t = false) :
    ∀ e ∈ R, ¬ e.Live t := fun e he hl =>
  Bool.false_ne_true ((hR e he).symm.trans (hl.keeps (hdue e he)))

/-- **A call sees what is live**, if the tree is in order. -/
theorem sees (ht : t < 2 ^ 62) (hdue : DueBy t (M ++ R)) (hR : ∀ e ∈ R, ¬ e.Live t)
    (hf : Finds True M key found) (honly : ∀ x ∈ others found M, x.key ≠ key)
    (hinj : ∀ x ∈ M ++ R, ∀ y ∈ M ++ R, x.key = y.key → x = y)
    (hne : ∀ e ∈ M ++ R, e.key = key → e.expires ≠ 0 → e.expires ≠ t) :
    Sees t key (M ++ R) (others found M) (hit t found) := by
  have hML : M ⊆ M ++ R := List.subset_append_left M R
  have hexp : ∀ e, found = some e → (lookupExpired e.expires t = true ↔ ¬ e.Live t) := by
    intro e he
    obtain ⟨hm, hk⟩ := hf.sound e he
    exact Entry.lookupExpired_iff ht (hdue e (hML hm)) (hne e (hML hm) hk)
  -- what is live has not been reclaimed, so it is among the entries that are searched
  have hlive : ∀ e ∈ M ++ R, e.Live t → e ∈ M := fun e he hl =>
    (List.mem_append.mp he).resolve_right fun hr => hR e hr hl
  refine ⟨?_, ?_, ?_, honly, ?_, ?_⟩
  · intro e he
    cases found with
    | none => cases he
    | some x =>
      obtain ⟨hm, hk⟩ := hf.sound x rfl
      rw [hit] at he
      split at he
      · cases he
      · next hx =>
        obtain rfl := Hit.live.inj he
        exact ⟨hML hm, hk, not_not.mp fun hl => hx ((hexp x rfl).mpr hl)⟩
  · intro e he
    cases found with
    | none => cases he
    | some x =>
      obtain ⟨hm, hk⟩ := hf.sound x rfl
      rw [hit] at he
      split at he
      · next hx =>
        obtain rfl := Hit.expired.inj he
        exact ⟨hML hm, hk, (hexp x rfl).mp hx⟩
      · cases he
  · intro e he hk hl
    cases found with
    | none => exact absurd hk (hf.complete trivial rfl e (hlive e he hl))
    | some x =>
      obtain ⟨hm, hkx⟩ := hf.sound x rfl
      obtain rfl := hinj x (hML hm) e he (hkx.trans hk.symm)
      rw [hit, if_neg fun hx => (hexp x rfl).mp hx hl]
  · exact List.Subset.trans (others_subset found M) hML
  · intro y hy hk hl
    have hm := hlive y hy hl
    cases found with
    | none => exact hm
    | some x =>
      have hyx : y ≠ x := by
        rintro rfl
        exact hk (hf.sound y rfl).2
      exact (List.mem_erase_of_ne hyx).mpr hm

/-- **What a call sees** that reclaims and then searches, with the clock at `t`
throughout. -/
theorem Call.Picks.sees {call : Call} {c : Choice} (hc : call.Picks True env L c)
    (hkey : call.key = some key) (hseen : call.seen env L = afterExpire env L) (ht : t < 2 ^ 62)
    (htime : ∀ i, env.mpsClockTimeMs i = t)
    (hdue : DueBy t L) (hinj : ∀ x ∈ L, ∀ y ∈ L, x.key = y.key → x = y)
    (hne : ∀ e ∈ L, e.key = key → e.expires ≠ 0 → e.expires ≠ t) :
    Sees t key L (MpsShdict.others c.found (afterExpire env L)) (hit t c.found) := by
  obtain ⟨R, hL, -, hR⟩ := expireEntries_split (env.mpsClockTimeMs 1) le_rfl L
  have hL' : L = afterExpire env L ++ R := hL
  rw [htime] at hR
  have hdueR : DueBy t R := fun e he => hdue e (hL' ▸ List.mem_append_right _ he)
  have hf := hc.finds key hkey
  have honly := hc.only trivial key hkey
  rw [hseen] at hf honly
  have hs : Sees t key (afterExpire env L ++ R)
    (MpsShdict.others c.found (afterExpire env L)) (hit t c.found) :=
    MpsShdict.sees ht (hL' ▸ hdue) (not_live_of_expired hdueR hR) hf honly (hL' ▸ hinj) (hL' ▸ hne)
  rwa [← hL'] at hs

/-- Others are as they were, whatever is at the head. -/
theorem Sees.frame (hsees : Sees t key L rest h) (hk : e'.key = key) (y : Entry)
    (hy : y.key ≠ key) :
    (y ∈ e' :: rest → y ∈ L) ∧ (y ∈ L → y.Live t → y ∈ e' :: rest) := by
  refine ⟨?_, fun hm hl => List.mem_cons_of_mem _ (hsees.others y hm hy hl)⟩
  intro hm
  refine hsees.subset ((List.mem_cons.mp hm).resolve_left ?_)
  rintro rfl
  exact hy hk

/-- The key has the entry `e` and no other one. After a call this is all that a later
lookup of the key depends on. -/
def Binds (key : Bytes) (L : List Entry) (e : Entry) : Prop := ∀ y, y ∈ L ∧ y.key = key ↔ y = e

/-- The head is the only entry of its key. -/
theorem binds_cons (hown : ∀ y ∈ rest, y.key ≠ key) (hk : e.key = key) :
    Binds key (e :: rest) e := by
  intro y
  constructor
  · rintro ⟨hy, hyk⟩
    exact (List.mem_cons.mp hy).resolve_right fun hr => hown y hr hyk
  · rintro rfl
    exact ⟨List.mem_cons_self, hk⟩

theorem Sees.binds (hsees : Sees t key L rest h) (hk : e'.key = key) : Binds key (e' :: rest) e' :=
  binds_cons hsees.own hk

end Sees

/-! ### Counters -/

/-- The deadline that a time to live gives at the time `t`. A time to live of zero or less
gives none. -/
def dueAt (t : Nat) (ttl : Int) : Nat := if 0 < ttl then t + ttl.toNat else 0

/-- **What a counter does** at the time `t` to the entries `L`. The four cases of the key
are those of what is live there, a number, another value, nothing and no initial value,
nothing and an initial value; the last field is about all other keys. -/
structure IncrExact (t : Nat) (add : Double → Double → Double) (a : IncrArgs) (L L' : List Entry)
    (r : IncrResult) : Prop where
  /-- A number that is live is counted up, and keeps its flags and its deadline. -/
  number : ∀ e ∈ L, e.key = a.key → e.Live t → ∀ bytes, e.value = .plain .tnumber bytes →
    ∃ old : Double, old.bytes = bytes ∧ r = ⟨ngxOk, some (add old a.value), none, 0⟩ ∧
      Binds a.key L' { e with value := .plain .tnumber (add old a.value).bytes }
  /-- Another value that is live stays. -/
  other : ∀ e ∈ L, e.key = a.key → e.Live t → (∀ bytes, e.value ≠ .plain .tnumber bytes) →
    r = ⟨ngxError, none, some "not a number", 0⟩ ∧ Binds a.key L' e
  /-- Nothing is bound where nothing is live and there is nothing to start with. -/
  absent : (∀ e ∈ L, e.key = a.key → ¬ e.Live t) → a.init = none →
    r = ⟨ngxError, none, some "not found", 0⟩ ∧ L' ⊆ L
  /-- Else a number is started, however it gets there. -/
  started : (∀ e ∈ L, e.key = a.key → ¬ e.Live t) → ∀ init, a.init = some init →
    r = ⟨ngxOk, some (add a.value init), none, 0⟩ ∧ ∃ off,
      Binds a.key L' ⟨off, a.key, 0, dueAt t a.initTtl, .plain .tnumber (add a.value init).bytes⟩
  /-- The entries of other keys are as they were, but for such as are not live. -/
  others : ∀ y, y.key ≠ a.key → (y ∈ L' → y ∈ L) ∧ (y ∈ L → y.Live t → y ∈ L')

/-- No allocation has failed: none is reported, and none has made the call evict by force. -/
def IncrResult.Unfailing (r : IncrResult) : Prop := r.rounds = 0 ∧ r.err ≠ some "no memory"

section Incr
variable {s : Nat} {d d' : Shdict} {t : Nat} {a : IncrArgs} {L rest : List Entry}
  {env : Env} {c : Choice} {h : Hit} {e : Entry} {x : Event} {xs : List Event}

theorem deadline_eq (ht : t < 2 ^ 62) {ttl : Int} (httl : ttl < 2 ^ 63) :
    deadline t ttl = dueAt t ttl := by
  unfold deadline dueAt
  split
  · next hpos =>
    have hof : ofInt64 ttl = ttl.toNat := by
      unfold ofInt64
      omega
    rw [hof, u64_of_lt (by omega)]
  · rfl

/-- A counter on a key that has a live entry. It is a number or it is not, and a number
has eight bytes. -/
theorem incrLive_exact (hsees : Sees t a.key L rest h) (hh : h = .live e) (hty : e.value.Typed) :
    IncrExact t env.add a L (incrLive env a e rest).entries (incrLive env a e rest).result := by
  obtain ⟨hm, hk, hl⟩ := hsees.live e hh
  have huniq : ∀ y ∈ L, y.key = a.key → y.Live t → y = e := fun y hy hyk hyl =>
    Hit.live.inj ((hsees.found y hy hyk hyl).symm.trans hh)
  have hsome : ¬ ∀ y ∈ L, y.key = a.key → ¬ y.Live t := fun hnone => hnone e hm hk hl
  unfold incrLive
  split
  · next bytes hv =>
    rw [hv] at hty
    have hsize : bytes.length = 8 := by
      rcases hty with hty | ⟨-, hsize⟩ | ⟨hty, -⟩
      · cases hty
      · exact hsize
      · cases hty
    rw [dif_pos hsize]
    refine ⟨?_, ?_, fun hnone => absurd hnone hsome,
      fun hnone => absurd hnone hsome, hsees.frame hk⟩
    · intro y hy hyk hyl bs hyv
      obtain rfl := huniq y hy hyk hyl
      obtain ⟨-, rfl⟩ := Value.plain.inj (hv.symm.trans hyv)
      exact ⟨⟨bytes, hsize⟩, rfl, rfl, hsees.binds hk⟩
    · intro y hy hyk hyl hyv
      obtain rfl := huniq y hy hyk hyl
      exact absurd hv (hyv bytes)
  · next hv =>
    refine ⟨?_, ?_, fun hnone => absurd hnone hsome,
      fun hnone => absurd hnone hsome, hsees.frame hk⟩
    · intro y hy hyk hyl bs hyv
      obtain rfl := huniq y hy hyk hyl
      exact absurd hyv (hv bs)
    · intro y hy hyk hyl _
      obtain rfl := huniq y hy hyk hyl
      exact ⟨rfl, hsees.binds hk⟩

/-- A counter on a key that has none. Whatever way the source takes, what counts is the
entry at the head and the others behind it. -/
theorem incrExact_of_started (hsees : Sees t a.key L rest h)
    (hnone : ∀ e ∈ L, e.key = a.key → ¬ e.Live t) {init : Double}
    (hinit : a.init = some init) (off : Nat) :
    IncrExact t env.add a L
      (⟨off, a.key, 0, dueAt t a.initTtl, .plain .tnumber (env.add a.value init).bytes⟩ :: rest)
      ⟨ngxOk, some (env.add a.value init), none, 0⟩ := by
  refine ⟨fun y hy hyk hyl => absurd hyl (hnone y hy hyk),
    fun y hy hyk hyl => absurd hyl (hnone y hy hyk), ?_, ?_, hsees.frame rfl⟩
  · intro _ hi
    rw [hinit] at hi
    cases hi
  · intro _ i hi
    obtain rfl := Option.some.inj (hinit.symm.trans hi)
    exact ⟨rfl, off, hsees.binds rfl⟩

/-- A new number is inserted, if no allocation fails. -/
theorem incrInsertEntries_exact (hsees : Sees t a.key L rest h)
    (hnone : ∀ e ∈ L, e.key = a.key → ¬ e.Live t) (ht : t < 2 ^ 62)
    (htime : env.mpsClockTimeMs 0 = t) (httl : a.initTtl < 2 ^ 63) {init : Double}
    (hinit : a.init = some init) (sd : Option Nat)
    (hok : (incrInsertEntries env a (env.add a.value init) c rest sd).result.Unfailing) :
    IncrExact t env.add a L (incrInsertEntries env a (env.add a.value init) c rest sd).entries
      (incrInsertEntries env a (env.add a.value init) c rest sd).result := by
  unfold incrInsertEntries insertEntry at hok ⊢
  cases hnode : c.alloc.node with
  | none =>
    rw [hnode] at hok
    exact absurd rfl hok.2
  | some node =>
    rw [hnode] at hok
    have hrounds : c.alloc.rounds = 0 := hok.1
    simp only [hrounds, evictEntries, countedEntry, htime, deadline_eq ht httl]
    exact incrExact_of_started hsees hnone hinit node

/-- **Every way through `mps_shdict_incr`** does what a counter should do. The cases are
those of the lookup and then those of the expired value. -/
theorem incrEntries_exact (ht : t < 2 ^ 62) (htime : ∀ i, env.mpsClockTimeMs i = t)
    (httl : a.initTtl < 2 ^ 63) (hdue : DueBy t L) (hty : ∀ e ∈ L, e.value.Typed)
    (hinj : ∀ x ∈ L, ∀ y ∈ L, x.key = y.key → x = y)
    (hne : ∀ e ∈ L, e.key = a.key → e.expires ≠ 0 → e.expires ≠ t)
    (hc : (Call.incr a).Picks True env L c)
    (hok : (incrEntries env a c L).result.Unfailing) :
    IncrExact t env.add a L (incrEntries env a c L).entries (incrEntries env a c L).result := by
  have hsees : Sees t a.key L (others c.found (afterExpire env L)) (hit t c.found) :=
    hc.sees rfl rfl ht htime hdue hinj hne
  have hnone : (∀ e, hit t c.found ≠ .live e) → ∀ e ∈ L, e.key = a.key → ¬ e.Live t :=
    fun hh e he hk hl =>
    hh e (hsees.found e he hk hl)
  unfold incrEntries at hok ⊢
  simp only [htime] at hok ⊢
  cases hh : hit t c.found with
  | live e => exact incrLive_exact hsees hh (hty e (hsees.live e hh).1)
  | expired e =>
    obtain ⟨hm, hk, hl⟩ := hsees.expired e hh
    have hno := hnone (by simp [hh])
    cases hinit : a.init with
    | none =>
      refine ⟨fun y hy hyk hyl => absurd hyl (hno y hy hyk),
        fun y hy hyk hyl => absurd hyl (hno y hy hyk),
        fun _ _ => ⟨rfl, List.cons_subset.mpr ⟨hm, hsees.subset⟩⟩, ?_, hsees.frame hk⟩
      intro _ i hi
      rw [hinit] at hi
      cases hi
    | some init =>
      simp only [hh, hinit] at hok ⊢
      by_cases hfit : e.fits 8 = true
      · -- a number or any other value of eight bytes is reused
        simp only [if_pos hfit, countedEntry, htime, deadline_eq ht httl]
        exact incrExact_of_started hsees hno hinit e.off
      · simp only [if_neg hfit] at hok ⊢
        exact incrInsertEntries_exact hsees hno ht (htime 0) httl hinit (some e.off) hok
  | absent =>
    have hno := hnone (by simp [hh])
    cases hinit : a.init with
    | none =>
      refine ⟨fun y hy hyk hyl => absurd hyl (hno y hy hyk),
        fun y hy hyk hyl => absurd hyl (hno y hy hyk),
        fun _ _ => ⟨rfl, hsees.subset⟩, ?_, fun y hy =>
          ⟨fun hm => hsees.subset hm, fun hm hl => hsees.others y hm hy hl⟩⟩
      intro _ i hi
      rw [hinit] at hi
      cases hi
    | some init =>
      simp only [hh, hinit] at hok ⊢
      exact incrInsertEntries_exact hsees hno ht (htime 0) httl hinit none hok

/-- **A counter counts**, after every run in which each counter is hung up where the tree
stays in order, on a clock that does not run backwards, and at a time at which nothing is
due on its key. -/
theorem incr_exact (hs : 12 ≤ s) (hs' : s ≤ 16) (run : SafeRun s xs d) (hx : x.Runs s d d')
    (hsafe : x.call.Safe x.env d.entries)
    (hcall : x.call = .incr a) (hclock : Nondecreasing (x :: xs)) (ht : ∀ i, x.env.clock i = t)
    (hne : ∀ e ∈ d.entries, e.key = a.key → e.expires ≠ 0 → e.expires ≠ t) :
    ∃ r, x.answer = .incr r ∧ (r.Unfailing → IncrExact t x.env.add a d.entries d'.entries r) := by
  obtain ⟨spare, hrep⟩ := SafeRun.rep hs hs' run
  obtain ⟨L, spare', hrep', hinv⟩ := run.run.recency hs hs'
  have hL : d.entries = L := hrep'.entries_eq
  have hlt : t < 2 ^ 62 := ht 0 ▸ hclock.below x List.mem_cons_self 0
  have htime : ∀ i, x.env.mpsClockTimeMs i = t := by
    intro i
    rw [Env.mpsClockTimeMs_of_lt (ht i ▸ hlt), ht i]
  have hdue : DueBy t d.entries := by
    have hdue := hinv.dueBy hclock 0
    rwa [ht 0, ← hL] at hdue
  have httl : a.initTtl < 2 ^ 63 := by
    have hexp := hx.2.1.exptime
    rwa [hcall] at hexp
  obtain ⟨c, hc, hrep'', -, hanswer⟩ := hx.entries hrep fun _ => hsafe
  rw [hcall] at hc hrep'' hanswer
  refine ⟨_, hanswer, ?_⟩
  intro hok
  rw [hrep''.entries_eq]
  exact incrEntries_exact hlt htime httl hdue (run.run.typed hs hs')
    (fun y hy z hz => hrep.key_inj trivial hy hz) hne hc hok

end Incr

/-! ### A counter that is lost -/

/-- The counter "4DG" is counted up, if it is there. It has no initial value. -/
def lostEvent : Event :=
  ⟨0, calmEnv 7, .incr ⟨[52, 68, 71], Double.zero, none, 0⟩, none,
    .incr ⟨ngxError, none, some "not found", 0⟩⟩

/-- **A counter whose key has the hash of another one is lost.** The counters "01LV" and
"4DG" have been started, the second one is in the wrong subtree, and its lookup says that
it is not found. -/
theorem not_incrExact : ¬ ∀ (s : Nat) xs d d' (x : Event) a t r, 12 ≤ s → s ≤ 16 → Run s xs d →
    x.Runs s d d' → x.call = .incr a → x.answer = .incr r → Nondecreasing (x :: xs) →
    (∀ i, x.env.clock i = t) → (∀ e ∈ d.entries, e.key = a.key → e.expires ≠ 0 → e.expires ≠ t) →
    r.Unfailing → IncrExact t x.env.add a d.entries d'.entries r := by
  intro hall
  have hentries : twoCounters.entries =
      [⟨4352, [52, 68, 71], 0, 0, .plain .tnumber Double.zero.bytes⟩,
      ⟨4224, [48, 49, 76, 86], 0, 0, .plain .tnumber Double.zero.bytes⟩] := by decide +kernel
  have hx : lostEvent.Runs 12 twoCounters (lostEvent.after 12 twoCounters) :=
    Event.runs_after (by decide) ⟨⟨by decide, by decide⟩, by decide⟩ (by decide +kernel)
  have hclock : Nondecreasing
      [lostEvent, countEvent 6 [52, 68, 71] 4352, countEvent 5 [48, 49, 76, 86] 4224] := by
    refine ⟨?_, ?_, ?_⟩
    · simp [lostEvent, countEvent, calmEnv]
    · simp [lostEvent, countEvent, calmEnv, monotone_const]
    · simp [lostEvent, countEvent, calmEnv]
  have hexact := hall 12 _ twoCounters _ lostEvent _ 7 _
    (by decide) (by decide) run_twoCounters hx rfl rfl
    hclock (fun _ => rfl) (by rw [hentries]; simp) ⟨rfl, by decide⟩
  obtain ⟨old, -, hr, -⟩ :=
    hexact.number ⟨4352, [52, 68, 71], 0, 0, .plain .tnumber Double.zero.bytes⟩
    (by rw [hentries]; exact List.mem_cons_self) rfl (.inl rfl) _ rfl
  exact absurd (show ngxError = ngxOk from congrArg IncrResult.rc hr) (by decide)

/-- The number 2 is stored under "A", with flags and for a second. -/
def numberEvent : Event :=
  ⟨0, calmEnv 5, .set ⟨[65], .tnumber, none, Double.ofInt 2, 1000, 7⟩, some 4224,
    .store ⟨ngxOk, none, 0⟩⟩

/-- It is counted up by 3. -/
def upEvent : Event :=
  ⟨0, calmEnv 7, .incr ⟨[65], Double.ofInt 3, none, 0⟩, some 4224,
    .incr ⟨ngxOk, some (Double.ofInt 5), none, 0⟩⟩

/-- **Two and three is five**, and the flags and the deadline are as they were. The number
was stored with flags and for a second. -/
theorem incr_exact_five :
    let d := numberEvent.after 12 emptyDict
    IncrExact 7 (calmEnv 7).add ⟨[65], Double.ofInt 3, none, 0⟩ d.entries
        (upEvent.after 12 d).entries ⟨ngxOk, some (Double.ofInt 5), none, 0⟩ ∧
      Binds [65] (upEvent.after 12 d).entries
        ⟨4224, [65], 7, 1005, .plain .tnumber (Double.ofInt 5).bytes⟩ := by
  intro d
  have hentries : d.entries = [⟨4224, [65], 7, 1005, .plain .tnumber (Double.ofInt 2).bytes⟩] := by
    decide +kernel
  have hnumber : numberEvent.Runs 12 emptyDict d :=
    Event.runs_after (by decide) ⟨⟨⟨by decide, by decide⟩, nofun⟩, by decide⟩ (by decide +kernel)
  have hup : upEvent.Runs 12 d (upEvent.after 12 d) :=
    Event.runs_after (by decide) ⟨⟨by decide, by decide⟩, by decide⟩ (by decide +kernel)
  have hclock : Nondecreasing [upEvent, numberEvent] := by
    refine ⟨?_, ?_, ?_⟩
    · simp [upEvent, numberEvent, calmEnv]
    · simp [upEvent, numberEvent, calmEnv, monotone_const]
    · simp [upEvent, numberEvent, calmEnv]
  obtain ⟨r, hr, hexact⟩ := incr_exact (by decide) (by decide)
    (.call (.init fresh_emptyDict) hnumber trivial) hup (.inl rfl) rfl hclock (fun _ => rfl)
    (by rw [hentries]; simp)
  obtain rfl := Answer.incr.inj hr
  have hfive := hexact ⟨rfl, by decide⟩
  refine ⟨hfive, ?_⟩
  obtain ⟨old, -, hadd, hbinds⟩ := hfive.number
    ⟨4224, [65], 7, 1005, .plain .tnumber (Double.ofInt 2).bytes⟩
    (by rw [hentries]; exact List.mem_cons_self) rfl (.inr (by decide)) _ rfl
  have hsum : Double.ofInt 5 = upEvent.env.add old (Double.ofInt 3) :=
    Option.some.inj (congrArg IncrResult.value hadd)
  rw [hsum]
  exact hbinds

end MpsShdict
