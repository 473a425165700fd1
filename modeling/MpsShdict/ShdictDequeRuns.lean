import MpsShdict.ShdictDeque
import MpsShdict.ShdictLengths

/-! # Lists in runs

A run is looked at from one key.  Calls on that key are calls of its queue; what is
done to other keys, forced evictions included, leaves it alone.  A counter that is hung up
where the tree gets out of order may hide the key, and a list of `2 ^ 31` elements has a
length that an `int` cannot tell: up to there every answer is the one of the queue.
-/
namespace MpsShdict

open Words
open ListClients (pushEvent oneDict twoPushes runs_oneDict runs_twoPushes)

/-- The time of a call whose clock stands still. -/
def Event.time (x : Event) : Nat := x.env.clock 0

/-- **What may happen to the key `k`** between the entries `L` and `L'`. The calls on the
key are those of a queue, at a time that is not just its deadline, and no call on another
key may evict it by force while it is live. -/
structure Event.QueueFair (k : Bytes) (x : Event) (L L' : List Entry) : Prop where
  /-- The clock stands still during the call, -/
  still : ∀ i, x.env.clock i = x.time
  /-- not just at the deadline of `k`. -/
  undue : ∀ e ∈ L, e.key = k → e.expires ≠ 0 → e.expires ≠ x.time
  /-- The call has a key; that of `k` is one that queues know, -/
  keyed : x.call.key ≠ none
  own : x.call.key = some k → x.call.OnQueue
  /-- and sets a deadline only while `k` is live, or where nothing is stored under it. -/
  live : ∀ exptime, x.call = .setExpire k exptime → ∀ e ∈ L, e.key = k → e.Live x.time
  /-- No forced eviction removes `k` while it is live. -/
  spared : x.call.key ≠ some k → x.answer.rounds ≠ 0 → ∀ e ∈ L, e.key = k → e.Live x.time → e ∈ L'

/-- The states that calls lead to from a fresh dictionary, the last call first, each of
which meets `G`. -/
inductive QueueRun (s : Nat) (k : Bytes) (G : Event → List Entry → Prop) : List Event →
    Shdict → Prop where
  | init {d : Shdict} (h : Fresh s d) : QueueRun s k G [] d
  | call {xs : List Event} {d d' : Shdict} {x : Event} (run : QueueRun s k G xs d)
      (h : x.Runs s d d') (hx : x.QueueFair k d.entries d'.entries) (hG : G x d.entries) :
      QueueRun s k G (x :: xs) d'

/-- What a call does to the queue, and what the queue answers. Whether memory was found is
taken from the answer, and the answer of the queue is compared with it. -/
def Event.queue (x : Event) (o : Option Queued) : Option Queued × QueueAnswer :=
  x.call.queueStep x.time x.env.malloc x.answer.full (queueView.current x.time o)

/-- What is kept under `k` after the calls. Calls on other keys are passed over. -/
def queueAfter (k : Bytes) : List Event → Option Queued
  | [] => none
  | x :: xs => if x.call.key = some k then (x.queue (queueAfter k xs)).1 else queueAfter k xs

/-- Every call on `k` has answered what the queue does. -/
def AnswersAsQueue (k : Bytes) : List Event → Prop
  | [] => True
  | x :: xs =>
    (x.call.key = some k → (x.queue (queueAfter k xs)).2.Agrees x.answer) ∧ AnswersAsQueue k xs

/-- No counter is hung up where the tree gets out of order, and no push on `k` makes a list
that is longer than an `int` can tell. -/
def QueueSafe (k : Bytes) (x : Event) (L : List Entry) : Prop :=
  x.call.Safe x.env L ∧ (x.call.key = some k → x.call.CountsInt x.env L)

section Runs
variable {s : Nat} {k : Bytes} {G : Event → List Entry → Prop} {xs : List Event}
  {d d' : Shdict} {x : Event} {L L' : List Entry} {o : Option Queued}

theorem QueueRun.runWith (run : QueueRun s k G xs d) : RunWith s G xs d := by
  induction run with
  | init h => exact .init h
  | call run h hx hG ih => exact .call ih h hG

theorem QueueRun.safeRun (run : QueueRun s k (QueueSafe k) xs d) : SafeRun s xs d :=
  run.runWith.mono fun _ _ h => h.1

/-- What counts is something that is kept. -/
theorem Queued.Ok.current {t : Nat} (ho : ∀ b, o = some b → b.Ok) :
    ∀ b, queueView.current t o = some b → b.Ok := by
  intro b hb
  exact ho b (Option.filter_eq_some_iff.mp hb).1

/-- A list that the queue keeps is one that the push finds, so the bound on the one is a
bound on the other. -/
theorem Call.CountsInt.fits {call : Call} {env : Env} {t : Nat} (h : call.CountsInt env L)
    (hkey : call.key = some k) (hm : MomentOf t k env L) (hs : Expiring.Shows queueView t k L o) :
    call.Fits (queueView.current t o) := by
  cases call with
  | store | get | incr | pop | llen | getTtl | setExpire | flushAll => trivial
  | push a =>
    intro ys deadline hb
    obtain rfl := Option.some.inj hkey
    obtain ⟨ho, hl⟩ := Option.filter_eq_some_iff.mp hb
    obtain ⟨e, he, hk, hbinding⟩ := hs.held _ ho (of_decide_eq_true hl)
    -- the entry that shows the list is live, so it has not expired for the lookup
    have hne := hm.undue e he hk
    have hlive : e.Live t := by
      apply (queueView_entry.liveItem_iff hne).mp
      rw [Expiring.View.LiveItem, hbinding]
      exact of_decide_eq_true hl
    have hfresh : lookupExpired e.expires (env.mpsClockTimeMs 2) = false := by
      rw [hm.clock, ← Bool.not_eq_true, Entry.lookupExpired_iff hm.small (hm.due e he) hne]
      exact not_not.mpr hlive
    have hlt := h e he hk hfresh
    have hcontent : e.value.content = .list ys := congrArg Queued.content hbinding
    cases hv : e.value with
    | plain valueType bytes =>
      rw [hv] at hcontent
      cases hcontent
    | list elems =>
      rw [hv] at hcontent hlt
      obtain rfl := Content.list.inj hcontent
      rw [List.length_map]
      exact hlt

/-- **The entries show the queue, and every call on its key has answered what it does.**
By induction on the run: a call on the key by the lemma of that call, and one on another
key because it leaves the entry of `k` alone or takes it only after its deadline. -/
theorem QueueRun.shows (hs : 12 ≤ s) (hs' : s ≤ 16) (run : QueueRun s k (QueueSafe k) xs d)
    (hclock : Nondecreasing xs) :
    (∀ t, (∀ x ∈ xs, x.time ≤ t) → Expiring.Shows queueView t k d.entries (queueAfter k xs)) ∧
      (∀ b, queueAfter k xs = some b → b.Ok) ∧ AnswersAsQueue k xs := by
  induction run with
  | init h =>
    refine ⟨?_, fun b hb => ?_, trivial⟩
    · intro t _
      have hrep : Rep (mpsSlabSizesInit (2 ^ s)) s True _ [] [] := h.rep hs hs'
      rw [hrep.entries_eq]
      exact .none (by simp)
    · cases hb
  | call run hx hfair hG ih =>
    next xs d d' x =>
    have hclock' : Nondecreasing xs :=
      ⟨fun x hx => hclock.below x (List.mem_cons_of_mem _ hx),
        fun x hx => hclock.within x (List.mem_cons_of_mem _ hx),
        (List.pairwise_cons.mp hclock.across).2⟩
    obtain ⟨hshows, hkept, hanswers⟩ := ih hclock'
    obtain ⟨spare, hrep⟩ := SafeRun.rep hs hs' run.safeRun
    obtain ⟨L, spare', hrep₀, hinv⟩ := run.safeRun.run.recency hs hs'
    obtain rfl : d.entries = L := hrep₀.entries_eq
    obtain ⟨c, hc, hrep', -, hanswer⟩ := hx.entries hrep fun _ => hG.1
    have hold := hinv.evictsOldest hclock hrep.laid.off_nodup hc hanswer
    have hearlier : ∀ y ∈ xs, y.time ≤ x.time :=
      fun y hy => (List.pairwise_cons.mp hclock.across).1 y hy 0 0
    have hlt : ∀ i, x.env.clock i < 2 ^ 62 := hclock.below x List.mem_cons_self
    have hm : MomentOf x.time k x.env d.entries := by
      refine ⟨hlt 0, ?_, hinv.dueBy hclock 0,
        fun e he z hz => hrep.key_inj trivial he hz, hfair.undue⟩
      intro i
      rw [Env.mpsClockTimeMs_of_lt (hlt i), hfair.still i]
    have hnow := hshows x.time hearlier
    rw [hrep'.entries_eq] at hfair
    by_cases hk : x.call.key = some k
    · -- a call on the key does what the queue does
      have hcurrent : ∀ b, queueView.current x.time (queueAfter k xs) = some b → b.Ok :=
        Queued.Ok.current hkept
      have hfits := (hG.2 hk).fits hk hm hnow
      obtain ⟨hown, hagrees⟩ :=
        (hfair.own hk).shows hk hm hx.2.1 hc (run.safeRun.run.typed hs hs') hfair.live
        hnow hcurrent hfits
      rw [← hanswer] at hown hagrees
      have hafter : queueAfter k (x :: xs) = (x.queue (queueAfter k xs)).1 := if_pos hk
      rw [hafter]
      refine ⟨?_, queueStep_ok hcurrent hfits, fun _ => hagrees, hanswers⟩
      intro t ht
      rw [hrep'.entries_eq]
      exact hown.later (ht x List.mem_cons_self)
    · -- any other leaves what is live of the key alone
      obtain ⟨key, hkey⟩ := Option.ne_none_iff_exists'.mp hfair.keyed
      have hother : ∀ {e : Entry}, e.key = k → e.key ≠ key :=
        fun hek h => hk (by rw [hkey, ← h, hek])
      have hafter : queueAfter k (x :: xs) = queueAfter k xs := if_neg hk
      rw [hafter]
      refine ⟨?_, hkept, fun h => absurd h hk, hanswers⟩
      intro t ht
      rw [hrep'.entries_eq]
      refine Expiring.Shows.later ?_ (ht x List.mem_cons_self)
      refine hnow.frame (fun e he hek => hold.same hkey he (hother hek)) ?_
      intro e he hek hl
      have hlive : e.Live x.time := (queueView_entry.liveItem_iff (hfair.undue e he hek)).mp hl
      by_cases hr : x.answer.rounds = 0
      · apply hold.keeps hkey hr he (hother hek)
        rw [hfair.still 1]
        exact hlive
      · exact hfair.spared hk hr e he hek hlive

/-- **Lists are double-ended queues**: every call on a key answers what a queue kept under
the key does, whatever is done to other keys in between, as long as no counter is hung up
where the tree gets out of order and the list has a length that an `int` can tell. -/
theorem answers_as_queue (hs : 12 ≤ s) (hs' : s ≤ 16) (run : QueueRun s k (QueueSafe k) xs d)
    (hclock : Nondecreasing xs) : AnswersAsQueue k xs :=
  (run.shows hs hs' hclock).2.2

end Runs

/-- A call on "A" at a quiet time, where no entry has a deadline. Nothing is due then and
nothing has expired. -/
theorem queueFair_calm {x : Event} {L L' : List Entry} {t : Nat} (henv : x.env = calmEnv t)
    (hkey : x.call.key = some [65]) (hon : x.call.OnQueue) (hL : ∀ e ∈ L, e.expires = 0) :
    x.QueueFair [65] L L' := by
  refine ⟨?_, fun e he _ hne => absurd (hL e he) hne, ?_, fun _ => hon, ?_, fun h => absurd hkey h⟩
  · intro i
    rw [Event.time, henv]
    rfl
  · rw [hkey]
    simp
  · exact fun _ _ e he _ => .inl (hL e he)

/-- A call of a queue, where the lists are short. -/
theorem queueSafe_short {x : Event} {L : List Entry} (hon : x.call.OnQueue)
    (hL : ∀ e ∈ L, e.value.elems.length < 3) : QueueSafe [65] x L := by
  unfold QueueSafe
  cases hcall : x.call with
  | push a =>
    refine ⟨trivial, fun _ e he _ _ => ?_⟩
    have hlt := hL e he
    omega
  | store | pop | llen | setExpire => exact ⟨trivial, fun _ => trivial⟩
  | get | incr | getTtl | flushAll =>
    rw [hcall] at hon
    exact hon.elim

/-- An element is taken off the list under "A". -/
def popEvent (t : Nat) (direction : Direction) (sd : Nat) (value : Bytes) : Event :=
  ⟨0, calmEnv t, .pop direction [65] 1, some sd,
    .get ⟨ngxOk, some .tstring, some value, some value.length, none, none, none, none⟩⟩

/-- **Two strings are pushed at one end**, and popped from both: the one that was pushed first
is at the other end. -/
theorem answers_as_queue_two : AnswersAsQueue [65] [popEvent 8 .left 4224 [67],
    popEvent 7 .right 4224 [66], pushEvent 6 [65] [67] 4224 2, pushEvent 5 [65] [66] 4224 1] := by
  let d := (popEvent 7 .right 4224 [66]).after 12 twoPushes
  have hright : (popEvent 7 .right 4224 [66]).Runs 12 twoPushes d :=
    Event.runs_after (by decide) ⟨by decide, by decide⟩ (by decide +kernel)
  have hleft : (popEvent 8 .left 4224 [67]).Runs 12 d ((popEvent 8 .left 4224 [67]).after 12 d) :=
    Event.runs_after (by decide) ⟨by decide, by decide⟩ (by decide +kernel)
  have hentries : ∀ L ∈ [emptyDict.entries, oneDict.entries, twoPushes.entries, d.entries],
      ∀ e ∈ L, e.expires = 0 ∧ e.value.elems.length < 3 := by decide +kernel
  simp only [List.forall_mem_cons] at hentries
  obtain ⟨h₀, h₁, h₂, h₃, -⟩ := hentries
  refine answers_as_queue (s := 12) (by decide) (by decide) (.call (.call (.call (.call
    (.init fresh_emptyDict)
    runs_oneDict (queueFair_calm rfl rfl trivial fun e he => (h₀ e he).1)
      (queueSafe_short trivial fun e he => (h₀ e he).2))
    runs_twoPushes (queueFair_calm rfl rfl trivial fun e he => (h₁ e he).1)
      (queueSafe_short trivial fun e he => (h₁ e he).2))
    hright (queueFair_calm rfl rfl trivial fun e he => (h₂ e he).1)
      (queueSafe_short trivial fun e he => (h₂ e he).2))
    hleft (queueFair_calm rfl rfl trivial fun e he => (h₃ e he).1)
      (queueSafe_short trivial fun e he => (h₃ e he).2)) ⟨?_, ?_, ?_⟩
  · simp [popEvent, pushEvent, calmEnv]
  · simp [popEvent, pushEvent, calmEnv, monotone_const]
  · simp [popEvent, pushEvent, calmEnv]

/-! ### A length that an `int` cannot tell -/

/-- A run of pushes to "A" at the time 0. -/
theorem QueueRun.of_pushes {s : Nat} {xs : List Event} {d : Shdict}
    (run : RunWith s (fun x _ => ∃ d r, x = wrapEvent d r) xs d) :
    QueueRun s [65] (fun _ _ => True) xs d ∧ ∀ x ∈ xs, x.env = calmEnv 0 := by
  induction run with
  | init h => exact ⟨.init h, by simp⟩
  | call run h hG ih =>
    obtain ⟨d, r, rfl⟩ := hG
    refine ⟨.call ih.1 h ⟨fun _ => rfl, fun _ _ _ hne => hne,
      nofun, fun _ => trivial, nofun, ?_⟩ trivial, ?_⟩
    · exact fun hne => absurd rfl hne
    · rintro x (_ | ⟨_, hx⟩)
      · rfl
      · exact ih.2 x hx

theorem Nondecreasing.of_calm {xs : List Event} {t : Nat} (ht : t < 2 ^ 62)
    (h : ∀ x ∈ xs, x.env = calmEnv t) :
    Nondecreasing xs := by
  refine ⟨?_, ?_, List.pairwise_of_forall_mem_list ?_⟩
  · intro x hx i
    rw [h x hx]
    exact ht
  · intro x hx
    rw [h x hx]
    exact monotone_const
  · intro x hx y hy i j
    rw [h x hx, h y hy]
    exact Nat.le_refl t

/-- No queue has a negative length. -/
theorem queueLlen_nonneg {o : Option Queued} {r : ListResult} (h : (queueLlen o).2.Agrees (.list r))
    (hmsg : r.errmsg = none) : 0 ≤ r.value := by
  unfold queueLlen at h
  split at h
  · rw [h.1]
    exact Int.natCast_nonneg _
  · cases hmsg.symm.trans h.2
  · rw [h.1]
    exact Int.natCast_nonneg _

/-- **The length of a list of `2 ^ 31` elements is told as a negative number.** The pool
is one of `2 ^ 45` bytes, and the list is made by pushes alone. -/
theorem not_answersAsQueue : ¬ ∀ s k xs d, 12 ≤ s → s ≤ 16 → QueueRun s k (fun _ _ => True) xs d →
    Nondecreasing xs → AnswersAsQueue k xs := by
  intro hall
  obtain ⟨d₀, hfresh, hfree⟩ := exists_largeDict
  obtain ⟨xs, d, run, ⟨e, elems, spare, hrep, hkey, hexp, hv, hlen⟩, -⟩ :=
    exists_longList (n := 2 ^ 31) (by decide) (by decide) hfresh (by decide) (by omega)
  obtain ⟨run', hcalm⟩ := QueueRun.of_pushes run
  have hok : (Call.llen [65]).Ok := ⟨by decide, by decide⟩
  obtain ⟨c, hc, d', hrun, hrep', -⟩ := Call.run_spec (calmEnv 0) hok hrep fun _ => trivial
  obtain ⟨x, hcall, henv, hanswer, hllen⟩ : ∃ x : Event, x.call = .llen [65] ∧ x.env = calmEnv 0 ∧
      x.answer = .list (llenEntries (calmEnv 0) c [e]).result ∧ x.Runs 12 d d' :=
    ⟨⟨0, calmEnv 0, .llen [65], _, _⟩, rfl, rfl, rfl, Nat.dvd_zero _, hok, hrun 0 (Nat.dvd_zero _)⟩
  have hfair : x.QueueFair [65] d.entries d'.entries := by
    refine queueFair_calm henv ?_ ?_ ?_
    · rw [hcall]
      rfl
    · rw [hcall]
      trivial
    · simp [hrep.entries_eq, hexp]
  have hclock : Nondecreasing (x :: xs) := by
    refine Nondecreasing.of_calm (t := 0) (by decide) ?_
    intro y hy
    rcases List.mem_cons.mp hy with rfl | hy
    · exact henv
    · exact hcalm y hy
  have hagrees :=
    (hall 12 [65] _ d' (by decide) (by decide) (.call run' hllen hfair trivial) hclock).1
  rw [Event.queue, hcall, hanswer] at hagrees
  replace hagrees := hagrees rfl
  -- the entry is found, and its length is read out as it is stored
  have hafter : afterExpire (calmEnv 0) [e] = [e] := by
    simp [afterExpire, expireEntries, expireKeeps, hexp]
  have hfinds := hc.finds [65] rfl
  rw [show (Call.llen [65]).seen (calmEnv 0) [e] = [e] from hafter] at hfinds
  have hresult : (llenEntries (calmEnv 0) c [e]).result.errmsg = none ∧
      (llenEntries (calmEnv 0) c [e]).result.value = -2 ^ 31 := by
    rw [llenEntries, hafter, hfinds.only hkey, hit, if_neg (by simp [lookupExpired, hexp])]
    simp only [hv, ListResult.length, Value.elems, hlen]
    exact ⟨trivial, by decide⟩
  have hpos := queueLlen_nonneg hagrees hresult.1
  have hneg := hresult.2
  exact absurd (hneg ▸ hpos) (by decide)

end MpsShdict
