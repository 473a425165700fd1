import MpsShdict.ShdictEffect

/-! # The lengths that pushes and `mps_shdict_llen` return

Both read the field `value_len` of the entry behind the unlock. The calls of other clients
may come between the locked section and that read.

So what is returned is the length of the list at some later moment, and the chunk may even
be another entry's by then. Clients are modelled with two steps each, the locked section
and the return, which interleave freely. The lengths are those of the locked sections if
no other client takes an element to or from the list, or removes it, before the return;
that is a condition on the steps of the others only.
-/
namespace MpsShdict

open Words

/-! ### The lists in a pool -/

/-- The value is a list. -/
def Value.isList : Value → Bool
  | .list _ => true
  | .plain _ _ => false

/-- The length of the list under `key`, of the entry used last. It is zero if there is no
such list. -/
def Shdict.listLength (d : Shdict) (key : Bytes) : Nat :=
  match d.entries.find? fun e => e.key = key with
  | some e => e.value.elems.length
  | none => 0

section Lists
variable {env : Env} {key : Bytes} {exptime : Int} {sd : Option Nat} {rounds : Nat} {takes : Bool}
  {L L' M : List Entry} {e : Entry} {c : Choice}
  {call : Call} {xs : List Elem} {ord : Prop} {z : Nat}

/-- A list that is there after a call was there before, unless the call has taken an
element to it or from it. A call does not make lists in any other way. -/
theorem Affects.list (h : Affects env key exptime sd rounds takes L L') (he : e ∈ L')
    (hv : e.value = .list xs) (hkey : e.key = key → takes = false) :
    ∃ x ∈ L, x.off = e.off ∧ x.value = .list xs := by
  rcases h.origin he with he | ⟨-, hkey', found, hf, hw⟩
  · exact ⟨e, he, rfl, hv⟩
  · obtain ⟨x, hx, hoff, hxv⟩ := hw.elems (hkey hkey') xs hv
    exact ⟨x, (hf x hx).1, hoff, hxv⟩

theorem setExpireEntries_list (he : e ∈ (setExpireEntries env exptime c L).entries) :
    ∃ x ∈ L, x.off = e.off ∧ x.value = e.value := by
  unfold setExpireEntries at he
  split at he
  · exact ⟨e, he, rfl, rfl⟩
  · next y _ =>
    obtain ⟨x, hx, rfl⟩ := List.mem_map.mp he
    refine ⟨x, hx, ?_⟩
    split
    · exact ⟨rfl, rfl⟩
    · exact ⟨rfl, rfl⟩

theorem flushEntries_list (he : e ∈ (flushEntries env L).entries) :
    ∃ x ∈ L, x.off = e.off ∧ x.value = e.value := by
  obtain ⟨g, hL, -⟩ :=
    expireEntries_forced (env.mpsClockTimeMs 1) (L.map fun e => { e with expires := 1 })
  have hm : e ∈ L.map fun e => { e with expires := 1 } := hL ▸ List.mem_append_left _ he
  obtain ⟨x, hx, rfl⟩ := List.mem_map.mp hm
  exact ⟨x, hx, rfl, rfl⟩

/-- **Where the lists after a call come from.** The entry of the list is still in the same
chunk. -/
theorem Call.list (hc : call.Picks ord env L c) (he : e ∈ (call.entries env c L).entries)
    (hv : e.value = .list xs)
    (hkey : call.key = some e.key → call.takes (call.entries env c L).result = false) :
    ∃ x ∈ L, x.off = e.off ∧ x.value = .list xs := by
  cases hcall : call with
  | setExpire k t =>
    rw [hcall] at he
    obtain ⟨x, hx, hoff, hval⟩ := setExpireEntries_list he
    exact ⟨x, hx, hoff, hval.trans hv⟩
  | flushAll =>
    rw [hcall] at he
    obtain ⟨x, hx, hoff, hval⟩ := flushEntries_list he
    exact ⟨x, hx, hoff, hval.trans hv⟩
  | store | get | incr | push | pop | llen | getTtl =>
    obtain ⟨key, hk⟩ : ∃ key, call.key = some key := by
      rw [hcall]
      exact ⟨_, rfl⟩
    refine (Call.affects hk (fun k t h => by rw [hcall] at h; cases h) hc).list he hv fun h =>
      hkey ?_
    rw [hk, h]

/-- The list that a call still reads the length of is at the head: it has just been found,
or has just been made. -/
def Outcome.Reports (out : Outcome ListResult) (key : Bytes) : Prop :=
  ∀ z, out.result.ret = .valueLen z →
    ∃ e K, out.entries = e :: K ∧ e.off = z ∧ e.key = key ∧ e.value.isList = true

theorem Outcome.reports_code {ls : List Block} {rc : Int} {msg : Option String} :
    (⟨L, ls, sd, .code rc msg⟩ : Outcome ListResult).Reports key := by
  intro z hz
  simp [ListResult.code] at hz

theorem Outcome.reports_length {ls : List Block} (hkey : e.key = key) (hv : e.value.isList = true) :
    (⟨e :: L, ls, sd, .length e⟩ : Outcome ListResult).Reports key := by
  intro z hz
  simp only [ListResult.length, Return.valueLen.injEq] at hz
  exact ⟨e, L, rfl, hz, hkey, hv⟩

theorem pushNodeEntries_reports {a : PushArgs} {v : Bytes} {elems : List Elem}
    (hkey : e.key = a.key) :
    (pushNodeEntries a v c e elems L).Reports a.key := by
  unfold pushNodeEntries
  split
  · split
    · exact Outcome.reports_code
    · exact Outcome.reports_code
  · exact Outcome.reports_length hkey rfl

theorem initListEntries_reports {a : PushArgs} {v : Bytes} :
    (initListEntries env a v c L sd).Reports a.key := by
  unfold initListEntries
  split
  · exact Outcome.reports_code
  · exact pushNodeEntries_reports rfl

theorem pushEntries_reports {a : PushArgs}
    (hf : ∀ e, c.found = some e → e ∈ afterExpire env L ∧ e.key = a.key) :
    (pushEntries env a c L).Reports a.key := by
  have hh := hit_entry (env.mpsClockTimeMs 2) c.found
  unfold pushEntries
  cases pushValue a with
  | error msg => exact Outcome.reports_code
  | ok v =>
    simp only
    cases h : hit (env.mpsClockTimeMs 2) c.found with
    | absent => exact initListEntries_reports
    | expired e =>
      have he : c.found = some e := by rw [← hh, h]; rfl
      cases hv : e.value with
      | plain valueType bytes =>
        simp only [hv]
        exact initListEntries_reports
      | list elems =>
        simp only [hv]
        exact pushNodeEntries_reports (hf e he).2
    | live e =>
      have he : c.found = some e := by rw [← hh, h]; rfl
      cases hv : e.value with
      | plain valueType bytes =>
        simp only [hv]
        exact Outcome.reports_code
      | list elems =>
        simp only [hv]
        exact pushNodeEntries_reports (hf e he).2

theorem llenEntries_reports (hf : ∀ e, c.found = some e → e ∈ afterExpire env L ∧ e.key = key) :
    (llenEntries env c L).Reports key := by
  have hh := hit_entry (env.mpsClockTimeMs 2) c.found
  unfold llenEntries
  cases h : hit (env.mpsClockTimeMs 2) c.found with
  | absent => exact Outcome.reports_code
  | expired e => exact Outcome.reports_code
  | live e =>
    have he : c.found = some e := by rw [← hh, h]; rfl
    cases hv : e.value with
    | plain valueType bytes =>
      simp only [hv]
      exact Outcome.reports_code
    | list elems =>
      simp only [hv]
      exact Outcome.reports_length (hf e he).2 (by rw [hv]; rfl)

/-- The entry whose length is read behind the unlock. Other answers are complete when the
lock is given back. -/
def Answer.reads : Answer → Option Nat
  | .list ⟨.valueLen sd, _, _⟩ => some sd
  | _ => none

/-- **A call that reads a length reads that of its own list.** -/
theorem Call.reads (hc : call.Picks ord env L c)
    (hz : (call.entries env c L).result.reads = some z) :
    ∃ e K, (call.entries env c L).entries = e :: K ∧ e.off = z ∧ call.key = some e.key ∧
      e.value.isList = true := by
  have hret : ∀ r : ListResult, (Answer.list r).reads = some z → r.ret = .valueLen z := by
    rintro ⟨⟨⟩, _, _⟩ h
    · simp [Answer.reads] at h
    · simpa [Answer.reads] using h
  cases call with
  | push a =>
    obtain ⟨e, K, hL, hoff, hkey, hv⟩ :=
      pushEntries_reports (hc.finds a.key rfl).sound z (hret _ hz)
    exact ⟨e, K, hL, hoff, congrArg some hkey.symm, hv⟩
  | llen k =>
    obtain ⟨e, K, hL, hoff, hkey, hv⟩ := llenEntries_reports (hc.finds k rfl).sound z (hret _ hz)
    exact ⟨e, K, hL, hoff, congrArg some hkey.symm, hv⟩
  | store | get | incr | pop | getTtl | setExpire | flushAll =>
    simp [Call.entries, Outcome.map, Answer.reads] at hz

end Lists

/-! ### Clients -/

/-- A client between its locked section and its return: the key of its list, the entry
that it still reads, and the length that the list had in the locked section. -/
structure Pending where
  key : Bytes
  sd : Nat
  length : Nat
  deriving DecidableEq

/-- Clients of a dictionary, those that have not returned yet, and the lengths that were
returned, each after the length that it stands for. The type `P` of clients may be any. -/
structure ListClients (P : Type) where
  dict : Shdict
  pending : P → Option Pending
  returned : List (Nat × Int)

/-- What is left to do after the locked section that has led to the pool `d`. A call whose
answer is complete leaves nothing. -/
def Event.pending (x : Event) (d : Shdict) : Option Pending :=
  match x.answer.reads, x.call.key with
  | some sd, some key => some ⟨key, sd, d.listLength key⟩
  | _, _ => none

namespace ListClients

variable {P : Type} [DecidableEq P] {s : Nat}

/-- No client has called yet. -/
def start (d : Shdict) : ListClients P := ⟨d, fun _ => none, []⟩

/-- What a client does next: it makes a call up to the unlock, or returns from the one
that it has made. -/
inductive Action (P : Type) where
  | locked (p : P) (x : Event)
  | ret (p : P)

/-- The steps: a locked section as a whole, and the return from it, which reads the length
that is there by then. -/
inductive Step (s : Nat) : ListClients P → Action P → ListClients P → Prop
  | locked {cs : ListClients P} {p : P} {x : Event} {d : Shdict} : cs.pending p = none →
      x.Runs s cs.dict d →
      Step s cs (.locked p x) ⟨d, Function.update cs.pending p (x.pending d), cs.returned⟩
  | ret {cs : ListClients P} {p : P} {w : Pending} : cs.pending p = some w →
      Step s cs (.ret p) ⟨cs.dict, Function.update cs.pending p none,
        (w.length, (Return.valueLen w.sd).value cs.dict) :: cs.returned⟩

/-- A run of steps, from a fresh dictionary, by any number of clients in any order. -/
inductive Run (s : Nat) : ListClients P → Prop
  | start {d : Shdict} : Fresh s d → Run s (start d)
  | step {cs cs' : ListClients P} {a : Action P} : Run s cs → Step s cs a cs' → Run s cs'

/-- Every length that was returned is that of the list in the locked section. -/
def LengthsAtomic (cs : ListClients P) : Prop := ∀ r ∈ cs.returned, r.2 = r.1

/-- The call `x` has left the list that `w` waits for: it is still there, and `x` has
not taken an element to it or from it. -/
structure Spared (w : Pending) (x : Event) (d : Shdict) : Prop where
  there : ∃ e ∈ d.entries, e.off = w.sd ∧ e.key = w.key ∧ e.value.isList = true
  untaken : x.call.key = some w.key → x.call.takes x.answer = false

/-- The locked section spares the lists that others wait for, and is about a list shorter
than `2 ^ 31`, whose length an `int` can return. -/
def Undisturbed (cs : ListClients P) : Action P → ListClients P → Prop
  | .locked p x, cs' => (∀ q w, cs.pending q = some w → Spared w x cs'.dict) ∧
      ∀ w, cs'.pending p = some w → w.length < 2 ^ 31
  | .ret _, _ => True

/-- A run in which no list is disturbed. The condition is on each step, with the clients
that wait at that time. -/
inductive UndisturbedRun (s : Nat) : ListClients P → Prop
  | start {d : Shdict} : Fresh s d → UndisturbedRun s (ListClients.start d)
  | step {cs cs' : ListClients P} {a : Action P} : UndisturbedRun s cs → Step s cs a cs' →
      cs.Undisturbed a cs' → UndisturbedRun s cs'

/-! ### Two pushes to one list -/

/-- A push of `value` that gets to the list at `node`. -/
def pushEvent (t : Nat) (key value : Bytes) (node : Nat) (length : Int) : Event :=
  ⟨0, calmEnv t, .push ⟨.left, key, .tstring, value, Double.zero⟩, some node,
    .list ⟨.valueLen node, none, length⟩⟩

theorem pushEvent_ok (t : Nat) {key value : Bytes} (node : Nat) (length : Int) (hk : KeyOk key)
    (hv : value.length < 2 ^ 30) : (pushEvent t key value node length).call.Ok := by
  refine ⟨hk, ?_⟩
  simp only [offsetofListData]
  omega

/-- One element has been pushed. -/
def oneDict : Shdict := (pushEvent 5 [65] [66] 4224 1).after 12 emptyDict

/-- And another one. -/
def twoPushes : Shdict := (pushEvent 6 [65] [67] 4224 2).after 12 oneDict

theorem runs_oneDict : (pushEvent 5 [65] [66] 4224 1).Runs 12 emptyDict oneDict :=
  Event.runs_after (by decide) (pushEvent_ok 5 4224 1 ⟨by decide, by decide⟩ (by decide)) rfl

theorem runs_twoPushes : (pushEvent 6 [65] [67] 4224 2).Runs 12 oneDict twoPushes :=
  Event.runs_after (by decide) (pushEvent_ok 6 4224 2 ⟨by decide, by decide⟩ (by decide)) rfl

theorem pending_oneDict : (pushEvent 5 [65] [66] 4224 1).pending oneDict =
    some ⟨[65], 4224, 1⟩ := by
  decide +kernel

/-- **A push may return a length that is not its own**: client 1 pushes before client 0
has read the length. Client 0 has made the list one element long and returns 2. -/
theorem not_lengthsAtomic : ¬ ∀ cs : ListClients Nat, Run 12 cs → cs.LengthsAtomic := by
  intro h
  have h0 : Run 12 (start (P := Nat) emptyDict) := .start fresh_emptyDict
  have h1 := h0.step (.locked (p := 0) rfl runs_oneDict)
  have h2 := h1.step (.locked (p := 1) rfl runs_twoPushes)
  have h3 := h2.step (.ret (p := 0) pending_oneDict)
  have hbad : (Return.valueLen 4224).value twoPushes = 1 := h _ h3 (1, _) List.mem_cons_self
  exact absurd hbad (by decide +kernel)

/-! ### Runs in which no list is disturbed -/

/-- The list that `w` waits for has the length that it had, and is in the chunk in which
it was. -/
def Held (d : Shdict) (w : Pending) : Prop :=
  ∃ e ∈ d.entries, e.off = w.sd ∧ e.key = w.key ∧ ∃ elems, e.value = .list elems ∧
    elems.length = w.length ∧ w.length < 2 ^ 31

/-- What holds in a run in which no list is disturbed: the pool spells out some entries,
every list that is waited for is held, and all lengths so far were right. -/
structure Inv (s : Nat) (cs : ListClients P) : Prop where
  rep : ∃ L spare, Rep (mpsSlabSizesInit (2 ^ s)) s False cs.dict L spare
  held : ∀ p w, cs.pending p = some w → Held cs.dict w
  atomic : cs.LengthsAtomic

section Step
variable {d d' : Shdict} {L : List Entry} {spare : List Block} {x : Event} {w : Pending} {p : P}
  {cs cs' : ListClients P} {a : Action P}

/-- The field `value_len` is the length. -/
theorem Held.value (h : Held d w) (hrep : Rep (mpsSlabSizesInit (2 ^ s)) s False d L spare) :
    (Return.valueLen w.sd).value d = w.length := by
  obtain ⟨e, he, hoff, -, elems, hv, hlen, hlt⟩ := h
  rw [hrep.entries_eq] at he
  have hval := (hrep.shape.entries e he).value
  simp only [ValueOk, hv] at hval
  rw [Return.value, ← hoff, hval.2.1, hlen, u32_of_lt (by omega), int32_of_lt hlt]

/-- A list that is spared keeps its length. What comes between may be a call on the list
too, if it only looks at it. -/
theorem Held.spared (h : Held d w) (hrep : Rep (mpsSlabSizesInit (2 ^ s)) s False d L spare)
    (hx : x.Runs s d d') (hs : Spared w x d') : Held d' w := by
  obtain ⟨c, hc, hrep', -, hanswer⟩ := hx.entries hrep False.elim
  obtain ⟨e, he, hoff, hkey, elems, hv, hlen, hlt⟩ := h
  obtain ⟨e', he', hoff', hkey', hlist⟩ := hs.there
  obtain ⟨elems', hv'⟩ : ∃ xs, e'.value = .list xs := by
    cases hval : e'.value with
    | list xs => exact ⟨xs, rfl⟩
    | plain valueType bytes => simp [hval, Value.isList] at hlist
  have he'' := he'
  rw [hrep'.entries_eq] at he'
  rw [hrep.entries_eq] at he
  obtain ⟨y, hy, hyoff, hyv⟩ := Call.list hc he' hv' fun hk => by
    rw [← hanswer]
    exact hs.untaken (hk.trans (congrArg some hkey'))
  obtain rfl : y = e :=
    List.inj_on_of_nodup_map hrep.laid.off_nodup hy he (hyoff.trans (hoff'.trans hoff.symm))
  obtain rfl : elems' = elems := Value.list.inj (hyv.symm.trans hv)
  exact ⟨e', he'', hoff', hkey', elems', hv', hlen, hlt⟩

/-- A client holds the list that its own locked section ends with. -/
theorem Held.own (hrep : Rep (mpsSlabSizesInit (2 ^ s)) s False d L spare) (hx : x.Runs s d d')
    (hw : x.pending d' = some w) (hlt : w.length < 2 ^ 31) : Held d' w := by
  obtain ⟨c, hc, hrep', -, hanswer⟩ := hx.entries hrep False.elim
  unfold Event.pending at hw
  split at hw
  · next sd key hz hk =>
    obtain rfl := Option.some.inj hw
    rw [hanswer] at hz
    obtain ⟨e, K, hL, hoff, hkey, hlist⟩ := Call.reads hc hz
    obtain rfl := Option.some.inj (hk.symm.trans hkey)
    have hent : d'.entries = e :: K := by rw [hrep'.entries_eq, hL]
    have hlen : d'.listLength e.key = e.value.elems.length := by
      simp only [Shdict.listLength, hent, List.find?_cons_of_pos, decide_true]
    cases hval : e.value with
    | list xs =>
      refine ⟨e, by simp [hent], hoff, rfl, xs, hval, ?_, hlt⟩
      show xs.length = d'.listLength e.key
      rw [hlen, hval, Value.elems]
    | plain valueType bytes => simp [hval, Value.isList] at hlist
  · cases hw

/-- **One step.** A locked section keeps the lists of the others held and leaves its own
held, and a return reads the length of a list that is held. -/
theorem Inv.step (h : Inv s cs) (hstep : Step s cs a cs') (hu : cs.Undisturbed a cs') :
    Inv s cs' := by
  obtain ⟨L, spare, hrep⟩ := h.rep
  cases hstep with
  | @locked p x d hp hx =>
    obtain ⟨c, -, hrep', -⟩ := hx.entries hrep False.elim
    refine ⟨⟨_, _, hrep'⟩, ?_, h.atomic⟩
    intro q w hw
    by_cases hq : q = p
    · subst hq
      have hlt := hu.2 w hw
      simp only [Function.update_self] at hw
      exact Held.own hrep hx hw hlt
    · simp only [Function.update_of_ne hq] at hw
      exact (h.held q w hw).spared hrep hx (hu.1 q w hw)
  | @ret p w hp =>
    refine ⟨⟨L, spare, hrep⟩, ?_, ?_⟩
    · intro q w' hw
      by_cases hq : q = p
      · subst hq
        simp at hw
      · simp only [Function.update_of_ne hq] at hw
        exact h.held q w' hw
    · intro r hr
      rcases List.mem_cons.mp hr with rfl | hr
      · exact (h.held p w hp).value hrep
      · exact h.atomic r hr

/-- **Lengths are atomic** in every run in which each locked section spares the lists that
others wait for. Every length that has been returned is that of the list in the locked
section, however the steps of the clients interleave. -/
theorem lengthsAtomic_of_undisturbed (hs : 12 ≤ s) (hs' : s ≤ 16) (run : UndisturbedRun s cs) :
    cs.LengthsAtomic := by
  have hinv : Inv s cs := by
    induction run with
    | start h => exact ⟨⟨[], [], h.rep hs hs'⟩, nofun, nofun⟩
    | step _ hstep hu ih => exact ih.step hstep hu
  exact hinv.atomic

end Step

/-- A look at the length. -/
def llenEvent (t : Nat) (key : Bytes) (node : Nat) (length : Int) : Event :=
  ⟨0, calmEnv t, .llen key, some node, .list ⟨.valueLen node, none, length⟩⟩

/-- The length has been looked at. -/
def lookedAt : Shdict := (llenEvent 6 [65] 4224 1).after 12 oneDict

theorem runs_lookedAt : (llenEvent 6 [65] 4224 1).Runs 12 oneDict lookedAt :=
  Event.runs_after (by decide) ⟨by decide, by decide⟩ rfl

theorem pending_lookedAt : (llenEvent 6 [65] 4224 1).pending lookedAt = some ⟨[65], 4224, 1⟩ := by
  decide +kernel

/-- Client 0 has pushed, client 1 has looked at the length, and both have not returned. -/
def bothPending : ListClients Nat :=
  ⟨lookedAt, Function.update (Function.update (fun _ => none) 0 (some ⟨[65], 4224, 1⟩)) 1
    (some ⟨[65], 4224, 1⟩), []⟩

theorem undisturbedRun_bothPending : UndisturbedRun 12 bothPending := by
  have h0 : UndisturbedRun 12 (start (P := Nat) emptyDict) := .start fresh_emptyDict
  have h1 := h0.step (.locked (p := 0) rfl runs_oneDict) ⟨nofun, fun w hw => by
    obtain rfl := Option.some.inj (pending_oneDict.symm.trans hw)
    decide⟩
  have h2 := h1.step (.locked (p := 1) rfl runs_lookedAt) ⟨fun q w hw => ?_, fun w hw => by
    obtain rfl := Option.some.inj (pending_lookedAt.symm.trans hw)
    decide⟩
  · simp only [pending_oneDict, pending_lookedAt] at h2
    exact h2
  · have hq : q = 0 := by
      by_contra hne
      simp only [Function.update_of_ne hne] at hw
      cases hw
    subst hq
    obtain rfl := Option.some.inj (pending_oneDict.symm.trans hw)
    exact ⟨by decide +kernel, fun _ => rfl⟩

/-- Client 0 returns its length. Client 1 has been in its own locked section since, and
has only looked. -/
theorem lengthsAtomic_of_undisturbed_two :
    LengthsAtomic ⟨lookedAt, Function.update bothPending.pending 0 none,
      [(1, (Return.valueLen 4224).value lookedAt)]⟩ :=
  lengthsAtomic_of_undisturbed (by decide) (by decide)
    (undisturbedRun_bothPending.step (.ret (p := 0) (w := ⟨[65], 4224, 1⟩) rfl) trivial)

end ListClients

end MpsShdict
