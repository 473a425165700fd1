import MpsShdict.Lib.Sections
import MpsShdict.SlabMutex
import MpsShdict.ShdictRuns

/-! # The locked sections of the calls

A process does not make a call in one step: in between `mps_slab_lock` and
`mps_slab_unlock` it reads and writes the pool bit by bit, while the other processes do
what they like outside of their locked sections.  As long as nobody dies inside of one,
the calls are as they are in a run, in the order of their unlocks, however each locked
section is cut into accesses to the pool.
-/
namespace MpsShdict

open SlabMutex Sections

/-- A call that a process is about to make: where it has mapped the pool, what it finds
outside of the pool, and the call. The answer is what the locked section finds. -/
structure Asked where
  base : Nat
  env : Env
  call : Call

/-- What a locked section ends with.  The length that a push or an `mps_shdict_llen`
returns is the one that is there at the unlock. -/
abbrev Reply := Option Nat × Answer

/-- The locked sections. -/
def lockedSections (s : Nat) : Spec Asked Shdict Reply where
  ok x := 2 ^ s ∣ x.base ∧ x.call.Ok
  whole x d := x.call.run (mpsSlabSizesInit (2 ^ s)) x.base x.env d

/-- The event that a call has been. -/
def Asked.event (x : Asked) (r : Reply) : Event := ⟨x.base, x.env, x.call, r.1, r.2⟩

/-- The processes that map a pool, with its mutex, and what they are at inside of their
locked sections. The two halves are models of their own, the mutex and the taking of
turns, and a step goes on in both. -/
structure Users (P : Type) where
  processes : Processes P
  turns : Turns P Asked Shdict Reply

namespace Users

variable {P : Type} [DecidableEq P]

/-- No process has called yet. -/
def start (d₀ : Shdict) : Users P := ⟨.start, .start d₀⟩

/-- The calls that have been unlocked, the last one first. -/
def events (u : Users P) : List Event := u.turns.done.map fun y => y.2.1.event y.2.2

/-- A step: the return of `mps_slab_lock`, an access to the pool, `mps_slab_unlock`, or a
death.  Nothing but the mutex keeps a process out. -/
inductive Step (s : Nat) : Users P → Users P → Prop where
  | lock {u : Users P} {ps : Processes P} {p : P} {x : Asked} {prog : Prog Shdict Reply}
      (h : Processes.Step u.processes (.lock p) ps) (hok : (lockedSections s).ok x)
      (hcuts : (lockedSections s).Cuts x prog) : Step s u ⟨ps, u.turns.enter p x prog⟩
  | access {u : Users P} {p : P} {x : Asked} {f : Shdict → Shdict}
      {next : Shdict → Prog Shdict Reply} (hin : u.turns.inside p = some (x, .access f next)) :
      Step s u ⟨u.processes, u.turns.access p x f next⟩
  | unlock {u : Users P} {ps : Processes P} {p : P} {x : Asked} {r : Reply}
      (hin : u.turns.inside p = some (x, .ret r)) (h : Processes.Step u.processes (.unlock p) ps) :
      Step s u ⟨ps, u.turns.leave p x r⟩
  | die {u : Users P} {ps : Processes P} {p : P} (h : Processes.Step u.processes (.die p) ps) :
      Step s u ⟨ps, { u.turns with inside := Function.update u.turns.inside p none }⟩

/-- A step in which nobody dies inside of a locked section. -/
def QuietStep (s : Nat) (u u' : Users P) : Prop :=
  Step s u u' ∧ ∀ p, u.processes.stage p = .inside → u'.processes.stage p ≠ .dead

/-- A run of such steps. -/
abbrev QuietRun (s : Nat) : Users P → Users P → Prop := Relation.ReflTransGen (QuietStep s)

/-! ### The mutex guards the locked sections -/

/-- Whoever is inside owns the mutex, and no owner has died. This is what every step but a
death inside of a locked section keeps. -/
structure Guarded (u : Users P) : Prop where
  owned : u.processes.Owned
  alive : u.processes.mutex ≠ .ownerDead ∧ ∀ p, u.processes.mutex ≠ .inconsistent p
  inside : ∀ p, u.processes.stage p = .inside ↔ u.turns.inside p ≠ none

section Guard
variable {s : Nat} {d₀ : Shdict} {u u' : Users P} {p : P}

omit [DecidableEq P] in
theorem guarded_start : Guarded (start d₀ : Users P) :=
  ⟨⟨by simp [start, Processes.start], by simp [start, Processes.start]⟩,
    by simp [start, Processes.start], by simp [start, Processes.start, Turns.start]⟩

omit [DecidableEq P] in
/-- The owner is the one who is inside. -/
theorem Guarded.mutex (h : Guarded u) (hp : u.processes.stage p = .inside) :
    u.processes.mutex = .locked p :=
  ((h.owned.2 p).mp hp).resolve_right (h.alive.2 p)

omit [DecidableEq P] in
/-- Whoever gets the mutex finds nobody inside. -/
theorem Guarded.none_inside (h : Guarded u) (hm : u.processes.mutex = .free) (p : P) :
    u.turns.inside p = none := by
  by_contra hp
  have := h.mutex ((h.inside p).mpr hp)
  rw [hm] at this
  cases this

/-- A process that locks has found the mutex free. -/
theorem Guarded.lock {ps : Processes P} (h : Guarded u)
    (hs : Processes.Step u.processes (.lock p) ps) :
    u.processes.mutex = .free ∧ ps = ⟨.locked p, Function.update u.processes.stage p .inside⟩ := by
  cases hs with
  | lock hout hl =>
    cases hm : u.processes.mutex with
    | free =>
      simp only [Processes.mpsSlabLock, hm, pthreadMutexLock,
        Option.map_some, Option.some.injEq] at hl
      exact ⟨rfl, hl.symm⟩
    | ownerDead => exact absurd hm h.alive.1
    | unrecoverable => exact absurd hm h.owned.1
    | locked q => simp [Processes.mpsSlabLock, hm, pthreadMutexLock] at hl
    | inconsistent q => exact absurd hm (h.alive.2 q)

/-- A death outside of the locked sections leaves the mutex as it is. -/
theorem Guarded.mutex_die (h : Guarded u) (hp : u.processes.stage p ≠ .inside) :
    (u.processes.die p).mutex = u.processes.mutex := by
  have hl : u.processes.mutex ≠ .locked p := fun hm => hp ((h.owned.2 p).mpr (.inl hm))
  have hi : u.processes.mutex ≠ .inconsistent p := h.alive.2 p
  cases hm : u.processes.mutex with
  | locked q =>
    have hq : q ≠ p := by
      rintro rfl
      exact hl hm
    simp [Processes.die, ownerDies, hm, hq]
  | inconsistent q =>
    have hq : q ≠ p := by
      rintro rfl
      exact hi hm
    simp [Processes.die, ownerDies, hm, hq]
  | free | ownerDead | unrecoverable => simp [Processes.die, ownerDies, hm]

/-- **One step**: the mutex goes on to guard the locked sections, and to those who take
turns it is a step or nothing. A death outside of the sections is the case of nothing. -/
theorem Guarded.step (h : Guarded u) (hs : QuietStep s u u') :
    Guarded u' ∧ (Turns.Step (lockedSections s) u.turns u'.turns ∨ u'.turns = u.turns) := by
  obtain ⟨hstep, hdead⟩ := hs
  cases hstep with
  | @lock ps p x prog hl hok hcuts =>
    obtain ⟨hfree, hps⟩ := h.lock hl
    -- the one who locks enters, and nobody else was inside
    refine ⟨⟨h.owned.step hl trivial, by simp [hps], ?_⟩,
      .inl (.enter (h.none_inside hfree) hok hcuts)⟩
    intro q
    by_cases hq : q = p
    · subst hq
      simp [hps, Turns.enter]
    · simpa [hps, Turns.enter, Function.update_of_ne hq] using h.inside q
  | @access p x f next hin =>
    refine ⟨⟨h.owned, h.alive, ?_⟩, .inl (.access hin)⟩
    intro q
    by_cases hq : q = p
    · subst hq
      simp [Turns.access, (h.inside q).mpr (by simp [hin])]
    · simpa [Turns.access, Function.update_of_ne hq] using h.inside q
  | @unlock ps p x r hin hl =>
    have hp : u.processes.stage p = .inside := (h.inside p).mpr (by simp [hin])
    have hm := h.mutex hp
    have howned := h.owned.step hl (by simp [Processes.NoInconsistentUnlock, hm])
    cases hl
    refine ⟨⟨howned, by simp [Processes.mpsSlabUnlock, hm, pthreadMutexUnlock], ?_⟩,
      .inl (.leave hin)⟩
    intro q
    by_cases hq : q = p
    · subst hq
      simp [Processes.mpsSlabUnlock, Turns.leave]
    · simpa [Processes.mpsSlabUnlock, Turns.leave, Function.update_of_ne hq] using h.inside q
  | @die ps p hl =>
    have howned := h.owned.step hl trivial
    cases hl
    have hp : u.processes.stage p ≠ .inside := fun hp => hdead p hp (by simp [Processes.die])
    -- whoever dies was not inside, so nothing of the turns changes
    have hnone : u.turns.inside p = none := by
      by_contra hne
      exact hp ((h.inside p).mpr hne)
    have hsame : Function.update u.turns.inside p none = u.turns.inside := by
      rw [← hnone]
      exact Function.update_eq_self p _
    refine ⟨⟨howned, by simpa only [h.mutex_die hp] using h.alive, ?_⟩, .inr (by simp [hsame])⟩
    intro q
    rw [hsame]
    by_cases hq : q = p
    · subst hq
      simp [Processes.die, hnone]
    · simpa [Processes.die, Function.update_of_ne hq] using h.inside q

/-- **A run**: those who take turns have made a run. -/
theorem guarded_of_run (run : QuietRun s (start d₀) u) :
    Guarded u ∧ Relation.ReflTransGen (Turns.Step (lockedSections s)) (.start d₀) u.turns := by
  induction run with
  | refl => exact ⟨guarded_start, .refl⟩
  | tail _ hs ih =>
    obtain ⟨hg, hstep⟩ := ih.1.step hs
    refine ⟨hg, ?_⟩
    rcases hstep with hstep | heq
    · exact ih.2.tail hstep
    · rw [heq]
      exact ih.2

end Guard

/-! ### Whole sections are a run of calls -/

section Runs
variable {s : Nat} {d₀ d : Shdict} {u : Users P} {p : P} {done : List (P × Asked × Reply)}

omit [DecidableEq P] in
theorem run_of_serial (hfresh : Fresh s d₀) (h : (lockedSections s).Serial d₀ done d) :
    Run s (done.map fun y => y.2.1.event y.2.2) d := by
  induction h with
  | nil => exact .init hfresh
  | cons _ hok hrun ih => exact .call ih ⟨hok.1, hok.2, hrun⟩

/-- Every call that is made after a run comes to an end. -/
theorem Asked.whole_some (hs : 12 ≤ s) (hs' : s ≤ 16) {xs : List Event}
    (run : Run s xs d) {x : Asked} (hok : (lockedSections s).ok x) :
    ∃ r, (lockedSections s).whole x d = some r := by
  obtain ⟨L, spare, hrep⟩ := run.rep hs hs'
  obtain ⟨c, -, d', hrun, -⟩ := Call.run_spec x.env hok.2 hrep False.elim
  exact ⟨_, hrun x.base hok.1⟩

omit [DecidableEq P] in
theorem lockedSections_ends (hs : 12 ≤ s) (hs' : s ≤ 16) (hfresh : Fresh s d₀) :
    (lockedSections s).Ends d₀ P :=
  fun _ _ h _ hok => Asked.whole_some hs hs' (run_of_serial hfresh h) hok

/-- Only a death makes a process dead. -/
theorem stage_alive {ps ps' : Processes P} {a : Processes.Action P} (h : Processes.Step ps a ps')
    (ha : ∀ q, a ≠ .die q) (hp : ps.stage p = .inside) : ps'.stage p ≠ .dead := by
  cases h with
  | @lock _ q hout hl =>
    obtain ⟨m, -, rfl⟩ := Option.map_eq_some_iff.mp hl
    by_cases hq : p = q
    · simp [hq]
    · simp [Function.update_of_ne hq, hp]
  | @unlock q =>
    by_cases hq : p = q
    · simp [Processes.mpsSlabUnlock, hq]
    · simp [Processes.mpsSlabUnlock, Function.update_of_ne hq, hp]
  | @die q => exact absurd rfl (ha q)

theorem quietStep_access {x : Asked} {f : Shdict → Shdict} {next : Shdict → Prog Shdict Reply}
    (hin : u.turns.inside p = some (x, .access f next)) :
    QuietStep s u ⟨u.processes, u.turns.access p x f next⟩ :=
  ⟨.access hin, fun q hq => by simp [hq]⟩

/-- **Whoever is inside can go on to its unlock**, whatever the others do not do. By
induction on what is left of its section. -/
theorem Guarded.finish {x : Asked} (rest : Prog Shdict Reply) : ∀ u : Users P, Guarded u →
    u.turns.inside p = some (x, rest) →
    ∃ u', QuietRun s u u' ∧ u'.processes.mutex = .free ∧
      u'.turns.done = (p, x, (rest.run u.turns.state).2) :: u.turns.done ∧
      u'.turns.state = (rest.run u.turns.state).1 := by
  induction rest with
  | ret r =>
    intro u h hin
    have hp : u.processes.stage p = .inside := (h.inside p).mpr (by simp [hin])
    have hstep : Processes.Step u.processes (.unlock p) (u.processes.mpsSlabUnlock p) := .unlock hp
    refine ⟨_, .single ⟨.unlock hin hstep, fun q => stage_alive hstep (by simp)⟩, ?_, rfl, rfl⟩
    simp [Processes.mpsSlabUnlock, h.mutex hp, pthreadMutexUnlock]
  | access f next ih =>
    intro u h hin
    have hstep : QuietStep s u _ := quietStep_access hin
    obtain ⟨u', hrun, hfree, hdone, hstate⟩ :=
      ih u.turns.state _ (h.step hstep).1 (by simp [Turns.access])
    exact ⟨u', .head hstep hrun, hfree, hdone, hstate⟩

/-- **The locked sections are atomic.**  In every run in which nobody dies inside of a
locked section, one process at most is inside of one; the calls that have been unlocked
are a run; while nobody is inside, the pool is what that run has led to; and whoever is
inside can go on to its unlock, which adds its call to the run. -/
theorem sections_atomic (hs : 12 ≤ s) (hs' : s ≤ 16) (hfresh : Fresh s d₀)
    (run : QuietRun s (start d₀) u) :
    u.processes.MutualExclusion ∧ ∃ d, Run s u.events d ∧
      ((∀ p, u.processes.stage p ≠ .inside) → u.turns.state = d) ∧
      ∀ p x rest, u.turns.inside p = some (x, rest) →
        ∃ u' r, QuietRun s u u' ∧ u'.processes.mutex = .free ∧ u'.events = x.event r :: u.events ∧
          (x.event r).Runs s d u'.turns.state := by
  obtain ⟨hg, hturns⟩ := guarded_of_run run
  obtain ⟨d, hatomic⟩ := Turns.atomic_of_run (lockedSections_ends hs hs' hfresh) hturns
  have hrun : Run s u.events d := run_of_serial hfresh hatomic.serial
  refine ⟨hg.owned.mutualExclusion, d, hrun, ?_, ?_⟩
  · intro hout
    cases hatomic with
    | quiet _ _ hstate => exact hstate
    | busy _ p c rest prog hin =>
      refine absurd ((hg.inside p).mpr ?_) (hout p)
      simp [hin]
  · intro p x rest hp
    cases hatomic with
    | quiet _ hin =>
      rw [hin] at hp
      cases hp
    | busy _ q y rest' prog hin hok hcuts hprog =>
      have hp' := hp
      rw [hin] at hp'
      obtain ⟨rfl, hx⟩ := Turns.alone hp'
      obtain ⟨rfl, rfl⟩ := Prod.mk.inj hx
      obtain ⟨u', hrun', hfree, hdone, hstate⟩ := hg.finish rest u hp
      obtain ⟨r, hr⟩ := Asked.whole_some hs hs' hrun hok
      -- what is left of the section ends as the whole section on `d` does
      have hrest : rest.run u.turns.state = r := by rw [← hprog, hcuts d r hr]
      refine ⟨u', r.2, hrun', hfree, ?_, hok.1, hok.2, ?_⟩
      · rw [events, hdone, hrest]
        rfl
      · rw [hstate, hrest]
        exact hr

end Runs

/-! ### Two processes -/

/-- The call of an event. -/
def askedOf (x : Event) : Asked := ⟨x.base, x.env, x.call⟩

/-- Having read the pool, what is left is to write what the call makes of it. -/
def writeBack (s : Nat) (x : Asked) (d : Shdict) : Prog Shdict Reply :=
  match (lockedSections s).whole x d with
  | some r => .access (fun _ => r.1) fun _ => .ret r.2
  | none => .ret (none, .code 0)

/-- A locked section in two accesses: it reads the whole pool, then it writes it. -/
def readWrite (s : Nat) (x : Asked) : Prog Shdict Reply := .access id (writeBack s x)

theorem cuts_readWrite (s : Nat) (x : Asked) : (lockedSections s).Cuts x (readWrite s x) := by
  intro d r h
  simp [readWrite, writeBack, Prog.run, h]

section Two
variable {s : Nat} {u : Users P} {p : P} {x : Asked}

/-- `p` has locked and has read the pool. -/
def reading (s : Nat) (u : Users P) (p : P) (x : Asked) : Users P :=
  ⟨⟨.locked p, Function.update u.processes.stage p .inside⟩,
    (u.turns.enter p x (readWrite s x)).access p x id (writeBack s x)⟩

/-- `p` has written the pool and has unlocked. -/
def written (u : Users P) (p : P) (x : Asked) (r : Shdict × Reply) : Users P :=
  ⟨u.processes.mpsSlabUnlock p, (u.turns.access p x (fun _ => r.1) fun _ => .ret r.2).leave p x r.2⟩

theorem quietRun_reading (hp : u.processes.stage p = .outside) (hm : u.processes.mutex = .free)
    (hok : (lockedSections s).ok x) : QuietRun s u (u.reading s p x) := by
  have hlock : Processes.Step u.processes (.lock p)
      ⟨.locked p, Function.update u.processes.stage p .inside⟩ :=
    .lock hp (by simp [Processes.mpsSlabLock, hm, pthreadMutexLock])
  refine .tail (.single ⟨.lock hlock hok (cuts_readWrite s x),
    fun q => stage_alive hlock (by simp)⟩)
    (quietStep_access ?_)
  simp [Turns.enter, readWrite]

theorem quietRun_written {r : Shdict × Reply} (hp : u.processes.stage p = .inside)
    (hin : u.turns.inside p = some (x, .access (fun _ => r.1) fun _ => .ret r.2)) :
    QuietRun s u (u.written p x r) := by
  have hunlock : Processes.Step u.processes (.unlock p) (u.processes.mpsSlabUnlock p) := .unlock hp
  refine .tail (.single (quietStep_access hin))
    ⟨.unlock ?_ hunlock, fun q => stage_alive hunlock (by simp)⟩
  simp [Turns.access]

end Two

/-- Process 0 has stored a string. -/
def storedOne : Users Nat :=
  ((start emptyDict).reading 12 0 (askedOf (storeEvent 5 [65] [66] 4224))).written 0
    (askedOf (storeEvent 5 [65] [66] 4224))
    ((storeEvent 5 [65] [66] 4224).after 12 emptyDict, some 4224, .store ⟨ngxOk, none, 0⟩)

/-- Process 1 is about to store another one. -/
def storingAnother : Users Nat := storedOne.reading 12 1 (askedOf (storeEvent 6 [67] [68] 4352))

theorem quietRun_storingAnother : QuietRun 12 (start emptyDict) storingAnother := by
  have hx : (storeEvent 5 [65] [66] 4224).Runs 12 emptyDict
    ((storeEvent 5 [65] [66] 4224).after 12 emptyDict) :=
    storeEvent_runs 5 ⟨by decide, by decide⟩ (by decide) (by decide +kernel)
  have hok : (storeEvent 6 [67] [68] 4352).call.Ok :=
    storeEvent_ok 6 4352 ⟨by decide, by decide⟩ (by decide)
  have h1 : QuietRun 12 (start emptyDict)
      ((start emptyDict).reading 12 0 (askedOf (storeEvent 5 [65] [66] 4224))) :=
    quietRun_reading (p := 0) rfl rfl ⟨hx.1, hx.2.1⟩
  have h2 := quietRun_written (s := 12) (p := 0) (x := askedOf (storeEvent 5 [65] [66] 4224))
    (r := ((storeEvent 5 [65] [66] 4224).after 12 emptyDict, some 4224, .store ⟨ngxOk, none, 0⟩))
    (u := (start emptyDict).reading 12 0 (askedOf (storeEvent 5 [65] [66] 4224))) rfl ?_
  · exact (h1.trans h2).trans (quietRun_reading (p := 1) rfl rfl ⟨Nat.dvd_zero _, hok⟩)
  · have hw : writeBack 12 (askedOf (storeEvent 5 [65] [66] 4224)) emptyDict =
        .access (fun _ => (storeEvent 5 [65] [66] 4224).after 12 emptyDict)
          fun _ => .ret (some 4224, .store ⟨ngxOk, none, 0⟩) := by
      have hrun := hx.2.2
      simp only [writeBack, lockedSections, askedOf, hrun]
      rfl
    show some (_, writeBack 12 _ emptyDict) = _
    rw [hw]

/-- Process 1 is inside: it has read the pool that process 0 has left, and not yet
written. The calls that have been unlocked are those of process 0. -/
theorem sections_atomic_storingAnother :
    storingAnother.processes.MutualExclusion ∧ ∃ d, Run 12 storingAnother.events d ∧
      ((∀ p, storingAnother.processes.stage p ≠ .inside) → storingAnother.turns.state = d) ∧
      ∀ p x rest, storingAnother.turns.inside p = some (x, rest) →
        ∃ u' r, QuietRun 12 storingAnother u' ∧ u'.processes.mutex = .free ∧
          u'.events = x.event r :: storingAnother.events ∧ (x.event r).Runs 12 d u'.turns.state :=
  sections_atomic (by decide) (by decide) fresh_emptyDict quietRun_storingAnother

end Users

end MpsShdict
