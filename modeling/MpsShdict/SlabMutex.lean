import Mathlib.Logic.Function.Basic
import Mathlib.Tactic.Common

/-! # The pool mutex (`mps_slab_lock`, `mps_slab_unlock`)

`mps_slab_init_mutex` makes the mutex of a pool robust: it survives the death of its
owner, but the next owner has to declare the state consistent before it unlocks, or no one
can ever own the mutex again. `mps_slab_lock` does not look at what `pthread_mutex_lock`
returns, so every process whose call returns goes on as the owner.

The mutex has the five states that a robust mutex can be in, and a process locks, unlocks
or dies at any moment. After the death of an owner the next one gets `EOWNERDEAD`, which
the code ignores, and its unlock makes the mutex unrecoverable; from then on
`pthread_mutex_lock` fails at once and `mps_slab_lock` returns to whoever calls it.
`not_mutualExclusion` is that run. Where no inconsistent mutex is ever unlocked, mutual
exclusion holds over all runs, with deaths in them (`mutualExclusion_of_consistent`).
-/
namespace MpsShdict.SlabMutex

variable {P : Type} [DecidableEq P]

/-- A robust mutex: free, locked by a process, left behind by a dead owner, locked by the
process that found it so, or of no use any more. -/
inductive Mutex (P : Type) where
  | free
  | locked (owner : P)
  /-- The owner died and no one has locked the mutex since. -/
  | ownerDead
  /-- Locked by the process that was told of the death. -/
  | inconsistent (owner : P)
  | unrecoverable
  deriving DecidableEq

/-- What `pthread_mutex_lock` returns. -/
inductive LockResult where
  | ok
  | eownerdead
  | enotrecoverable
  deriving DecidableEq

/-- `pthread_mutex_lock`, where it does not block. In the last two states of the mutex it
returns an error at once. -/
def pthreadMutexLock (p : P) : Mutex P → Option (Mutex P × LockResult)
  | .free => some (.locked p, .ok)
  | .ownerDead => some (.inconsistent p, .eownerdead)
  | .unrecoverable => some (.unrecoverable, .enotrecoverable)
  | .locked _ => none
  | .inconsistent _ => none

/-- `pthread_mutex_unlock`; a process that is not the owner gets an error. -/
def pthreadMutexUnlock (p : P) : Mutex P → Mutex P
  | .locked q => if q = p then .free else .locked q
  | .inconsistent q => if q = p then .unrecoverable else .inconsistent q
  | m => m

/-- The death of `p`. A mutex that it owned is left behind for the next one, whatever its
state was before. -/
def ownerDies (p : P) : Mutex P → Mutex P
  | .locked q => if q = p then .ownerDead else .locked q
  | .inconsistent q => if q = p then .ownerDead else .inconsistent q
  | m => m

/-- Where a process is: outside of every locked section, inside one, between the
return of its `mps_slab_lock` and its `mps_slab_unlock`, or dead. -/
inductive Stage where
  | outside
  | inside
  | dead
  deriving DecidableEq

/-- The processes that map a pool, and its mutex. There may be any number of them. -/
structure Processes (P : Type) where
  mutex : Mutex P
  stage : P → Stage

namespace Processes
variable (s : Processes P)

/-- After `mps_slab_init_mutex`, all processes alive. -/
def start : Processes P := ⟨.free, fun _ => .outside⟩

/-- `mps_slab_lock`, where it returns. The result of `pthread_mutex_lock` is dropped, so
the process goes inside in every case. -/
def mpsSlabLock (p : P) : Option (Processes P) :=
  (pthreadMutexLock p s.mutex).map fun r => ⟨r.1, Function.update s.stage p .inside⟩

/-- `mps_slab_unlock`. -/
def mpsSlabUnlock (p : P) : Processes P :=
  ⟨pthreadMutexUnlock p s.mutex, Function.update s.stage p .outside⟩

/-- `p` dies. -/
def die (p : P) : Processes P :=
  ⟨ownerDies p s.mutex, Function.update s.stage p .dead⟩

/-- A step of a process: it locks, it unlocks, or it dies, be it inside or outside of a
locked section. -/
inductive Action (P : Type) where
  | lock (p : P)
  | unlock (p : P)
  | die (p : P)

/-- The steps. A process locks from outside only, and whoever is inside may unlock at any
time. -/
inductive Step : Processes P → Action P → Processes P → Prop
  | lock {s s' : Processes P} {p : P} : s.stage p = .outside → s.mpsSlabLock p = some s' →
      Step s (.lock p) s'
  | unlock {s : Processes P} {p : P} : s.stage p = .inside → Step s (.unlock p) (s.mpsSlabUnlock p)
  | die {s : Processes P} {p : P} : s.stage p ≠ .dead → Step s (.die p) (s.die p)

/-- A run of steps, from a free mutex with everybody outside. The processes take turns in
any way. -/
inductive Run : Processes P → Prop
  | start : Run start
  | step {s s' : Processes P} {a : Action P} : Run s → Step s a s' → Run s'

/-- One process at most is inside a locked section, which is what every one of these
sections takes for granted. -/
def MutualExclusion : Prop := ∀ p q, s.stage p = .inside → s.stage q = .inside → p = q

/-- The step does not unlock a mutex that was locked after its owner died. -/
def NoInconsistentUnlock : Action P → Prop
  | .unlock p => s.mutex ≠ .inconsistent p
  | _ => True

/-- A run in which no inconsistent mutex is unlocked. The condition is on the mutex before
the step. -/
inductive ConsistentRun : Processes P → Prop
  | start : ConsistentRun start
  | step {s s' : Processes P} {a : Action P} : ConsistentRun s → Step s a s' →
      s.NoInconsistentUnlock a → ConsistentRun s'

/-! ### An unrecoverable mutex excludes no one -/

/-- Two processes that are outside both get inside. -/
theorem unrecoverable_admits {p q : P} (hm : s.mutex = .unrecoverable) (hpq : p ≠ q)
    (hp : s.stage p = .outside) (hq : s.stage q = .outside) :
    ∃ s₁ s₂, Step s (.lock p) s₁ ∧ Step s₁ (.lock q) s₂ ∧ ¬ s₂.MutualExclusion := by
  refine ⟨⟨.unrecoverable, Function.update s.stage p .inside⟩,
    ⟨.unrecoverable, Function.update (Function.update s.stage p .inside) q .inside⟩,
    .lock hp ?_, .lock ?_ rfl, fun h => ?_⟩
  · simp [mpsSlabLock, hm, pthreadMutexLock]
  · simpa [Function.update_of_ne hpq.symm] using hq
  · exact hpq (h p q (by simp [Function.update_of_ne hpq]) (by simp))

/-- Process 0 is the owner. -/
def firstOwner : Processes Nat := ⟨.locked 0, Function.update start.stage 0 .inside⟩

/-- Process 0 has died and process 1 has locked after it. -/
def secondOwner : Processes Nat :=
  ⟨.inconsistent 1, Function.update (firstOwner.die 0).stage 1 .inside⟩

/-- **The death of an owner ends mutual exclusion**: the second owner unlocks, and the two
next calls of `mps_slab_lock` both return. -/
theorem not_mutualExclusion : ¬ ∀ s : Processes Nat, Run s → s.MutualExclusion := by
  intro h
  have h1 : Step start (.lock 0) firstOwner := .lock rfl rfl
  have h2 : Step firstOwner (.die 0) (firstOwner.die 0) := .die (by decide)
  have h3 : Step (firstOwner.die 0) (.lock 1) secondOwner := .lock rfl rfl
  have h4 : Step secondOwner (.unlock 1) (secondOwner.mpsSlabUnlock 1) := .unlock rfl
  obtain ⟨s₁, s₂, h5, h6, hno⟩ := unrecoverable_admits (secondOwner.mpsSlabUnlock 1)
    (p := 1) (q := 2) rfl (by decide) rfl rfl
  exact hno (h _ ((((((Run.start.step h1).step h2).step h3).step h4).step h5).step h6))

/-! ### Runs without the unlock of an inconsistent mutex -/

/-- Who is inside owns the mutex, and the mutex can be recovered. This is the invariant of
the runs in which no inconsistent mutex is unlocked. -/
def Owned : Prop := s.mutex ≠ .unrecoverable ∧
  ∀ p, s.stage p = .inside ↔ s.mutex = .locked p ∨ s.mutex = .inconsistent p

variable {s} {s' : Processes P} {a : Action P}

omit [DecidableEq P] in
theorem Owned.mutualExclusion (ho : s.Owned) : s.MutualExclusion := by
  intro p q hp hq
  rcases (ho.2 p).mp hp with hp | hp <;> rcases (ho.2 q).mp hq with hq | hq <;>
    simpa using hp.symm.trans hq

/-- The step lemma. -/
theorem Owned.step (ho : s.Owned) (hs : Step s a s') (hc : s.NoInconsistentUnlock a) :
    s'.Owned := by
  obtain ⟨hrec, hin⟩ := ho
  cases hs with
  | @lock _ p hout hl =>
    -- whoever gets the mutex finds nobody inside, since whoever is inside owns it
    have key : ∀ m, (∀ q, s.mutex ≠ .locked q ∧ s.mutex ≠ .inconsistent q) →
        (m = .locked p ∨ m = .inconsistent p) →
        Owned ⟨m, Function.update s.stage p .inside⟩ := by
      intro m hnone hm
      refine ⟨by rcases hm with rfl | rfl <;> simp, fun q => ?_⟩
      by_cases hq : q = p
      · subst q
        simpa using hm
      · have hq' : s.stage q ≠ .inside := fun he =>
          ((hin q).mp he).elim (hnone q).1 (hnone q).2
        rcases hm with rfl | rfl <;> simp [hq', Ne.symm hq, Function.update_of_ne hq]
    cases hm : s.mutex with
    | free =>
      simp only [mpsSlabLock, hm, pthreadMutexLock, Option.map_some, Option.some.injEq] at hl
      exact hl ▸ key _ (by simp [hm]) (.inl rfl)
    | ownerDead =>
      simp only [mpsSlabLock, hm, pthreadMutexLock, Option.map_some, Option.some.injEq] at hl
      exact hl ▸ key _ (by simp [hm]) (.inr rfl)
    | unrecoverable => exact absurd hm hrec
    | locked q => simp [mpsSlabLock, hm, pthreadMutexLock] at hl
    | inconsistent q => simp [mpsSlabLock, hm, pthreadMutexLock] at hl
  | @unlock p hp =>
    have hm : s.mutex = .locked p := ((hin p).mp hp).resolve_right hc
    refine ⟨by simp [mpsSlabUnlock, hm, pthreadMutexUnlock], ?_⟩
    intro q
    by_cases hq : q = p
    · subst q
      simp [mpsSlabUnlock, hm, pthreadMutexUnlock]
    · simp [mpsSlabUnlock, hm, pthreadMutexUnlock, Function.update_of_ne hq, hin q, Ne.symm hq]
  | @die p hp =>
    by_cases hown : s.mutex = .locked p ∨ s.mutex = .inconsistent p
    · -- the owner dies and no one is inside
      have hd : ownerDies p s.mutex = .ownerDead := by
        rcases hown with hm | hm <;> simp [hm, ownerDies]
      refine ⟨by simp [Processes.die, hd], ?_⟩
      intro q
      by_cases hq : q = p
      · subst q
        simp [Processes.die, hd]
      · have hno : s.stage q ≠ .inside := by
          intro he
          rcases (hin q).mp he with h1 | h1 <;> rcases hown with h2 | h2 <;>
            exact hq (by simpa using h1.symm.trans h2)
        simp [Processes.die, hd, Function.update_of_ne hq, hno]
    · have hd : ownerDies p s.mutex = s.mutex := by
        cases hm : s.mutex <;> simp_all [ownerDies]
      refine ⟨by simpa [Processes.die, hd] using hrec, ?_⟩
      intro q
      by_cases hq : q = p
      · subst q
        simpa [Processes.die, hd] using hown
      · simp [Processes.die, hd, Function.update_of_ne hq, hin q]

/-- **Mutual exclusion** holds in every run in which no process unlocks a mutex that it
locked after the death of an owner. Processes may die at any step. -/
theorem mutualExclusion_of_consistent (hrun : ConsistentRun s) : s.MutualExclusion := by
  have ho : s.Owned := by
    induction hrun with
    | start => exact ⟨by simp [start], by simp [start]⟩
    | step _ hs hc ih => exact ih.step hs hc
  exact ho.mutualExclusion

/-- Process 1 locks after the death of process 0. The mutex is inconsistent from then on,
and process 1 is alone inside. -/
theorem mutualExclusion_of_consistent_second : secondOwner.MutualExclusion := by
  have h1 : Step start (.lock 0) firstOwner := .lock rfl rfl
  have h2 : Step firstOwner (.die 0) (firstOwner.die 0) := .die (by decide)
  have h3 : Step (firstOwner.die 0) (.lock 1) secondOwner := .lock rfl rfl
  exact mutualExclusion_of_consistent
    (((ConsistentRun.start.step h1 trivial).step h2 trivial).step h3 trivial)

end Processes

end MpsShdict.SlabMutex
