import Mathlib.Logic.Function.Basic
import Mathlib.Logic.Relation
import Mathlib.Tactic.Common

/-! # Sections that exclude one another

A section reaches a shared state in separate accesses. Users run sections at their own
pace, and a user enters one only while nobody is inside. Then the sections might as well
have been run one after the other, each as a whole, in the order in which they were left.

This is what a lock is for, stated without one: `Step` lets a user enter when no other is
inside, and which mechanism sees to that is left to whoever uses the module. A section is
a `Prog`, a tree of accesses in which each access may depend on what the ones before it
have met, so the result holds for every way to cut a piece of code into accesses
(`Spec.Cuts`).

The invariant is `Atomic`. Between two steps the state is the one that the sections left
so far lead to, or somebody is inside, alone, and what is left of the section will
complete it as a whole from there. One step keeps it, whichever step it is
(`Atomic.step`), and a run of steps keeps it by induction (`atomic_of_run`).
-/
namespace Sections

/-- Accesses to a state, one after the other. What comes next depends on the state that an
access has met, so a program may branch and loop on what it reads. -/
inductive Prog (σ α : Type) where
  | ret (a : α)
  | access (f : σ → σ) (next : σ → Prog σ α)

variable {P κ σ α : Type}

/-- The program as a whole: all of its accesses at once, with nobody else in between. -/
def Prog.run : Prog σ α → σ → σ × α
  | .ret a, d => (d, a)
  | .access f next, d => (next d).run (f d)

/-- The sections that may be asked for, and what each does as a whole, where it comes to
an end. This is the sequential meaning that interleaved runs are compared with. -/
structure Spec (κ σ α : Type) where
  ok : κ → Prop
  whole : κ → σ → Option (σ × α)

namespace Spec

/-- The program is the section, cut into accesses: run as a whole from any state in which
the section comes to an end, it does the same and answers the same. -/
def Cuts (S : Spec κ σ α) (c : κ) (prog : Prog σ α) : Prop :=
  ∀ d r, S.whole c d = some r → prog.run d = r

/-- Whole sections one after the other, the last one first. This is the history that
explains an interleaved run. -/
inductive Serial (S : Spec κ σ α) (d₀ : σ) : List (P × κ × α) → σ → Prop where
  | nil : Serial S d₀ [] d₀
  | cons {done : List (P × κ × α)} {d d' : σ} {p : P} {c : κ} {a : α} (h : Serial S d₀ done d)
      (hok : S.ok c) (hrun : S.whole c d = some (d', a)) : Serial S d₀ ((p, c, a) :: done) d'

/-- Wherever whole sections lead to, each comes to an end. Without this nobody could say
what a section that never returns would have done as a whole. -/
def Ends (S : Spec κ σ α) (d₀ : σ) (P : Type) : Prop :=
  ∀ (done : List (P × κ × α)) d, S.Serial d₀ done d → ∀ c, S.ok c → ∃ r, S.whole c d = some r

end Spec

/-- Users of a state: what is left of the section that a user is inside of, and the
sections that were left, the last one first. Users who are outside have no program left. -/
structure Turns (P κ σ α : Type) where
  state : σ
  inside : P → Option (κ × Prog σ α)
  done : List (P × κ × α)

namespace Turns

/-- Nobody has entered yet. -/
def start (d₀ : σ) : Turns P κ σ α := ⟨d₀, fun _ => none, []⟩

variable [DecidableEq P] (t : Turns P κ σ α)

/-- `p` enters a section. -/
def enter (p : P) (c : κ) (prog : Prog σ α) : Turns P κ σ α :=
  { t with inside := Function.update t.inside p (some (c, prog)) }

/-- `p` makes an access. -/
def access (p : P) (c : κ) (f : σ → σ) (next : σ → Prog σ α) : Turns P κ σ α :=
  { t with state := f t.state, inside := Function.update t.inside p (some (c, next t.state)) }

/-- `p` leaves its section. -/
def leave (p : P) (c : κ) (a : α) : Turns P κ σ α :=
  { t with inside := Function.update t.inside p none, done := (p, c, a) :: t.done }

/-- The steps: a user enters a section while nobody is inside, a user who is inside makes
its next access, and a user whose program is at its end leaves with the answer. Who moves
next is open. -/
inductive Step (S : Spec κ σ α) : Turns P κ σ α → Turns P κ σ α → Prop where
  | enter {t : Turns P κ σ α} {p : P} {c : κ} {prog : Prog σ α} (hnone : ∀ q, t.inside q = none)
      (hok : S.ok c) (hcuts : S.Cuts c prog) : Step S t (t.enter p c prog)
  | access {t : Turns P κ σ α} {p : P} {c : κ} {f : σ → σ} {next : σ → Prog σ α}
      (hin : t.inside p = some (c, .access f next)) : Step S t (t.access p c f next)
  | leave {t : Turns P κ σ α} {p : P} {c : κ} {a : α} (hin : t.inside p = some (c, .ret a)) :
      Step S t (t.leave p c a)

/-- **What holds between the steps**: the sections that were left have led to `d`, and
whoever is inside is there alone and will have run its section as a whole on `d`. -/
inductive Atomic (S : Spec κ σ α) (d₀ : σ) (t : Turns P κ σ α) (d : σ) : Prop where
  | quiet (serial : S.Serial d₀ t.done d) (hin : t.inside = fun _ => none) (hstate : t.state = d)
  | busy (serial : S.Serial d₀ t.done d) (p : P) (c : κ) (rest prog : Prog σ α)
      (hin : t.inside = Function.update (fun _ => none) p (some (c, rest))) (hok : S.ok c)
      (hcuts : S.Cuts c prog) (hrun : prog.run d = rest.run t.state)

variable {t} {S : Spec κ σ α} {d₀ d : σ} {t' : Turns P κ σ α} {p q : P} {x y : κ × Prog σ α}

theorem alone (h : Function.update (fun _ => none) q (some y) p = some x) : p = q ∧ x = y := by
  by_cases hq : p = q
  · subst hq
    rw [Function.update_self] at h
    exact ⟨rfl, (Option.some.inj h).symm⟩
  · rw [Function.update_of_ne hq] at h
    cases h

theorem Atomic.serial (h : Atomic S d₀ t d) : S.Serial d₀ t.done d := by
  cases h with
  | quiet serial => exact serial
  | busy serial => exact serial

/-- **One step.** Entering and making an access keep the sections that were left; leaving
adds the section to them, and the state is then what the whole section leads to. The cases
follow the step, and in each the user who moves is the only one inside. -/
theorem Atomic.step (h : Atomic S d₀ t d) (hends : S.Ends d₀ P) (hs : Step S t t') :
    ∃ d', Atomic S d₀ t' d' := by
  cases hs with
  | @enter p c prog hnone hok hcuts =>
    cases h with
    | quiet serial hin hstate =>
      refine ⟨d, .busy serial p c prog prog ?_ hok hcuts (by rw [← hstate]; rfl)⟩
      rw [Turns.enter, hin]
    | busy serial q c' rest prog' hin =>
      have hq := hnone q
      rw [hin, Function.update_self] at hq
      cases hq
  | @access p c f next hp =>
    cases h with
    | quiet serial hin =>
      rw [hin] at hp
      cases hp
    | busy serial q c' rest prog hin hok hcuts hrun =>
      rw [hin] at hp
      obtain ⟨rfl, hx⟩ := alone hp
      obtain ⟨rfl, rfl⟩ := Prod.mk.inj hx
      refine ⟨d, .busy serial p c (next t.state) prog ?_ hok hcuts hrun⟩
      rw [Turns.access, hin, Function.update_idem]
  | @leave p c a hp =>
    cases h with
    | quiet serial hin =>
      rw [hin] at hp
      cases hp
    | busy serial q c' rest prog hin hok hcuts hrun =>
      rw [hin] at hp
      obtain ⟨rfl, hx⟩ := alone hp
      obtain ⟨rfl, rfl⟩ := Prod.mk.inj hx
      obtain ⟨r, hr⟩ := hends _ d serial c hok
      -- nothing is left to do, so the state is that after the whole section
      have hwhole : S.whole c d = some (t.state, a) := by
        rw [hr, ← hcuts d r hr, hrun]
        rfl
      refine ⟨t.state, .quiet (serial.cons hok hwhole) ?_ rfl⟩
      rw [Turns.leave, hin, Function.update_idem]
      exact Function.update_eq_self p _

/-- **Sections that exclude one another are atomic.** In any run, however the users are
interleaved, the sections that were left explain the state as a serial run of whole
sections would. -/
theorem atomic_of_run (hends : S.Ends d₀ P) (run : Relation.ReflTransGen (Step S) (start d₀) t) :
    ∃ d, Atomic S d₀ t d := by
  induction run with
  | refl => exact ⟨d₀, .quiet .nil rfl rfl⟩
  | tail _ hs ih =>
    obtain ⟨d, h⟩ := ih
    exact h.step hends hs

end Turns

end Sections
