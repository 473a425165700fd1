import Mathlib.Logic.Relation
import MpsShdict.SlabCreate

/-! # A creation that does not end

The one call that has created the file is the only one that can give it its final mode.
Where it fails, or its process dies, nobody takes the file away: from then on no call
returns a pool, however often and by whom it is made.

The result is about everything that can still happen after a state. While the creator is
at work the file can be finished, for which the remaining steps are named one by one; when
it is not, the state is `Blocked`, and every step of anybody leads to a blocked state
again. So the two cases are an equivalence, and the second one says what the first process
to fail leaves behind for all that come later.
-/
namespace MpsShdict.SlabCreate.Callers

open Relation

variable {P : Type} [DecidableEq P] {s s' : Callers P} {p : P} {t : Stage}

/-- The stages that come after an open of the finished file, or after the last step of its
creation. -/
def Opened : Stage → Prop
  | .openMmap _ | .openClose _ | .createClose none | .returned true => True
  | _ => False

/-- What one step does to the mode of the file, `p` going on at `t`: it leaves it alone,
it creates the file, or it gives the file its final mode. -/
inductive ModeStep (s s' : Callers P) (p : P) (t : Stage) : Prop
  | same (hm : s'.mode = s.mode) (hb : Building t → Building (s.stage p))
      (ho : Opened t → Opened (s.stage p) ∨ s.mode = .final)
  | created (ha : s.mode = .absent) (hm : s'.mode = .rusr) (ho : ¬ Opened t)
  | finished (hb : Building (s.stage p)) (hm : s'.mode = .final)

theorem openFailed_closed (k : Attempt) (e : Errno) :
    ¬ Building (openFailed k e) ∧ ¬ Opened (openFailed k e) := by
  rcases openFailed_cases k e with he | he <;> rw [he] <;> exact ⟨id, id⟩

theorem createReturns_closed (e : Errno) :
    ¬ Building (createReturns (some e)) ∧ ¬ Opened (createReturns (some e)) := by
  rcases createReturns_some e with he | he <;> rw [he] <;> exact ⟨id, id⟩

omit [DecidableEq P] in
/-- A step that leaves the mode alone and leads to a stage before the file is opened. -/
theorem ModeStep.closed (hm : s'.mode = s.mode) (ht : ¬ Building t ∧ ¬ Opened t) :
    ModeStep s s' p t :=
  .same hm (fun hb => absurd hb ht.1) fun ho => absurd ho ht.2

theorem Step.mode (hs : Step s s') : ∃ p t, s'.stage = Function.update s.stage p t ∧
    ModeStep s s' p t := by
  cases hs with
  | die p => exact ⟨p, .dead, rfl, .closed rfl ⟨id, id⟩⟩
  | advance p a ha =>
    refine ⟨p, ?_⟩
    cases hst : s.stage p with
    | openFile k =>
      cases a with
      | some e =>
        obtain rfl : s.goto p (openFailed k e) = s' := by
          simpa only [Callers.advance, hst, Option.some.injEq] using ha
        exact ⟨_, rfl, .closed rfl (openFailed_closed k e)⟩
      | none =>
        obtain ⟨hf, rfl⟩ : s.mode = .final ∧ s.goto p (.openMmap k) = s' := by
          simpa only [Callers.advance, hst,
            Option.ite_none_right_eq_some, Option.some.injEq] using ha
        exact ⟨.openMmap k, rfl, .same rfl False.elim fun _ => .inr hf⟩
    | openMmap k =>
      cases a <;> simp only [Callers.advance, hst, Option.some.injEq] at ha <;> subst ha
      · exact ⟨.openClose k, rfl, .same rfl False.elim fun _ => .inl (hst ▸ trivial)⟩
      · exact ⟨_, rfl, .closed rfl (openFailed_closed k _)⟩
    | openClose k =>
      cases a <;> simp only [Callers.advance, hst, Option.some.injEq] at ha <;> subst ha
      · exact ⟨.returned true, rfl, .same rfl False.elim fun _ => .inl (hst ▸ trivial)⟩
      · exact ⟨_, rfl, .closed rfl (openFailed_closed k _)⟩
    | create =>
      cases a with
      | some e =>
        simp only [Callers.advance, hst, Option.some.injEq] at ha
        subst ha
        exact ⟨_, rfl, .closed rfl (createReturns_closed e)⟩
      | none =>
        simp only [Callers.advance, hst, Option.ite_none_right_eq_some, Option.some.injEq] at ha
        obtain ⟨habs, rfl⟩ := ha
        exact ⟨.ftruncate, rfl, .created habs rfl id⟩
    | fchmod =>
      cases a <;> simp only [Callers.advance, hst, Option.some.injEq] at ha <;> subst ha
      · exact ⟨.createClose none, rfl, .finished (hst ▸ trivial) rfl⟩
      · exact ⟨_, rfl, .closed rfl ⟨id, id⟩⟩
    | createClose err =>
      cases err with
      | some e =>
        cases a <;> simp only [Callers.advance, hst, Option.some.injEq] at ha <;> subst ha <;>
          exact ⟨_, rfl, .closed rfl (createReturns_closed e)⟩
      | none =>
        simp only [Callers.advance, hst, Option.some.injEq] at ha
        subst ha
        cases a with
        | some e => exact ⟨_, rfl, .closed rfl (createReturns_closed e)⟩
        | none => exact ⟨.returned true, rfl, .same rfl False.elim fun _ => .inl (hst ▸ trivial)⟩
    | nanosleep =>
      cases a <;> simp only [Callers.advance, hst, Option.some.injEq] at ha <;> subst ha
      · exact ⟨.openFile .second, rfl, .closed rfl ⟨id, id⟩⟩
      · exact ⟨.returned false, rfl, .closed rfl ⟨id, id⟩⟩
    | returned pool => cases a <;> simp [Callers.advance, hst] at ha
    | dead => cases a <;> simp [Callers.advance, hst] at ha
    | _ =>
      -- the creator goes on, or gives up
      cases a <;> simp only [Callers.advance, hst, Option.some.injEq] at ha <;> subst ha <;>
        exact ⟨_, rfl, .same rfl (fun _ => hst ▸ trivial) False.elim⟩

/-- Nobody has the file open unless it has its final mode. -/
def OpenedFinal (s : Callers P) : Prop := ∀ p, Opened (s.stage p) → s.mode = .final

theorem OpenedFinal.step (h : s.OpenedFinal) (hs : Step s s') : s'.OpenedFinal := by
  obtain ⟨p, t, hst, hmode⟩ := hs.mode
  intro q hq
  rw [hst] at hq
  by_cases he : q = p
  · subst he
    rw [Function.update_self] at hq
    cases hmode with
    | same hm hb ho => exact hm.trans ((ho hq).elim (h q) id)
    | created ha hm ho => exact absurd hq ho
    | finished hb hm => exact hm
  · rw [Function.update_of_ne he] at hq
    have hf := h q hq
    cases hmode with
    | same hm hb ho => exact hm.trans hf
    | created ha hm ho => rw [hf] at ha; cases ha
    | finished hb hm => exact hm

theorem Run.steps (hrun : Run s) (hs : ReflTransGen Step s s') : Run s' := by
  induction hs with
  | refl => exact hrun
  | tail _ hstep ih => exact ih.step hstep

theorem Run.openedFinal (hrun : Run s) : s.OpenedFinal := by
  induction hrun with
  | start => exact fun _ hp => hp.elim
  | step _ hs ih => exact ih.step hs

/-- The file is there, it does not have its final mode, and nobody is at work on it. -/
structure Blocked (s : Callers P) : Prop where
  mode : s.mode = .rusr
  idle : ∀ p, ¬ Building (s.stage p)

theorem Blocked.step (h : s.Blocked) (hs : Step s s') : s'.Blocked := by
  obtain ⟨p, t, hst, hmode⟩ := hs.mode
  cases hmode with
  | created ha hm ho => rw [h.mode] at ha; cases ha
  | finished hb hm => exact absurd hb (h.idle p)
  | same hm hb ho =>
    refine ⟨hm.trans h.mode, fun q hq => ?_⟩
    rw [hst] at hq
    by_cases he : q = p
    · subst he
      rw [Function.update_self] at hq
      exact h.idle q (hb hq)
    · rw [Function.update_of_ne he] at hq
      exact h.idle q hq

theorem Blocked.steps (h : s.Blocked) (hs : ReflTransGen Step s s') : s'.Blocked := by
  induction hs with
  | refl => exact h
  | tail _ hstep ih => exact ih.step hstep

/-- The file can still get its final mode, by some continuation of the run. -/
def CanFinish (s : Callers P) : Prop := ∃ s', ReflTransGen Step s s' ∧ s'.mode = .final

theorem CanFinish.before (ha : s.advance p none = some s') (h : s'.CanFinish) : s.CanFinish := by
  obtain ⟨s₁, hs, hm⟩ := h
  exact ⟨s₁, .head (.advance p none ha) hs, hm⟩

/-- A call that builds the pool can finish it. -/
theorem Building.canFinish (hb : Building (s.stage p)) : s.CanFinish := by
  have fchmod : ∀ s : Callers P, s.stage p = .fchmod → s.CanFinish := fun s hst =>
    ⟨{ s.goto p (.createClose none) with mode := .final },
      .single (.advance p none (by simp only [Callers.advance, hst])), rfl⟩
  have onInit : ∀ s : Callers P, s.stage p = .onInit → s.CanFinish := fun s hst =>
    .before (p := p) (by simp only [Callers.advance, hst]; rfl) (fchmod _ (Function.update_self ..))
  have slabInit : ∀ s : Callers P, s.stage p = .slabInit → s.CanFinish := fun s hst =>
    .before (p := p) (by simp only [Callers.advance, hst]; rfl) (onInit _ (Function.update_self ..))
  have createMmap : ∀ s : Callers P, s.stage p = .createMmap → s.CanFinish := fun s hst =>
    .before (p := p) (by simp only [Callers.advance, hst]; rfl)
      (slabInit _ (Function.update_self ..))
  cases hst : s.stage p with
  | ftruncate =>
    exact .before (p := p) (by simp only [Callers.advance, hst]; rfl)
      (createMmap _ (Function.update_self ..))
  | createMmap => exact createMmap s hst
  | slabInit => exact slabInit s hst
  | onInit => exact onInit s hst
  | fchmod => exact fchmod s hst
  | _ => rw [hst] at hb; exact hb.elim

/-- **A creation that does not end blocks the path name for good.** While the file is not
finished, it can be as long as its creator is at work on it; once the creator has failed
or died, no call returns a pool, in any continuation of the run. -/
theorem creation_blocks (hrun : Run s) (hm : s.mode = .rusr) :
    ((∃ p, Building (s.stage p)) ↔ s.CanFinish) ∧
      ((∀ p, ¬ Building (s.stage p)) → ∀ s', ReflTransGen Step s s' →
        s'.mode = .rusr ∧ ∀ p, s'.stage p ≠ .returned true) := by
  refine ⟨⟨fun ⟨p, hb⟩ => Building.canFinish hb, fun ⟨s', hs', hfinal⟩ => ?_⟩,
    fun hidle s' hs' => ?_⟩
  · by_contra hno
    have hblocked : s.Blocked := ⟨hm, fun p hb => hno ⟨p, hb⟩⟩
    have := (hblocked.steps hs').mode
    rw [hfinal] at this
    cases this
  · have hmode := (Blocked.steps ⟨hm, hidle⟩ hs').mode
    refine ⟨hmode, fun p hp => ?_⟩
    have hfinal := (hrun.steps hs').openedFinal p (hp ▸ trivial)
    rw [hmode] at hfinal
    cases hfinal

/-- The creator dies when it has created the file. From then on the file keeps its first
mode, and no call returns a pool. -/
theorem creation_blocks_dead : ∃ s : Callers Nat, s.stage 0 = .dead ∧
    ((∃ p, Building (s.stage p)) ↔ s.CanFinish) ∧
    ((∀ p, ¬ Building (s.stage p)) → ∀ s', ReflTransGen Step s s' →
      s'.mode = .rusr ∧ ∀ p, s'.stage p ≠ .returned true) := by
  have created := (Run.start.step (.advance 0 (some .enoent) rfl)).step (.advance 0 none rfl)
  exact ⟨_, rfl, creation_blocks (created.step (.die 0)) rfl⟩

end MpsShdict.SlabCreate.Callers
