import Mathlib.Data.List.Basic
import Mathlib.Tactic.Common

/-! # Bindings that expire

A key is bound until a deadline has passed; a deadline of zero never passes. Items of some
kind show what a key is bound to if they agree with it on all that has not expired, and
nothing else about them matters.

A store that removes what has expired only now and then, when it happens to need the room
or to look at the end of a list, is a map all the same: an item that has expired and one
that is gone mean the same. `Shows` is this relation between the items and a map's
binding, `View` says how an item is read, and the lemmas are what the operations of such a
store need: time goes by, items of other keys come and go, expired ones are dropped or
kept, and a live one is found.
-/
namespace Expiring

/-- The deadline has not passed at the time `t`. The bound is included: at its deadline an
item is still live. -/
def Live (deadline t : Nat) : Prop := deadline = 0 ∨ t ≤ deadline

instance (deadline t : Nat) : Decidable (Live deadline t) := inferInstanceAs (Decidable (_ ∨ _))

/-- How items are read: the key of an item, the binding that it stands for, and the
deadline of a binding. The items and the bindings may be of any type. -/
structure View (E K B : Type*) where
  key : E → K
  binding : E → B
  deadline : B → Nat

variable {E K B : Type*} {V : View E K B} {t t' : Nat} {k : K} {L L' : List E}
  {o : Option B} {b : B} {e : E}

/-- What counts of a binding at the time `t`: the binding itself before its deadline has
passed, and none afterwards. -/
def View.current (V : View E K B) (t : Nat) (o : Option B) : Option B :=
  o.filter fun b => Live (V.deadline b) t

/-- The item has not expired at the time `t`. -/
def View.LiveItem (V : View E K B) (t : Nat) (e : E) : Prop := Live (V.deadline (V.binding e)) t

/-- **The items show the binding of a key** at the time `t`: whatever item of the key is
live stands for the binding, and a binding that is live has an item. Items that have
expired, and items of other keys, are not looked at. -/
structure Shows (V : View E K B) (t : Nat) (k : K) (L : List E) (o : Option B) : Prop where
  bound : ∀ e ∈ L, V.key e = k → V.LiveItem t e → o = some (V.binding e)
  held : ∀ b, o = some b → Live (V.deadline b) t → ∃ e ∈ L, V.key e = k ∧ V.binding e = b

theorem Live.earlier {deadline : Nat} (h : Live deadline t') (ht : t ≤ t') : Live deadline t :=
  h.imp_right (Nat.le_trans ht)

theorem View.current_some (h : Live (V.deadline b) t) : V.current t (some b) = some b := by
  simp [View.current, h]

namespace Shows

/-- No item has the key. -/
theorem none (h : ∀ e ∈ L, V.key e ≠ k) : Shows V t k L none := by
  refine ⟨fun e he hk => absurd hk (h e he), ?_⟩
  intro b hb
  cases hb

/-- One item has the key. -/
theorem single (h : ∀ y, y ∈ L ∧ V.key y = k ↔ y = e) : Shows V t k L (some (V.binding e)) := by
  obtain ⟨he, hk⟩ := (h e).mpr rfl
  refine ⟨?_, fun b hb _ => ⟨e, he, hk, Option.some.inj hb⟩⟩
  intro y hy hyk _
  rw [(h y).mp ⟨hy, hyk⟩]

/-- Time goes by. Fewer items are live, and fewer bindings, so what agreed before agrees
now. -/
theorem later (h : Shows V t k L o) (ht : t ≤ t') : Shows V t' k L o :=
  ⟨fun e he hk hl => h.bound e he hk (hl.earlier ht), fun b hb hl => h.held b hb (hl.earlier ht)⟩

/-- Items of the key come and go only after they have expired. This is the step for every
operation on other keys, and for every removal of what is no longer live. -/
theorem frame (h : Shows V t k L o) (hsub : ∀ e ∈ L', V.key e = k → e ∈ L)
    (hkeep : ∀ e ∈ L, V.key e = k → V.LiveItem t e → e ∈ L') : Shows V t k L' o := by
  refine ⟨fun e he hk hl => h.bound e (hsub e he hk) hk hl, ?_⟩
  intro b hb hl
  obtain ⟨e, he, hk, rfl⟩ := h.held b hb hl
  exact ⟨e, hkeep e he hk hl, hk, rfl⟩

/-- What has expired may be forgotten: the items show the current binding as well as the
one that was made. -/
theorem current (h : Shows V t k L o) : Shows V t k L (V.current t o) := by
  refine ⟨?_, ?_⟩
  · intro e he hk hl
    rw [h.bound e he hk hl]
    exact View.current_some hl
  · intro b hb _
    obtain ⟨ho, hl⟩ := Option.filter_eq_some_iff.mp hb
    exact h.held b ho (of_decide_eq_true hl)

/-- An item that has not expired is what counts. A lookup that finds it therefore answers
as the map does. -/
theorem current_eq (h : Shows V t k L o) (he : e ∈ L) (hk : V.key e = k) (hl : V.LiveItem t e) :
    V.current t o = some (V.binding e) := by
  rw [h.bound e he hk hl]
  exact View.current_some hl

/-- Nothing counts if no item does. A lookup that finds no item, or one that has expired,
therefore answers as the map does for a key that is not bound. -/
theorem current_none (h : Shows V t k L o) (hdead : ∀ e ∈ L, V.key e = k → ¬ V.LiveItem t e) :
    V.current t o = Option.none := by
  refine Option.filter_eq_none_iff.mpr ?_
  intro b hb hl
  replace hl : Live (V.deadline b) t := of_decide_eq_true hl
  obtain ⟨e, he, hk, rfl⟩ := h.held b hb hl
  exact hdead e he hk hl

end Shows

end Expiring
