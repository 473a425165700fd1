import Mathlib.Data.List.Nodup
import Mathlib.Tactic.Common

/-! # Recency

A history of touches, the last one first, tells for each item how long ago it was touched.
A list of items is in the order of recency if the one touched last is at its head; it
stays so as long as an item that is touched is moved to the head and items leave it in any
way.

The order is a statement about the history and not about the list: it compares, for any
two items of the list, when each was touched last. So what it gives is worth something to
somebody who only sees the touches: an item that leaves the list at its end was touched
less recently than every one that stays (`Ordered.stale`).
-/
namespace Recency

variable {α : Type*} [DecidableEq α] {H : List (Option α)} {L M : List α} {t : Option α} {x y z : α}

/-- How many touches ago `x` was touched; for an item that never was, the length of the
history. A touch of nothing counts as one step of the history too. -/
def ago (H : List (Option α)) (x : α) : Nat := H.idxOf (some x)

/-- The items of `L` have been touched, each after the ones behind it: along the list the
last touch is longer and longer ago. -/
structure Ordered (H : List (Option α)) (L : List α) : Prop where
  touched : ∀ x ∈ L, some x ∈ H
  recent : L.Pairwise fun x y => ago H x < ago H y

theorem ago_cons_self : ago (some x :: H) x = 0 := List.idxOf_cons_self

theorem ago_cons_ne (h : t ≠ some x) : ago (t :: H) x = ago H x + 1 := List.idxOf_cons_ne H h

namespace Ordered

theorem nil : Ordered H [] := ⟨by simp, .nil⟩

theorem sublist (h : Ordered H L) (hs : M.Sublist L) : Ordered H M :=
  ⟨fun x hx => h.touched x (hs.subset hx), h.recent.sublist hs⟩

theorem nodup (h : Ordered H L) : L.Nodup := by
  refine h.recent.imp fun {x y} hxy he => ?_
  rw [he] at hxy
  exact Nat.lt_irrefl _ hxy

/-- A touch of an item that is not in the list, or of none, makes every item of the list
one step older and keeps their order. -/
theorem step (h : Ordered H L) (ht : ∀ z, t = some z → z ∉ L) : Ordered (t :: H) L := by
  have hne : ∀ x ∈ L, t ≠ some x := fun x hx he => ht x he hx
  refine ⟨fun x hx => List.mem_cons_of_mem _ (h.touched x hx), ?_⟩
  refine h.recent.imp_of_mem fun {x y} hx hy hxy => ?_
  rw [ago_cons_ne (hne x hx), ago_cons_ne (hne y hy)]
  exact Nat.succ_lt_succ hxy

/-- The item that is touched is put at the head, as the most recent one. It must not be in
the list any more, which is why the code takes it out first. -/
theorem touch (h : Ordered H L) (hz : z ∉ L) : Ordered (some z :: H) (z :: L) := by
  have hstep : Ordered (some z :: H) L := h.step fun x hx => by
    obtain rfl := Option.some.inj hx
    exact hz
  refine ⟨?_, List.pairwise_cons.mpr ⟨?_, hstep.recent⟩⟩
  · intro x hx
    rcases List.mem_cons.mp hx with rfl | hx
    · exact List.mem_cons_self
    · exact hstep.touched x hx
  · intro y hy
    have hne : some z ≠ some y := fun he => hz (Option.some.inj he ▸ hy)
    rw [ago_cons_self, ago_cons_ne hne]
    exact Nat.succ_pos _

/-- What leaves a list at its end was touched less recently than what stays. This is the
statement about eviction that the order is kept for. -/
theorem stale (h : Ordered H (L ++ M)) (hx : x ∈ L) (hy : y ∈ M) : ago H x < ago H y :=
  (List.pairwise_append.mp h.recent).2.2 x hx y hy

end Ordered

end Recency
