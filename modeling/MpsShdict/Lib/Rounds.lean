import Mathlib.Tactic.Common

/-! # Loops with a bound on their rounds

A loop that takes the number of rounds it may run for, and answers `none` where it would
need more, is `Steady` when more rounds change nothing of what it answers. It `EndsWithin`
a number of rounds when that many are enough, and more lead to the same.

The number of rounds is how a model gives a loop of the source a structural recursion; it
is no part of what the loop computes. `Steady` says so once and for all, and two proofs
about the same loop may then use different numbers: one that it ends within a small
number, as a statement about its cost, and one about what it answers with a number that is
easy to name.
-/
namespace Rounds

variable {α β : Type*} {f : Nat → Option α} {n m : Nat} {a b : α}

/-- One more round changes no answer. By induction any larger number of rounds leads to
the same answer. -/
def Steady (f : Nat → Option α) : Prop := ∀ n a, f n = some a → f (n + 1) = some a

/-- The answer is there after `n` rounds, and the same one for every larger number. This
is the form in which the cost of a loop is stated. -/
def EndsWithin (n : Nat) (f : Nat → Option α) : Prop := ∃ a, ∀ m, n ≤ m → f m = some a

theorem EndsWithin.mono (h : EndsWithin n f) (hle : n ≤ m) : EndsWithin m f := by
  obtain ⟨a, ha⟩ := h
  exact ⟨a, fun k hk => ha k (Nat.le_trans hle hk)⟩

namespace Steady

theorem const (o : Option α) : Steady fun _ => o := fun _ _ h => h

theorem mono (h : Steady f) (hn : f n = some a) (hle : n ≤ m) : f m = some a := by
  induction hle with
  | refl => exact hn
  | step _ ih => exact h _ _ ih

theorem endsWithin (h : Steady f) (hn : f n = some a) : EndsWithin n f :=
  ⟨a, fun _ hm => h.mono hn hm⟩

/-- Two numbers of rounds that are enough lead to the same answer. So it does not matter
which bound a caller hands to the loop. -/
theorem agree (h : Steady f) (hn : f n = some a) (hm : f m = some b) : a = b := by
  rcases Nat.le_total n m with hle | hle
  · exact Option.some.inj ((h.mono hn hle).symm.trans hm)
  · exact Option.some.inj (hn.symm.trans (h.mono hm hle))

/-- The rounds that are known to be enough may be counted down to those that are: an
answer with any number is the answer with the bound. -/
theorem eq_of_endsWithin (h : Steady f) (hm : f m = some a) (he : EndsWithin n f) :
    f n = some a := by
  obtain ⟨b, hb⟩ := he
  rw [h.agree hm (hb n (Nat.le_refl n))]
  exact hb n (Nat.le_refl n)

/-- Two loops one after the other share the bound, if the second one is steady for
whatever the first one answers. -/
theorem bind {g : α → Nat → Option β} (hf : Steady f) (hg : ∀ a, Steady (g a)) :
    Steady fun n => (f n).bind fun a => g a n := by
  intro n b h
  obtain ⟨a, ha, hb⟩ := Option.bind_eq_some_iff.mp h
  exact Option.bind_eq_some_iff.mpr ⟨a, hf n a ha, hg a n b hb⟩

theorem map {g : α → β} (hf : Steady f) : Steady fun n => (f n).map g := by
  intro n b h
  obtain ⟨a, ha, hb⟩ := Option.map_eq_some_iff.mp h
  exact Option.map_eq_some_iff.mpr ⟨a, hf n a ha, hb⟩

theorem ite {c : Prop} [Decidable c] {g : Nat → Option α} (hf : Steady f) (hg : Steady g) :
    Steady fun n => if c then f n else g n := by
  split
  · exact hf
  · exact hg

end Steady

end Rounds
