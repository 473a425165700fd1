import Mathlib.Data.Nat.Bitwise
import Mathlib.Tactic.Common

/-! # Machine words as natural numbers

A word of `w` bits is a natural number below `2 ^ w`. The operations are those of unsigned
arithmetic with wrap-around, of the conversion to a signed type of the same width, and of
rounding up to a power of two. Each operation is an explicit remainder, so that a proof
about code that can overflow says where it does: what is known to fit is turned into plain
arithmetic by one lemma (`u64_of_lt` and its like), and `omega` does the rest.

The second half is about single bits. A bitmap is a word whose bits are known one by one,
and what the code asks of it (is it zero, is it full, set this bit, clear that one)
becomes a statement about those bits (`eq_ones_iff`, `eq_zero_iff`), which is the form in
which an invariant can be stated.
-/
namespace Words

/-- Conversion to an unsigned 64-bit type. -/
def u64 (x : Nat) : Nat := x % 2 ^ 64

/-- Conversion to an unsigned 32-bit type. -/
def u32 (x : Nat) : Nat := x % 2 ^ 32

/-- Unsigned 64-bit subtraction. It wraps around where `b` is the larger one, as the
difference of two unsigned words does in C. -/
def sub64 (a b : Nat) : Nat := (a + (2 ^ 64 - b % 2 ^ 64)) % 2 ^ 64

/-- The signed 64-bit number with the bits of `x`: the upper half of the words are the
negative numbers. -/
def int64 (x : Nat) : Int :=
  if x % 2 ^ 64 < 2 ^ 63 then (x % 2 ^ 64 : Nat) else (x % 2 ^ 64 : Nat) - 2 ^ 64

/-- The signed 32-bit number with the bits of `x`. -/
def int32 (x : Nat) : Int :=
  if x % 2 ^ 32 < 2 ^ 31 then (x % 2 ^ 32 : Nat) else (x % 2 ^ 32 : Nat) - 2 ^ 32

/-- The unsigned 64-bit number with the bits of a signed one. -/
def ofInt64 (x : Int) : Nat := (x % 2 ^ 64).toNat

/-- The unsigned 32-bit number with the bits of a signed one. -/
def ofInt32 (x : Int) : Nat := (x % 2 ^ 32).toNat

theorem u64_lt (x : Nat) : u64 x < 2 ^ 64 := Nat.mod_lt _ (Nat.two_pow_pos 64)

theorem u64_of_lt {x : Nat} (h : x < 2 ^ 64) : u64 x = x := Nat.mod_eq_of_lt h

theorem u32_of_lt {x : Nat} (h : x < 2 ^ 32) : u32 x = x := Nat.mod_eq_of_lt h

theorem sub64_of_le {a b : Nat} (ha : a < 2 ^ 64) (h : b ≤ a) : sub64 a b = a - b := by
  unfold sub64; omega

/-- A difference of two words read as a signed number, as long as it fits. This is how the
code compares two times: it subtracts unsigned words and asks for the sign. -/
theorem int64_sub64 {a b : Nat}
    (h₁ : (a : Int) - b < 2 ^ 63) (h₂ : -2 ^ 63 ≤ (a : Int) - b) :
    int64 (sub64 a b) = (a : Int) - b := by
  unfold int64 sub64
  split <;> omega

/-- A difference does not depend on where its terms are measured from. So a pointer
difference is the difference of the offsets, wherever the mapping lies. -/
theorem sub64_sub64 (a b c : Nat) : sub64 (sub64 a c) (sub64 b c) = sub64 a b := by
  unfold sub64
  omega

theorem int32_of_lt {x : Nat} (h : x < 2 ^ 31) : int32 x = x := by
  unfold int32
  split <;> omega

/-! ### Bits -/

/-- `x & ~m`. The complement is taken inside the word, so that no width has to be fixed
here. -/
def andNot (x m : Nat) : Nat := x ^^^ (x &&& m)

@[simp] theorem testBit_andNot (x m i : Nat) :
    (andNot x m).testBit i = (x.testBit i && !m.testBit i) := by
  rw [andNot, Nat.testBit_xor, Nat.testBit_and]
  cases x.testBit i <;> cases m.testBit i <;> rfl

/-- A single bit is asked for with a mask. -/
theorem and_one_shiftLeft (x i : Nat) : x &&& (1 <<< i) = 0 ↔ x.testBit i = false := by
  rw [Nat.one_shiftLeft, Nat.and_two_pow]
  cases x.testBit i <;> simp

@[simp] theorem testBit_or_one_shiftLeft (x i j : Nat) :
    (x ||| 1 <<< i).testBit j = (x.testBit j || decide (j = i)) := by
  rw [Nat.testBit_or, Nat.one_shiftLeft, Nat.testBit_two_pow]
  simp [eq_comm]

/-- A bit above the first `m` leaves those as they are. -/
theorem or_one_shiftLeft_mod (w m j : Nat) : (w ||| 1 <<< (m + j)) % 2 ^ m = w % 2 ^ m := by
  apply Nat.eq_of_testBit_eq
  intro b
  simp only [Nat.testBit_mod_two_pow, testBit_or_one_shiftLeft]
  by_cases hb : b < m
  · simp [hb, show b ≠ m + j by omega]
  · simp [hb]

@[simp] theorem testBit_andNot_one_shiftLeft (x i j : Nat) :
    (andNot x (1 <<< i)).testBit j = (x.testBit j && !decide (j = i)) := by
  rw [testBit_andNot, Nat.one_shiftLeft, Nat.testBit_two_pow]
  simp [eq_comm]

/-- Clearing the low bits rounds down. -/
theorem andNot_two_pow_sub_one (x k : Nat) : andNot x (2 ^ k - 1) = x / 2 ^ k * 2 ^ k := by
  apply Nat.eq_of_testBit_eq
  intro i
  rw [testBit_andNot, Nat.testBit_two_pow_sub_one, Nat.testBit_mul_two_pow]
  by_cases h : i < k
  · simp [h, Nat.not_le.mpr h]
  · have hk : k ≤ i := Nat.le_of_not_lt h
    simp [h, hk, Nat.testBit_div_two_pow, Nat.sub_add_cancel hk]

/-! A tag of two bits on a multiple of four. -/

/-- A word of `n` bits that are known is all ones where they all are set. This is the test
of a full bitmap, with the bits described by a predicate. -/
theorem eq_ones_iff {w n : Nat} {p : Nat → Prop} [DecidablePred p]
    (h : ∀ b, w.testBit b = decide (b < n ∧ p b)) : w = 2 ^ n - 1 ↔ ∀ b < n, p b := by
  constructor
  · intro he b hb
    have := h b
    rw [he, Nat.testBit_two_pow_sub_one] at this
    simp only [hb, true_and, decide_true] at this
    exact of_decide_eq_true this.symm
  · intro hp
    refine Nat.eq_of_testBit_eq ?_
    intro b
    rw [h b, Nat.testBit_two_pow_sub_one]
    by_cases hb : b < n <;> simp [hb, hp]

/-- A word whose bits are known is zero where none is set. -/
theorem eq_zero_iff {w : Nat} {p : Nat → Prop} [DecidablePred p]
    (h : ∀ b, w.testBit b = decide (p b)) : w = 0 ↔ ∀ b, ¬ p b := by
  constructor
  · intro he b hb
    have := h b
    rw [he] at this
    simp [hb] at this
  · intro hp
    refine Nat.eq_of_testBit_eq ?_
    intro b
    rw [h b]
    simp [hp]

theorem and_three (x : Nat) : x &&& 3 = x % 4 := Nat.and_two_pow_sub_one_eq_mod x 2

theorem andNot_three (x : Nat) : andNot x 3 = x / 4 * 4 := andNot_two_pow_sub_one x 2

theorem or_tag {x t : Nat} (hx : 4 ∣ x) (ht : t < 4) : x ||| t = x + t := by
  obtain ⟨c, rfl⟩ := hx
  exact (Nat.two_pow_add_eq_or_of_lt (i := 2) ht c).symm

theorem andNot_or_tag {x t : Nat} (hx : 4 ∣ x) (ht : t < 4) : andNot (x ||| t) 3 = x := by
  rw [or_tag hx ht, andNot_three]
  omega

theorem or_tag_mod {x t : Nat} (hx : 4 ∣ x) (ht : t < 4) : (x ||| t) % 4 = t := by
  rw [or_tag hx ht]
  omega

theorem andNot_three_of_dvd {x : Nat} (hx : 4 ∣ x) : andNot x 3 = x := by
  rw [andNot_three]
  omega

/-- `ngx_align_ptr`: `(p + (a - 1)) & ~(a - 1)`. For a power of two `a` this is the least
multiple of `a` from `p` on, which the lemmas below say. -/
def alignUp (p a : Nat) : Nat := andNot (p + (a - 1)) (a - 1)

theorem alignUp_eq (p k : Nat) :
    alignUp p (2 ^ k) = (p + (2 ^ k - 1)) / 2 ^ k * 2 ^ k := andNot_two_pow_sub_one _ _

theorem le_alignUp (p k : Nat) : p ≤ alignUp p (2 ^ k) := by
  rw [alignUp_eq]
  have hpos := Nat.two_pow_pos k
  have h1 := Nat.div_add_mod (p + (2 ^ k - 1)) (2 ^ k)
  have h2 := Nat.mod_lt (p + (2 ^ k - 1)) hpos
  rw [Nat.mul_comm] at h1
  omega

theorem alignUp_lt (p k : Nat) : alignUp p (2 ^ k) < p + 2 ^ k := by
  rw [alignUp_eq]
  have hpos := Nat.two_pow_pos k
  have := Nat.div_mul_le_self (p + (2 ^ k - 1)) (2 ^ k)
  omega

/-- The least multiple from `p` on. -/
theorem alignUp_le {p a k : Nat} (h : p ≤ a) (hdvd : 2 ^ k ∣ a) : alignUp p (2 ^ k) ≤ a := by
  obtain ⟨c, rfl⟩ := hdvd
  have hpos := Nat.two_pow_pos k
  rw [alignUp_eq, Nat.mul_comm (2 ^ k) c]
  refine Nat.mul_le_mul_right _ (Nat.le_of_lt_succ (Nat.div_lt_of_lt_mul ?_))
  rw [Nat.mul_succ]
  omega

theorem dvd_alignUp (p k : Nat) : 2 ^ k ∣ alignUp p (2 ^ k) := by
  rw [alignUp_eq]
  exact Nat.dvd_mul_left _ _

/-- Rounding commutes with a shift by a multiple of the alignment. -/
theorem alignUp_add {b k : Nat} (h : 2 ^ k ∣ b) (p : Nat) :
    alignUp (b + p) (2 ^ k) = b + alignUp p (2 ^ k) := by
  obtain ⟨c, rfl⟩ := h
  rw [alignUp_eq, alignUp_eq, Nat.add_assoc, Nat.mul_add_div (Nat.two_pow_pos k), Nat.add_mul,
    Nat.mul_comm c]

end Words
