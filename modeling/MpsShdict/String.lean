import Mathlib.Data.List.Lex
import Mathlib.Tactic.Common

/-! # Byte strings (`ngx_string.c`, `ngx_murmurhash.c`)

Strings are lists of bytes; a length that the source passes beside a pointer is the length
of the list. Two functions on them matter to the dictionary: the hash by which its tree is
ordered first, and the comparison that decides among keys of one hash.

`ngx_memn2cmp` compares the common beginning byte by byte and then the lengths. That is
the lexicographic order, where a proper beginning comes first, and the lemmas at the end
say so in the form that the search needs: the comparison answers zero for equal strings
only, and swapping the arguments swaps the sign.
-/
namespace MpsShdict

abbrev Bytes := List UInt8

/-- `memcmp` over `n` bytes: the difference of the first bytes that differ. -/
def ngxMemcmp : Bytes → Bytes → Nat → Int
  | a :: s1, b :: s2, n + 1 =>
    if a = b then ngxMemcmp s1 s2 n else (a.toNat : Int) - b.toNat
  | _, _, _ => 0

/-- `ngx_memn2cmp`: the bytes of the common length decide, and where they are equal the
shorter string is the smaller one. -/
def ngxMemn2cmp (s1 s2 : Bytes) : Int :=
  let n1 := s1.length
  let n2 := s2.length
  let (n, z) : Nat × Int := if n1 ≤ n2 then (n1, -1) else (n2, 1)
  let m := ngxMemcmp s1 s2 n
  if m ≠ 0 ∨ n1 = n2 then m else z

/-- The multiplier of the hash. -/
def murmurMultiplier : UInt32 := 0x5bd1e995

/-- One round of `ngx_murmur_hash2` on the next four bytes. -/
def murmurRound (h : UInt32) (d0 d1 d2 d3 : UInt8) : UInt32 :=
  let k := d0.toUInt32 ||| (d1.toUInt32 <<< 8) ||| (d2.toUInt32 <<< 16) ||| (d3.toUInt32 <<< 24)
  let k := k * murmurMultiplier
  let k := k ^^^ (k >>> 24)
  let k := k * murmurMultiplier
  let h := h * murmurMultiplier
  h ^^^ k

/-- The loop over whole words and the switch over the bytes that remain, where each case
of the switch falls through to the next. -/
def murmurBody (h : UInt32) : Bytes → UInt32
  | d0 :: d1 :: d2 :: d3 :: rest => murmurBody (murmurRound h d0 d1 d2 d3) rest
  | [d0, d1, d2] =>
    (h ^^^ (d2.toUInt32 <<< 16) ^^^ (d1.toUInt32 <<< 8) ^^^ d0.toUInt32) * murmurMultiplier
  | [d0, d1] => (h ^^^ (d1.toUInt32 <<< 8) ^^^ d0.toUInt32) * murmurMultiplier
  | [d0] => (h ^^^ d0.toUInt32) * murmurMultiplier
  | [] => h

/-- `ngx_murmur_hash2`: the rounds on the data, starting from its length, and three steps
that mix the result. The hash is a word of 32 bits. -/
def ngxMurmurHash2 (data : Bytes) : Nat :=
  let h := murmurBody (UInt32.ofNat data.length) data
  let h := h ^^^ (h >>> 13)
  let h := h * murmurMultiplier
  let h := h ^^^ (h >>> 15)
  h.toNat

/-! ## `ngx_memn2cmp` is the lexicographic order -/

private theorem ngxMemn2cmp_nil_cons (b : UInt8) (s : Bytes) : ngxMemn2cmp [] (b :: s) = -1 := by
  simp [ngxMemn2cmp, ngxMemcmp]

private theorem ngxMemn2cmp_cons_nil (a : UInt8) (s : Bytes) : ngxMemn2cmp (a :: s) [] = 1 := by
  simp [ngxMemn2cmp, ngxMemcmp]

theorem ngxMemn2cmp_cons_cons (a b : UInt8) (s t : Bytes) :
    ngxMemn2cmp (a :: s) (b :: t) =
      if a = b then ngxMemn2cmp s t else (a.toNat : Int) - b.toNat := by
  have hne : a ≠ b → (a.toNat : Int) - b.toNat ≠ 0 := by
    intro h he
    exact h (UInt8.toNat_inj.mp (by omega))
  by_cases hab : a = b
  · subst hab
    by_cases hl : s.length ≤ t.length
    · simp [ngxMemn2cmp, ngxMemcmp, hl]
    · simp [ngxMemn2cmp, ngxMemcmp, hl]
  · have h0 := hne hab
    by_cases hl : s.length ≤ t.length
    · simp [ngxMemn2cmp, ngxMemcmp, hl, hab, h0]
    · simp [ngxMemn2cmp, ngxMemcmp, hl, hab, h0]

theorem ngxMemn2cmp_eq_zero : ∀ s t : Bytes, ngxMemn2cmp s t = 0 ↔ s = t
  | [], [] => by simp [ngxMemn2cmp, ngxMemcmp]
  | [], b :: t => by simp [ngxMemn2cmp_nil_cons]
  | a :: s, [] => by simp [ngxMemn2cmp_cons_nil]
  | a :: s, b :: t => by
      rw [ngxMemn2cmp_cons_cons]
      by_cases hab : a = b
      · simp [hab, ngxMemn2cmp_eq_zero s t]
      · have : (a.toNat : Int) - b.toNat ≠ 0 :=
          fun he => hab (UInt8.toNat_inj.mp (by omega))
        simp [hab, this]

theorem ngxMemn2cmp_neg : ∀ s t : Bytes, ngxMemn2cmp s t < 0 ↔ s < t
  | [], [] => by simp [ngxMemn2cmp, ngxMemcmp]
  | [], b :: t => by simp [ngxMemn2cmp_nil_cons]
  | a :: s, [] => by simp [ngxMemn2cmp_cons_nil]
  | a :: s, b :: t => by
      rw [ngxMemn2cmp_cons_cons, List.cons_lt_cons_iff]
      by_cases hab : a = b
      · simp [hab, ngxMemn2cmp_neg s t]
      · simp only [hab, ↓reduceIte, false_and, or_false, UInt8.lt_iff_toNat_lt]
        omega

end MpsShdict
