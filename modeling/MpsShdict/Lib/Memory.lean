import Mathlib.Data.Nat.Bitwise
import Mathlib.Tactic.Common

/-! # Separate objects in a memory of words

A memory gives the 64-bit word at each multiple of eight, and its bytes are those of its
words, the low one first. A heap has objects whose bytes nobody else has. A memory stores
a heap where each object has a place of its own.

The two descriptions are for the two sides of an allocator. Its code reads and writes
words, here and there, in its own part of the memory and in the blocks it keeps books in;
its clients know objects and bytes. `Heap.Stored` connects them: it asks nothing of the
words outside the objects, so the allocator may do there what it likes
(`Heap.Stored.congr`), and a write to one object leaves the bytes of the others alone as
long as their places are apart (`Heap.Stored.write`).
-/
namespace Memory

/-! ### Bytes -/

/-- The byte at `x`: the word that contains it, shifted down to it and cut off above. -/
def byteAt (w : Nat → Nat) (x : Nat) : Nat := w (8 * (x / 8)) / 256 ^ (x % 8) % 256

/-- The number `n` with `v` for its byte `k`. The bytes below and above it are put
together again as they were. -/
def setByte (n k v : Nat) : Nat := n % 256 ^ k + v * 256 ^ k + n / 256 ^ (k + 1) * 256 ^ (k + 1)

/-- The byte `v` is stored at `x`. -/
def storeByte (w : Nat → Nat) (x v : Nat) : Nat → Nat :=
  Function.update w (8 * (x / 8)) (setByte (w (8 * (x / 8))) (x % 8) v)

/-- Bytes are stored from `p` on, one after the other; the words that contain them change
byte by byte. -/
def store (w : Nat → Nat) (p : Nat) : List Nat → Nat → Nat
  | [] => w
  | v :: bs => store (storeByte w p v) (p + 1) bs

section Bytes
variable {w w' : Nat → Nat} {n j k v x y p o i : Nat} {bs : List Nat}

theorem setByte_same (hv : v < 256) : setByte n k v / 256 ^ k % 256 = v := by
  have hpos : 0 < 256 ^ k := Nat.pow_pos (by decide)
  have hdiv : setByte n k v / 256 ^ k = v + n / 256 ^ (k + 1) * 256 := by
    rw [setByte, Nat.pow_succ 256 k, Nat.mul_comm (256 ^ k) 256, ← Nat.mul_assoc,
      Nat.add_mul_div_right _ _ hpos, Nat.add_mul_div_right _ _ hpos,
      Nat.div_eq_of_lt (Nat.mod_lt _ hpos), Nat.zero_add]
  rw [hdiv, Nat.add_mul_mod_self_right, Nat.mod_eq_of_lt hv]

theorem setByte_ne (hv : v < 256) (hjk : j ≠ k) :
    setByte n k v / 256 ^ j % 256 = n / 256 ^ j % 256 := by
  have hpos : 0 < 256 ^ k := Nat.pow_pos (by decide)
  rcases Nat.lt_or_gt_of_ne hjk with hlt | hgt
  · -- the lower bytes are in the remainder
    have hdvd : 256 ^ j * 256 ∣ 256 ^ k := Nat.pow_dvd_pow 256 hlt
    have hmod : setByte n k v % 256 ^ k = n % 256 ^ k := by
      rw [setByte, Nat.pow_succ, Nat.mul_comm (256 ^ k) 256, ← Nat.mul_assoc,
        Nat.add_mul_mod_self_right, Nat.add_mul_mod_self_right, Nat.mod_mod]
    rw [← Nat.mod_mul_right_div_self, ← Nat.mod_mul_right_div_self, ← Nat.mod_mod_of_dvd _ hdvd,
      hmod, Nat.mod_mod_of_dvd _ hdvd]
  · -- the higher ones are in the quotient
    have hlow : n % 256 ^ k + v * 256 ^ k < 256 ^ (k + 1) := by
      have h1 := Nat.mod_lt n hpos
      have h2 := Nat.mul_le_mul_right (256 ^ k) (Nat.succ_le_of_lt hv)
      rw [Nat.succ_mul] at h2
      rw [Nat.pow_succ]
      omega
    have hdiv : setByte n k v / 256 ^ (k + 1) = n / 256 ^ (k + 1) := by
      rw [setByte, Nat.add_mul_div_right _ _ (Nat.pow_pos (by decide)),
        Nat.div_eq_of_lt hlow, Nat.zero_add]
    obtain ⟨d, rfl⟩ : ∃ d, j = k + 1 + d := ⟨j - (k + 1), by omega⟩
    rw [Nat.pow_add, ← Nat.div_div_eq_div_mul, ← Nat.div_div_eq_div_mul, hdiv]

theorem byteAt_storeByte_same (hv : v < 256) : byteAt (storeByte w x v) x = v := by
  rw [byteAt, storeByte, Function.update_self, setByte_same hv]

theorem byteAt_storeByte_ne (hv : v < 256) (h : y ≠ x) :
    byteAt (storeByte w x v) y = byteAt w y := by
  by_cases hword : 8 * (y / 8) = 8 * (x / 8)
  · rw [byteAt, storeByte, byteAt, hword, Function.update_self, setByte_ne hv (by omega)]
  · rw [byteAt, storeByte, Function.update_of_ne hword, byteAt]

/-- A word changes only where a byte of it is stored. So a write inside one object is
outside every word that does not overlap it. -/
theorem store_word (h : o + 8 ≤ p ∨ p + bs.length ≤ o) : store w p bs o = w o := by
  induction bs generalizing w p with
  | nil => rfl
  | cons v bs ih =>
    rw [List.length_cons] at h
    rw [store, ih (by omega), storeByte, Function.update_of_ne (by omega)]

theorem byteAt_store_ne (hbs : ∀ v ∈ bs, v < 256) (h : x < p ∨ p + bs.length ≤ x) :
    byteAt (store w p bs) x = byteAt w x := by
  induction bs generalizing w p with
  | nil => rfl
  | cons v bs ih =>
    rw [List.length_cons] at h
    rw [store, ih (fun u hu => hbs u (List.mem_cons_of_mem v hu)) (by omega),
      byteAt_storeByte_ne (hbs v List.mem_cons_self) (by omega)]

theorem byteAt_store (hbs : ∀ v ∈ bs, v < 256) (h : bs[i]? = some v) :
    byteAt (store w p bs) (p + i) = v := by
  induction bs generalizing w p i with
  | nil => cases h
  | cons u bs ih =>
    have htail : ∀ u ∈ bs, u < 256 := fun x hx => hbs x (List.mem_cons_of_mem u hx)
    cases i with
    | zero =>
      rw [store, byteAt_store_ne htail (.inl (by omega)),
        Nat.add_zero, byteAt_storeByte_same (hbs u List.mem_cons_self)]
      exact Option.some.inj h
    | succ i =>
      rw [store, show p + (i + 1) = p + 1 + i by omega]
      exact ih htail h

end Bytes

/-! ### Objects -/

/-- A heap of separate objects: which ones are live, and what is known of the bytes of
each. A byte of which nothing is known, as after an allocation, is `none`. -/
structure Heap (K : Type) where
  live : List K
  data : K → Nat → Option Nat

section Stored
variable {K : Type} {h : Heap K} {place size : K → Nat} {w w' : Nat → Nat} {b : K}
  {i : Nat} {bs : List Nat}

/-- No object yet. -/
def Heap.empty : Heap K := ⟨[], fun _ _ => none⟩

/-- What is known of the objects is stored at their places: each known byte of a live
object is the byte of the memory at the object's place. Of unknown bytes, and of the
memory between the objects, nothing is said. -/
def Heap.Stored (h : Heap K) (place size : K → Nat) (w : Nat → Nat) : Prop :=
  ∀ b ∈ h.live, ∀ i v, h.data b i = some v → i < size b ∧ byteAt w (place b + i) = v

theorem Heap.stored_empty : (Heap.empty : Heap K).Stored place size w := fun _ hb => nomatch hb

/-- Nothing at the places of the objects changes, so the memory still stores the heap,
whatever happens elsewhere. -/
theorem Heap.Stored.congr (hst : h.Stored place size w)
    (hw : ∀ b ∈ h.live, ∀ x, place b ≤ x → x < place b + size b → byteAt w' x = byteAt w x) :
    h.Stored place size w' := by
  intro b hb i v hv
  obtain ⟨hi, hbyte⟩ := hst b hb i v hv
  exact ⟨hi, (hw b hb _ (Nat.le_add_right _ _) (by omega)).trans hbyte⟩

variable [DecidableEq K]

/-- A new object, with any contents: nothing is known of its bytes until they are written. -/
def Heap.create (h : Heap K) (b : K) : Heap K :=
  ⟨b :: h.live, Function.update h.data b fun _ => none⟩

/-- An object is gone. -/
def Heap.drop (h : Heap K) (b : K) : Heap K := ⟨h.live.erase b, h.data⟩

/-- Bytes are written to an object from its byte `i` on; they are known from now on, and
what was known of the others stays. -/
def Heap.write (h : Heap K) (b : K) (i : Nat) (bs : List Nat) : Heap K :=
  ⟨h.live, Function.update h.data b fun j => if i ≤ j ∧ j < i + bs.length then bs[j - i]?
    else h.data b j⟩

@[simp] theorem Heap.live_create : (h.create b).live = b :: h.live := rfl

@[simp] theorem Heap.live_drop : (h.drop b).live = h.live.erase b := rfl

@[simp] theorem Heap.live_write : (h.write b i bs).live = h.live := rfl

theorem Heap.Stored.create (hst : h.Stored place size w) : (h.create b).Stored place size w := by
  intro c hc i v hv
  by_cases hcb : c = b
  · subst hcb
    simp [Heap.create] at hv
  · simp only [Heap.create, Function.update_of_ne hcb] at hv
    exact hst c ((List.mem_cons.mp hc).resolve_left hcb) i v hv

theorem Heap.Stored.drop (hst : h.Stored place size w) : (h.drop b).Stored place size w :=
  fun c hc => hst c (List.mem_of_mem_erase hc)

/-- **A write to one object** is a store at its place, where the others keep clear of it. -/
theorem Heap.Stored.write (hst : h.Stored place size w) (hb : b ∈ h.live)
    (hi : i + bs.length ≤ size b) (hbs : ∀ v ∈ bs, v < 256)
    (hapart : ∀ c ∈ h.live, c ≠ b → place c + size c ≤ place b ∨ place b + size b ≤ place c) :
    (h.write b i bs).Stored place size (store w (place b + i) bs) := by
  intro c hc j v hv
  by_cases hcb : c = b
  · subst hcb
    simp only [Heap.write, Function.update_self] at hv
    split at hv
    · next hj =>
      refine ⟨by omega, ?_⟩
      rw [show place c + j = place c + i + (j - i) by omega]
      exact byteAt_store hbs hv
    · next hj =>
      obtain ⟨hlt, hbyte⟩ := hst c hb j v hv
      exact ⟨hlt, (byteAt_store_ne hbs (by omega)).trans hbyte⟩
  · simp only [Heap.write, Function.update_of_ne hcb] at hv
    obtain ⟨hlt, hbyte⟩ := hst c hc j v hv
    have := hapart c hc hcb
    exact ⟨hlt, (byteAt_store_ne hbs (by omega)).trans hbyte⟩

end Stored

end Memory
