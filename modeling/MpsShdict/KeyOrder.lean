import MpsShdict.ShdictFind

/-! # The order of the keys

`ngx_memn2cmp` compares the bytes that both strings have and then the lengths. Its sign is
a strict total order, the one of a dictionary: a string comes after each of its proper
beginnings. An insertion compares the new key with the node, a lookup the key it is
looking for; with the hash as the first criterion both leave a node on the same side.

The order is stated twice, by the first place where two strings differ (`LexBefore`) and
as the order of lists that Lean has, and the two agree. Then `StrictTotal` says what a
comparison function has to do to be used in a search tree, and `key_order` that the one of
the source does it and that `mps_shdict_lookup` goes down the same way as the insertion of
the same key went.
-/
namespace MpsShdict

/-! ## The lexicographic order of byte strings -/

/-- `a` comes before `b`: it is a proper beginning of `b`, or it has the smaller byte at
the first place where the two differ. -/
def LexBefore (a b : Bytes) : Prop :=
  (∃ y t, b = a ++ y :: t) ∨
    ∃ p x y s t, x < y ∧ a = p ++ x :: s ∧ b = p ++ y :: t

theorem LexBefore.nil_cons (y : UInt8) (t : Bytes) : LexBefore [] (y :: t) := .inl ⟨y, t, rfl⟩

theorem not_lexBefore_nil (a : Bytes) : ¬ LexBefore a [] := by
  rintro (⟨y, t, he⟩ | ⟨p, x, y, s, t, -, -, he⟩)
  · simp at he
  · simp at he

theorem lexBefore_cons_cons {x y : UInt8} {a b : Bytes} :
    LexBefore (x :: a) (y :: b) ↔ x < y ∨ x = y ∧ LexBefore a b := by
  constructor
  · rintro (⟨z, t, he⟩ | ⟨p, u, v, s, t, huv, ha, hb⟩)
    · obtain ⟨rfl, rfl⟩ := List.cons.inj he
      exact .inr ⟨rfl, .inl ⟨z, t, rfl⟩⟩
    · -- the strings differ at once, or after a byte that they share
      cases p with
      | nil =>
        obtain ⟨rfl, rfl⟩ := List.cons.inj ha
        obtain ⟨rfl, rfl⟩ := List.cons.inj hb
        exact .inl huv
      | cons z p =>
        obtain ⟨rfl, rfl⟩ := List.cons.inj ha
        obtain ⟨rfl, rfl⟩ := List.cons.inj hb
        exact .inr ⟨rfl, .inr ⟨p, u, v, s, t, huv, rfl, rfl⟩⟩
  · rintro (hlt | ⟨rfl, ⟨z, t, rfl⟩ | ⟨p, u, v, s, t, huv, rfl, rfl⟩⟩)
    · exact .inr ⟨[], x, y, a, b, hlt, rfl, rfl⟩
    · exact .inl ⟨z, t, rfl⟩
    · exact .inr ⟨x :: p, u, v, s, t, huv, rfl, rfl⟩

/-- It is the order of lists. -/
theorem lexBefore_iff (a b : Bytes) : LexBefore a b ↔ a < b := by
  induction a generalizing b with
  | nil =>
    cases b with
    | nil => exact iff_of_false (not_lexBefore_nil []) (List.lt_irrefl [])
    | cons y t => exact iff_of_true (.nil_cons y t) (List.nil_lt_cons y t)
  | cons x a ih =>
    cases b with
    | nil => exact iff_of_false (not_lexBefore_nil _) (List.not_lt_nil _)
    | cons y b => rw [lexBefore_cons_cons, List.cons_lt_cons_iff, ih]

/-! ## Comparisons -/

/-- The sign of a comparison is a strict total order, the lexicographic one: negative,
zero and positive are before, equal and behind. -/
structure StrictTotal (cmp : Bytes → Bytes → Int) : Prop where
  zero : ∀ a b, cmp a b = 0 ↔ a = b
  swap : ∀ a b, (cmp b a).sign = -(cmp a b).sign
  trans : ∀ a b c, (cmp a b).sign = (cmp b c).sign → (cmp a c).sign = (cmp a b).sign
  lex : ∀ a b, cmp a b < 0 ↔ LexBefore a b

/-- What comes neither before nor is equal comes behind. -/
theorem ngxMemn2cmp_pos (s t : Bytes) : 0 < ngxMemn2cmp s t ↔ t < s := by
  have hz := ngxMemn2cmp_eq_zero s t
  have hn := ngxMemn2cmp_neg s t
  constructor
  · intro hp
    have hne : t ≠ s := by
      intro he
      have := hz.mpr he.symm
      omega
    have hnl : ¬ s < t := by
      intro hl
      have := hn.mpr hl
      omega
    exact (List.le_iff_lt_or_eq.mp (List.not_lt.mp hnl)).resolve_right hne
  · intro hl
    have hne : ngxMemn2cmp s t ≠ 0 := fun he => List.lt_irrefl s (by
      have := hz.mp he
      rwa [← this] at hl)
    have hnn : ¬ ngxMemn2cmp s t < 0 := fun hneg => List.lt_asymm hl (hn.mp hneg)
    omega

/-- The sign read off the order of the strings. -/
theorem sign_ngxMemn2cmp (s t : Bytes) :
    (ngxMemn2cmp s t).sign = if s < t then -1 else if t < s then 1 else 0 := by
  split
  · rename_i h
    exact Int.sign_eq_neg_one_of_neg ((ngxMemn2cmp_neg s t).mpr h)
  · rename_i h
    split
    · rename_i h'
      exact Int.sign_eq_one_of_pos ((ngxMemn2cmp_pos s t).mpr h')
    · rename_i h'
      have h1 := mt (ngxMemn2cmp_neg s t).mp h
      have h2 := mt (ngxMemn2cmp_pos s t).mp h'
      rw [show ngxMemn2cmp s t = 0 by omega, Int.sign_zero]

theorem ngxMemn2cmp_swap (s t : Bytes) : (ngxMemn2cmp t s).sign = -(ngxMemn2cmp s t).sign := by
  rw [sign_ngxMemn2cmp, sign_ngxMemn2cmp]
  by_cases h1 : s < t
  · rw [if_pos h1, if_neg (List.lt_asymm h1), if_pos h1]
    rfl
  · by_cases h2 : t < s
    · rw [if_pos h2, if_neg h1, if_pos h2]
    · rw [if_neg h1, if_neg h2, if_neg h2, if_neg h1]
      rfl

theorem ngxMemn2cmp_trans (a b c : Bytes)
    (h : (ngxMemn2cmp a b).sign = (ngxMemn2cmp b c).sign) :
    (ngxMemn2cmp a c).sign = (ngxMemn2cmp a b).sign := by
  -- both comparisons say before, both say behind, or both say equal
  rcases Int.lt_trichotomy (ngxMemn2cmp a b) 0 with hlt | heq | hgt
  · rw [Int.sign_eq_neg_one_of_neg hlt] at h ⊢
    have hbc := Int.sign_eq_neg_one_iff_neg.mp h.symm
    apply Int.sign_eq_neg_one_of_neg
    rw [ngxMemn2cmp_neg] at hlt hbc ⊢
    exact List.lt_trans hlt hbc
  · rw [(ngxMemn2cmp_eq_zero a b).mp heq, (ngxMemn2cmp_eq_zero b b).mpr rfl] at h ⊢
    exact h.symm
  · rw [Int.sign_eq_one_of_pos hgt] at h ⊢
    have hbc := Int.sign_eq_one_iff_pos.mp h.symm
    apply Int.sign_eq_one_of_pos
    rw [ngxMemn2cmp_pos] at hgt hbc ⊢
    exact List.lt_trans hbc hgt

theorem strictTotal_ngxMemn2cmp : StrictTotal ngxMemn2cmp where
  zero := ngxMemn2cmp_eq_zero
  swap := ngxMemn2cmp_swap
  trans := ngxMemn2cmp_trans
  lex := fun a b => (ngxMemn2cmp_neg a b).trans (lexBefore_iff a b).symm

/-! ## The two ways down -/

section Ways
variable {d : Shdict} {m : RbMem} {keyOf : Nat → Bytes} {z temp fuel : Nat}

/-- A lookup leaves a node on the side where an insertion of the same key does, and ends
at a node that has the key. The hash decides first in both, then the comparison of the
bytes. -/
theorem findNode_side (htemp : temp ≠ d.rbtree.tree.sentinel)
    (hhash : (m temp).key = (d.rbtree.node temp).key) (hkey : keyOf temp = d.keyOf temp) :
    findNode d (m z).key (keyOf z) (fuel + 1) temp =
      if (m z).key = (m temp).key ∧ keyOf z = keyOf temp then some (some temp)
      else findNode d (m z).key (keyOf z) fuel ((d.rbtree.node temp).child
        (if luadictLess keyOf m z temp = true then .left else .right)) := by
  rw [findNode, if_neg htemp, ← hhash, ← hkey, luadictLess]
  by_cases hlt : (m z).key < (m temp).key
  · rw [if_pos hlt, if_neg (fun h => by omega), if_pos hlt, if_pos rfl]
    rfl
  · by_cases hgt : (m temp).key < (m z).key
    · rw [if_neg hlt, if_pos hgt, if_neg (fun h => by omega), if_neg hlt, if_pos hgt,
        if_neg Bool.false_ne_true]
      rfl
    · have he : (m z).key = (m temp).key := by omega
      simp only [he, lt_irrefl, ↓reduceIte, true_and, decide_eq_true_eq, ngxMemn2cmp_eq_zero]
      split
      · rfl
      · split
        · rfl
        · rfl

/-- The comparison of keys is a strict total order, and every way down reads it alike: `z`
being a node that is hung up, a lookup of its key leaves each node on the side on which
the insertion left it. So a key that was inserted can be found again. -/
theorem key_order (htemp : temp ≠ d.rbtree.tree.sentinel)
    (hhash : (m temp).key = (d.rbtree.node temp).key) (hkey : keyOf temp = d.keyOf temp) :
    StrictTotal ngxMemn2cmp ∧
      findNode d (m z).key (keyOf z) (fuel + 1) temp =
        if (m z).key = (m temp).key ∧ keyOf z = keyOf temp then some (some temp)
        else findNode d (m z).key (keyOf z) fuel ((d.rbtree.node temp).child
          (if luadictLess keyOf m z temp = true then .left else .right)) :=
  ⟨strictTotal_ngxMemn2cmp, findNode_side htemp hhash hkey⟩

/-- Two nodes of one hash: a lookup of three zero bytes leaves "01LV" to the left, where the
insertion of that key goes. -/
theorem key_order_collision :
    StrictTotal ngxMemn2cmp ∧
      findNode (collisionDict collisionOne) 3413460456 [0, 0, 0] 2 4224 =
        findNode (collisionDict collisionOne) 3413460456 [0, 0, 0] 1
          (collisionOne.node 4224).left := by
  have h := @key_order (collisionDict collisionOne) collisionOne.node
    (collisionDict collisionOne).keyOf 4352 4224 1 (by decide +kernel) rfl rfl
  have hk : (collisionOne.node 4352).key = 3413460456 := by decide +kernel
  have hb : (collisionDict collisionOne).keyOf 4352 = [0, 0, 0] := by decide +kernel
  have hne : ¬ (3413460456 = (collisionOne.node 4224).key ∧
      [0, 0, 0] = (collisionDict collisionOne).keyOf 4224) := by decide +kernel
  have hleft :
      luadictLess (collisionDict collisionOne).keyOf collisionOne.node 4352 4224 = true := by
    decide +kernel
  rw [hk, hb, if_neg hne, if_pos hleft] at h
  exact h

end Ways

end MpsShdict
