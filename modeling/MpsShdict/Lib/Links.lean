import Mathlib.Data.List.Chain
import Mathlib.Data.List.Nodup
import Mathlib.Tactic.Common

/-! # Doubly linked rings

A ring is threaded through two link functions: `nx a` is the cell behind `a` and `pv a`
the cell before it. It starts at a header `h`, runs through the cells `xs` and ends at `h`
again. `G` says of which cells the back link is kept; a ring whose header has no back link
of its own is the case `G b ↔ b ≠ h`, and a queue with all its links is the case where `G`
holds of everything.

An operation on such a list writes a handful of links and is right whenever those are the
right ones and all others are left alone. The lemmas `Ring.remove`, `Ring.insert`,
`Ring.replace`, `Ring.split` and `Ring.append` say exactly that: their hypotheses are the
links that are written, each by name, and the frame around them, and what they give is the
ring with its cells in the new order. A program proof computes the links that its code
writes and applies one of them.

Everything here is about one ring and the cells it names. A change of links elsewhere is
the business of `Ring.frame`.
-/
namespace Links

variable {α : Type*} {G : α → Prop} {nx pv nx' pv' : α → α} {h x a b p s : α}
  {xs ys l : List α}

/-- `b` is behind `a`, in both directions where back links are kept: the forward link of
`a` leads to `b`, and if `G b` the back link of `b` leads to `a`. -/
def Linked (G : α → Prop) (nx pv : α → α) (a b : α) : Prop :=
  nx a = b ∧ (G b → pv b = a)

/-- The cells `xs` hang between `h` and `h`: the header, the cells and the header again
are a chain of links, and no two of the cells are the same. The list is what the ring
means, the link functions are how it is stored. -/
structure Ring (G : α → Prop) (nx pv : α → α) (h : α) (xs : List α) : Prop where
  chain : (h :: (xs ++ [h])).IsChain (Linked G nx pv)
  nodup : (h :: xs).Nodup

/-! ### Chains of links -/

/-- A chain only reads the forward links of all cells but the last and the back links of
all cells but the first. Whatever else is written, it stays a chain. -/
theorem isChain_frame (hc : l.IsChain (Linked G nx pv))
    (hn : ∀ a ∈ l.dropLast, nx' a = nx a) (hp : ∀ b ∈ l.tail, G b → pv' b = pv b) :
    l.IsChain (Linked G nx' pv') := by
  rw [List.isChain_iff_forall_rel_of_append_cons_cons] at hc ⊢
  intro a b l₁ l₂ hl
  obtain ⟨h1, h2⟩ := hc hl
  have ha : a ∈ l.dropLast := by
    rw [hl, List.dropLast_append_of_ne_nil (by simp), List.dropLast_cons_of_ne_nil (by simp)]
    simp
  have hb : b ∈ l.tail := by
    rw [hl]
    cases l₁ <;> simp
  exact ⟨(hn a ha).trans h1, fun hg => (hp b hb hg).trans (h2 hg)⟩

theorem isChain_middle {A B : List α} :
    (A ++ p :: s :: B).IsChain (Linked G nx pv) ↔
      (A ++ [p]).IsChain (Linked G nx pv) ∧ Linked G nx pv p s ∧
        (s :: B).IsChain (Linked G nx pv) :=
  List.isChain_append_cons_cons

/-- Every inner cut of a ring lies between a predecessor and a successor. Either may be
the header, and an operation at the cut writes the two links between them. -/
theorem cut (h : α) (xs ys : List α) :
    ∃ A p s B, h :: xs = A ++ [p] ∧ ys ++ [h] = s :: B := by
  obtain ⟨A, p, hA⟩ := List.eq_nil_or_concat' (h :: xs) |>.resolve_left (by simp)
  obtain ⟨s, B, hB⟩ := List.exists_cons_of_ne_nil (show ys ++ [h] ≠ [] by simp)
  exact ⟨A, p, s, B, hA, hB⟩

/-! ### Rings -/

theorem Ring.frame (hr : Ring G nx pv h xs) (hn : ∀ a ∈ h :: xs, nx' a = nx a)
    (hp : ∀ b ∈ h :: xs, G b → pv' b = pv b) : Ring G nx' pv' h xs := by
  refine ⟨isChain_frame hr.chain (fun a ha => hn a ?_) (fun b hb => hp b ?_), hr.nodup⟩
  · rwa [show h :: (xs ++ [h]) = (h :: xs) ++ [h] from rfl, List.dropLast_concat] at ha
  · simpa [or_comm] using hb

theorem ring_nil (h1 : nx h = h) (h2 : G h → pv h = h) : Ring G nx pv h [] :=
  ⟨List.isChain_pair.mpr ⟨h1, h2⟩, by simp⟩

theorem Ring.nil_iff (hr : Ring G nx pv h xs) : nx h = h ↔ xs = [] := by
  cases xs with
  | nil =>
    have := hr.chain
    simp only [List.nil_append, List.isChain_cons_cons] at this
    simp [this.1.1]
  | cons y ys =>
    have hc := hr.chain
    simp only [List.cons_append, List.isChain_cons_cons] at hc
    have hne : h ≠ y := fun he => by simpa [he] using hr.nodup
    simp only [hc.1.1, reduceCtorEq, iff_false]
    exact fun he => hne he.symm

/-- The first cell is the one the header leads to. -/
theorem Ring.head (hr : Ring G nx pv h (x :: xs)) : nx h = x := by
  have hc := hr.chain
  simp only [List.cons_append, List.isChain_cons_cons] at hc
  exact hc.1.1

/-- The links around an inner cell. -/
theorem Ring.around (hr : Ring G nx pv h (xs ++ x :: ys)) :
    ∃ A p s B, h :: xs = A ++ [p] ∧ ys ++ [h] = s :: B ∧
      Linked G nx pv p x ∧ Linked G nx pv x s := by
  obtain ⟨A, p, s, B, hA, hB⟩ := cut h xs ys
  refine ⟨A, p, s, B, hA, hB, ?_⟩
  have hc := hr.chain
  rw [show h :: (xs ++ x :: ys ++ [h]) = (h :: xs) ++ x :: (ys ++ [h]) by simp, hA, hB,
    show A ++ [p] ++ x :: s :: B = A ++ p :: x :: s :: B by simp] at hc
  obtain ⟨-, h1, h2⟩ := isChain_middle.mp hc
  exact ⟨h1, (List.isChain_cons_cons.mp h2).1⟩

/-- The cell behind an inner one. -/
theorem Ring.next_eq (hr : Ring G nx pv h (xs ++ x :: ys)) :
    nx x = ys.head?.getD h := by
  obtain ⟨A, p, s, B, -, hB, -, h1, -⟩ := hr.around
  cases ys <;> simp_all

/-- The cell before an inner one. -/
theorem Ring.prev_eq (hr : Ring G nx pv h (xs ++ x :: ys)) (hg : G x) :
    pv x = (h :: xs).getLast (by simp) := by
  obtain ⟨A, p, s, B, hA, -, h1, -⟩ := hr.around
  simp [hA, h1.2 hg]

/-- The header's back link leads to the last cell. -/
theorem Ring.last (hr : Ring G nx pv h xs) (hg : G h) : pv h = (h :: xs).getLast (by simp) := by
  obtain ⟨A, p, hA⟩ := List.eq_nil_or_concat' (h :: xs) |>.resolve_left (by simp)
  have hc := hr.chain
  rw [← List.cons_append] at hc
  simp only [hA, List.append_assoc, List.singleton_append] at hc ⊢
  simpa using (isChain_middle.mp hc).2.1.2 hg

/-- Links other than the one from `p` to `s` are out of reach of a change that only
touches that link: the two halves of a ring around it stay as they are. This is the step
that the operations on a single cell have in common. -/
theorem halves {A B zs : List α} (e : h :: (zs ++ [h]) = A ++ p :: s :: B)
    (hnd : (h :: zs).Nodup)
    (hn : ∀ a ∈ h :: zs, a ≠ p → nx' a = nx a)
    (hp : ∀ b ∈ h :: zs, b ≠ s → G b → pv' b = pv b)
    (c1 : (A ++ [p]).IsChain (Linked G nx pv)) (c2 : (s :: B).IsChain (Linked G nx pv)) :
    (A ++ [p]).IsChain (Linked G nx' pv') ∧ (s :: B).IsChain (Linked G nx' pv') := by
  -- a cell is the source of one link of the ring and the target of one
  have src : h :: zs = A ++ p :: (s :: B).dropLast := by
    have := congrArg List.dropLast e
    rwa [← List.cons_append, List.dropLast_concat, List.dropLast_append_of_ne_nil (by simp),
      List.dropLast_cons_of_ne_nil (by simp)] at this
  have tgt : zs ++ [h] = (A ++ [p]).tail ++ s :: B := by
    cases A with
    | nil => simpa using (List.cons.inj e).2
    | cons a A => simpa using (List.cons.inj e).2
  have ndS : (A ++ p :: (s :: B).dropLast).Nodup := src ▸ hnd
  have ndT : ((A ++ [p]).tail ++ s :: B).Nodup :=
    tgt ▸ List.nodup_append_comm.mp (by simpa using hnd)
  have memT : ∀ b ∈ (A ++ [p]).tail ++ s :: B, b ∈ h :: zs := by
    intro b hb
    rw [← tgt] at hb
    simpa [or_comm] using hb
  constructor
  · refine isChain_frame c1 ?_ ?_
    · intro a ha
      rw [List.dropLast_concat] at ha
      refine hn a (src ▸ List.mem_append_left _ ha) ?_
      intro he
      exact (List.nodup_append.mp ndS).2.2 a ha p (by simp) he
    · intro b hb
      refine hp b (memT b (List.mem_append_left _ hb)) ?_
      intro he
      exact (List.nodup_append.mp ndT).2.2 b hb s (by simp) he
  · refine isChain_frame c2 ?_ ?_
    · intro a ha
      refine hn a (src ▸ List.mem_append_right _ (List.mem_cons_of_mem _ ha)) ?_
      intro he
      exact (List.nodup_cons.mp (List.nodup_append.mp ndS).2.1).1 (he ▸ ha)
    · intro b hb
      refine hp b (memT b (List.mem_append_right _ (List.mem_cons_of_mem _ hb))) ?_
      intro he
      exact (List.nodup_cons.mp (List.nodup_append.mp ndT).2.1).1 (he ▸ hb)

/-- Taking a cell out: its neighbours are linked past it, nothing else in the ring is
written. The links of the cell itself are free afterwards. -/
theorem Ring.remove (hr : Ring G nx pv h (xs ++ x :: ys)) (hg : G x)
    (h1 : nx' (pv x) = nx x) (h2 : G (nx x) → pv' (nx x) = pv x)
    (hn : ∀ a ∈ h :: (xs ++ ys), a ≠ pv x → nx' a = nx a)
    (hp : ∀ b ∈ h :: (xs ++ ys), b ≠ nx x → G b → pv' b = pv b) :
    Ring G nx' pv' h (xs ++ ys) := by
  have hnd : (h :: (xs ++ ys)).Nodup := hr.nodup.sublist (by simp)
  obtain ⟨A, p, s, B, hA, hB, hpx, hxs⟩ := hr.around
  have hpx' : pv x = p := hpx.2 hg
  have hxs' : nx x = s := hxs.1
  rw [hpx', hxs'] at h1 h2
  rw [hpx'] at hn
  rw [hxs'] at hp
  have e0 : h :: (xs ++ ys ++ [h]) = A ++ p :: s :: B := by
    calc h :: (xs ++ ys ++ [h]) = (h :: xs) ++ (ys ++ [h]) := by simp
      _ = A ++ p :: s :: B := by rw [hA, hB]; simp
  have e1 : h :: (xs ++ x :: ys ++ [h]) = A ++ p :: x :: s :: B := by
    calc h :: (xs ++ x :: ys ++ [h]) = (h :: xs) ++ x :: (ys ++ [h]) := by simp
      _ = A ++ p :: x :: s :: B := by rw [hA, hB]; simp
  have hc := hr.chain
  rw [e1] at hc
  obtain ⟨c1, -, c2⟩ := isChain_middle.mp hc
  obtain ⟨k1, k2⟩ := halves e0 hnd hn hp c1 (List.isChain_cons_cons.mp c2).2
  refine ⟨?_, hnd⟩
  rw [e0, isChain_middle]
  exact ⟨k1, ⟨h1, h2⟩, k2⟩

/-- Putting a cell in between `p` and the cell `s` behind it. Four links are written, and
the cell must not have been in the ring before. -/
theorem Ring.insert (hr : Ring G nx pv h (xs ++ ys)) (hx : x ∉ h :: (xs ++ ys))
    (h1 : nx' ((h :: xs).getLast (by simp)) = x)
    (h2 : G x → pv' x = (h :: xs).getLast (by simp))
    (h3 : nx' x = ys.head?.getD h) (h4 : G (ys.head?.getD h) → pv' (ys.head?.getD h) = x)
    (hn : ∀ a ∈ h :: (xs ++ ys), a ≠ (h :: xs).getLast (by simp) → nx' a = nx a)
    (hp : ∀ b ∈ h :: (xs ++ ys), b ≠ ys.head?.getD h → G b → pv' b = pv b) :
    Ring G nx' pv' h (xs ++ x :: ys) := by
  have hnd := hr.nodup
  have hnd' : (h :: (xs ++ x :: ys)).Nodup := by
    have : (h :: (xs ++ x :: ys)).Perm (x :: h :: (xs ++ ys)) :=
      (List.perm_middle.cons h).trans (List.Perm.swap x h _)
    exact this.nodup_iff.mpr (List.nodup_cons.mpr ⟨hx, hnd⟩)
  obtain ⟨A, p, s, B, hA, hB⟩ := cut h xs ys
  have hpe : (h :: xs).getLast (by simp) = p := by simp [hA]
  have hse : ys.head?.getD h = s := by cases ys <;> simp_all
  simp only [hpe, hse] at h1 h2 h3 h4 hn hp
  have e0 : h :: (xs ++ ys ++ [h]) = A ++ p :: s :: B := by
    calc h :: (xs ++ ys ++ [h]) = (h :: xs) ++ (ys ++ [h]) := by simp
      _ = A ++ p :: s :: B := by rw [hA, hB]; simp
  have e1 : h :: (xs ++ x :: ys ++ [h]) = A ++ p :: x :: s :: B := by
    calc h :: (xs ++ x :: ys ++ [h]) = (h :: xs) ++ x :: (ys ++ [h]) := by simp
      _ = A ++ p :: x :: s :: B := by rw [hA, hB]; simp
  have hc := hr.chain
  rw [e0] at hc
  obtain ⟨c1, -, c2⟩ := isChain_middle.mp hc
  obtain ⟨k1, k2⟩ := halves e0 hnd hn hp c1 c2
  refine ⟨?_, hnd'⟩
  rw [e1, isChain_middle]
  exact ⟨k1, ⟨h1, h2⟩, List.isChain_cons_cons.mpr ⟨⟨h3, h4⟩, k2⟩⟩

/-- Putting a cell in the place of another. The neighbours are those of the old cell, so
the order of the others does not change. -/
theorem Ring.replace [DecidableEq α] {y : α} (hr : Ring G nx pv h (xs ++ x :: ys)) (hg : G x)
    (hy : y ∉ h :: (xs ++ ys))
    (h1 : nx' (pv x) = y) (h2 : G y → pv' y = pv x)
    (h3 : nx' y = nx x) (h4 : G (nx x) → pv' (nx x) = y)
    (hn : ∀ a ∈ h :: (xs ++ ys), a ≠ pv x → nx' a = nx a)
    (hp : ∀ b ∈ h :: (xs ++ ys), b ≠ nx x → G b → pv' b = pv b) :
    Ring G nx' pv' h (xs ++ y :: ys) := by
  have hpx := hr.prev_eq hg
  have hnx := hr.next_eq
  -- the ring between the removal and the insertion
  have hmid : Ring G (fun a => if a = pv x then nx x else nx' a)
      (fun b => if b = nx x then pv x else pv' b) h (xs ++ ys) := by
    refine hr.remove hg (by simp) (fun _ => by simp) ?_ ?_
    · intro a ha hne
      simp only [hne, ↓reduceIte]
      exact hn a ha hne
    · intro b hb hne hgb
      simp only [hne, ↓reduceIte]
      exact hp b hb hne hgb
  refine hmid.insert hy (hpx ▸ h1) (fun hgy => hpx ▸ h2 hgy) (hnx ▸ h3) (hnx ▸ h4) ?_ ?_
  · intro a _ hne
    rw [← hpx] at hne
    simp only [hne, ↓reduceIte]
  · intro b _ hne _
    rw [← hnx] at hne
    simp only [hne, ↓reduceIte]

/-! ### Splicing -/

/-- A ring is the chain of its cells, closed by its last one. Splitting and joining rings
cut the chain and close its parts, for which this form is the convenient one. -/
theorem ring_iff : Ring G nx pv h xs ↔ (h :: xs).IsChain (Linked G nx pv) ∧
    Linked G nx pv ((h :: xs).getLast (by simp)) h ∧ (h :: xs).Nodup := by
  obtain ⟨A, p, hA⟩ := List.eq_nil_or_concat' (h :: xs) |>.resolve_left (by simp)
  have hl : (h :: xs).getLast (by simp) = p := by simp [hA]
  have e : h :: (xs ++ [h]) = A ++ p :: [h] := by
    rw [← List.cons_append, hA]
    simp
  constructor
  · rintro ⟨hc, hnd⟩
    rw [e, isChain_middle] at hc
    exact ⟨hA ▸ hc.1, hl ▸ hc.2.1, hnd⟩
  · rintro ⟨hc, hlast, hnd⟩
    refine ⟨?_, hnd⟩
    rw [e, isChain_middle, ← hA, ← hl]
    exact ⟨hc, hlast, .singleton h⟩

/-- A chain of different cells reads no link out of its last cell and none back from its
first. -/
theorem segment_frame (hc : (x :: l).IsChain (Linked G nx pv)) (hnd : (x :: l).Nodup)
    (hn : ∀ a ∈ x :: l, a ≠ (x :: l).getLast (by simp) → nx' a = nx a)
    (hp : ∀ b ∈ x :: l, b ≠ x → G b → pv' b = pv b) :
    (x :: l).IsChain (Linked G nx' pv') := by
  refine isChain_frame hc ?_ ?_
  · intro a ha
    have hne : a ≠ (x :: l).getLast (by simp) := by
      rw [← List.dropLast_concat_getLast (show x :: l ≠ [] by simp)] at hnd
      exact (List.nodup_append.mp hnd).2.2 a ha _ (by simp)
    exact hn a ((List.dropLast_sublist _).subset ha) hne
  · intro b hb
    have hne : b ≠ x := fun he => (List.nodup_cons.mp hnd).1 (he ▸ hb)
    exact hp b (List.mem_cons_of_mem _ hb) hne

/-- Cutting a ring in front of `x`: the first part is closed again, the rest gets the
header `n`. The three links that are written are the two closing ones and the one from the
new header. -/
theorem Ring.split {n : α} (hr : Ring G nx pv h (xs ++ x :: ys)) (hnew : n ∉ x :: ys)
    (h1 : Linked G nx' pv' ((h :: xs).getLast (by simp)) h) (h2 : Linked G nx' pv' n x)
    (h3 : Linked G nx' pv' ((x :: ys).getLast (by simp)) n)
    (hn : ∀ a ∈ h :: (xs ++ x :: ys), a ≠ (h :: xs).getLast (by simp) →
      a ≠ (x :: ys).getLast (by simp) → nx' a = nx a)
    (hp : ∀ b ∈ h :: (xs ++ x :: ys), b ≠ h → b ≠ x → G b → pv' b = pv b) :
    Ring G nx' pv' h xs ∧ Ring G nx' pv' n (x :: ys) := by
  obtain ⟨hc, -, hnd⟩ := ring_iff.mp hr
  rw [← List.cons_append] at hc hnd hn hp
  obtain ⟨hc1, hc2, -⟩ := List.isChain_append.mp hc
  obtain ⟨hnd1, hnd2, hdis⟩ := List.nodup_append.mp hnd
  constructor
  · refine ring_iff.mpr ⟨segment_frame hc1 hnd1 (fun a ha hne => ?_) (fun b hb hne => ?_), h1, hnd1⟩
    · exact hn a (List.mem_append_left _ ha) hne (hdis a ha _ (List.getLast_mem (by simp)))
    · exact hp b (List.mem_append_left _ hb) hne (hdis b hb x (by simp))
  · have hseg : (x :: ys).IsChain (Linked G nx' pv') := by
      refine segment_frame hc2 hnd2 ?_ (fun b hb hne => ?_)
      · intro a ha hne
        refine hn a (List.mem_append_right _ ha) ?_ hne
        intro he
        exact hdis _ (List.getLast_mem (l := h :: xs) (by simp)) a ha he.symm
      · exact hp b (List.mem_append_right _ hb) (fun he => hdis h (by simp) b hb he.symm) hne
    refine ring_iff.mpr ⟨List.isChain_cons_cons.mpr ⟨h2, hseg⟩,
      ?_, List.nodup_cons.mpr ⟨hnew, hnd2⟩⟩
    rwa [List.getLast_cons_cons]

/-- Hanging the cells of a second ring behind those of the first. The header of the second
ring is left out and keeps whatever links it has. -/
theorem Ring.append {n : α} (hr : Ring G nx pv h xs) (hs : Ring G nx pv n (x :: ys))
    (hd : (h :: xs).Disjoint (x :: ys))
    (h1 : Linked G nx' pv' ((h :: xs).getLast (by simp)) x)
    (h2 : Linked G nx' pv' ((x :: ys).getLast (by simp)) h)
    (hn : ∀ a ∈ h :: (xs ++ x :: ys), a ≠ (h :: xs).getLast (by simp) →
      a ≠ (x :: ys).getLast (by simp) → nx' a = nx a)
    (hp : ∀ b ∈ h :: (xs ++ x :: ys), b ≠ h → b ≠ x → G b → pv' b = pv b) :
    Ring G nx' pv' h (xs ++ x :: ys) := by
  obtain ⟨hc1, -, hnd1⟩ := ring_iff.mp hr
  obtain ⟨hc2, -, hnd2⟩ := ring_iff.mp hs
  have hnd2 : (x :: ys).Nodup := (List.nodup_cons.mp hnd2).2
  have hdis : ∀ a ∈ h :: xs, ∀ b ∈ x :: ys, a ≠ b := fun a ha b hb he => hd ha (he ▸ hb)
  rw [← List.cons_append] at hn hp
  have hseg1 : (h :: xs).IsChain (Linked G nx' pv') := by
    refine segment_frame hc1 hnd1 (fun a ha hne => ?_) (fun b hb hne => ?_)
    · exact hn a (List.mem_append_left _ ha) hne (hdis a ha _ (List.getLast_mem (by simp)))
    · exact hp b (List.mem_append_left _ hb) hne (hdis b hb x (by simp))
  have hseg2 : (x :: ys).IsChain (Linked G nx' pv') := by
    refine segment_frame (List.isChain_cons_cons.mp hc2).2 hnd2 ?_
      (fun b hb hne => ?_)
    · intro a ha hne
      refine hn a (List.mem_append_right _ ha) ?_ hne
      intro he
      exact hdis _ (List.getLast_mem (l := h :: xs) (by simp)) a ha he.symm
    · exact hp b (List.mem_append_right _ hb) (fun he => hdis h (by simp) b hb he.symm) hne
  refine ring_iff.mpr ⟨?_, ?_, ?_⟩
  · rw [← List.cons_append]
    refine hseg1.append hseg2 ?_
    intro a ha b hb
    rw [List.getLast?_eq_some_getLast (by simp), Option.mem_some_iff] at ha
    obtain rfl : x = b := by simpa using hb
    exact ha ▸ h1
  · have hl : (h :: (xs ++ x :: ys)).getLast (by simp) = (x :: ys).getLast (by simp) := by
      rw [List.getLast_cons (by simp), List.getLast_append_of_ne_nil (by simp)]
    rw [hl]
    exact h2
  · rw [← List.cons_append]
    exact List.nodup_append.mpr ⟨hnd1, hnd2, hdis⟩

/-! ### What the cells of a ring fix -/

/-- The cell behind `a` is one of the ring, the same whatever the links are. -/
theorem exists_next (ha : a ∈ h :: xs) :
    ∃ s ∈ h :: xs, ∀ nx pv : α → α, Ring G nx pv h xs → Linked G nx pv a s := by
  obtain ⟨A, B, hA⟩ := List.append_of_mem ha
  obtain ⟨s, C, hB⟩ := List.exists_cons_of_ne_nil (show B ++ [h] ≠ [] by simp)
  have e : h :: (xs ++ [h]) = A ++ a :: s :: C := by
    rw [← List.cons_append, hA, List.append_assoc, List.cons_append, hB]
  refine ⟨s, ?_, ?_⟩
  · have hs : s ∈ B ++ [h] := by simp [hB]
    rw [hA]
    rcases List.mem_append.mp hs with hs | hs
    · simp [hs]
    · rw [← hA, List.mem_singleton.mp hs]
      simp
  · intro nx pv hr
    have hc := hr.chain
    rw [e, isChain_middle] at hc
    exact hc.2.1

/-- The cell before `b` is one of the ring, the same whatever the links are. -/
theorem exists_prev (hb : b ∈ h :: xs) :
    ∃ p ∈ h :: xs, ∀ nx pv : α → α, Ring G nx pv h xs → Linked G nx pv p b := by
  have hb' : b ∈ xs ++ [h] := by simpa [or_comm] using hb
  obtain ⟨A, B, hA⟩ := List.append_of_mem hb'
  obtain ⟨C, p, hC⟩ := List.eq_nil_or_concat' (h :: A) |>.resolve_left (by simp)
  have e : h :: (xs ++ [h]) = C ++ p :: b :: B := by
    rw [hA, ← List.cons_append, hC]
    simp
  refine ⟨p, ?_, ?_⟩
  · have hp : p ∈ h :: A := by simp [hC]
    rcases List.mem_cons.mp hp with rfl | hp
    · simp
    · have hp' : p ∈ xs ++ [h] := by simp [hA, hp]
      simpa [or_comm] using hp'
  · intro nx pv hr
    have hc := hr.chain
    rw [e, isChain_middle] at hc
    exact hc.2.1

/-- Where all back links are kept, going there and back again ends where it started: the
two link functions are inverse to each other on the cells of the ring. -/
theorem Ring.mirror (hr : Ring G nx pv h xs) (hg : ∀ a ∈ h :: xs, G a) (ha : a ∈ h :: xs) :
    pv (nx a) = a ∧ nx (pv a) = a := by
  obtain ⟨s, hs, hl⟩ := exists_next (G := G) ha
  obtain ⟨p, hp, hb⟩ := exists_prev (G := G) ha
  have h1 := hl nx pv hr
  have h2 := hb nx pv hr
  constructor
  · rw [h1.1]
    exact h1.2 (hg s hs)
  · rw [h2.2 (hg a ha)]
    exact h2.1

/-- Two ways to link the same cells up in the same order are one. So the order of the
cells determines every link that an operation may read. -/
theorem Ring.links_eq (hr : Ring G nx pv h xs) (hr' : Ring G nx' pv' h xs) (ha : a ∈ h :: xs)
    (hg : G a) : nx' a = nx a ∧ pv' a = pv a := by
  obtain ⟨s, -, hl⟩ := exists_next (G := G) ha
  obtain ⟨p, -, hb⟩ := exists_prev (G := G) ha
  constructor
  · rw [(hl nx pv hr).1, (hl nx' pv' hr').1]
  · rw [(hb nx pv hr).2 hg, (hb nx' pv' hr').2 hg]

end Links
