import MpsShdict.Queue

/-! # Splitting and joining queues (`mps_queue.h`)

`mps_queue_split` cuts a queue in two in front of a cell, `mps_queue_add` hangs the cells
of one queue behind those of another. Both read links that they have just written: the
header that takes over the rest may be its own neighbour by then. With these the header
file is complete, also in the build with `NGX_DEBUG`, where a cell that is taken out loses
its links.

`QueueMacros` collects what every macro of the header does to the sequences it is applied
to, and that it writes no cell of a queue that has nothing to do with it; `queue_macros`
proves it. The links that a macro writes are computed first, as a case distinction on the
cell that is read (`mpsQueueAdd_next` and its like), and the ring lemmas of the library
then say what these links mean. The empty second queue is a case of its own in
`mps_queue_add`, since there the header read last is the one written first.
-/
namespace MpsShdict

/-- `mps_nulloff`. -/
def mpsNulloff : Nat := 0

/-- `mps_queue_remove` of a build with `NGX_DEBUG`: as in the other build, and then both
links of the cell are cleared. -/
def mpsQueueRemoveDebug (q : QueueMem) (x : Nat) : QueueMem :=
  let xNext := (q x).next
  let q := q.setPrev xNext (q x).prev
  let xPrev := (q x).prev
  let q := q.setNext xPrev (q x).next
  let q := q.setPrev x mpsNulloff
  q.setNext x mpsNulloff

/-- `mps_queue_split`: the cells from `x` on go over to `n`, in their order. What is
before `x` stays on `h`. -/
def mpsQueueSplit (q : QueueMem) (h x n : Nat) : QueueMem :=
  let q := q.setPrev n (q h).prev
  let nPrev := (q n).prev
  let q := q.setNext nPrev n
  let q := q.setNext n x
  let q := q.setPrev h (q x).prev
  let hPrev := (q h).prev
  let q := q.setNext hPrev h
  q.setPrev x n

/-- `mps_queue_add`: the cells of `n` go behind those of `h`. The header `n` keeps its
links and is a queue no more. -/
def mpsQueueAdd (q : QueueMem) (h n : Nat) : QueueMem :=
  let hPrev := (q h).prev
  let q := q.setNext hPrev (q n).next
  let nNext := (q n).next
  let q := q.setPrev nNext (q h).prev
  let q := q.setPrev h (q n).prev
  let hPrev := (q h).prev
  q.setNext hPrev h

theorem mpsQueueRemoveDebug_eq (q : QueueMem) (x : Nat) :
    mpsQueueRemoveDebug q x =
      ((mpsQueueRemove q x).setPrev x mpsNulloff).setNext x mpsNulloff := rfl

/-! ## The links that are written -/

section Writes
variable {q : QueueMem} {h x n a : Nat}

theorem mpsQueueSplit_next (hxn : x ≠ n) :
    (mpsQueueSplit q h x n a).next =
      if a = (q x).prev then h else if a = n then x else if a = (q h).prev then n
      else (q a).next := by
  simp [mpsQueueSplit, hxn]

theorem mpsQueueSplit_prev (hxn : x ≠ n) :
    (mpsQueueSplit q h x n a).prev =
      if a = x then n else if a = h then (q x).prev else if a = n then (q h).prev
      else (q a).prev := by
  simp [mpsQueueSplit, hxn]

/-- The forward links after joining. The header of an empty second queue has been written
when it is read again, which is the inner case distinction. -/
theorem mpsQueueAdd_next :
    (mpsQueueAdd q h n a).next =
      if a = (if n = (q n).next then (q h).prev else (q n).prev) then h
      else if a = (q h).prev then (q n).next else (q a).next := by
  by_cases hp : n = (q h).prev
  · simp [mpsQueueAdd, ← hp]
  · simp [mpsQueueAdd, hp]

theorem mpsQueueAdd_prev :
    (mpsQueueAdd q h n a).prev =
      if a = h then (if n = (q n).next then (q h).prev else (q n).prev)
      else if a = (q n).next then (q h).prev else (q a).prev := by
  by_cases hp : n = (q h).prev
  · simp [mpsQueueAdd, ← hp]
  · simp [mpsQueueAdd, hp]

end Writes

/-- A cell is its two links. -/
theorem Queue.eq_of_links {c c' : Queue} (hn : c'.next = c.next) (hp : c'.prev = c.prev) :
    c' = c := by
  obtain ⟨p, n⟩ := c
  obtain ⟨p', n'⟩ := c'
  simp only at hn hp
  rw [hn, hp]

namespace IsQueue
variable {q q' : QueueMem} {h x n a : Nat} {xs ys : List Nat}

theorem getLast_prev (hq : IsQueue q h xs) : (q h).prev = (h :: xs).getLast (by simp) :=
  Links.Ring.last hq trivial

theorem mirror (hq : IsQueue q h xs) (ha : a ∈ h :: xs) :
    (q (q a).next).prev = a ∧ (q (q a).prev).next = a :=
  Links.Ring.mirror hq (fun _ _ => trivial) ha

/-- The sequence fixes the links of its cells. So two heaps that spell out the same queue
agree on every cell of it. -/
theorem cell_eq (hq : IsQueue q h xs) (hq' : IsQueue q' h xs) (ha : a ∈ h :: xs) : q' a = q a :=
  let hl := Links.Ring.links_eq hq hq' ha trivial
  Queue.eq_of_links hl.1 hl.2

/-! ### The last cells of both parts -/

theorem prev_mid (hq : IsQueue q h (xs ++ x :: ys)) :
    (q x).prev = (h :: xs).getLast (by simp) :=
  Links.Ring.prev_eq hq trivial

theorem prev_end (hq : IsQueue q h (xs ++ x :: ys)) :
    (q h).prev = (x :: ys).getLast (by simp) := by
  rw [hq.getLast_prev, List.getLast_cons (by simp), List.getLast_append_of_ne_nil (by simp)]

/-! ### Taking out with the links cleared -/

theorem removeDebug (hq : IsQueue q h (xs ++ x :: ys)) :
    IsQueue (mpsQueueRemoveDebug q x) h (xs ++ ys) := by
  refine hq.remove.frame ?_
  intro a ha
  have hax : a ≠ x := fun he => hq.notMem (he ▸ ha)
  rw [mpsQueueRemoveDebug_eq, QueueMem.setNext_ne _ hax, QueueMem.setPrev_ne _ hax]

theorem removeDebug_frame (hq : IsQueue q h (xs ++ x :: ys)) (ha : a ∉ h :: (xs ++ x :: ys)) :
    mpsQueueRemoveDebug q x a = q a := by
  have hax : a ≠ x := fun he => ha (by simp [he])
  have hmem : a ∉ h :: (xs ++ ys) := fun hm => ha (by simp at hm ⊢; tauto)
  rw [mpsQueueRemoveDebug_eq, QueueMem.setNext_ne _ hax, QueueMem.setPrev_ne _ hax,
    hq.remove_frame hmem]

/-! ### Splitting -/

theorem split (hq : IsQueue q h (xs ++ x :: ys)) (hn : n ∉ h :: (xs ++ x :: ys)) :
    IsQueue (mpsQueueSplit q h x n) h xs ∧ IsQueue (mpsQueueSplit q h x n) n (x :: ys) := by
  have hxn : x ≠ n := fun he => hn (by simp [he])
  have hhn : h ≠ n := fun he => hn (by simp [he])
  have hhx : h ≠ x := fun he => hq.notMem (by simp [he])
  have hp := hq.prev_mid
  have he := hq.prev_end
  have hnp : n ≠ (q x).prev := by
    rw [hp]
    intro hc
    have hm := List.getLast_mem (l := h :: xs) (by simp)
    rw [← hc] at hm
    exact hn (by simp at hm ⊢; tauto)
  have hpe : (q h).prev ≠ (q x).prev := by
    rw [hp, he]
    intro hc
    have hnd := hq.nodup
    rw [← List.cons_append] at hnd
    exact (List.nodup_append.mp hnd).2.2 _ (List.getLast_mem (by simp)) _
      (List.getLast_mem (by simp)) hc.symm
  have hne : (q h).prev ≠ n := by
    rw [he]
    intro hc
    have hm := List.getLast_mem (l := x :: ys) (by simp)
    rw [hc] at hm
    exact hn (by simp at hm ⊢; tauto)
  refine Links.Ring.split hq (fun hm => hn (by simp at hm ⊢; tauto)) ?_ ?_ ?_ ?_ ?_
  · rw [← hp]
    exact ⟨by simp [mpsQueueSplit_next hxn], fun _ => by simp [mpsQueueSplit_prev hxn, hhx]⟩
  · exact ⟨by simp [mpsQueueSplit_next hxn, hnp], fun _ => by simp [mpsQueueSplit_prev hxn]⟩
  · rw [← he]
    exact ⟨by simp [mpsQueueSplit_next hxn, hpe, hne],
      fun _ => by simp [mpsQueueSplit_prev hxn, hxn.symm, hhn.symm]⟩
  · intro a ha h1 h2
    have han : a ≠ n := fun hc => hn (hc ▸ ha)
    rw [← hp] at h1
    rw [← he] at h2
    simp [mpsQueueSplit_next hxn, h1, h2, han]
  · intro b hb h1 h2 _
    have hbn : b ≠ n := fun hc => hn (hc ▸ hb)
    simp [mpsQueueSplit_prev hxn, h1, h2, hbn]

-- the header at 8 keeps the cell at 16, the one at 24 takes over the cell at 32
example : let q := mpsQueueInsertTail (mpsQueueInit (fun _ => ⟨0, 0⟩) 8) 8 16
    let q := mpsQueueSplit (mpsQueueInsertTail q 8 32) 8 32 24
    ((q 8).next, (q 16).next, (q 24).next, (q 32).next) = (16, 8, 32, 24) := by decide

/-- A split writes the new header and cells of the queue. -/
theorem split_frame (hq : IsQueue q h (xs ++ x :: ys)) (hxn : x ≠ n)
    (ha : a ∉ n :: h :: (xs ++ x :: ys)) : mpsQueueSplit q h x n a = q a := by
  have han : a ≠ n := fun he => ha (by simp [he])
  have hah : a ≠ h := fun he => ha (by simp [he])
  have hax : a ≠ x := fun he => ha (by simp [he])
  have h1 : a ≠ (q x).prev := by
    rw [hq.prev_mid]
    intro he
    have hm := List.getLast_mem (l := h :: xs) (by simp)
    rw [← he] at hm
    exact ha (by simp at hm ⊢; tauto)
  have h2 : a ≠ (q h).prev := by
    rw [hq.prev_end]
    intro he
    have hm := List.getLast_mem (l := x :: ys) (by simp)
    rw [← he] at hm
    exact ha (by simp at hm ⊢; tauto)
  apply Queue.eq_of_links
  · rw [mpsQueueSplit_next hxn, if_neg h1, if_neg han, if_neg h2]
  · rw [mpsQueueSplit_prev hxn, if_neg hax, if_neg hah, if_neg han]

/-! ### Joining -/

/-- An empty queue adds nothing; only its own header is written beside. -/
theorem add_nil (hq : IsQueue q h xs) (hs : IsQueue q n []) (ha : a ≠ n) :
    mpsQueueAdd q h n a = q a := by
  have hnn : (q n).next = n := hs.head_nil
  have hlast := (hq.mirror (List.mem_cons_self ..)).2
  apply Queue.eq_of_links
  · rw [mpsQueueAdd_next, hnn, if_pos rfl]
    by_cases hl : a = (q h).prev
    · rw [if_pos hl, hl, hlast]
    · rw [if_neg hl, if_neg hl]
  · rw [mpsQueueAdd_prev, hnn, if_pos rfl, if_neg ha]
    by_cases hah : a = h
    · rw [if_pos hah, hah]
    · rw [if_neg hah]

theorem add_cons (hq : IsQueue q h xs) (hs : IsQueue q n (x :: ys))
    (hd : (h :: xs).Disjoint (n :: x :: ys)) :
    IsQueue (mpsQueueAdd q h n) h (xs ++ x :: ys) := by
  have hnx : (q n).next = x := hs.head
  have hxn : n ≠ x := fun he => (List.nodup_cons.mp hs.nodup).1 (by simp [he])
  have hnp : (q n).prev = (x :: ys).getLast (by simp) := by
    rw [hs.getLast_prev, List.getLast_cons_cons]
  have hp := hq.getLast_prev
  have hxh : x ≠ h := fun he => hd (List.mem_cons_self ..) (by simp [he])
  have hpe : (q h).prev ≠ (q n).prev := by
    rw [hp, hnp]
    intro hc
    apply hd (List.getLast_mem (l := h :: xs) (by simp))
    rw [hc]
    exact List.mem_cons_of_mem _ (List.getLast_mem (by simp))
  refine Links.Ring.append hq hs (fun a h1 h2 => hd h1 (List.mem_cons_of_mem _ h2)) ?_ ?_
    ?_ (fun b hb h1 h2 _ => ?_)
  · rw [← hp]
    exact ⟨by simp [mpsQueueAdd_next, hnx, hxn, hpe],
      fun _ => by simp [mpsQueueAdd_prev, hnx, hxh]⟩
  · rw [← hnp]
    exact ⟨by simp [mpsQueueAdd_next, hnx, hxn], fun _ => by simp [mpsQueueAdd_prev, hnx, hxn]⟩
  · intro a ha h1 h2
    rw [← hp] at h1
    rw [← hnp] at h2
    simp [mpsQueueAdd_next, hnx, hxn, h1, h2]
  · simp [mpsQueueAdd_prev, hnx, h1, h2]

theorem add (hq : IsQueue q h xs) (hs : IsQueue q n ys) (hd : (h :: xs).Disjoint (n :: ys)) :
    IsQueue (mpsQueueAdd q h n) h (xs ++ ys) := by
  cases ys with
  | nil =>
    rw [List.append_nil]
    exact hq.frame fun a ha => add_nil hq hs fun he => hd ha (by simp [he])
  | cons x ys => exact add_cons hq hs hd

/-- Joining writes cells of the two queues. -/
theorem add_frame (hq : IsQueue q h xs) (hs : IsQueue q n ys)
    (ha : a ∉ h :: xs ++ n :: ys) : mpsQueueAdd q h n a = q a := by
  cases ys with
  | nil => exact add_nil hq hs fun he => ha (by simp [he])
  | cons x ys =>
    have hnx : (q n).next = x := hs.head
    have hxn : n ≠ x := fun he => (List.nodup_cons.mp hs.nodup).1 (by simp [he])
    have hah : a ≠ h := fun he => ha (by simp [he])
    have hax : a ≠ x := fun he => ha (by simp [he])
    have h1 : a ≠ (q h).prev := by
      rw [hq.getLast_prev]
      intro he
      exact ha (he ▸ List.mem_append_left _ (List.getLast_mem (by simp)))
    have h2 : a ≠ (q n).prev := by
      rw [hs.getLast_prev]
      intro he
      exact ha (he ▸ List.mem_append_right _ (List.getLast_mem (by simp)))
    apply Queue.eq_of_links
    · rw [mpsQueueAdd_next, hnx, if_neg hxn, if_neg h2, if_neg h1]
    · rw [mpsQueueAdd_prev, hnx, if_neg hah, if_neg hax]

/-- Cutting a queue anywhere and joining the parts gives the queue back, cell by cell; the
second header alone keeps a trace. -/
theorem split_add (hq : IsQueue q h (xs ++ x :: ys)) (hn : n ∉ h :: (xs ++ x :: ys))
    (ha : a ≠ n) : mpsQueueAdd (mpsQueueSplit q h x n) h n a = q a := by
  have hxn : x ≠ n := fun he => hn (by simp [he])
  obtain ⟨h1, h2⟩ := hq.split hn
  have hd : (h :: xs).Disjoint (n :: x :: ys) := by
    have hnd := hq.nodup
    rw [← List.cons_append] at hnd hn
    intro b hb hb'
    rcases List.mem_cons.mp hb' with rfl | hb'
    · exact hn (List.mem_append_left _ hb)
    · exact (List.nodup_append.mp hnd).2.2 b hb b hb' rfl
  by_cases hm : a ∈ h :: (xs ++ x :: ys)
  · exact hq.cell_eq (h1.add h2 hd) hm
  · rw [add_frame h1 h2 (by simp at hm ⊢; tauto), hq.split_frame hxn (by simp at hm ⊢; tauto)]

end IsQueue

/-! ## The macros implement sequences -/

/-- What each macro does to the sequences, and that it writes no cell of another queue.
One field for every macro of the header, each for any sequence and any position in it. -/
structure QueueMacros : Prop where
  insertHead : ∀ (q : QueueMem) (h x : Nat) (xs : List Nat), IsQueue q h xs → x ∉ h :: xs →
    IsQueue (mpsQueueInsertHead q h x) h (x :: xs) ∧
      ∀ a, a ∉ h :: x :: xs → mpsQueueInsertHead q h x a = q a
  insertTail : ∀ (q : QueueMem) (h x : Nat) (xs : List Nat), IsQueue q h xs → x ∉ h :: xs →
    IsQueue (mpsQueueInsertTail q h x) h (xs ++ [x]) ∧
      ∀ a, a ∉ h :: x :: xs → mpsQueueInsertTail q h x a = q a
  remove : ∀ (q : QueueMem) (h x : Nat) (xs ys : List Nat), IsQueue q h (xs ++ x :: ys) →
    IsQueue (mpsQueueRemove q x) h (xs ++ ys) ∧
      ∀ a, a ∉ h :: (xs ++ ys) → mpsQueueRemove q x a = q a
  removeDebug : ∀ (q : QueueMem) (h x : Nat) (xs ys : List Nat), IsQueue q h (xs ++ x :: ys) →
    IsQueue (mpsQueueRemoveDebug q x) h (xs ++ ys) ∧
      ∀ a, a ∉ h :: (xs ++ x :: ys) → mpsQueueRemoveDebug q x a = q a
  split : ∀ (q : QueueMem) (h x n : Nat) (xs ys : List Nat), IsQueue q h (xs ++ x :: ys) →
    n ∉ h :: (xs ++ x :: ys) →
      IsQueue (mpsQueueSplit q h x n) h xs ∧ IsQueue (mpsQueueSplit q h x n) n (x :: ys) ∧
        ∀ a, a ∉ n :: h :: (xs ++ x :: ys) → mpsQueueSplit q h x n a = q a
  add : ∀ (q : QueueMem) (h n : Nat) (xs ys : List Nat), IsQueue q h xs → IsQueue q n ys →
    (h :: xs).Disjoint (n :: ys) →
      IsQueue (mpsQueueAdd q h n) h (xs ++ ys) ∧
        ∀ a, a ∉ h :: xs ++ n :: ys → mpsQueueAdd q h n a = q a
  splitAdd : ∀ (q : QueueMem) (h x n : Nat) (xs ys : List Nat), IsQueue q h (xs ++ x :: ys) →
    n ∉ h :: (xs ++ x :: ys) →
      IsQueue (mpsQueueAdd (mpsQueueSplit q h x n) h n) h (xs ++ x :: ys) ∧
        ∀ a, a ≠ n → mpsQueueAdd (mpsQueueSplit q h x n) h n a = q a
  mirror : ∀ (q : QueueMem) (h : Nat) (xs : List Nat), IsQueue q h xs →
    ∀ a ∈ h :: xs, (q (q a).next).prev = a ∧ (q (q a).prev).next = a

/-- **The queue macros implement sequences**, for queues of every length and every place to
cut, and what they leave is a queue again: all its links go both ways. -/
theorem queue_macros : QueueMacros where
  insertHead := fun _ _ _ _ hq hx => ⟨hq.insertHead hx, fun _ ha => hq.insertHead_frame ha⟩
  insertTail := fun _ _ _ _ hq hx => ⟨hq.insertTail hx, fun _ ha => hq.insertTail_frame ha⟩
  remove := fun _ _ _ _ _ hq => ⟨hq.remove, fun _ ha => hq.remove_frame ha⟩
  removeDebug := fun _ _ _ _ _ hq => ⟨hq.removeDebug, fun _ ha => hq.removeDebug_frame ha⟩
  split := fun _ _ _ _ _ _ hq hn =>
    ⟨(hq.split hn).1, (hq.split hn).2, fun _ ha => hq.split_frame (fun he => hn (by simp [he])) ha⟩
  add := fun _ _ _ _ _ hq hs hd => ⟨hq.add hs hd, fun _ ha => hq.add_frame hs ha⟩
  splitAdd := fun _ _ _ _ _ _ hq hn =>
    ⟨hq.frame fun _ ha => hq.split_add hn fun he => hn (he ▸ ha), fun _ ha => hq.split_add hn ha⟩
  mirror := fun _ _ _ hq _ ha => hq.mirror ha

end MpsShdict
