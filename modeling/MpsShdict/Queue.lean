import MpsShdict.Lib.Links
import Mathlib.Logic.Function.Basic

/-! # The offset-linked queue (`mps_queue.h`)

A queue cell stores the offsets of its two neighbours in the pool. The macros of the
header rewrite the links of the cells they are given and of the neighbours they find
there; each is the same sequence of assignments here, later ones reading what earlier ones
wrote. `mps_queue_remove` is the one of a build without `NGX_DEBUG`: the links of the cell
taken out stay as they were.

The links are a function from offsets to cells, so a macro is a function from links to
links. What it does is said with `IsQueue q h xs`: the cells `xs` hang on the header `h`
in this order, both ways. Each macro turns a queue with one sequence into a queue with
another, and leaves alone every cell that is not one of the two queues or next to the cell
it moves. Two queues in one pool are therefore independent as long as they have no cell in
common, which is how the dictionary uses them: one queue for the order of recency, and one
for every stored list.
-/
namespace MpsShdict

/-- `mps_queue_t`: the offsets of the neighbours. A cell is a field of a node or of a list
element, and its offset identifies it. -/
structure Queue where
  prev : Nat
  next : Nat

/-- The queue cells of the pool, by offset. Offsets at which there is no cell have some
value too; nothing reads it. -/
abbrev QueueMem := Nat → Queue

namespace QueueMem
variable (q : QueueMem)

/-- `(x)->prev = v`. -/
def setPrev (x v : Nat) : QueueMem := Function.update q x { q x with prev := v }

/-- `(x)->next = v`. -/
def setNext (x v : Nat) : QueueMem := Function.update q x { q x with next := v }

@[simp] theorem setPrev_prev (x v a : Nat) :
    (q.setPrev x v a).prev = if a = x then v else (q a).prev := by
  by_cases h : a = x <;> simp [setPrev, Function.update, h]

@[simp] theorem setPrev_next (x v a : Nat) : (q.setPrev x v a).next = (q a).next := by
  by_cases h : a = x <;> simp [setPrev, Function.update, h]

@[simp] theorem setNext_next (x v a : Nat) :
    (q.setNext x v a).next = if a = x then v else (q a).next := by
  by_cases h : a = x <;> simp [setNext, Function.update, h]

@[simp] theorem setNext_prev (x v a : Nat) : (q.setNext x v a).prev = (q a).prev := by
  by_cases h : a = x <;> simp [setNext, Function.update, h]

variable {q} {x a : Nat}

theorem setPrev_ne (v : Nat) (h : a ≠ x) : q.setPrev x v a = q a := by simp [setPrev, h]

theorem setNext_ne (v : Nat) (h : a ≠ x) : q.setNext x v a = q a := by simp [setNext, h]

end QueueMem

/-- `mps_queue_init`: a header that is its own neighbour on both sides, which is the empty
queue. -/
def mpsQueueInit (q : QueueMem) (h : Nat) : QueueMem :=
  (q.setPrev h h).setNext h h

/-- `mps_queue_empty`: the header is its own predecessor. -/
def mpsQueueEmpty (q : QueueMem) (h : Nat) : Bool := h == (q h).prev

/-- `mps_queue_insert_head`: the cell goes between the header and the first cell. The last
two assignments write the old first cell, which is the header itself when the queue is
empty. -/
def mpsQueueInsertHead (q : QueueMem) (h x : Nat) : QueueMem :=
  let q := q.setNext x (q h).next
  let xNext := (q x).next
  let q := q.setPrev xNext x
  let q := q.setPrev x h
  q.setNext h x

/-- `mps_queue_insert_tail`: the cell goes between the last cell and the header. -/
def mpsQueueInsertTail (q : QueueMem) (h x : Nat) : QueueMem :=
  let q := q.setPrev x (q h).prev
  let xPrev := (q x).prev
  let q := q.setNext xPrev x
  let q := q.setNext x h
  q.setPrev h x

/-- `mps_queue_head`. -/
def mpsQueueHead (q : QueueMem) (h : Nat) : Nat := (q h).next

/-- `mps_queue_last`. -/
def mpsQueueLast (q : QueueMem) (h : Nat) : Nat := (q h).prev

/-- `mps_queue_next`. -/
def mpsQueueNext (q : QueueMem) (x : Nat) : Nat := (q x).next

/-- `mps_queue_remove`: the neighbours are linked past the cell. Its own links are still
those to them, and code that walks a list while it frees the cells depends on that. -/
def mpsQueueRemove (q : QueueMem) (x : Nat) : QueueMem :=
  let xNext := (q x).next
  let q := q.setPrev xNext (q x).prev
  let xPrev := (q x).prev
  q.setNext xPrev (q x).next

/-! ## Queues hold sequences -/

/-- The cells `xs` are queued on `h`: the links form a ring of the header and the cells in
this order, with every back link in place. -/
def IsQueue (q : QueueMem) (h : Nat) (xs : List Nat) : Prop :=
  Links.Ring (fun _ => True) (fun a => (q a).next) (fun a => (q a).prev) h xs

namespace IsQueue
variable {q q' : QueueMem} {h x : Nat} {xs ys : List Nat}

theorem nodup (hq : IsQueue q h xs) : (h :: xs).Nodup := Links.Ring.nodup hq

/-- Only the cells of a queue matter to it. So a change anywhere else in the pool leaves
it the same queue. -/
theorem frame (hq : IsQueue q h xs) (hm : ∀ a ∈ h :: xs, q' a = q a) : IsQueue q' h xs :=
  Links.Ring.frame hq (fun a ha => by simp [hm a ha]) (fun b hb _ => by simp [hm b hb])

theorem init : IsQueue (mpsQueueInit q h) h [] :=
  Links.ring_nil (by simp [mpsQueueInit]) (by simp [mpsQueueInit])

theorem empty_iff (hq : IsQueue q h xs) : mpsQueueEmpty q h = true ↔ xs = [] := by
  have hl := Links.Ring.last hq trivial
  simp only [mpsQueueEmpty, beq_iff_eq, hl]
  cases xs with
  | nil => simp
  | cons y ys =>
    simp only [reduceCtorEq, iff_false, List.getLast_cons_cons]
    exact fun he => (List.nodup_cons.mp hq.nodup).1 (he ▸ List.getLast_mem (by simp))

theorem head (hq : IsQueue q h (x :: xs)) : mpsQueueHead q h = x := Links.Ring.head hq

theorem last (hq : IsQueue q h (xs ++ [x])) : mpsQueueLast q h = x := by
  exact (Links.Ring.last hq trivial).trans (by simp)

theorem head_nil (hq : IsQueue q h []) : mpsQueueHead q h = h :=
  (Links.Ring.nil_iff hq).mpr rfl

theorem next (hq : IsQueue q h (xs ++ x :: ys)) : mpsQueueNext q x = ys.head?.getD h :=
  Links.Ring.next_eq hq

theorem prev (hq : IsQueue q h (xs ++ x :: ys)) :
    (q x).prev = (h :: xs).getLast (by simp) :=
  Links.Ring.prev_eq hq trivial

/-! ### The macros on sequences -/

/-- A cell is queued once, and it is not the header. Without that a removal would leave it
queued elsewhere. -/
theorem notMem (hq : IsQueue q h (xs ++ x :: ys)) : x ∉ h :: (xs ++ ys) := by
  have hp : (h :: (xs ++ x :: ys)).Perm (x :: h :: (xs ++ ys)) :=
    (List.perm_middle.cons h).trans (List.Perm.swap x h _)
  exact (List.nodup_cons.mp (hp.nodup_iff.mp hq.nodup)).1

theorem remove (hq : IsQueue q h (xs ++ x :: ys)) :
    IsQueue (mpsQueueRemove q x) h (xs ++ ys) := by
  have hx := hq.notMem
  have hnx : (q x).next ≠ x := by
    rw [show (q x).next = ys.head?.getD h from hq.next]
    intro he
    apply hx
    cases ys <;> simp_all
  have hpv : (q x).prev ≠ x := by
    rw [hq.prev]
    intro he
    have hm := List.getLast_mem (l := h :: xs) (by simp)
    rw [he] at hm
    exact hx (by simp at hm ⊢; tauto)
  refine Links.Ring.remove hq trivial ?_ ?_ (fun a _ ha => ?_) (fun b _ hb _ => ?_)
  · simp [mpsQueueRemove, hnx.symm]
  · simp [mpsQueueRemove]
  · simp [mpsQueueRemove, hnx.symm, ha]
  · simp [mpsQueueRemove, hb]

theorem insertHead (hq : IsQueue q h xs) (hx : x ∉ h :: xs) :
    IsQueue (mpsQueueInsertHead q h x) h (x :: xs) := by
  have hxh : x ≠ h := fun he => hx (by simp [he])
  have hnx : (q h).next = xs.head?.getD h := by
    cases xs with
    | nil => exact hq.head_nil
    | cons y ys => exact hq.head
  have hnx' : xs.head?.getD h ≠ x := by
    intro he
    apply hx
    cases xs <;> simp_all
  refine Links.Ring.insert (show IsQueue q h ([] ++ xs) from hq) hx ?_
    (fun _ => ?_) ?_ (fun _ => ?_) ?_ ?_
  · simp [mpsQueueInsertHead]
  · simp [mpsQueueInsertHead]
  · simp [mpsQueueInsertHead, hxh, hnx]
  · simp [mpsQueueInsertHead, hnx, hnx']
  · intro a ha hne
    have hax : a ≠ x := fun he => hx (he ▸ ha)
    simp only [List.getLast_singleton] at hne
    simp [mpsQueueInsertHead, hne, hax]
  · intro b hb hne _
    have hbx : b ≠ x := fun he => hx (he ▸ hb)
    simp [mpsQueueInsertHead, hnx, hne, hbx]

theorem insertTail (hq : IsQueue q h xs) (hx : x ∉ h :: xs) :
    IsQueue (mpsQueueInsertTail q h x) h (xs ++ [x]) := by
  have hxh : x ≠ h := fun he => hx (by simp [he])
  have hpv : (q h).prev = (h :: xs).getLast (by simp) := Links.Ring.last hq trivial
  have hpv' : (h :: xs).getLast (by simp) ≠ x :=
    fun he => hx (he ▸ List.getLast_mem (by simp))
  refine Links.Ring.insert
    (show IsQueue q h (xs ++ []) by rwa [List.append_nil]) (by simpa using hx)
    ?_ (fun _ => ?_) ?_ (fun _ => ?_) ?_ ?_
  · simp [mpsQueueInsertTail, hpv, hpv']
  · simp [mpsQueueInsertTail, hxh, hpv]
  · simp [mpsQueueInsertTail]
  · simp [mpsQueueInsertTail]
  · intro a ha hne
    have hax : a ≠ x := fun he => hx (by rw [List.append_nil] at ha; exact he ▸ ha)
    simp [mpsQueueInsertTail, hpv, hne, hax]
  · intro b hb hne _
    have hbx : b ≠ x := fun he => hx (by rw [List.append_nil] at hb; exact he ▸ hb)
    have hbh : b ≠ h := hne
    simp [mpsQueueInsertTail, hbh, hbx]

end IsQueue

/-! ### What the macros leave alone -/

theorem mpsQueueInit_frame {q : QueueMem} {h a : Nat} (ha : a ≠ h) :
    mpsQueueInit q h a = q a := by
  simp only [mpsQueueInit, QueueMem.setNext_ne _ ha, QueueMem.setPrev_ne _ ha]

/-- No cell off the queue is written by a removal from it. -/
theorem IsQueue.remove_frame {q : QueueMem} {h x a : Nat} {xs ys : List Nat}
    (hq : IsQueue q h (xs ++ x :: ys)) (ha : a ∉ h :: (xs ++ ys)) :
    mpsQueueRemove q x a = q a := by
  have hn : (q x).next ∈ h :: (xs ++ ys) := by
    rw [show (q x).next = ys.head?.getD h from hq.next]
    cases ys <;> simp
  have hp : (q x).prev ∈ h :: (xs ++ ys) := by
    rw [hq.prev]
    have hm := List.getLast_mem (l := h :: xs) (by simp)
    simp only [List.mem_cons, List.mem_append] at hm ⊢
    tauto
  have h1 : a ≠ (q x).next := fun he => ha (he ▸ hn)
  have h2 : a ≠ (q.setPrev (q x).next (q x).prev x).prev := by
    rw [QueueMem.setPrev_prev]
    intro he
    split at he <;> exact ha (he ▸ hp)
  rw [mpsQueueRemove, QueueMem.setNext_ne _ h2, QueueMem.setPrev_ne _ h1]

/-- An insertion at the head writes the new cell, the header and the first cell. -/
theorem IsQueue.insertHead_frame {q : QueueMem} {h x a : Nat} {xs : List Nat}
    (hq : IsQueue q h xs) (ha : a ∉ h :: x :: xs) : mpsQueueInsertHead q h x a = q a := by
  have hn : (q h).next ∈ h :: xs := by
    cases xs with
    | nil => rw [show (q h).next = h from hq.head_nil]; simp
    | cons y ys => rw [show (q h).next = y from hq.head]; simp
  have h1 : a ≠ h := fun he => ha (by simp [he])
  have h2 : a ≠ x := fun he => ha (by simp [he])
  have h3 : a ≠ (q h).next := fun he => ha (by rw [he]; simp at hn ⊢; tauto)
  have h4 : a ≠ (q.setNext x (q h).next x).next := by simpa using h3
  rw [mpsQueueInsertHead, QueueMem.setNext_ne _ h1, QueueMem.setPrev_ne _ h2,
    QueueMem.setPrev_ne _ h4, QueueMem.setNext_ne _ h2]

/-- An insertion at the tail writes the new cell, the header and the last cell. -/
theorem IsQueue.insertTail_frame {q : QueueMem} {h x a : Nat} {xs : List Nat}
    (hq : IsQueue q h xs) (ha : a ∉ h :: x :: xs) : mpsQueueInsertTail q h x a = q a := by
  have hp : (q h).prev ∈ h :: xs := by
    rw [show (q h).prev = _ from Links.Ring.last hq trivial]
    exact List.getLast_mem (by simp)
  have h1 : a ≠ h := fun he => ha (by simp [he])
  have h2 : a ≠ x := fun he => ha (by simp [he])
  have h3 : a ≠ (q h).prev := fun he => ha (by rw [he]; simp at hp ⊢; tauto)
  have h4 : a ≠ (q.setPrev x (q h).prev x).prev := by simpa using h3
  rw [mpsQueueInsertTail, QueueMem.setPrev_ne _ h1, QueueMem.setNext_ne _ h2,
    QueueMem.setNext_ne _ h4, QueueMem.setPrev_ne _ h2]

end MpsShdict
