import MpsShdict.ShdictRecency

/-! # No call loses an entry of another key

What a call takes away from others without force has expired.

So a caller that is not told `*forcible` has not lost an entry of another key that was
still live, on whatever path the call has returned: found or not, with an error or
without. The result is a short consequence of the way in which every event takes the
entries of others by recency.
-/
namespace MpsShdict

open RedBlack RedBlack.RbTree
open Words

/-- What a call has written to `*forcible`, or false if it does not have such an argument. -/
def Answer.forcible : Answer → Bool
  | .store r => r.forcible
  | .incr r => r.forcible
  | _ => false

/-- The entry `e` is stored: it is in the LRU queue, with its fields and its elements, and
its node is in the tree. -/
def Shdict.Stores (d : Shdict) (e : Entry) : Prop :=
  e ∈ d.entries ∧ ∃ t, RbRep d.rbtree t ∧ e.off ∈ t.inorder

section Stores
variable {s : Nat} {ord : Prop} {d d' : Shdict} {e : Entry} {L : List Entry} {spare : List Block}
  {x : Event} {xs : List Event} {t : Nat} {key : Bytes}

/-- The entries that a pool spells out are stored. -/
theorem Rep.stores (h : Rep (mpsSlabSizesInit (2 ^ s)) s ord d L spare)
    (he : e ∈ L) : d.Stores e := by
  obtain ⟨tree, hr, hperm, -⟩ := h.shape.hung.tree
  refine ⟨?_, tree, hr, ?_⟩
  · rw [h.entries_eq]
    exact he
  · exact hperm.mem_iff.mpr (List.mem_map.mpr ⟨e, he, rfl⟩)

/-- A call that is not said to have used force has used none. -/
theorem Answer.rounds_of_forcible {r : Answer} (h : r.forcible = false) : r.rounds = 0 := by
  cases r with
  | store r =>
    simp only [Answer.forcible, StoreResult.forcible, decide_eq_false_iff_not] at h
    exact Nat.eq_zero_of_not_pos h
  | incr r =>
    simp only [Answer.forcible, IncrResult.forcible, decide_eq_false_iff_not] at h
    exact Nat.eq_zero_of_not_pos h
  | get | list | code => rfl

/-- What a call on a key leaves of the entries of others. What has gone are the entries of
the rounds, and some that were not live when the call began. -/
theorem EvictsOldest.strangers_eq {L' : List Entry} (h : EvictsOldest xs x L L')
    (hkey : x.call.key = some key) :
    ∃ (R : List Entry) (gs : List (List Entry)),
      strangers (some key) L = strangers (some key) L' ++ gs.reverse.flatten ++ R ∧
      (∀ y ∈ R, ¬ y.Live (x.env.clock 1)) ∧ gs.length = x.answer.rounds := by
  obtain ⟨R, gs, hL, -, hR, hgs, -⟩ := h.rounds
  have hmarks : x.call.marks = id := by
    cases hcall : x.call with
    | flushAll =>
      rw [hcall] at hkey
      cases hkey
    | store | get | incr | push | pop | llen | getTtl | setExpire => rfl
  have hrounds : x.rounds = x.answer.rounds := by
    unfold Event.rounds
    cases hcall : x.call with
    | flushAll =>
      rw [hcall] at hkey
      cases hkey
    | store | get | incr | push | pop | llen | getTtl | setExpire => rfl
  rw [hkey, hmarks, List.map_id] at hL
  exact ⟨R, gs, hL, hR, hgs.trans hrounds⟩

theorem mem_strangers {key : Bytes} : e ∈ strangers (some key) L ↔ e ∈ L ∧ e.key ≠ key := by
  rw [strangers, List.mem_filter, decide_eq_true_eq, ne_eq, Option.some.injEq, ne_comm]

/-- **Entries of others that are live stay**, unless they are evicted by force. With no
round of eviction, all that is gone was not live. -/
theorem EvictsOldest.keeps {L' : List Entry} (h : EvictsOldest xs x L L')
    (hkey : x.call.key = some key) (hr : x.answer.rounds = 0) (he : e ∈ L) (hne : e.key ≠ key)
    (hlive : e.Live (x.env.clock 1)) :
    e ∈ L' := by
  obtain ⟨R, gs, hL, hR, hgs⟩ := h.strangers_eq hkey
  obtain rfl : gs = [] := List.length_eq_zero_iff.mp (hgs.trans hr)
  have hm : e ∈ strangers (some key) L := mem_strangers.mpr ⟨he, hne⟩
  rw [hL] at hm
  simp only [List.reverse_nil, List.flatten_nil, List.append_nil] at hm
  rcases List.mem_append.mp hm with hm | hm
  · exact (mem_strangers.mp hm).1
  · exact absurd hlive (hR e hm)

/-- Entries of others are as they were. A call on a key writes to the entry of that key
only. -/
theorem EvictsOldest.same {L' : List Entry} (h : EvictsOldest xs x L L')
    (hkey : x.call.key = some key) (he : e ∈ L') (hne : e.key ≠ key) : e ∈ L := by
  obtain ⟨R, gs, hL, -⟩ := h.strangers_eq hkey
  have hm : e ∈ strangers (some key) L := by
    rw [hL, List.append_assoc]
    exact List.mem_append_left _ (mem_strangers.mpr ⟨he, hne⟩)
  exact (mem_strangers.mp hm).1

/-- **No silent loss.**  In every run whose clock does not run backwards, a call on a key
at the time `t` that does not leave `*forcible` set keeps every entry of another key that
is live at `t`, whatever it answers. -/
theorem no_silent_loss (hs : 12 ≤ s) (hs' : s ≤ 16) (run : Run s xs d) (hx : x.Runs s d d')
    (hclock : Nondecreasing (x :: xs)) (ht : ∀ i, x.env.clock i = t) (hkey : x.call.key = some key)
    (hforce : x.answer.forcible = false) :
    ∀ e ∈ d.entries, e.key ≠ key → e.Live t → d'.Stores e := by
  intro e he hne hlive
  obtain ⟨L, spare, hrep, hinv⟩ := run.recency hs hs'
  obtain ⟨c, hc, hrep', -, hanswer⟩ := hx.entries hrep False.elim
  rw [hrep.entries_eq] at he
  have hold := hinv.evictsOldest hclock hrep.laid.off_nodup hc hanswer
  refine hrep'.stores (hold.keeps hkey (Answer.rounds_of_forcible hforce) he hne ?_)
  rw [ht]
  exact hlive

end Stores

/-- Two strings are stored, and a lookup of the first one keeps the second, which is the
entry of another key. -/
theorem no_silent_loss_two :
    (lookupEvent.after 12 twoDict).Stores ⟨4352, [67], 0, 0, .plain .tstring [68]⟩ := by
  have hx : lookupEvent.Runs 12 twoDict (lookupEvent.after 12 twoDict) :=
    Event.runs_after (by decide) ⟨by decide, by decide⟩ rfl
  refine no_silent_loss (by decide) (by decide) run_twoDict hx ⟨?_, ?_, ?_⟩ (fun _ => rfl) rfl rfl
    ⟨4352, [67], 0, 0, .plain .tstring [68]⟩ (by decide +kernel) (by decide) (.inl rfl)
  · simp [lookupEvent, storeEvent, calmEnv]
  · simp [lookupEvent, storeEvent, calmEnv, monotone_const]
  · simp [lookupEvent, storeEvent, calmEnv]

end MpsShdict
