import MpsShdict.Lib.Recency
import MpsShdict.ShdictEffect

/-! # Eviction follows recency

The LRU queue has the entries in the order of their last touches, and what a call takes
away from others it takes from its end.

The order of a list by a history of touches is developed on its own, without any
dictionary; here the history is that of the calls. The invariant of a run adds that no
deadline is further in the future than a time to live can put it, since otherwise an entry
that is live would look expired to `mps_shdict_expire`, which compares by a signed
difference.
-/
namespace MpsShdict

open Recency
open Words

/-! ### The entries of others -/

/-- The entries that are none of the call's own. A flush has no entry of its own, so all
of them are strangers to it. -/
def strangers (key : Option Bytes) (L : List Entry) : List Entry :=
  L.filter fun e => key ≠ some e.key

section Strangers
variable {env : Env} {key : Bytes} {exptime : Int} {sd : Option Nat} {rounds : Nat} {takes : Bool}
  {L L' K M : List Entry} {e : Entry} {k : Option Bytes}

theorem strangers_append : strangers k (K ++ L) = strangers k K ++ strangers k L :=
  List.filter_append ..

theorem strangers_sublist (k : Option Bytes) (L : List Entry) : (strangers k L).Sublist L :=
  List.filter_sublist

theorem strangers_cons_own (h : e.key = key) :
    strangers (some key) (e :: L) = strangers (some key) L := by
  rw [strangers, List.filter_cons_of_neg (by simp [h]), strangers]

/-- The own entry of a call is not one of the others. -/
theorem strangers_others {found : Option Entry} (h : ∀ e, found = some e → e ∈ M ∧ e.key = key) :
    strangers (some key) (others found M) = strangers (some key) M := by
  cases found with
  | none => rfl
  | some e =>
    obtain ⟨he, hk⟩ := h e rfl
    obtain ⟨A, B, hA, rfl, hB⟩ := List.exists_erase_eq he
    rw [others, hB, strangers_append, strangers_append, strangers_cons_own hk]

/-- A round takes no more of some of the entries than of all, and no more of those that
are kept. -/
theorem RoundOk.filter {now : Nat} {g : List Entry} (h : RoundOk now g) (p : Entry → Bool) :
    RoundOk now (g.filter p) := by
  refine ⟨(List.length_filter_le _ _).trans h.length_le, ?_⟩
  rw [List.filter_filter]
  refine Nat.le_trans ?_ h.live_le
  rw [← List.countP_eq_length_filter, ← List.countP_eq_length_filter]
  exact List.countP_mono_left fun x _ hx => by
    simp only [Bool.and_eq_true] at hx
    exact hx.1

/-- **The entries that others lose are taken from the end.** Those that have expired are
the last ones, before them come the rounds of eviction, the first round nearest to the
end, and what stays is where it was. -/
theorem Affects.fromEnd (h : Affects env key exptime sd rounds takes L L') :
    ∃ (R : List Entry) (gs : List (List Entry)),
      strangers (some key) L = strangers (some key) L' ++ gs.reverse.flatten ++ R ∧ R.length ≤ 2 ∧
      (∀ y ∈ R, expireKeeps y.expires (env.mpsClockTimeMs 1) = false) ∧ gs.length = rounds ∧
      ∀ i g, gs[i]? = some g → RoundOk (env.mpsClockTimeMs (3 + i)) g := by
  obtain ⟨M, R, rfl, hlen, hR, found, K, gs, h⟩ := h
  have hL' : strangers (some key) L' = strangers (some key) K := by
    rcases h.kept with rfl | ⟨e', rfl, -, hk, -⟩
    · rfl
    · exact strangers_cons_own hk
  refine ⟨strangers (some key) R, gs.map (strangers (some key)), ?_, ?_, ?_, ?_, ?_⟩
  · have hflat : (gs.map (strangers (some key))).reverse.flatten =
        strangers (some key) gs.reverse.flatten := by
      rw [strangers, List.filter_flatten, ← List.map_reverse]
      rfl
    rw [strangers_append, ← strangers_others h.own, h.evict, strangers_append, hL', hflat]
  · exact (List.length_filter_le _ _).trans hlen
  · exact fun y hy => hR y (List.mem_of_mem_filter hy)
  · rw [List.length_map, h.rounds]
  · intro i g hi
    rw [List.getElem?_map, Option.map_eq_some_iff] at hi
    obtain ⟨g', hg', rfl⟩ := hi
    exact (h.round i g' hg').filter _

/-- **The order of recency is kept**, the entry that is touched being the last one. If the
call leaves an entry at the head then this is the entry it has touched, and if it leaves
none then nothing that stays has been touched. -/
theorem Affects.recent {H : List (Option Nat)} (h : Affects env key exptime sd rounds takes L L')
    (hnd : (L'.map Entry.off).Nodup) (hord : Ordered H (L.map Entry.off)) :
    Ordered (sd :: H) (L'.map Entry.off) := by
  obtain ⟨M, R, rfl, -, -, found, K, gs, h⟩ := h
  have hothers : (others found M).Sublist M := by
    cases found with
    | none => exact .refl _
    | some e => exact List.erase_sublist
  have hK : K.Sublist (others found M) := h.evict ▸ List.sublist_append_left _ _
  have hM : Ordered H (M.map Entry.off) := hord.sublist ((List.sublist_append_left M R).map _)
  have hordK : Ordered H (K.map Entry.off) := hM.sublist ((hK.trans hothers).map _)
  rcases h.kept with rfl | ⟨e', rfl, rfl, -, -⟩
  · refine hordK.step ?_
    intro z hz hm
    obtain ⟨x, hx, rfl⟩ := List.mem_map.mp hm
    rcases h.touched with hn | ⟨e, rfl, he⟩ | ⟨e', hK', -⟩ | ⟨z, hz', hne⟩
    · rw [hn] at hz
      cases hz
    · obtain hoff : e.off = x.off := Option.some.inj (he.symm.trans hz)
      have hmem := (h.own e rfl).1
      obtain ⟨A, B, hA, rfl, hB⟩ := List.exists_erase_eq hmem
      have hnodup := hM.nodup
      rw [List.map_append, List.map_cons] at hnodup
      refine (List.nodup_middle.mp hnodup).notMem ?_
      rw [← List.map_append, ← hB]
      exact List.mem_map.mpr ⟨x, hK.subset hx, hoff.symm⟩
    · exact absurd (congrArg List.length hK') (by simp)
    · exact hne x hx (Option.some.inj (hz.symm.trans hz'))
  · rw [List.map_cons] at hnd ⊢
    exact hordK.touch (List.nodup_cons.mp hnd).1

end Strangers

/-! ### Clocks and deadlines -/

/-- The clock of a run does not run backwards, and stays below `2 ^ 62`. It may go on
within a call as well as from one call to the next. -/
structure Nondecreasing (xs : List Event) : Prop where
  below : ∀ x ∈ xs, ∀ i, x.env.clock i < 2 ^ 62
  within : ∀ x ∈ xs, Monotone x.env.clock
  across : xs.Pairwise fun later earlier => ∀ i j, earlier.env.clock i ≤ later.env.clock j

/-- The deadline is zero or in the future. This is plain arithmetic, without the signed
differences by which the source compares. -/
def Entry.Live (e : Entry) (t : Nat) : Prop := e.expires = 0 ∨ t < e.expires

instance (e : Entry) (t : Nat) : Decidable (e.Live t) := inferInstanceAs (Decidable (_ ∨ _))

/-- The deadlines are no further in the future than a time to live can put them, which is
less than `2 ^ 63` milliseconds. Then the signed difference tells whether they are over. -/
def DueBy (t : Nat) (L : List Entry) : Prop := ∀ e ∈ L, e.expires < t + 2 ^ 63

section Clocks
variable {env : Env} {key : Bytes} {exptime : Int} {sd : Option Nat} {rounds : Nat} {takes : Bool}
  {L L' : List Entry} {e : Entry} {t i : Nat}

theorem Env.mpsClockTimeMs_of_lt (h : env.clock i < 2 ^ 62) : env.mpsClockTimeMs i = env.clock i :=
  u64_of_lt (by omega)

/-- An entry that is live is kept. -/
theorem Entry.Live.keeps (h : e.Live t) (hdue : e.expires < t + 2 ^ 63) :
    expireKeeps e.expires t = true := by
  rcases h with h | h
  · simp [expireKeeps, h]
  · have hsub : int64 (sub64 e.expires t) = (e.expires : Int) - t :=
      int64_sub64 (by omega) (by omega)
    simp only [expireKeeps, hsub, Bool.or_eq_true, decide_eq_true_eq]
    omega

/-- Of the entries that a round takes no more than one is live. -/
theorem RoundOk.live {g : List Entry} (h : RoundOk t g) (hdue : DueBy t g) :
    (g.filter fun x => x.Live t).length ≤ 1 := by
  refine Nat.le_trans ?_ h.live_le
  rw [← List.countP_eq_length_filter, ← List.countP_eq_length_filter]
  refine List.countP_mono_left ?_
  intro x hx hl
  exact Entry.Live.keeps (of_decide_eq_true hl) (hdue x hx)

/-- A new deadline is no further in the future than a time to live. -/
theorem deadline_lt (hexp : exptime < 2 ^ 63) (ht : env.clock i ≤ t) :
    deadline (env.mpsClockTimeMs i) exptime < t + 2 ^ 63 := by
  unfold deadline
  split
  · next hpos =>
    have h1 : env.mpsClockTimeMs i ≤ env.clock i := Nat.mod_le _ _
    have h2 : ofInt64 exptime < 2 ^ 63 := by
      unfold ofInt64
      omega
    apply Nat.lt_of_le_of_lt (Nat.mod_le _ _)
    omega
  · omega

/-- The deadlines after a call. -/
theorem Affects.dueBy (h : Affects env key exptime sd rounds takes L L') (hexp : exptime < 2 ^ 63)
    (ht : ∀ i, env.clock i ≤ t) (hdue : DueBy t L) : DueBy t L' := by
  intro x hx
  rcases h.origin hx with hx | ⟨-, -, found, hf, hw⟩
  · exact hdue x hx
  · rcases hw.due with ⟨e, he, heq⟩ | heq | ⟨i, heq⟩
    · rw [heq]
      exact hdue e (hf e he).1
    · rw [heq]
      omega
    · rw [heq]
      exact deadline_lt hexp (ht i)

end Clocks

/-! ### Runs -/

/-- The entry that an event touches: every store, get, incr, push, pop and llen touches
the entry that it finds or creates, and the other calls leave the queue in the order it
has. -/
def Event.touched (x : Event) : Option Nat :=
  match x.call with
  | .getTtl _ | .setExpire _ _ | .flushAll => none
  | _ => x.sd

/-- The touches of a run. -/
def touches (xs : List Event) : List (Option Nat) := xs.map Event.touched

/-- What a call makes of the deadlines of all entries. A flush sets them to 1, and no
other call touches the deadline of a stranger. -/
def Call.marks : Call → Entry → Entry
  | .flushAll, e => { e with expires := 1 }
  | _, e => e

/-- The rounds of forced eviction of an event. The reclaim at the end of
`mps_shdict_flush_all` is one, since it frees the oldest entry whatever its deadline is. -/
def Event.rounds (x : Event) : Nat :=
  match x.call with
  | .flushAll => 1
  | _ => x.answer.rounds

/-- The time that the clock shows in a round. The readings of the clock in a call are
numbered: those from 3 on are made in the rounds of eviction, and a flush reclaims at the
reading 1. -/
def Event.roundTime (x : Event) (i : Nat) : Nat :=
  match x.call with
  | .flushAll => x.env.clock 1
  | _ => x.env.clock (3 + i)

/-- **An event takes the entries of others by recency**, from the entries `L` on which
`xs` has left the pool to the entries `L'`. -/
structure EvictsOldest (xs : List Event) (x : Event) (L L' : List Entry) : Prop where
  /-- Those that survive keep their order. -/
  survivors : ((strangers x.call.key L').map Entry.off).Sublist
    ((strangers x.call.key L).map Entry.off)
  /-- Those that do not were touched less recently than each of them. -/
  older : ∀ y ∈ strangers x.call.key L, y.off ∉ (strangers x.call.key L').map Entry.off →
    ∀ z ∈ strangers x.call.key L', ago (touches xs) z.off < ago (touches xs) y.off
  /-- Up to two that are not live are reclaimed, and one that is live may go in a round. -/
  rounds : ∃ (R : List Entry) (gs : List (List Entry)),
    (strangers x.call.key L).map x.call.marks =
      strangers x.call.key L' ++ gs.reverse.flatten ++ R ∧
    R.length ≤ 2 ∧ (∀ y ∈ R, ¬ y.Live (x.env.clock 1)) ∧ gs.length = x.rounds ∧
    ∀ i (g : List Entry), gs[i]? = some g →
      g.length ≤ 3 ∧ (g.filter fun y => y.Live (x.roundTime i)).length ≤ 1

section Runs
variable {s : Nat} {ord : Prop} {d d' : Shdict} {L L' : List Entry} {spare : List Block} {x : Event}
  {xs : List Event} {c : Choice}

/-- What holds of the entries of a run: they are in the order of their last touches, and
no deadline is further away than a time to live from the latest time that the run has
seen. -/
structure RecencyInv (xs : List Event) (L : List Entry) : Prop where
  ordered : Ordered (touches xs) (L.map Entry.off)
  due : ∀ t, (∀ x ∈ xs, ∀ i, x.env.clock i ≤ t) → DueBy t L

theorem Call.marks_off (call : Call) (e : Entry) : (call.marks e).off = e.off := by
  cases call <;> rfl

theorem Call.Ok.exptime {call : Call} (h : call.Ok) : call.exptime < 2 ^ 63 := by
  cases call with
  | store op a => exact h.2
  | incr a => exact h.2
  | setExpire k t => exact h.2
  | get | push | pop | llen | getTtl | flushAll => exact Int.pow_pos (by decide)

theorem setExpireEntries_off (env : Env) (exptime : Int) (c : Choice) (L : List Entry) :
    (setExpireEntries env exptime c L).entries.map Entry.off = L.map Entry.off := by
  unfold setExpireEntries
  split
  · rfl
  · next e _ =>
    rw [setExpires, List.map_map]
    refine List.map_congr_left ?_
    intro x _
    simp only [Function.comp]
    split <;> rfl

theorem setExpireEntries_dueBy {env : Env} {exptime : Int} {t : Nat} (hexp : exptime < 2 ^ 63)
    (ht : ∀ i, env.clock i ≤ t) (h : DueBy t L) :
    DueBy t (setExpireEntries env exptime c L).entries := by
  unfold setExpireEntries
  split
  · exact h
  · next e _ =>
    intro x hx
    obtain ⟨y, hy, rfl⟩ := List.mem_map.mp hx
    split
    · exact deadline_lt hexp (ht 0)
    · exact h y hy

/-- Others do not see a deadline that is set. -/
theorem setExpireEntries_strangers (env : Env) (exptime : Int) {key : Bytes}
    (hnd : (L.map Entry.off).Nodup)
    (hf : ∀ e, c.found = some e → e ∈ L ∧ e.key = key) :
    strangers (some key) (setExpireEntries env exptime c L).entries = strangers (some key) L := by
  unfold setExpireEntries
  split
  · rfl
  · next e he =>
    obtain ⟨hm, hk⟩ := hf e he
    have hinj : ∀ x ∈ L, x.off = e.off → x = e := fun x hx hoff =>
      List.inj_on_of_nodup_map hnd hx hm hoff
    unfold strangers setExpires
    rw [List.filter_map]
    have hkey : ∀ x, ((fun e : Entry => decide (some key ≠ some e.key)) ∘ fun x =>
        if x.off = e.off then { x with expires := deadline (env.mpsClockTimeMs 0) exptime }
        else x) x =
        decide (some key ≠ some x.key) := by
      intro x
      simp only [Function.comp]
      split <;> rfl
    rw [List.filter_congr fun x _ => hkey x]
    refine (List.map_congr_left (g := id) ?_).trans (List.map_id _)
    intro x hx
    obtain ⟨hxL, hne⟩ := List.mem_filter.mp hx
    rw [if_neg]
    · rfl
    · intro hoff
      obtain rfl := hinj x hxL hoff
      simp [hk] at hne

theorem flushEntries_split (env : Env) (L : List Entry) :
    ∃ g, L.map Call.flushAll.marks = (flushEntries env L).entries ++ g ∧
      RoundOk (env.mpsClockTimeMs 1) g :=
  expireEntries_forced (env.mpsClockTimeMs 1) (L.map Call.flushAll.marks)

/-- **One event keeps the order of recency.** -/
theorem RecencyInv.step (h : RecencyInv xs L) (hok : x.call.Ok) (hc : x.call.Picks ord x.env L c)
    (hsd : x.sd = (x.call.entries x.env c L).sd)
    (hnd : ((x.call.entries x.env c L).entries.map Entry.off).Nodup) :
    RecencyInv (x :: xs) (x.call.entries x.env c L).entries := by
  have hpast : ∀ t, (∀ y ∈ x :: xs, ∀ i, y.env.clock i ≤ t) → DueBy t L := fun t ht =>
    h.due t fun y hy => ht y (List.mem_cons_of_mem _ hy)
  have hnow : ∀ t, (∀ y ∈ x :: xs, ∀ i, y.env.clock i ≤ t) → ∀ i, x.env.clock i ≤ t := fun t ht =>
    ht x List.mem_cons_self
  have hnone : ∀ M, M.Sublist (L.map Entry.off) → Ordered (none :: touches xs) M := fun M hM =>
    (h.ordered.sublist hM).step (by simp)
  -- the two calls that touch nothing, then all those on a key
  cases hcall : x.call with
  | setExpire k t =>
    rw [hcall] at hok
    have htouch : x.touched = none := by simp only [Event.touched, hcall]
    refine ⟨?_, fun u hu => setExpireEntries_dueBy hok.2 (hnow u hu) (hpast u hu)⟩
    rw [touches, List.map_cons, htouch]
    apply hnone _
    exact setExpireEntries_off x.env t c L ▸ .refl _
  | flushAll =>
    have htouch : x.touched = none := by simp only [Event.touched, hcall]
    obtain ⟨g, hL, -⟩ := flushEntries_split x.env L
    have hoffs : L.map Entry.off =
        (flushEntries x.env L).entries.map Entry.off ++ g.map Entry.off := by
      rw [← List.map_append, ← hL, List.map_map]
      rfl
    constructor
    · rw [touches, List.map_cons, htouch]
      apply hnone _
      rw [hoffs]
      exact List.sublist_append_left _ _
    · intro u hu y hy
      have hy' : y ∈ L.map Call.flushAll.marks := hL ▸ List.mem_append_left _ hy
      obtain ⟨z, -, rfl⟩ := List.mem_map.mp hy'
      show 1 < u + 2 ^ 63
      omega
  | store | get | incr | push | pop | llen | getTtl =>
    obtain ⟨key, hkey⟩ : ∃ key, x.call.key = some key := by
      rw [hcall]
      exact ⟨_, rfl⟩
    have haff := Call.affects hkey (fun k t h => by rw [hcall] at h; cases h) hc
    have htouch : x.touched = (x.call.entries x.env c L).sd := by
      simp only [Event.touched, hcall, hsd, Call.entries]
    rw [← hcall]
    refine ⟨?_, fun u hu => haff.dueBy hok.exptime (hnow u hu) (hpast u hu)⟩
    rw [touches, List.map_cons, htouch]
    exact haff.recent hnd h.ordered

/-- What is lost at the end of a list was touched less recently than what stays. The
entries before and after the call are compared by their offsets, since a flush changes
their deadlines. -/
theorem RecencyInv.evicts (h : RecencyInv xs L) {B R : List Entry} (gs : List (List Entry))
    (hB : (strangers x.call.key L).map x.call.marks = strangers x.call.key L' ++ B)
    (hgs : B = gs.reverse.flatten ++ R) (hlen : R.length ≤ 2)
    (hR : ∀ y ∈ R, ¬ y.Live (x.env.clock 1)) (hrounds : gs.length = x.rounds)
    (hround : ∀ i (g : List Entry), gs[i]? = some g →
      g.length ≤ 3 ∧ (g.filter fun y => y.Live (x.roundTime i)).length ≤ 1) :
    EvictsOldest xs x L L' := by
  have hoffs : (strangers x.call.key L).map Entry.off =
      (strangers x.call.key L').map Entry.off ++ B.map Entry.off := by
    rw [← List.map_append, ← hB, List.map_map]
    exact List.map_congr_left fun e _ => (x.call.marks_off e).symm
  have hord : Ordered (touches xs) ((strangers x.call.key L).map Entry.off) :=
    h.ordered.sublist ((strangers_sublist _ L).map _)
  rw [hoffs] at hord
  refine ⟨?_, ?_, R, gs, ?_, hlen, hR, hrounds, hround⟩
  · rw [hoffs]
    exact List.sublist_append_left _ _
  · intro y hy hgone z hz
    have hm : y.off ∈ (strangers x.call.key L).map Entry.off := List.mem_map.mpr ⟨y, hy, rfl⟩
    rw [hoffs] at hm
    exact hord.stale (List.mem_map.mpr ⟨z, hz, rfl⟩) ((List.mem_append.mp hm).resolve_left hgone)
  · rw [hB, hgs, List.append_assoc]

/-- The deadlines of a run, as an event that follows sees them. -/
theorem RecencyInv.dueBy (h : RecencyInv xs L) (hclock : Nondecreasing (x :: xs)) (i : Nat) :
    DueBy (x.env.clock i) L :=
  h.due _ fun y hy j => (List.pairwise_cons.mp hclock.across).1 y hy j i

/-- **One event takes the entries of others by recency.** The step of a run, for every
kind of call: the calls on a key by `Affects.fromEnd`, the call that sets a deadline and
the flush each by itself. -/
theorem RecencyInv.evictsOldest (h : RecencyInv xs L) (hclock : Nondecreasing (x :: xs))
    (hnd : (L.map Entry.off).Nodup) (hc : x.call.Picks ord x.env L c)
    (hanswer : x.answer = (x.call.entries x.env c L).result) :
    EvictsOldest xs x L (x.call.entries x.env c L).entries := by
  have htime : ∀ i, x.env.mpsClockTimeMs i = x.env.clock i := fun i =>
    Env.mpsClockTimeMs_of_lt (hclock.below x List.mem_cons_self i)
  have hsub : ∀ {g : List Entry} {t : Nat}, g ⊆ L → DueBy t L → DueBy t g := fun hg hdue y hy =>
    hdue y (hg hy)
  -- `mps_shdict_set_expire` moves nothing, `mps_shdict_flush_all` has no key of its own
  cases hcall : x.call with
  | setExpire k t =>
    rw [hcall] at hc
    have hstr := setExpireEntries_strangers x.env t hnd (hc.finds k rfl).sound
    rw [← hcall]
    refine h.evicts (B := []) (R := []) [] ?_ (by simp) (by simp) (by simp) ?_ (by simp)
    · simp only [hcall, Call.key, Call.entries, Outcome.map, hstr, List.append_nil]
      exact List.map_id _
    · rw [Event.rounds, hcall]
      simp only [hanswer, hcall, Call.entries, Outcome.map]
      rfl
  | flushAll =>
    obtain ⟨g, hL, hg⟩ := flushEntries_split x.env L
    have hstr : ∀ M : List Entry, strangers none M = M := fun M =>
      List.filter_eq_self.mpr (by simp)
    have hdue : DueBy (x.env.clock 1) g := by
      intro y hy
      have hy' : y ∈ L.map Call.flushAll.marks := hL ▸ List.mem_append_right _ hy
      obtain ⟨z, -, rfl⟩ := List.mem_map.mp hy'
      show 1 < _ + 2 ^ 63
      omega
    rw [htime] at hg
    rw [← hcall]
    refine h.evicts (B := g) (R := []) [g] ?_ (by simp) (by simp) (by simp) ?_ ?_
    · simp only [hcall, Call.key, hstr]
      exact hL
    · rw [Event.rounds, hcall]
      rfl
    · intro i g' hi
      have hgg : g' = g := by
        cases i with
        | zero => exact (Option.some.inj hi).symm
        | succ i => simp at hi
      rw [hgg, Event.roundTime, hcall]
      exact ⟨hg.length_le, hg.live hdue⟩
  | store | get | incr | push | pop | llen | getTtl =>
    obtain ⟨key, hkey⟩ : ∃ key, x.call.key = some key := by
      rw [hcall]
      exact ⟨_, rfl⟩
    have haff := Call.affects hkey (fun k t h => by rw [hcall] at h; cases h) hc
    obtain ⟨R, gs, hL, hlen, hR, hrounds, hround⟩ := haff.fromEnd
    have hmem : ∀ y ∈ gs.reverse.flatten ++ R, y ∈ L := by
      intro y hy
      refine (strangers_sublist (some key) L).subset ?_
      rw [hL, List.append_assoc]
      exact List.mem_append_right _ hy
    rw [← hcall]
    refine h.evicts (B := gs.reverse.flatten ++ R) (R := R) gs ?_ rfl hlen ?_ ?_ ?_
    · rw [hkey, hL, List.append_assoc]
      have hid : ∀ M : List Entry, M.map x.call.marks = M := by
        intro M
        simp only [hcall]
        exact List.map_id _
      exact hid _
    · intro y hy hl
      have hkeeps := hl.keeps (h.dueBy hclock 1 y (hmem y (List.mem_append_right _ hy)))
      rw [← htime] at hkeeps
      exact Bool.false_ne_true ((hR y hy).symm.trans hkeeps)
    · rw [hrounds, ← hanswer]
      simp only [Event.rounds, hcall]
    · intro i g hi
      have hg := hround i g hi
      rw [htime] at hg
      have hrt : x.roundTime i = x.env.clock (3 + i) := by simp only [Event.roundTime, hcall]
      rw [hrt]
      refine ⟨hg.length_le, hg.live (hsub ?_ (h.dueBy hclock (3 + i)))⟩
      intro y hy
      refine hmem y (List.mem_append_left _ ?_)
      exact List.mem_flatten.mpr ⟨g, List.mem_reverse.mpr (List.mem_of_getElem? hi), hy⟩

/-- The entries of a run are in the order of recency. By induction on the run, one event
being one more touch. -/
theorem Run.recency (hs : 12 ≤ s) (hs' : s ≤ 16) (run : Run s xs d) :
    ∃ L spare, Rep (mpsSlabSizesInit (2 ^ s)) s False d L spare ∧ RecencyInv xs L := by
  induction run with
  | init h => exact ⟨[], [], h.rep hs hs', ⟨.nil, fun t _ => by simp [DueBy]⟩⟩
  | call run hx ih =>
    obtain ⟨L, spare, hrep, hinv⟩ := ih
    obtain ⟨c, hc, hrep', hsd, -⟩ := hx.entries hrep False.elim
    exact ⟨_, _, hrep', hinv.step hx.2.1 hc hsd hrep'.laid.off_nodup⟩

/-- **Eviction follows recency.**  In every run the LRU queue has the entries in the order of
their last touches, and every call that may follow returns and, unless the clock runs
backwards, takes the entries of others from its end. -/
theorem evicts_oldest (hs : 12 ≤ s) (hs' : s ≤ 16) (run : Run s xs d) :
    Ordered (touches xs) (d.entries.map Entry.off) ∧
      (∀ base env (call : Call), 2 ^ s ∣ base → call.Ok →
        (call.run (mpsSlabSizesInit (2 ^ s)) base env d).isSome) ∧
      ∀ x d', x.Runs s d d' → Nondecreasing (x :: xs) → EvictsOldest xs x d.entries d'.entries := by
  obtain ⟨L, spare, hrep, hinv⟩ := run.recency hs hs'
  rw [hrep.entries_eq]
  refine ⟨hinv.ordered, ?_, ?_⟩
  · intro base env call hbase hok
    obtain ⟨c, -, d', hrun, -⟩ := Call.run_spec env hok hrep False.elim
    exact Option.isSome_iff_exists.mpr ⟨_, hrun base hbase⟩
  · intro x d' hx hclock
    obtain ⟨c, hc, hrep', -, hanswer⟩ := hx.entries hrep False.elim
    rw [hrep'.entries_eq]
    exact hinv.evictsOldest hclock hrep.laid.off_nodup hc hanswer

end Runs

/-- The string that was stored first is looked up. -/
def lookupEvent : Event :=
  ⟨0, calmEnv 7, .get [65] 10 false, some 4224,
    .get ⟨ngxOk, some .tstring, some [66], some 1, none, some 0, none, none⟩⟩

/-- A string that takes a page of its own is stored. In a pool of four pages, one of which
the tree has, a fourth such string needs room that only force can give. -/
def pageEvent (t : Nat) (key : Bytes) (node rounds : Nat) : Event :=
  ⟨0, calmEnv t, .set (stringArgs key (List.replicate 2500 0)), some node,
    .store ⟨ngxOk, none, rounds⟩⟩

theorem pageEvent_clock (t : Nat) (key : Bytes) (node rounds i : Nat) :
    (pageEvent t key node rounds).env.clock i = t := rfl

/-- The three free pages are taken. -/
def pageDict : Shdict :=
  (pageEvent 7 [67] 16384 0).after 12 ((pageEvent 6 [66] 12288 0).after 12
    ((pageEvent 5 [65] 8192 0).after 12 emptyDict))

theorem pageEvent_runs {t node rounds : Nat} {key : Bytes} {d : Shdict} (hk : KeyOk key)
    (h : ((pageEvent t key node rounds).call.run (mpsSlabSizesInit (2 ^ 12)) 0 (calmEnv t) d).map
      Prod.snd = some (some node, .store ⟨ngxOk, none, rounds⟩)) :
    (pageEvent t key node rounds).Runs 12 d ((pageEvent t key node rounds).after 12 d) := by
  refine Event.runs_after (Nat.dvd_zero _) ⟨stringArgs_ok hk ?_, Int.pow_pos (by decide)⟩ h
  rw [List.length_replicate]
  decide

/-- **A fourth string evicts the first one by force.** The three free pages have been
taken; the strings that were stored second and third stay where they were, and the first
one, touched least recently, is gone. -/
theorem evicts_oldest_forced :
    let xs := [pageEvent 7 [67] 16384 0, pageEvent 6 [66] 12288 0, pageEvent 5 [65] 8192 0]
    let d' := (pageEvent 8 [68] 8192 1).after 12 pageDict
    Ordered [some 16384, some 12288, some 8192] (pageDict.entries.map Entry.off) ∧
      EvictsOldest xs (pageEvent 8 [68] 8192 1) pageDict.entries d'.entries ∧
      d'.entries.map Entry.key = [[68], [67], [66]] := by
  intro xs d'
  have run : Run 12 xs pageDict :=
    .call (.call (.call (.init fresh_emptyDict)
      (pageEvent_runs ⟨by decide, by decide⟩ (by decide +kernel)))
      (pageEvent_runs ⟨by decide, by decide⟩ (by decide +kernel)))
      (pageEvent_runs ⟨by decide, by decide⟩ (by decide +kernel))
  have hforced : (pageEvent 8 [68] 8192 1).Runs 12 pageDict d' :=
    pageEvent_runs ⟨by decide, by decide⟩ (by decide +kernel)
  have hclock : Nondecreasing (pageEvent 8 [68] 8192 1 :: xs) := by
    refine ⟨?_, ?_, ?_⟩
    · simp [xs, pageEvent_clock]
    · simp [xs, Monotone, pageEvent_clock]
    · simp [xs, pageEvent_clock]
  obtain ⟨hordered, -, hevicts⟩ := evicts_oldest (by decide) (by decide) run
  exact ⟨hordered, hevicts _ _ hforced hclock, by decide +kernel⟩

end MpsShdict
