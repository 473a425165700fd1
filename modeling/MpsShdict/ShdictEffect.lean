import MpsShdict.ShdictRuns

/-! # What a call does to the entries of others

A call removes entries from the end of the list: up to two that have expired, and up to
three in each round of forced eviction. Among the rest it looks for its own, and puts at
most one at the head.

`Effect` and `Affects` say this once for all calls, with the deadline and the list of the
entry at the head. What later modules prove about the entries of others — the order of
recency, that nothing is lost silently, that a flush is a barrier — is derived from
`Call.affects` and not from the single calls again.
-/
namespace MpsShdict

open Words

/-! ### Expiry -/

section Expire
variable {env : Env} {now : Nat} {L : List Entry}

/-- What is taken off the end without force has expired, by the test of
`mps_shdict_expire`, and there are no more than the `left` entries that may be taken. -/
theorem expireEntries_split (now : Nat) {left : Nat} (hleft : left ≤ 2) (L : List Entry) :
    ∃ R, L = (expireEntries now left L).1 ++ R ∧ R.length ≤ left ∧
      ∀ x ∈ R, expireKeeps x.expires now = false := by
  -- induction on the entries that may still be taken
  induction left generalizing L with
  | zero => exact ⟨[], by simp [expireEntries], by simp, by simp⟩
  | succ left ih =>
    rcases List.eq_nil_or_concat' L with rfl | ⟨A, e, rfl⟩
    · exact ⟨[], by simp [expireEntries_nil], by simp, by simp⟩
    · have hgl : (A ++ [e]).getLast? = some e := by simp
      rw [expireEntries, hgl]
      simp only [List.dropLast_concat]
      by_cases hkeep : 3 - (left + 1) ≠ 0 ∧ expireKeeps e.expires now
      · rw [if_pos hkeep]
        exact ⟨[], by simp, by simp, by simp⟩
      · rw [if_neg hkeep]
        obtain ⟨R, hA, hlen, hR⟩ := ih (by omega) A
        refine ⟨R ++ [e], ?_, ?_, ?_⟩
        · rw [← List.append_assoc, ← hA]
        · rw [List.length_append, List.length_singleton]
          omega
        · intro x hx
          rcases List.mem_append.mp hx with hx | hx
          · exact hR x hx
          · obtain rfl := List.mem_singleton.mp hx
            exact Bool.not_eq_true _ ▸ fun hk => hkeep ⟨by omega, hk⟩

/-- The entries `g` that a round of forced eviction takes at `now`. The first of them goes
whatever its deadline is, and up to two more follow that have expired. -/
structure RoundOk (now : Nat) (g : List Entry) : Prop where
  length_le : g.length ≤ 3
  /-- But for one of them they have expired. -/
  live_le : (g.filter fun x => expireKeeps x.expires now).length ≤ 1

/-- Of what is taken by force all but the oldest has expired. -/
theorem expireEntries_forced (now : Nat) (L : List Entry) :
    ∃ g, L = (expireEntries now 3 L).1 ++ g ∧ RoundOk now g := by
  rcases List.eq_nil_or_concat' L with rfl | ⟨A, e, rfl⟩
  · exact ⟨[], by simp [expireEntries_nil], by simp, by simp⟩
  · have hgl : (A ++ [e]).getLast? = some e := by simp
    rw [expireEntries, hgl]
    simp only [List.dropLast_concat]
    rw [if_neg (by simp)]
    obtain ⟨R, hA, hlen, hR⟩ := expireEntries_split now le_rfl A
    refine ⟨R ++ [e], ?_, ?_, ?_⟩
    · rw [← List.append_assoc, ← hA]
    · rw [List.length_append, List.length_singleton]
      omega
    · have hnil : R.filter (fun x => expireKeeps x.expires now) = [] :=
        List.filter_eq_nil_iff.mpr fun x hx => by simp [hR x hx]
      rw [List.filter_append, hnil]
      exact List.length_filter_le _ _

/-- The rounds take entries off the end, the first one the oldest. Each round reads the
clock anew, and the list that it finds is the one that the rounds before it have left. -/
theorem evictEntries_rounds (env : Env) (rounds : Nat) : ∀ (i : Nat) (L : List Entry),
    ∃ gs : List (List Entry), gs.length = rounds ∧
    L = evictEntries env i rounds L ++ gs.reverse.flatten ∧
      ∀ k g, gs[k]? = some g → RoundOk (env.mpsClockTimeMs (3 + (i + k))) g := by
  induction rounds with
  | zero => exact fun i L => ⟨[], rfl, by simp [evictEntries], by simp⟩
  | succ rounds ih =>
    intro i L
    obtain ⟨g, hL, hg⟩ := expireEntries_forced (env.mpsClockTimeMs (3 + i)) L
    obtain ⟨gs, hlen, hrest, hgs⟩ := ih (i + 1) (expireEntries (env.mpsClockTimeMs (3 + i)) 3 L).1
    refine ⟨g :: gs, by rw [List.length_cons, hlen], ?_, ?_⟩
    · rw [evictEntries, List.reverse_cons, List.flatten_append, ← List.append_assoc, ← hrest]
      simpa using hL
    · intro k g' hk
      cases k with
      | zero =>
        simp only [List.getElem?_cons_zero, Option.some.injEq] at hk
        exact hk ▸ hg
      | succ k =>
        have := hgs k g' (by simpa using hk)
        rwa [show i + 1 + k = i + (k + 1) by omega] at this

end Expire

/-! ### Effects -/

/-- Where the deadline of the entry of a call comes from that is given `exptime`: from the
entry that was found, from the clock and `exptime`, or there is none. -/
def Due (env : Env) (exptime : Int) (found : Option Entry) (expires : Nat) : Prop :=
  (∃ e, found = some e ∧ expires = e.expires) ∨ expires = 0 ∨
    ∃ i, expires = deadline (env.mpsClockTimeMs i) exptime

/-- The entry `e` that a call leaves at the head. Its deadline is due to the call, and
unless the call takes an element to or from a list (`takes`), a list in it is the one that
was found. -/
structure Written (env : Env) (exptime : Int) (takes : Bool) (found : Option Entry)
    (e : Entry) : Prop where
  due : Due env exptime found e.expires
  elems : takes = false → ∀ xs, e.value = .list xs →
    ∃ x, found = some x ∧ x.off = e.off ∧ x.value = .list xs

/-- **What a call on `key` does to the entries `M` that it searches**: `found` is its own
entry, `gs` are the rounds of forced eviction and `K` is left of the others. At most one
entry is put before `K`, under the key of the call, and `sd` is left at none, at the entry
that was found, at the one at the head, or at a chunk that no entry of `K` has. -/
structure Effect (env : Env) (key : Bytes) (exptime : Int) (sd : Option Nat)
    (rounds : Nat) (takes : Bool) (M L' : List Entry) (found : Option Entry) (K : List Entry)
    (gs : List (List Entry)) : Prop where
  own : ∀ e, found = some e → e ∈ M ∧ e.key = key
  evict : others found M = K ++ gs.reverse.flatten
  rounds : gs.length = rounds
  round : ∀ i g, gs[i]? = some g → RoundOk (env.mpsClockTimeMs (3 + i)) g
  kept : L' = K ∨ ∃ e', L' = e' :: K ∧ sd = some e'.off ∧
    e'.key = key ∧ Written env exptime takes found e'
  touched : sd = none ∨ (∃ e, found = some e ∧ sd = some e.off) ∨
    (∃ e', L' = e' :: K ∧ sd = some e'.off) ∨ ∃ z, sd = some z ∧ ∀ x ∈ K, x.off ≠ z

/-- **What a call on `key` does to the entries**: up to two that have expired are
reclaimed before it searches the others. Calls that reclaim nothing are the case in which
`R` is empty. -/
def Affects (env : Env) (key : Bytes) (exptime : Int) (sd : Option Nat)
    (rounds : Nat) (takes : Bool) (L L' : List Entry) : Prop :=
  ∃ M R, L = M ++ R ∧ R.length ≤ 2 ∧
    (∀ x ∈ R, expireKeeps x.expires (env.mpsClockTimeMs 1) = false) ∧
    ∃ found K gs, Effect env key exptime sd rounds takes M L' found K gs

section Shapes
variable {env : Env} {key : Bytes} {exptime : Int} {sd : Option Nat} {rounds : Nat} {takes : Bool}
  {L M L' : List Entry} {e e' : Entry} {found : Option Entry}

/-- The entry is as it was found. -/
theorem Written.same (he : found = some e) : Written env exptime takes found e :=
  ⟨.inl ⟨e, he, rfl⟩, fun _ _ hv => ⟨e, he, rfl, hv⟩⟩

/-- The entry has no list. -/
theorem Written.plain {valueType : ValueType} {bytes : Bytes}
    (hdue : Due env exptime found e.expires) (hv : e.value = .plain valueType bytes) :
    Written env exptime takes found e :=
  ⟨hdue, fun _ _ hv' => by simp [hv] at hv'⟩

theorem Written.taken (hdue : Due env exptime found e.expires) : Written env exptime true found e :=
  ⟨hdue, nofun⟩

theorem afterExpire_subset (env : Env) (L : List Entry) : afterExpire env L ⊆ L :=
  (expireEntries_front _ _ _).subset

theorem others_subset (found : Option Entry) (M : List Entry) : others found M ⊆ M := by
  cases found with
  | none => exact List.Subset.refl _
  | some e => exact List.erase_subset

theorem lookupEntries_subset (hf : ∀ e, found = some e → e ∈ M) : lookupEntries found M ⊆ M := by
  cases found with
  | none => exact List.Subset.refl _
  | some e => exact List.cons_subset.mpr ⟨hf e rfl, List.erase_subset⟩

/-- **Where the entries after a call come from.** Each of them was there before, or it is
the one that the call has left at the head under its own key. -/
theorem Affects.origin (h : Affects env key exptime sd rounds takes L L') (he : e ∈ L') :
    e ∈ L ∨ sd = some e.off ∧ e.key = key ∧
      ∃ found, (∀ x, found = some x → x ∈ L ∧ x.key = key) ∧ Written env exptime takes found e := by
  obtain ⟨M, R, rfl, -, -, found, K, gs, h⟩ := h
  have hK : K ⊆ M ++ R := by
    intro x hx
    refine List.mem_append_left _ (others_subset found M ?_)
    rw [h.evict]
    exact List.mem_append_left _ hx
  rcases h.kept with rfl | ⟨e', rfl, hsd, hkey, hw⟩
  · exact .inl (hK he)
  · rcases List.mem_cons.mp he with rfl | he
    · refine .inr ⟨hsd, hkey, found, ?_, hw⟩
      intro x hx
      obtain ⟨hm, hk⟩ := h.own x hx
      exact ⟨List.mem_append_left _ hm, hk⟩
    · exact .inl (hK he)

theorem Affects.of_self (h : ∃ found K gs, Effect env key exptime sd rounds takes L L' found K gs) :
    Affects env key exptime sd rounds takes L L' :=
  ⟨L, [], by simp, by simp, by simp, h⟩

/-- Nothing happens. -/
theorem Affects.none : Affects env key exptime none 0 takes L L :=
  .of_self ⟨.none, L, [], by simp, by simp [others], rfl, by simp, .inl rfl, .inl rfl⟩

theorem Affects.of_afterExpire
    (h : ∃ found K gs, Effect env key exptime sd rounds takes (afterExpire env L) L' found K gs) :
    Affects env key exptime sd rounds takes L L' := by
  obtain ⟨R, hL, hlen, hR⟩ := expireEntries_split (env.mpsClockTimeMs 1) le_rfl L
  exact ⟨_, R, hL, hlen, hR, h⟩

/-- The entry that is found stays or goes. -/
theorem Effect.removed (hf : ∀ e, found = some e → e ∈ M ∧ e.key = key)
    (hsd : sd = none ∨ ∃ e, found = some e ∧ sd = some e.off) :
    Effect env key exptime sd 0 takes M (others found M) found (others found M) [] :=
  ⟨hf, by simp, rfl, by simp, .inl rfl, hsd.imp_right .inl⟩

/-- The entry that is found is at the head. -/
theorem Effect.head (he : e ∈ M) (hkey : e.key = key) (hoff : e'.off = e.off)
    (hkey' : e'.key = e.key) (hw : Written env exptime takes (some e) e') :
    Effect env key exptime (some e.off) 0 takes M
      (e' :: others (some e) M) (some e) (others (some e) M) [] :=
  ⟨fun x hx => by obtain rfl := Option.some.inj hx; exact ⟨he, hkey⟩, by simp, rfl, by simp,
    .inr ⟨e', rfl, by rw [hoff], hkey'.trans hkey, hw⟩, .inr (.inl ⟨e, rfl, rfl⟩)⟩

/-- A new entry is put at the head, if there is a chunk for it. If there is none the
rounds of eviction have been made all the same, and the others are left as they are. -/
theorem Effect.insert {α : Type} {c : Choice} (entry : Nat → Entry) (done full : Nat → α)
    (hf : ∀ e, found = some e → e ∈ M ∧ e.key = key)
    (hsd : sd = none ∨ ∃ e, found = some e ∧ sd = some e.off) (hoff : ∀ n, (entry n).off = n)
    (hkey : ∀ n, (entry n).key = key) (hw : ∀ n, Written env exptime takes found (entry n)) :
    ∃ K gs, Effect env key exptime
      (insertEntry env c (others found M) sd entry done full).sd c.alloc.rounds takes
      M (insertEntry env c (others found M) sd entry done full).entries found K gs := by
  obtain ⟨gs, hlen, hL, hgs⟩ := evictEntries_rounds env c.alloc.rounds 0 (others found M)
  refine ⟨evictEntries env 0 c.alloc.rounds (others found M), gs, hf, hL, hlen, ?_, ?_, ?_⟩
  · intro i g hi
    have := hgs i g hi
    rwa [Nat.zero_add] at this
  · unfold insertEntry
    cases c.alloc.node with
    | none => exact .inl rfl
    | some node => exact .inr ⟨entry node, rfl, congrArg some (hoff node).symm, hkey node, hw node⟩
  · unfold insertEntry
    cases c.alloc.node with
    | none => exact hsd.imp_right .inl
    | some node => exact .inr (.inr (.inl ⟨entry node, rfl, congrArg some (hoff node).symm⟩))

end Shapes

/-! ### The effects of the calls -/

/-- The rounds of forced eviction of a call. -/
def Answer.rounds : Answer → Nat
  | .store r => r.rounds
  | .incr r => r.rounds
  | _ => 0

/-- A list has grown. -/
def ListResult.taken (r : ListResult) : Bool :=
  match r.ret with
  | .valueLen _ => true
  | .code _ => false

/-- An element has left a list. -/
def GetResult.taken (r : GetResult) : Bool := r.rc = ngxOk ∧ r.valueType ≠ some .tnil

/-- A call takes an element to or from the list of its key. A pop that finds the key
absent or its list empty takes nothing. -/
def Call.takes : Call → Answer → Bool
  | .push _, .list r => r.taken
  | .pop _ _ _, .get r => r.taken
  | _, _ => false

/-- The time to live that a call gives to its entry. -/
def Call.exptime : Call → Int
  | .store _ a => a.exptime
  | .incr a => a.initTtl
  | .setExpire _ exptime => exptime
  | _ => 0

/-- The entry that a lookup ends at. -/
def Hit.entry : Hit → Option Entry
  | .live e => some e
  | .expired e => some e
  | .absent => none

@[simp] theorem hit_entry (now : Nat) (found : Option Entry) : (hit now found).entry = found := by
  cases found with
  | none => rfl
  | some e =>
    rw [hit]
    split <;> rfl

section Calls
variable {env : Env} {key : Bytes} {exptime : Int} {sd : Option Nat} {L M : List Entry}
  {e e' : Entry} {c : Choice} {h : Hit}

/-- What a call on the entries `M` with an answer of type `α` does to them. The rounds and
the element are read from the answer. -/
def Outcome.Has {α : Type} (out : Outcome α) (env : Env) (key : Bytes) (exptime : Int)
    (rounds : α → Nat) (takes : α → Bool) (M : List Entry) (found : Option Entry) : Prop :=
  ∃ K gs, Effect env key exptime out.sd (rounds out.result)
    (takes out.result) M out.entries found K gs

theorem storeInsertEntries_has (env : Env) {a : StoreArgs} (value : Option Bytes)
    (hf : ∀ e, c.found = some e → e ∈ M ∧ e.key = a.key)
    (hsd : sd = none ∨ ∃ e, c.found = some e ∧ sd = some e.off) :
    (storeInsertEntries env a value c (others c.found M) sd).Has
      env a.key a.exptime StoreResult.rounds
      (fun _ => false) M c.found := by
  cases value with
  | none => exact ⟨_, _, Effect.removed hf hsd⟩
  | some v =>
    obtain ⟨K, gs, h⟩ := Effect.insert (c := c) (storedEntry env a v)
      (fun f => (⟨ngxOk, none, f⟩ : StoreResult)) (fun f => ⟨ngxError, some "no memory", f⟩) hf hsd
      (fun _ => rfl) (fun _ => rfl) fun _ => .plain (.inr (.inr ⟨33, rfl⟩)) rfl
    refine ⟨K, gs, ?_⟩
    have hr : (storeInsertEntries env a (some v) c (others c.found M) sd).result.rounds =
        c.alloc.rounds := by
      simp only [storeInsertEntries, insertEntry]
      cases c.alloc.node <;> rfl
    rw [hr]
    exact h

/-- The entry that is found is at the head, whatever has been written into it, and nothing
of the others has been evicted. -/
theorem Outcome.has_head {α : Type} {r : α} {rounds : α → Nat} {takes : α → Bool} {ls : List Block}
    (hf : ∀ e, c.found = some e → e ∈ M ∧ e.key = key) (he : c.found = some e)
    (hoff : e'.off = e.off) (hkey : e'.key = e.key) (hw : Written env exptime (takes r) c.found e')
    (hr : rounds r = 0) :
    (⟨e' :: others c.found M, ls, some e.off, r⟩ : Outcome α).Has
      env key exptime rounds takes M c.found := by
  obtain ⟨hm, hk⟩ := hf e he
  refine ⟨others c.found M, [], ?_⟩
  simp only [hr, he]
  exact Effect.head hm hk hoff hkey (he ▸ hw)

/-- The entry that is found is gone, or none was found. -/
theorem Outcome.has_removed {α : Type} {r : α} {rounds : α → Nat}
    {takes : α → Bool} {ls : List Block} (hf : ∀ e, c.found = some e → e ∈ M ∧ e.key = key)
    (hsd : sd = none ∨ ∃ e, c.found = some e ∧ sd = some e.off) (hr : rounds r = 0) :
    (⟨others c.found M, ls, sd, r⟩ : Outcome α).Has env key exptime rounds takes M c.found := by
  refine ⟨others c.found M, [], ?_⟩
  simp only [hr]
  exact Effect.removed hf hsd

theorem storeReplaceEntries_has (env : Env) {a : StoreArgs} (value : Option Bytes)
    (hf : ∀ e, c.found = some e → e ∈ M ∧ e.key = a.key) (he : c.found = some e) :
    (storeReplaceEntries env a value c e (others c.found M)).Has
      env a.key a.exptime StoreResult.rounds
      (fun _ => false) M c.found := by
  have hinsert := storeInsertEntries_has env value hf (.inr ⟨e, he, rfl⟩)
  cases value with
  | none => exact hinsert
  | some v =>
    unfold storeReplaceEntries
    by_cases hfit : e.fits v.length = true
    · simp only [if_pos hfit]
      exact Outcome.has_head hf he rfl rfl (.plain (.inr (.inr ⟨3, rfl⟩)) rfl) rfl
    · simp only [if_neg hfit]
      exact hinsert

theorem storeFoundEntries_has {op : Nat} {a : StoreArgs} {value : Option Bytes}
    (hf : ∀ e, c.found = some e → e ∈ M ∧ e.key = a.key) (hh : h.entry = c.found) :
    (storeFoundEntries env op a value c (others c.found M) h).Has
      env a.key a.exptime StoreResult.rounds
      (fun _ => false) M c.found := by
  unfold storeFoundEntries
  cases h with
  | absent =>
    have hinsert := storeInsertEntries_has env value hf (.inl rfl)
    split
    · exact Outcome.has_removed hf (.inl rfl) rfl
    · split
      · exact hinsert
      · exact hinsert
  | live e =>
    have hreplace := storeReplaceEntries_has env value hf hh.symm
    split
    · exact hreplace
    · split
      · exact Outcome.has_head hf hh.symm rfl rfl (.same hh.symm) rfl
      · exact hreplace
  | expired e =>
    have hreplace := storeReplaceEntries_has env value hf hh.symm
    split
    · exact Outcome.has_head hf hh.symm rfl rfl (.same hh.symm) rfl
    · split
      · exact hreplace
      · exact hreplace

theorem incrInsertEntries_has {a : IncrArgs} {num : Double}
    (hf : ∀ e, c.found = some e → e ∈ M ∧ e.key = a.key)
    (hsd : sd = none ∨ ∃ e, c.found = some e ∧ sd = some e.off) :
    (incrInsertEntries env a num c (others c.found M) sd).Has env a.key a.initTtl IncrResult.rounds
      (fun _ => false) M c.found := by
  obtain ⟨K, gs, h⟩ := Effect.insert (c := c) (countedEntry env a num)
    (fun f => (⟨ngxOk, some num, none, f⟩ : IncrResult))
    (fun f => ⟨ngxError, none, some "no memory", f⟩)
    hf hsd (fun _ => rfl) (fun _ => rfl) fun _ => .plain (.inr (.inr ⟨0, rfl⟩)) rfl
  refine ⟨K, gs, ?_⟩
  have hr : (incrInsertEntries env a num c (others c.found M) sd).result.rounds =
      c.alloc.rounds := by
    simp only [incrInsertEntries, insertEntry]
    cases c.alloc.node <;> rfl
  rw [hr]
  exact h

theorem incrLive_has {a : IncrArgs} (hf : ∀ e, c.found = some e → e ∈ M ∧ e.key = a.key)
    (he : c.found = some e) :
    (incrLive env a e (others c.found M)).Has env a.key a.initTtl IncrResult.rounds
      (fun _ => false) M c.found := by
  unfold incrLive
  split
  · split
    · exact Outcome.has_head hf he rfl rfl (.plain (.inl ⟨_, he, rfl⟩) rfl) rfl
    · exact Outcome.has_head hf he rfl rfl (.same he) rfl
  · exact Outcome.has_head hf he rfl rfl (.same he) rfl

theorem pushNodeEntries_has {a : PushArgs} {v : Bytes} {elems : List Elem}
    (hf : ∀ e, c.found = some e → e ∈ M ∧ e.key = a.key) (he : c.found = some e)
    (hoff : e'.off = e.off) (hkey : e'.key = e.key) (hdue : Due env 0 c.found e'.expires)
    (helems : elems = [] ∨ e.value = .list elems) :
    (pushNodeEntries a v c e' elems (others c.found M)).Has env a.key 0
      (fun _ => 0) ListResult.taken M
      c.found := by
  unfold pushNodeEntries
  rw [hoff]
  split
  · split
    · exact Outcome.has_removed hf (.inr ⟨e, he, rfl⟩) rfl
    · next hne =>
      refine Outcome.has_head hf he rfl hkey ⟨hdue, fun _ xs hv => ⟨e, he, rfl, ?_⟩⟩ rfl
      rcases helems with rfl | helems
      · exact absurd rfl hne
      · exact helems.trans hv
  · exact Outcome.has_head hf he rfl hkey (.taken hdue) rfl

theorem initListEntries_has {a : PushArgs} {v : Bytes}
    (hf : ∀ e, c.found = some e → e ∈ M ∧ e.key = a.key)
    (hsd : sd = none ∨ ∃ e, c.found = some e ∧ sd = some e.off)
    (hfresh : ∀ n, c.alloc.node = some n → ∀ x ∈ others c.found M, x.off ≠ n) :
    (initListEntries env a v c (others c.found M) sd).Has env a.key 0
      (fun _ => 0) ListResult.taken M c.found := by
  unfold initListEntries
  split
  · exact Outcome.has_removed hf hsd rfl
  · next node hnode =>
    unfold pushNodeEntries
    split
    · -- the list is empty: the entry is taken out again
      rw [if_pos (show u32 ([] : List Elem).length = 0 from rfl)]
      exact ⟨others c.found M, [], hf, by simp, rfl, by simp, .inl rfl,
        .inr (.inr (.inr ⟨node, rfl, hfresh node hnode⟩))⟩
    · exact ⟨others c.found M, [], hf, by simp, rfl, by simp,
        .inr ⟨_, rfl, rfl, rfl, .taken (.inr (.inl rfl))⟩, .inr (.inr (.inl ⟨_, rfl, rfl⟩))⟩

/-- What may go is read out. -/
theorem elemResult_taken {x : Elem} {bufLen : Nat} (h : (elemResult env x bufLen).2 = true) :
    (elemResult env x bufLen).1.taken = true := by
  revert h
  unfold elemResult
  split
  · split
    · intro h
      cases h
    · exact fun _ => rfl
  · split
    · exact fun _ => rfl
    · intro h
      cases h
  · intro h
    cases h

theorem popList_has {direction : Direction} {bufLen : Nat} {elems : List Elem}
    (hf : ∀ e, c.found = some e → e ∈ M ∧ e.key = key) (he : c.found = some e) :
    (popList env direction bufLen e elems (others c.found M)).Has env key 0
      (fun _ => 0) GetResult.taken M
      c.found := by
  have hstay : ∀ ls (r : GetResult),
      (⟨e :: others c.found M, ls, some e.off, r⟩ : Outcome GetResult).Has env
      key 0 (fun _ => 0) GetResult.taken M c.found := fun ls r =>
    Outcome.has_head hf he rfl rfl (.same he) rfl
  unfold popList
  split
  · exact hstay _ _
  · next x elems' _ =>
    by_cases hzero : u32 elems.length = 0
    · rw [if_pos hzero]
      exact hstay _ _
    · rw [if_neg hzero]
      by_cases hpop : (elemResult env x bufLen).2 = true
      · simp only [if_pos hpop]
        split
        · exact Outcome.has_removed hf (.inr ⟨e, he, rfl⟩) rfl
        · refine Outcome.has_head hf he rfl rfl ?_ rfl
          rw [elemResult_taken hpop]
          exact .taken (.inl ⟨e, he, rfl⟩)
      · simp only [if_neg hpop]
        exact hstay _ _

theorem incrEntries_has {a : IncrArgs}
    (hf : ∀ e, c.found = some e → e ∈ afterExpire env L ∧ e.key = a.key) :
    (incrEntries env a c L).Has env a.key a.initTtl IncrResult.rounds
      (fun _ => false) (afterExpire env L) c.found := by
  have hh := hit_entry (env.mpsClockTimeMs 2) c.found
  unfold incrEntries
  cases h : hit (env.mpsClockTimeMs 2) c.found with
  | absent =>
    cases a.init with
    | none => exact Outcome.has_removed hf (.inl rfl) rfl
    | some init => exact incrInsertEntries_has hf (.inl rfl)
  | expired e =>
    have he : c.found = some e := by rw [← hh, h]; rfl
    cases a.init with
    | none => exact Outcome.has_head hf he rfl rfl (.same he) rfl
    | some init =>
      by_cases hfit : e.fits 8 = true
      · simp only [if_pos hfit]
        exact Outcome.has_head hf he rfl (hf e he).2.symm (.plain (.inr (.inr ⟨0, rfl⟩)) rfl) rfl
      · simp only [if_neg hfit]
        exact incrInsertEntries_has hf (.inr ⟨e, he, rfl⟩)
  | live e =>
    have he : c.found = some e := by rw [← hh, h]; rfl
    exact incrLive_has hf he

theorem pushEntries_affects {a : PushArgs}
    (hf : ∀ e, c.found = some e → e ∈ afterExpire env L ∧ e.key = a.key)
    (hfresh : ∀ n, c.alloc.node = some n → ∀ x ∈ others c.found (afterExpire env L), x.off ≠ n) :
    Affects env a.key 0 (pushEntries env a c L).sd 0 (pushEntries env a c L).result.taken L
      (pushEntries env a c L).entries := by
  have hh := hit_entry (env.mpsClockTimeMs 2) c.found
  unfold pushEntries
  cases pushValue a with
  | error msg => exact .none
  | ok v =>
    refine .of_afterExpire ⟨c.found, ?_⟩
    simp only
    cases h : hit (env.mpsClockTimeMs 2) c.found with
    | absent => exact initListEntries_has hf (.inl rfl) hfresh
    | expired e =>
      have he : c.found = some e := by rw [← hh, h]; rfl
      cases hv : e.value with
      | plain valueType bytes =>
        simp only [hv]
        exact initListEntries_has hf (.inr ⟨e, he, rfl⟩) hfresh
      | list elems =>
        simp only [hv]
        exact pushNodeEntries_has hf he rfl rfl (.inr (.inl rfl)) (.inl rfl)
    | live e =>
      have he : c.found = some e := by rw [← hh, h]; rfl
      obtain ⟨hm, hk⟩ := hf e he
      cases hv : e.value with
      | plain valueType bytes =>
        simp only [hv]
        exact ⟨_, _, he ▸ Effect.head hm hk rfl rfl (.same rfl)⟩
      | list elems =>
        simp only [hv]
        exact pushNodeEntries_has hf he rfl rfl (.inl ⟨_, he, rfl⟩) (.inr hv)

theorem popEntries_has {direction : Direction} {bufLen : Nat}
    (hf : ∀ e, c.found = some e → e ∈ afterExpire env L ∧ e.key = key) :
    (popEntries env direction bufLen c L).Has env key 0
      (fun _ => 0) GetResult.taken (afterExpire env L)
      c.found := by
  have hh := hit_entry (env.mpsClockTimeMs 2) c.found
  unfold popEntries
  cases h : hit (env.mpsClockTimeMs 2) c.found with
  | absent => exact Outcome.has_removed hf (.inl rfl) rfl
  | expired e =>
    have he : c.found = some e := by rw [← hh, h]; rfl
    exact Outcome.has_head hf he rfl rfl (.same he) rfl
  | live e =>
    have he : c.found = some e := by rw [← hh, h]; rfl
    cases hv : e.value with
    | plain valueType bytes =>
      simp only [hv]
      exact Outcome.has_head hf he rfl rfl (.same he) rfl
    | list elems =>
      simp only [hv]
      exact popList_has hf he

theorem llenEntries_has (hf : ∀ e, c.found = some e → e ∈ afterExpire env L ∧ e.key = key) :
    (llenEntries env c L).Has env key 0 (fun _ => 0)
    (fun _ => false) (afterExpire env L) c.found := by
  have hh := hit_entry (env.mpsClockTimeMs 2) c.found
  unfold llenEntries
  cases h : hit (env.mpsClockTimeMs 2) c.found with
  | absent => exact Outcome.has_removed hf (.inl rfl) rfl
  | expired e =>
    have he : c.found = some e := by rw [← hh, h]; rfl
    exact Outcome.has_head hf he rfl rfl (.same he) rfl
  | live e =>
    have he : c.found = some e := by rw [← hh, h]; rfl
    cases hv : e.value with
    | plain valueType bytes =>
      simp only [hv]
      exact Outcome.has_head hf he rfl rfl (.same he) rfl
    | list elems =>
      simp only [hv]
      exact Outcome.has_head hf he rfl rfl (.same he) rfl

theorem getEntries_affects {bufLen : Nat} {getStale : Bool}
    (hf : ∀ e, c.found = some e → e ∈ L ∧ e.key = key) :
    Affects env key 0 (getEntries env bufLen getStale c L).sd 0 false L
      (getEntries env bufLen getStale c L).entries := by
  unfold getEntries
  cases hfound : c.found with
  | none =>
    simp only [hit]
    exact .none
  | some e =>
    obtain ⟨hm, hk⟩ := hf e hfound
    have hhead : Effect env key 0 (some e.off) 0 false L (e :: L.erase e) (some e) (L.erase e) [] :=
      Effect.head hm hk rfl rfl (.same rfl)
    by_cases hx : lookupExpired e.expires (env.mpsClockTimeMs 2) = true
    · simp only [hit, if_pos hx]
      split
      · exact .of_self ⟨some e, _, _, hhead⟩
      · exact .of_self ⟨some e, _, _, hhead⟩
    · simp only [hit, if_neg hx]
      exact .of_self ⟨some e, _, _, hhead⟩

/-- **What a call does to the entries**, if it does not set deadlines. The calls on a key
are taken one after the other, each along the branches of its model;
`mps_shdict_set_expire` writes a deadline where the entry is and moves nothing, and has
lemmas of its own. -/
theorem Call.affects {ord : Prop} {call : Call} (hkey : call.key = some key)
    (hset : ∀ k t, call ≠ .setExpire k t) (hc : call.Picks ord env L c) :
    Affects env key call.exptime (call.entries env c L).sd (call.entries env c L).result.rounds
      (call.takes (call.entries env c L).result) L (call.entries env c L).entries := by
  have hf := (hc.finds key hkey).sound
  cases call with
  | store op a =>
    obtain rfl := Option.some.inj hkey
    simp only [Call.entries, Outcome.map, storeEntries]
    split
    · exact .none
    · exact .of_afterExpire ⟨c.found, storeFoundEntries_has hf (hit_entry _ _)⟩
  | get k bufLen getStale => exact getEntries_affects hf
  | incr a =>
    obtain rfl := Option.some.inj hkey
    exact .of_afterExpire ⟨c.found, incrEntries_has hf⟩
  | push a =>
    obtain rfl := Option.some.inj hkey
    exact pushEntries_affects hf (hc.fresh a rfl)
  | pop direction k bufLen => exact .of_afterExpire ⟨c.found, popEntries_has hf⟩
  | llen k => exact .of_afterExpire ⟨c.found, llenEntries_has hf⟩
  | getTtl k => exact .none
  | setExpire k t => exact absurd rfl (hset k t)
  | flushAll => simp [Call.key] at hkey

end Calls

end MpsShdict
