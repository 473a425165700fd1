import MpsShdict.ShdictLists

/-! # Runs of a dictionary

A run starts from a pool that has just been set up; each event is a call from some
process, with the address at which that process has the pool mapped and with what it finds
outside of the pool: the clock, the memory it may get, what freed chunks hold.

The specifications of the single calls are put together here. `Call.run_spec` says for any
call what `mps_shdict_store` and the others say each for itself: it does to the pool what
the same call of the model does to the entries. By induction on the run the pool spells
out some entries after any number of calls (`Run.rep`), and its tree is in order as long
as no counter is hung up where it would not be (`SafeRun.rep`).

The last section has a pool of four pages with a few entries in it. Later modules show
their results at work on it.
-/
namespace MpsShdict

open RedBlack RedBlack.RbTree
open Words

/-! ### The entries are those that the pool spells out -/

section Entries
variable {sz : Sizes} {s : Nat} {ord : Prop} {d : Shdict} {e : Entry} {L : List Entry}
  {spare : List Block}

/-- A walk that stands at the first of `ys` meets the cells of `ys` in their order, as far
as its fuel goes. This is what the induction on the fuel carries. -/
theorem walk_take {q : QueueMem} {head : Nat} (fuel : Nat) : ∀ xs ys : List Nat,
    IsQueue q head (xs ++ ys) → walk q head fuel (ys.head?.getD head) = ys.take fuel := by
  induction fuel with
  | zero => exact fun _ _ _ => rfl
  | succ fuel ih =>
    intro xs ys hq
    cases ys with
    | nil => simp [walk]
    | cons y ys =>
      have hne : y ≠ head := by
        intro he
        exact (List.nodup_cons.mp hq.nodup).1 (by simp [← he])
      have hnext : mpsQueueNext q y = ys.head?.getD head := hq.next
      have hq' : IsQueue q head ((xs ++ [y]) ++ ys) := by simpa using hq
      simp only [List.head?_cons, Option.getD_some]
      rw [walk, if_neg hne, hnext, ih _ _ hq', List.take_succ_cons]

/-- A walk with enough fuel gives the cells of a queue from the first to the last one. -/
theorem IsQueue.walk_eq {q : QueueMem} {head fuel : Nat} {ys : List Nat} (h : IsQueue q head ys)
    (hfuel : ys.length ≤ fuel) : walk q head fuel (mpsQueueHead q head) = ys := by
  rw [h.first, walk_take fuel [] ys h, List.take_of_length_le hfuel]

theorem ElemOk.readElem {x : Elem} (h : ElemOk d x) : d.readElem x.off = x := by
  rw [Shdict.readElem, h.valueType, h.valueLen, h.bytes]

theorem EntryOk.readEntry (h : EntryOk d e) (hlen : e.value.elems.length < d.rounds) :
    d.readEntry e.off = e := by
  have hval : d.readValue e.off = e.value := by
    have hv := h.value
    unfold ValueOk at hv
    cases hve : e.value with
    | plain valueType bytes =>
      simp only [hve] at hv
      obtain ⟨htype, hne, hl, hb⟩ := hv
      rw [Shdict.readValue]
      simp only [htype, if_neg hne, h.keyLen, hl, hb]
    | list elems =>
      simp only [hve] at hv
      obtain ⟨htype, -, hq, helems⟩ := hv
      rw [hve] at hlen
      have hwalk : walk d.queue e.listHead d.rounds (mpsQueueHead d.queue e.listHead) =
          elems.map Elem.off :=
        hq.walk_eq (by
          rw [List.length_map]
          exact hlen.le)
      have hread : (elems.map Elem.off).map d.readElem = elems := by
        rw [List.map_map]
        refine (List.map_congr_left (g := id) ?_).trans (List.map_id _)
        intro x hx
        exact (helems x hx).readElem
      rw [Entry.listHead] at hwalk
      rw [Shdict.readValue]
      simp only [htype, ↓reduceIte, h.keyLen, hwalk, hread]
  rw [Shdict.readEntry, h.keyOf, h.userFlags, h.expires, hval]

/-- **The pool spells out the entries.** What one reads by walking the LRU queue, and the
lists of the entries it meets, are the entries of which the representation says that they
are stored. -/
theorem Rep.entries_eq (h : Rep sz s ord d L spare) : d.entries = L := by
  have hlru := h.shape.hung.lru
  have hl := h.laid
  have hlen : L.length < d.rounds := by
    have := hl.length
    rw [Shdict.rounds]
    omega
  have hwalk : walk d.queue d.lruQueue d.rounds (mpsQueueHead d.queue d.lruQueue) =
      (L.map Entry.off).map sdQueue :=
    hlru.walk_eq (by
      simp only [List.length_map]
      exact hlen.le)
  rw [Shdict.entries, hwalk, List.map_map, List.map_map]
  refine (List.map_congr_left (g := id) ?_).trans (List.map_id _)
  intro e he
  have hnode : nodeOfQueue (sdQueue e.off) = e.off := by
    simp only [nodeOfQueue, sdQueue, offsetofQueue, offsetofColor]
    omega
  show d.readEntry (nodeOfQueue (sdQueue e.off)) = e
  rw [hnode]
  exact (h.shape.entries e he).readEntry (hl.elems e he)

end Entries

/-! ### The fresh dictionary -/

/-- A dictionary on a pool that `mps_slab_init` and `mps_shdict_on_init` have set up. The
pool may have any size that has room for the slots and the statistics, and the memory may
hold anything before. -/
inductive Fresh (s : Nat) : Shdict → Prop where
  | intro (base poolSize minShift : Nat) (desc : DescMem) (stat : Nat → SlabStat) (word : Nat → Nat)
      {d₀ d : Shdict} (hbase : 2 ^ s ∣ base) (hm : minShift < s)
      (hroom : slotOff (s - minShift) + sizeofStat * (s - minShift) ≤ poolSize)
      (hlt : poolSize < 2 ^ 64)
      (hpool : mpsSlabInit (mpsSlabSizesInit (2 ^ s)) base desc stat word poolSize minShift 0 =
        .ok d₀.pool)
      (hinit : mpsShdictOnInit (mpsSlabSizesInit (2 ^ s)) d₀ = some (.ok d)) : Fresh s d

/-- **A fresh dictionary is empty.** The only block that is taken from its pool is the
tree, and its tree and its LRU queue have nothing in them. -/
theorem Fresh.rep {s : Nat} {ord : Prop} {d : Shdict} (hs : 12 ≤ s) (hs' : s ≤ 16) (h : Fresh s d) :
    Rep (mpsSlabSizesInit (2 ^ s)) s ord d [] [] := by
  obtain ⟨base, poolSize, minShift, desc, stat, word, hbase, hm, hroom, hlt, hpool, hinit⟩ := h
  next d₀ =>
  have hrun :=
    (SlabRun.init base poolSize minShift desc stat word hbase hm hroom hlt hpool).inv hs hs'
  obtain ⟨pool, p, halloc, hinv⟩ := hrun.alloc_step sizeofTree
  have halloc' : mpsSlabAllocLocked (mpsSlabSizesInit (2 ^ s)) d₀.rounds d₀.pool sizeofTree =
      some (pool, p) := halloc
  simp only [mpsShdictOnInit, halloc', Option.bind_eq_bind, Option.bind_some] at hinit
  cases p with
  | none => simp at hinit
  | some tree =>
    simp only [Option.some.injEq, Except.ok.injEq] at hinit
    rcases hinv with ⟨-, hnil, -⟩ | ⟨-, hinv⟩
    · simp at hnil
    · subst hinit
      refine ⟨⟨⟨⟨.nil, .init _ _ _, .refl _, fun _ => .nil⟩, rfl, rfl, IsQueue.init⟩, by simp⟩, ?_,
        by simp⟩
      exact hinv.setData tree false

/-! ### Calls -/

/-- A call on a dictionary, with what the caller passes. The functions that only hand
fixed flags to another one are spelled as that one with these flags, as in the source. -/
inductive Call where
  /-- `mps_shdict_store` -/
  | store (op : Nat) (a : StoreArgs)
  /-- `mps_shdict_get` -/
  | get (key : Bytes) (bufLen : Nat) (getStale : Bool)
  /-- `mps_shdict_incr` -/
  | incr (a : IncrArgs)
  /-- `mps_shdict_lpush` and `mps_shdict_rpush` -/
  | push (a : PushArgs)
  /-- `mps_shdict_lpop` and `mps_shdict_rpop` -/
  | pop (direction : Direction) (key : Bytes) (bufLen : Nat)
  /-- `mps_shdict_llen` -/
  | llen (key : Bytes)
  /-- `mps_shdict_get_ttl` -/
  | getTtl (key : Bytes)
  /-- `mps_shdict_set_expire` -/
  | setExpire (key : Bytes) (exptime : Int)
  /-- `mps_shdict_flush_all` -/
  | flushAll

/-- What a call answers, with everything that it writes through the pointers its caller
has passed. -/
inductive Answer where
  | store (r : StoreResult)
  | get (r : GetResult)
  | incr (r : IncrResult)
  | list (r : ListResult)
  | code (rc : Int)
  deriving DecidableEq

/-- Another answer in the place of one. -/
def Outcome.map {α β : Type} (f : α → β) (o : Outcome α) : Outcome β :=
  ⟨o.entries, o.leaked, o.sd, f o.result⟩

/-- `mps_shdict_set`. -/
def Call.set (a : StoreArgs) : Call := .store 0 a
/-- `mps_shdict_safe_set`. -/
def Call.safeSet (a : StoreArgs) : Call := .store mpsShdictSafeStoreFlag a
/-- `mps_shdict_add`. -/
def Call.add (a : StoreArgs) : Call := .store mpsShdictAddFlag a
/-- `mps_shdict_safe_add`. -/
def Call.safeAdd (a : StoreArgs) : Call := .store (mpsShdictAddFlag ||| mpsShdictSafeStoreFlag) a
/-- `mps_shdict_replace`. -/
def Call.replace (a : StoreArgs) : Call := .store mpsShdictReplaceFlag a
/-- `mps_shdict_delete`. -/
def Call.delete (key : Bytes) : Call := .store 0 ⟨key, .tnil, none, Double.zero, 0, 0⟩

namespace Call

/-- The key that a call looks up, if it looks one up. A flush does not. -/
def key : Call → Option Bytes
  | .store _ a => some a.key
  | .get key _ _ => some key
  | .incr a => some a.key
  | .push a => some a.key
  | .pop _ key _ => some key
  | .llen key => some key
  | .getTtl key => some key
  | .setExpire key _ => some key
  | .flushAll => none

/-- The call as the source computes it, by a process that has the pool mapped at `base`:
the new pool, the entry that `sd` points to where the call returns, and the answer. -/
def run (sz : Sizes) (base : Nat) (env : Env) (d : Shdict) :
    Call → Option (Shdict × Option Nat × Answer)
  | .store op a => (mpsShdictStore sz base env op a d).map fun r => (r.1, r.2.1, .store r.2.2)
  | .get key bufLen getStale =>
    (mpsShdictGet env key bufLen getStale d).map fun r => (r.1, r.2.1, .get r.2.2)
  | .incr a => (mpsShdictIncr sz base env a d).map fun r => (r.1, r.2.1, .incr r.2.2)
  | .push a =>
    ((mpsShdictPushHelper sz base env a d).map answer).map fun r => (r.1, r.2.1, .list r.2.2)
  | .pop direction key bufLen =>
    (mpsShdictPopHelper sz base env direction key bufLen d).map fun r => (r.1, r.2.1, .get r.2.2)
  | .llen key =>
    ((mpsShdictLlen sz base env key d).map answer).map fun r => (r.1, r.2.1, .list r.2.2)
  | .getTtl key => (mpsShdictGetTtl env key d).map fun r => (d, none, .code r)
  | .setExpire key exptime =>
    (mpsShdictSetExpire env key exptime d).map fun r => (r.1, none, .code r.2)
  | .flushAll => (mpsShdictFlushAll sz base env d).map fun r => (r.1, none, .code r.2)

/-- The same call on the entries of the model, where `c` says what it finds in the tree
and what it gets from the allocator. -/
def entries (env : Env) (c : Choice) (L : List Entry) : Call → Outcome Answer
  | .store op a => (storeEntries env op a c L).map .store
  | .get _ bufLen getStale => (getEntries env bufLen getStale c L).map .get
  | .incr a => (incrEntries env a c L).map .incr
  | .push a => (pushEntries env a c L).map .list
  | .pop direction _ bufLen => (popEntries env direction bufLen c L).map .get
  | .llen _ => (llenEntries env c L).map .list
  | .getTtl _ => ⟨L, [], none, .code (ttlResult env c)⟩
  | .setExpire _ exptime => (setExpireEntries env exptime c L).map .code
  | .flushAll => (flushEntries env L).map .code

/-- What a call may be given: a key of 1 to 65535 bytes, as the callers see to, a value
whose size can be computed, and a time to live that is a `long`. -/
def Ok : Call → Prop
  | .store _ a => a.Ok ∧ a.exptime < 2 ^ 63
  | .incr a => KeyOk a.key ∧ a.initTtl < 2 ^ 63
  | .push a => a.Ok
  | .get key _ _ | .pop _ key _ | .llen key | .getTtl key => KeyOk key
  | .setExpire key exptime => KeyOk key ∧ exptime < 2 ^ 63
  | .flushAll => True

/-- The entries that the lookup of a call sees. A store, a counter, a push, a pop and an
llen reclaim up to two expired entries before they look. -/
def seen (env : Env) (L : List Entry) : Call → List Entry
  | .get _ _ _ | .getTtl _ | .setExpire _ _ | .flushAll => L
  | _ => afterExpire env L

/-- The call may evict by force. A store whose flags do not have `MPS_SHDICT_SAFE_STORE`
does so, and a counter that is started. -/
def forces : Call → Bool
  | .store op _ => op &&& mpsShdictSafeStoreFlag = 0
  | .incr _ => true
  | _ => false

/-- A counter is not hung up where the tree would be out of order. This is the one thing
that `mps_shdict_incr` does not see to: it inserts the node before it has copied the key. -/
def Safe (env : Env) (L : List Entry) : Call → Prop
  | .incr a => IncrSafe env a L
  | _ => True

/-- What a call takes from the tree and from the allocator. The lookup is right about what
it finds, and right about what it misses where the tree is in order (`ord`); there are no
more than 30 rounds of eviction, and none for a call that does not use force. -/
structure Picks (ord : Prop) (env : Env) (L : List Entry) (call : Call) (c : Choice) : Prop where
  finds : ∀ key, call.key = some key → Finds ord (call.seen env L) key c.found
  only : ord → ∀ key, call.key = some key → ∀ x ∈ others c.found (call.seen env L), x.key ≠ key
  rounds_le : c.alloc.rounds ≤ 30
  unforced : call.forces = false → c.alloc.rounds = 0
  /-- The chunk of a new list is none of the entries'. -/
  fresh : ∀ a, call = .push a → ∀ n, c.alloc.node = some n →
    ∀ x ∈ others c.found (afterExpire env L), x.off ≠ n

end Call

section Calls
variable {sz : Sizes} {s : Nat} {ord : Prop} {d : Shdict} {L : List Entry} {spare : List Block}
  {env : Env} {call : Call} {c : Choice}

theorem Does.map {α β : Type} {run : Nat → Option (Shdict × Option Nat × α)} {out : Outcome α}
    (f : α → β) (h : Does sz s ord d spare run out) :
    Does sz s ord d spare (fun base => (run base).map fun r =>
      (r.1, r.2.1, f r.2.2)) (out.map f) := by
  obtain ⟨d', hrun, hrep, hs⟩ := h
  refine ⟨d', ?_, hrep, hs⟩
  intro base hb
  simp only [hrun base hb, Option.map_some, Outcome.map]

/-- The lookup of a call that evicts nothing. -/
theorem Way.picks {key : Bytes} (hkey : call.key = some key)
    (hseen : call.seen env L = afterExpire env L) (h : Way ord env key L c.found)
    (hr : c.alloc.Ok call.forces) (hfresh : ∀ a, call = .push a → ∀ n, c.alloc.node = some n →
      ∀ x ∈ others c.found (afterExpire env L), x.off ≠ n) : call.Picks ord env L c := by
  refine ⟨?_, ?_, hr.rounds_le, hr.unforced, hfresh⟩
  · intro k hk
    rw [hkey, Option.some.injEq] at hk
    rw [hseen, ← hk]
    exact h.finds
  · intro ho k hk
    rw [hkey, Option.some.injEq] at hk
    rw [hseen, ← hk]
    exact h.only ho

/-- The lookup of a call that leaves the entries where they are. -/
theorem Finds.picks {key : Bytes} (hkey : call.key = some key) (hseen : call.seen env L = L)
    (h : Rep sz s ord d L spare) (hf : Finds ord L key c.found) (hr : c.alloc.rounds = 0)
    (hpush : ∀ a, call ≠ Call.push a) : call.Picks ord env L c := by
  refine ⟨?_, ?_, by omega, fun _ => hr, fun a ha => absurd ha (hpush a)⟩
  · intro k hk
    rw [hkey, Option.some.injEq] at hk
    rwa [hseen, ← hk]
  · intro ho k hk
    rw [hkey, Option.some.injEq] at hk
    rw [hseen, ← hk]
    exact others_ne h hf ho

/-- **Every call does to the pool what it does to the entries**, from wherever it comes.
For each call that may be made there is a choice for which the run of the source returns,
whatever the pool is mapped at, and leaves the entries and the answer of the model. -/
theorem Call.run_spec (env : Env) (hok : call.Ok) (h : Rep sz s ord d L spare)
    (hsafe : ord → call.Safe env L) :
    ∃ c, call.Picks ord env L c ∧
      Does sz s ord d spare (fun base => call.run sz base env d) (call.entries env c L) := by
  cases call with
  | store op a =>
    obtain ⟨c, hway, hr, hdoes⟩ := mpsShdictStore_spec env op hok.1 h
    exact ⟨c, hway.picks rfl rfl hr nofun, hdoes.map Answer.store⟩
  | get key bufLen getStale =>
    obtain ⟨c, hf, hr, hdoes⟩ := mpsShdictGet_spec env key bufLen getStale h
    exact ⟨c, hf.picks rfl rfl h hr nofun, hdoes.map Answer.get⟩
  | incr a =>
    obtain ⟨c, hway, hr, hdoes⟩ := mpsShdictIncr_spec env hok.1 h hsafe
    exact ⟨c, hway.picks rfl rfl hr nofun, hdoes.map Answer.incr⟩
  | push a =>
    obtain ⟨c, hway, hr, hfresh, hdoes⟩ := mpsShdictPushHelper_spec env hok h
    exact ⟨c, hway.picks rfl rfl ⟨by omega, fun _ => hr⟩ fun _ _ => hfresh, hdoes.map Answer.list⟩
  | pop direction key bufLen =>
    obtain ⟨c, hway, hr, hdoes⟩ := mpsShdictPopHelper_spec env direction key bufLen h
    exact ⟨c, hway.picks rfl rfl ⟨by omega, fun _ => hr⟩ nofun, hdoes.map Answer.get⟩
  | llen key =>
    obtain ⟨c, hway, hr, hdoes⟩ := mpsShdictLlen_spec env key h
    exact ⟨c, hway.picks rfl rfl ⟨by omega, fun _ => hr⟩ nofun, hdoes.map Answer.list⟩
  | getTtl key =>
    obtain ⟨c, hf, hr, hrun⟩ := mpsShdictGetTtl_spec env key h
    refine ⟨c, hf.picks rfl rfl h hr nofun, d, ?_, h, .refl _⟩
    intro base _
    simp only [Call.run, hrun, Option.map_some, Call.entries]
  | setExpire key exptime =>
    obtain ⟨c, hf, hr, hdoes⟩ := mpsShdictSetExpire_spec env key exptime h
    refine ⟨c, hf.picks rfl rfl h hr nofun, ?_⟩
    have := hdoes.map Answer.code
    simp only [Option.map_map] at this
    exact this
  | flushAll =>
    have hdoes := (mpsShdictFlushAll_spec env h).map Answer.code
    simp only [Option.map_map] at hdoes
    exact ⟨⟨none, ⟨none, 0⟩, none⟩, ⟨by simp [Call.key], by simp [Call.key], by simp, fun _ => rfl,
      nofun⟩, hdoes⟩

end Calls

/-! ### Runs -/

/-- A call of a run: where its process has mapped the pool, what it finds outside of the
pool, the entry that it leaves `sd` at, and its answer. -/
structure Event where
  base : Nat
  env : Env
  call : Call
  sd : Option Nat
  answer : Answer

/-- What an event does: a process that has the pool mapped at a page boundary makes a call
that may be made, and the call returns with the event's answer and leaves the pool as
`d'`. -/
def Event.Runs (s : Nat) (x : Event) (d d' : Shdict) : Prop :=
  2 ^ s ∣ x.base ∧ x.call.Ok ∧
    x.call.run (mpsSlabSizesInit (2 ^ s)) x.base x.env d = some (d', x.sd, x.answer)

/-- **The states that events lead to** from a fresh dictionary, the last event first. -/
inductive Run (s : Nat) : List Event → Shdict → Prop where
  | init {d : Shdict} (h : Fresh s d) : Run s [] d
  | call {xs : List Event} {d d' : Shdict} {x : Event} (run : Run s xs d) (h : x.Runs s d d') :
      Run s (x :: xs) d'

/-- A run each event of which meets the condition `G`, with the entries that it finds.
Conditions on runs are stated so, on the calls and on what they find, never on what comes
out. -/
inductive RunWith (s : Nat) (G : Event → List Entry → Prop) : List Event → Shdict → Prop where
  | init {d : Shdict} (h : Fresh s d) : RunWith s G [] d
  | call {xs : List Event} {d d' : Shdict} {x : Event} (run : RunWith s G xs d) (h : x.Runs s d d')
      (hG : G x d.entries) : RunWith s G (x :: xs) d'

/-- A run in which every counter is hung up where the tree stays in order. Stores and
pushes compare the key before they insert and need no condition. -/
abbrev SafeRun (s : Nat) : List Event → Shdict → Prop := RunWith s fun x L => x.call.Safe x.env L

section Runs
variable {s : Nat} {ord : Prop} {d d' : Shdict} {L : List Entry} {spare : List Block} {x : Event}
  {xs : List Event}

/-- What an event does to the entries. The model's call has the same answer and leaves
`sd` at the same entry, and the blocks that it leaks are added to those that nothing in
the dictionary refers to. -/
theorem Event.Runs.entries (hx : x.Runs s d d') (h : Rep (mpsSlabSizesInit (2 ^ s)) s ord d L spare)
    (hsafe : ord → x.call.Safe x.env L) :
    ∃ c, x.call.Picks ord x.env L c ∧
      Rep (mpsSlabSizesInit (2 ^ s)) s ord d' (x.call.entries x.env c L).entries
        ((x.call.entries x.env c L).leaked ++ spare) ∧
      x.sd = (x.call.entries x.env c L).sd ∧ x.answer = (x.call.entries x.env c L).result := by
  obtain ⟨hbase, hok, hrun⟩ := hx
  obtain ⟨c, hc, d'', hrun', hrep, -⟩ := Call.run_spec x.env hok h hsafe
  have he := Option.some.inj ((hrun' x.base hbase).symm.trans hrun)
  simp only [Prod.mk.injEq] at he
  obtain ⟨rfl, hsd, hanswer⟩ := he
  exact ⟨c, hc, hrep, hsd.symm, hanswer.symm⟩

/-- The pool of a run spells out some entries. Nothing is said of the order of the tree
here, so no condition on counters is needed. -/
theorem Run.rep (hs : 12 ≤ s) (hs' : s ≤ 16) (run : Run s xs d) :
    ∃ L spare, Rep (mpsSlabSizesInit (2 ^ s)) s False d L spare := by
  induction run with
  | init h => exact ⟨[], [], h.rep hs hs'⟩
  | call run h ih =>
    obtain ⟨L, spare, hrep⟩ := ih
    obtain ⟨c, -, hrep', -⟩ := h.entries hrep False.elim
    exact ⟨_, _, hrep'⟩

/-- The tree of a safe run is in order, and the pool spells out the entries that one reads
from it. -/
theorem SafeRun.rep (hs : 12 ≤ s) (hs' : s ≤ 16) (run : SafeRun s xs d) :
    ∃ spare, Rep (mpsSlabSizesInit (2 ^ s)) s True d d.entries spare := by
  have h : ∃ L spare, Rep (mpsSlabSizesInit (2 ^ s)) s True d L spare := by
    induction run with
    | init h => exact ⟨[], [], h.rep hs hs'⟩
    | call run h hsafe ih =>
      obtain ⟨L, spare, hrep⟩ := ih
      obtain ⟨c, -, hrep', -⟩ := h.entries hrep fun _ => by rwa [← hrep.entries_eq]
      exact ⟨_, _, hrep'⟩
  obtain ⟨L, spare, hrep⟩ := h
  exact ⟨spare, by rwa [hrep.entries_eq]⟩

theorem RunWith.run {G : Event → List Entry → Prop} (run : RunWith s G xs d) : Run s xs d := by
  induction run with
  | init h => exact .init h
  | call run h hG ih => exact .call ih h

theorem RunWith.mono {G G' : Event → List Entry → Prop} (h : ∀ x L, G x L → G' x L)
    (run : RunWith s G xs d) : RunWith s G' xs d := by
  induction run with
  | init h => exact .init h
  | call run hx hG ih => exact .call ih hx (h _ _ hG)

/-- **A call that may be made after a safe run**, by a process that has the pool mapped at 0. -/
theorem SafeRun.extend (hs : 12 ≤ s) (hs' : s ≤ 16) (run : SafeRun s xs d) (env : Env) (call : Call)
    (hok : call.Ok) (hsafe : call.Safe env d.entries) :
    ∃ c d', call.Picks True env d.entries c ∧ d'.entries = (call.entries env c d.entries).entries ∧
      (⟨0, env, call, (call.entries env c d.entries).sd,
        (call.entries env c d.entries).result⟩ : Event).Runs s
        d d' := by
  obtain ⟨spare, hrep⟩ := run.rep hs hs'
  obtain ⟨c, hc, d', hrun, hrep', -⟩ := Call.run_spec env hok hrep fun _ => hsafe
  exact ⟨c, d', hc, hrep'.entries_eq, ⟨Nat.dvd_zero _, hok, hrun 0 (Nat.dvd_zero _)⟩⟩

end Runs

/-! ### A pool of four pages -/

/-- The memory of a pool that `mps_slab_init` has set up, with nothing else in it. -/
def blankDict : Shdict where
  pool := (mpsSlabInit (mpsSlabSizesInit (2 ^ 12)) 0 (fun _ => ⟨0, 0, 0⟩) (fun _ => ⟨0, 0, 0, 0⟩)
    (fun _ => 0) 20480 3 0).toOption.get rfl
  rbtree := ⟨⟨0, 0, .luadict⟩, fun _ => ⟨0, 0, 0, 0, 0⟩⟩
  queue := fun _ => ⟨0, 0⟩
  sd := fun _ => ⟨.tnil, 0, 0, 0, 0, fun _ => 0⟩
  lnode := fun _ => ⟨0, .tnil, fun _ => 0⟩

/-- A dictionary with nothing in it. -/
def emptyDict : Shdict :=
  ((mpsShdictOnInit (mpsSlabSizesInit (2 ^ 12)) blankDict).get rfl).toOption.get rfl

theorem fresh_emptyDict : Fresh 12 emptyDict :=
  .intro 0 20480 3 (fun _ => ⟨0, 0, 0⟩) (fun _ => ⟨0, 0, 0, 0⟩) (fun _ => 0) (by decide) (by decide)
    (by decide) (by decide) (show _ = Except.ok blankDict.pool from rfl) rfl

theorem entries_emptyDict : emptyDict.entries = [] := by decide +kernel

/-- The double of a whole number: its sign, the place of its highest bit, and the bits
below that. From `2 ^ 53` on there would be more of these than a double has room for, so
it is used for small numbers only. -/
def Double.ofInt (n : Int) : Double :=
  let sign := if n < 0 then 2 ^ 63 else 0
  let high := n.natAbs.log2
  let bits := if n = 0 then 0 else
    sign + (high + 1023) * 2 ^ 52 + (n.natAbs * 2 ^ (52 - high) - 2 ^ 52)
  ⟨(List.range 8).map fun i => UInt8.ofNat (bits / 2 ^ (8 * i)), by simp⟩

/-- A double cut off to a whole number. -/
def Double.toInt (x : Double) : Int :=
  let bits := x.bytes.foldr (fun b n => b.toNat + 256 * n) 0
  let high := bits / 2 ^ 52 % 2 ^ 11
  let digits := 2 ^ 52 + bits % 2 ^ 52
  let n : Nat := if high < 1075 then digits / 2 ^ (1075 - high) else digits * 2 ^ (high - 1075)
  if bits < 2 ^ 63 then n else -n

/-- What a call finds outside of the pool where nothing fails and the clock stands at `t`.
The addition is that of whole numbers. -/
def calmEnv (t : Nat) : Env where
  clock := fun _ => t
  refuse := fun _ => false
  junk := ⟨.tnil, 0, 0, 0, 0, fun _ => 0⟩
  listJunk := fun _ => 0
  malloc := true
  add := fun x y => Double.ofInt (x.toInt + y.toInt)

/-- A string without a deadline and flags. -/
def stringArgs (key value : Bytes) : StoreArgs := ⟨key, .tstring, some value, Double.zero, 0, 0⟩

theorem stringArgs_ok {key value : Bytes} (hk : KeyOk key) (hv : value.length < 2 ^ 30) :
    (stringArgs key value).Ok := by
  refine ⟨hk, ?_⟩
  intro v hv'
  have hkey : (stringArgs key value).key.length < 2 ^ 16 := hk.2
  have hlen : v.length = value.length := congrArg List.length (Option.some.inj hv').symm
  simp only [offsetofColor, offsetofData]
  omega

/-- A store that gets the chunk at `node`. -/
def storeEvent (t : Nat) (key value : Bytes) (node : Nat) : Event :=
  ⟨0, calmEnv t, .set (stringArgs key value), some node, .store ⟨ngxOk, none, 0⟩⟩

/-- The state that an event leads to. -/
def Event.after (s : Nat) (x : Event) (d : Shdict) : Shdict :=
  match x.call.run (mpsSlabSizesInit (2 ^ s)) x.base x.env d with
  | some (d', _) => d'
  | none => d

theorem Event.runs_after {s : Nat} {x : Event} {d : Shdict} (hbase : 2 ^ s ∣ x.base)
    (hok : x.call.Ok) (h : (x.call.run (mpsSlabSizesInit (2 ^ s)) x.base x.env d).map Prod.snd =
      some (x.sd, x.answer)) :
    x.Runs s d (x.after s d) := by
  obtain ⟨⟨d', r⟩, hrun, rfl⟩ := Option.map_eq_some_iff.mp h
  refine ⟨hbase, hok, ?_⟩
  rw [Event.after, hrun]

/-- Two strings have been stored. -/
def twoDict : Shdict :=
  (storeEvent 6 [67] [68] 4352).after 12 ((storeEvent 5 [65] [66] 4224).after 12 emptyDict)

theorem storeEvent_ok (t : Nat) {key value : Bytes} (node : Nat) (hk : KeyOk key)
    (hv : value.length < 2 ^ 30) : (storeEvent t key value node).call.Ok :=
  ⟨stringArgs_ok hk hv, Int.pow_pos (by decide)⟩

theorem storeEvent_runs (t : Nat) {key value : Bytes} {node : Nat} {d : Shdict} (hk : KeyOk key)
    (hv : value.length < 2 ^ 30)
    (h : (((storeEvent t key value node).call.run (mpsSlabSizesInit (2 ^ 12)) 0 (calmEnv t) d).map
      Prod.snd) = some (some node, .store ⟨ngxOk, none, 0⟩)) :
    (storeEvent t key value node).Runs 12 d ((storeEvent t key value node).after 12 d) :=
  Event.runs_after (Nat.dvd_zero _) (storeEvent_ok t node hk hv) h

theorem safeRun_twoDict :
    SafeRun 12 [storeEvent 6 [67] [68] 4352, storeEvent 5 [65] [66] 4224] twoDict :=
  .call (.call (.init fresh_emptyDict)
    (storeEvent_runs 5 ⟨by decide, by decide⟩ (by decide) (by decide +kernel)) trivial)
    (storeEvent_runs 6 ⟨by decide, by decide⟩ (by decide) (by decide +kernel)) trivial

theorem run_twoDict : Run 12 [storeEvent 6 [67] [68] 4352, storeEvent 5 [65] [66] 4224] twoDict :=
  safeRun_twoDict.run

/-- The one used last is at the head of the LRU queue. -/
example : twoDict.entries.map Entry.key = [[67], [65]] := by decide +kernel

end MpsShdict
