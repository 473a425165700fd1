import MpsShdict.ShdictIncr
import MpsShdict.Lib.Expiring

/-! # A dictionary is a map

Without lists and counters a dictionary is a map from keys to values with flags and a
deadline. The map knows nothing of hashes, chunks, the LRU queue and of what has expired
and is still there.

The map is a function from keys to bindings, and `MapCall.step` is its one rule: what a
call at a time does to the binding of its key, and what it answers. An expired binding may
still be in the map; it counts for nothing, so that the map need not say when it is
reclaimed. The entries of a dictionary show the map where every key shows its binding, and
one lemma for each kind of call says that its key does so after it; other keys are kept by
what holds of all calls.

By induction on the run every answer is the one of the map. The run is one of a single
order of calls, since each call is a locked section.
-/
namespace MpsShdict

open Words

/-! ### What a store does to its key -/

/-- **What a store at the time `t` leaves of its key**, `value` being the bytes to store,
if any: it is bound to them, it is not bound, or there was no memory and it is not bound
either. -/
inductive Stored (t : Nat) (a : StoreArgs) (L' : List Entry) (r : StoreResult) :
    Option Bytes → Prop where
  | bound {bytes : Bytes} (off : Nat) (hrc : r.rc = ngxOk)
      (h : Binds a.key L' ⟨off, a.key, ofInt32 a.userFlags,
        dueAt t a.exptime, .plain a.valueType bytes⟩) :
      Stored t a L' r (some bytes)
  | unbound (hrc : r.rc = ngxOk) (h : ∀ y ∈ L', y.key ≠ a.key) : Stored t a L' r none
  | full {bytes : Bytes} (hrc : r.rc = ngxError) (hmsg : r.errmsg = some "no memory")
      (h : ∀ y ∈ L', y.key ≠ a.key) : Stored t a L' r (some bytes)

section Stored
variable {t : Nat} {a : StoreArgs} {L rest : List Entry} {env : Env} {c : Choice}
  {h : Hit} {e : Entry}
  {value : Option Bytes}

theorem storeInsertEntries_stored (ht : t < 2 ^ 62) (htime : ∀ i, env.mpsClockTimeMs i = t)
    (hexp : a.exptime < 2 ^ 63) (hown : ∀ y ∈ rest, y.key ≠ a.key) (sd : Option Nat) :
    Stored t a (storeInsertEntries env a value c rest sd).entries
      (storeInsertEntries env a value c rest sd).result value := by
  cases value with
  | none => exact .unbound rfl hown
  | some bytes =>
    have hleft : ∀ y ∈ evictEntries env 0 c.alloc.rounds rest, y.key ≠ a.key := fun y hy =>
      hown y (evictEntries_subset _ _ _ _ hy)
    unfold storeInsertEntries insertEntry
    cases c.alloc.node with
    | none => exact .full rfl rfl hleft
    | some node =>
      refine .bound node rfl ?_
      simp only [storedEntry, htime, deadline_eq ht hexp]
      exact binds_cons hleft rfl

theorem storeReplaceEntries_stored (ht : t < 2 ^ 62) (htime : ∀ i, env.mpsClockTimeMs i = t)
    (hexp : a.exptime < 2 ^ 63) (hown : ∀ y ∈ rest, y.key ≠ a.key) (hk : e.key = a.key) :
    Stored t a (storeReplaceEntries env a value c e rest).entries
      (storeReplaceEntries env a value c e rest).result value := by
  cases value with
  | none => exact .unbound rfl hown
  | some bytes =>
    unfold storeReplaceEntries
    by_cases hfit : e.fits bytes.length = true
    · simp only [if_pos hfit, htime, deadline_eq ht hexp]
      refine .bound e.off rfl ?_
      rw [← hk]
      exact binds_cons (hk ▸ hown) rfl
    · simp only [if_neg hfit]
      exact storeInsertEntries_stored ht htime hexp hown _

/-- The key stays as it is, unless it has expired. Then its entry may be there or not. -/
structure Kept (t : Nat) (key : Bytes) (L L' : List Entry) : Prop where
  subset : ∀ y ∈ L', y.key = key → y ∈ L
  keeps : ∀ y ∈ L, y.key = key → y.Live t → y ∈ L'

/-- The entry that is found is put back. -/
theorem Sees.kept {key : Bytes} (hsees : Sees t key L rest h) (he : h.entry = some e) :
    Kept t key L (e :: rest) := by
  have hm : e ∈ L ∧ e.key = key := by
    cases h with
    | live y =>
      obtain rfl := Option.some.inj he
      exact ⟨(hsees.live y rfl).1, (hsees.live y rfl).2.1⟩
    | expired y =>
      obtain rfl := Option.some.inj he
      exact ⟨(hsees.expired y rfl).1, (hsees.expired y rfl).2.1⟩
    | absent => cases he
  constructor
  · intro y hy hk
    obtain rfl := (binds_cons hsees.own hm.2 y).mp ⟨hy, hk⟩
    exact hm.1
  · intro y hy hk hl
    rw [hsees.found y hy hk hl] at he
    obtain rfl := Option.some.inj he
    exact List.mem_cons_self

/-- Nothing is found. -/
theorem Sees.kept_absent {key : Bytes} (hsees : Sees t key L rest .absent) : Kept t key L rest := by
  refine ⟨fun y hy hk => absurd hk (hsees.own y hy), ?_⟩
  intro y hy hk hl
  have := hsees.found y hy hk hl
  cases this

/-- The live entry that has been found. An expired one counts as none. -/
def Hit.live? : Hit → Option Entry
  | .live e => some e
  | .expired _ | .absent => none

/-- A live entry has been found. -/
def Hit.present (h : Hit) : Bool := h.live?.isSome

/-- A store with the flags `op` takes its value: a replace where the key is present, an
add where it is absent, any other store always. -/
def opTakes (op : Nat) (present : Bool) : Bool :=
  if op &&& mpsShdictReplaceFlag ≠ 0 then present
  else if op &&& mpsShdictAddFlag ≠ 0 then !present
  else true

/-- **A store binds its key or leaves it alone**, as its flags say. In the second case it
answers `NGX_DECLINED`. -/
theorem storeFoundEntries_stored (env : Env) (op : Nat) (c : Choice) (value : Option Bytes)
    (ht : t < 2 ^ 62) (htime : ∀ i, env.mpsClockTimeMs i = t) (hexp : a.exptime < 2 ^ 63)
    (hsees : Sees t a.key L rest h) :
    if opTakes op h.present then
      Stored t a (storeFoundEntries env op a value c rest h).entries
        (storeFoundEntries env op a value c rest h).result value
    else (storeFoundEntries env op a value c rest h).result.rc = ngxDeclined ∧
      Kept t a.key L (storeFoundEntries env op a value c rest h).entries := by
  have hinsert : ∀ sd, Stored t a (storeInsertEntries env a value c rest sd).entries
      (storeInsertEntries env a value c rest sd).result value :=
    storeInsertEntries_stored ht htime hexp hsees.own
  have hreplace : ∀ e, e.key = a.key → Stored t a (storeReplaceEntries env a value c e rest).entries
      (storeReplaceEntries env a value c e rest).result value :=
    fun e => storeReplaceEntries_stored ht htime hexp hsees.own
  unfold opTakes storeFoundEntries
  by_cases hrep : op &&& mpsShdictReplaceFlag ≠ 0
  · simp only [if_pos hrep]
    cases h with
    | live e => exact hreplace e (hsees.live e rfl).2.1
    | expired e => exact ⟨rfl, hsees.kept rfl⟩
    | absent => exact ⟨rfl, hsees.kept_absent⟩
  · simp only [if_neg hrep]
    by_cases hadd : op &&& mpsShdictAddFlag ≠ 0
    · simp only [if_pos hadd]
      cases h with
      | live e => exact ⟨rfl, hsees.kept rfl⟩
      | expired e => exact hreplace e (hsees.expired e rfl).2.1
      | absent => exact hinsert none
    · simp only [if_neg hadd, if_true]
      cases h with
      | live e => exact hreplace e (hsees.live e rfl).2.1
      | expired e => exact hreplace e (hsees.expired e rfl).2.1
      | absent => exact hinsert none

end Stored

/-! ### The map -/

/-- What an entry holds, wherever it is. The offsets of list nodes are left out. -/
inductive Content where
  | plain (valueType : ValueType) (bytes : Bytes)
  | list (elems : List (ValueType × Bytes))
  deriving DecidableEq

def Value.content : Value → Content
  | .plain valueType bytes => .plain valueType bytes
  | .list elems => .list (elems.map fun x => (x.valueType, x.bytes))

/-! ### What the entries show -/

/-- A binding has the key and the deadline of the entry that it is read from. What else it
holds differs between a map and a map with lists. -/
structure EntryView {B : Type} (V : Expiring.View Entry Bytes B) : Prop where
  key : ∀ e, V.key e = e.key
  deadline : ∀ e, V.deadline (V.binding e) = e.expires

section EntryView
variable {B : Type} {V : Expiring.View Entry Bytes B} {t : Nat} {key : Bytes}
  {L L' rest : List Entry} {o : Option B} {h : Hit} {e : Entry}

theorem EntryView.liveItem_iff (hV : EntryView V) (hne : e.expires ≠ 0 → e.expires ≠ t) :
    V.LiveItem t e ↔ e.Live t := by
  rw [Expiring.View.LiveItem, hV.deadline, Expiring.Live, Entry.Live]
  omega

/-- What counts of a binding is what a call sees. An entry that is live shows its binding,
and one that has expired shows nothing that counts. -/
theorem Sees.current (hV : EntryView V) (hsees : Sees t key L rest h)
    (hne : ∀ e ∈ L, e.key = key → e.expires ≠ 0 → e.expires ≠ t) (hs : Expiring.Shows V t key L o) :
    V.current t o = h.live?.map V.binding := by
  have hnone : (∀ e, h ≠ .live e) → V.current t o = none := fun hh =>
    hs.current_none fun e he hk hl => by
      rw [hV.key] at hk
      exact hh e (hsees.found e he hk ((hV.liveItem_iff (hne e he hk)).mp hl))
  cases h with
  | live e =>
    obtain ⟨hm, hk, hl⟩ := hsees.live e rfl
    exact hs.current_eq hm ((hV.key e).trans hk) ((hV.liveItem_iff (hne e hm hk)).mpr hl)
  | expired e => exact hnone (by simp)
  | absent => exact hnone (by simp)

/-- The only entry of a key shows its binding. -/
theorem Binds.shows (hV : EntryView V) (hb : Binds key L e) :
    Expiring.Shows V t key L (some (V.binding e)) :=
  .single fun y => by rw [hV.key]; exact hb y

/-- Where no entry has the key, nothing is bound. -/
theorem shows_none (hV : EntryView V) (hnone : ∀ y ∈ L, y.key ≠ key) :
    Expiring.Shows V t key L none :=
  .none fun y hy => by rw [hV.key]; exact hnone y hy

/-- A key that is kept shows the same. What may have gone had expired. -/
theorem Kept.shows (hV : EntryView V) (hk : Kept t key L L')
    (hne : ∀ e ∈ L, e.key = key → e.expires ≠ 0 → e.expires ≠ t) (hs : Expiring.Shows V t key L o) :
    Expiring.Shows V t key L' o := by
  refine hs.frame ?_ ?_
  · intro e he hek
    rw [hV.key] at hek
    exact hk.subset e he hek
  · intro e he hek hl
    rw [hV.key] at hek
    exact hk.keeps e he hek ((hV.liveItem_iff (hne e he hek)).mp hl)

end EntryView

/-! ### The bindings of the map -/

/-- What the map binds a key to: a value, its flags as the signed number that they were
given as, and a deadline. -/
structure MapBinding where
  content : Content
  userFlags : Int
  deadline : Nat
  deriving DecidableEq

/-- An entry stands for a binding of its key. -/
def mapView : Expiring.View Entry Bytes MapBinding where
  key := Entry.key
  binding e := ⟨e.value.content, int32 e.userFlags, e.expires⟩
  deadline := MapBinding.deadline

/-- The stores: `mps_shdict_set`, `mps_shdict_safe_set`, `mps_shdict_add`,
`mps_shdict_safe_add` and `mps_shdict_replace`. -/
inductive StoreKind where
  | set | safeSet | add | safeAdd | replace
  deriving DecidableEq

def StoreKind.call (a : StoreArgs) : StoreKind → Call
  | .set => .set a
  | .safeSet => .safeSet a
  | .add => .add a
  | .safeAdd => .safeAdd a
  | .replace => .replace a

/-- Whether the value is taken, for a key that is present or absent. A safe store takes it
like the store of the same kind; what it does not do is evict. -/
def StoreKind.takes (present : Bool) : StoreKind → Bool
  | .set | .safeSet => true
  | .add | .safeAdd => !present
  | .replace => present

/-- Whether a store of nil takes the key out.  The others refuse it. -/
def StoreKind.erases : StoreKind → Bool
  | .set | .safeSet => true
  | .add | .safeAdd | .replace => false

/-- A call of the map. A store of nil is a call of its own, since it takes a key out or is
refused. -/
inductive MapCall where
  | store (kind : StoreKind) (a : StoreArgs)
  /-- A store of nil. -/
  | erase (kind : StoreKind) (a : StoreArgs)
  | delete (key : Bytes)
  | get (key : Bytes) (bufLen : Nat)

namespace MapCall

def key : MapCall → Bytes
  | .store _ a => a.key
  | .erase _ a => a.key
  | .delete key => key
  | .get key _ => key

def call : MapCall → Call
  | .store kind a => kind.call a
  | .erase kind a => kind.call a
  | .delete key => .delete key
  | .get key bufLen => .get key bufLen false

end MapCall

/-- The bytes of a value that is a boolean, a number or a string. -/
def StoreArgs.bytes (a : StoreArgs) : Bytes :=
  match a.valueType with
  | .tboolean => [if a.numValue.isZero then 0 else 1]
  | .tnumber => a.numValue.bytes
  | _ => a.strValue.getD []

/-- What a store at the time `t` binds its key to. The deadline is zero if there is no
time to live. -/
def StoreArgs.binding (a : StoreArgs) (t : Nat) : MapBinding :=
  ⟨.plain a.valueType a.bytes, a.userFlags, dueAt t a.exptime⟩

/-- What the map answers: a code, or what a read has found, if anything. -/
inductive MapAnswer where
  | code (rc : Int)
  | found (b : Option MapBinding)

/-- **What a call at the time `t` does to the binding of its key**, and its answer. -/
def MapCall.step (t : Nat) (o : Option MapBinding) : MapCall → Option MapBinding × MapAnswer
  | .store kind a =>
    if kind.takes (mapView.current t o).isSome then (some (a.binding t), .code ngxOk)
    else (o, .code ngxDeclined)
  | .erase kind _ => if kind.erases then (none, .code ngxOk) else (o, .code ngxError)
  | .delete _ => (none, .code ngxOk)
  | .get _ _ => (o, .found (mapView.current t o))

/-- The bytes that a read hands out, as a number or as a string. -/
def GetResult.value (r : GetResult) : Option Bytes :=
  match r.numValue with
  | some x => some x.bytes
  | none => r.strValue

/-- A read hands out what is bound: its type, its bytes with their number, and its flags. -/
structure GetResult.Reads (r : GetResult) (b : MapBinding) : Prop where
  rc : r.rc = ngxOk
  content : ∃ valueType bytes, b.content = .plain valueType bytes ∧ r.valueType = some valueType ∧
    r.value = some bytes ∧ ∀ n, r.strLen = some n → n = bytes.length
  userFlags : r.userFlags = some b.userFlags

/-- A read has found no room for a string: the buffer is too short, and `malloc` gives
nothing longer. -/
def GetResult.NoRoom (r : GetResult) (b : MapBinding) (env : Env) (bufLen : Nat) : Prop :=
  r.rc = ngxError ∧ env.malloc = false ∧
  ∃ bytes, b.content = .plain .tstring bytes ∧ bufLen < bytes.length

/-- The answer of a call is the one of the map. A store has the code, and a read what is
bound, or a nil where nothing is. -/
def MapCall.Answers (env : Env) : MapCall → MapAnswer → Answer → Prop
  | .get _ bufLen, .found (some b), .get r => r.Reads b ∨ r.NoRoom b env bufLen
  | .get _ _, .found none, .get r => r.rc = ngxOk ∧ r.valueType = some .tnil
  | .store _ _, .code rc, .store r | .erase _ _, .code rc, .store r
  | .delete _, .code rc, .store r => r.rc = rc
  | _, _, _ => False

/-! ### Runs of the map -/

/-- A call of a run, with what it leaves `sd` at and what it answers. -/
structure MapEvent where
  base : Nat
  env : Env
  call : MapCall
  sd : Option Nat
  answer : Answer

/-- The value is a boolean, a number or a string, and the flags are an `int`. -/
structure StoreArgs.Plain (a : StoreArgs) : Prop where
  value : a.valueType = .tboolean ∨ a.valueType = .tnumber ∨
    a.valueType = .tstring ∧ a.strValue ≠ none
  userFlags : -2 ^ 31 ≤ a.userFlags ∧ a.userFlags < 2 ^ 31

/-- What a call of the map may be given. -/
def MapCall.Plain : MapCall → Prop
  | .store _ a => a.Plain
  | .erase _ a => a.valueType = .tnil
  | .delete _ => True
  | .get _ bufLen => 1 ≤ bufLen

namespace MapEvent

def event (y : MapEvent) : Event := ⟨y.base, y.env, y.call.call, y.sd, y.answer⟩

def time (y : MapEvent) : Nat := y.env.clock 0

/-- The clock stands still during the call, at the deadline of no entry, and the call
does not report a lack of memory. -/
structure Fair (y : MapEvent) (L : List Entry) : Prop where
  plain : y.call.Plain
  still : ∀ i, y.env.clock i = y.time
  undue : ∀ e ∈ L, e.expires ≠ 0 → e.expires ≠ y.time
  unfailing : ∀ r, y.answer = .store r → r.errmsg ≠ some "no memory" ∧ r.forcible = false

/-- The map after the call. -/
def map (y : MapEvent) (m : Bytes → Option MapBinding) : Bytes → Option MapBinding :=
  Function.update m y.call.key (y.call.step y.time (m y.call.key)).1

end MapEvent

/-- The states that calls of the map lead to from a fresh dictionary, the last call first. -/
inductive MapRun (s : Nat) : List MapEvent → Shdict → Prop where
  | init {d : Shdict} (h : Fresh s d) : MapRun s [] d
  | call {ys : List MapEvent} {d d' : Shdict} {y : MapEvent} (run : MapRun s ys d)
      (h : y.event.Runs s d d') (hy : y.Fair d.entries) : MapRun s (y :: ys) d'

/-- The map after the calls. It is computed from them alone, without any dictionary. -/
def mapAfter : List MapEvent → Bytes → Option MapBinding
  | [] => fun _ => none
  | y :: ys => y.map (mapAfter ys)

/-- Every call has answered what the map does. -/
def AnswersAsMap : List MapEvent → Prop
  | [] => True
  | y :: ys =>
    y.call.Answers y.env (y.call.step y.time (mapAfter ys y.call.key)).2 y.answer ∧ AnswersAsMap ys

/-! ### The entries show the map -/

section Shows
variable {t : Nat} {key : Bytes} {L L' rest : List Entry} {o : Option MapBinding} {h : Hit}
  {e : Entry} {env : Env} {c : Choice} {a : StoreArgs} {kind : StoreKind} {v : Bytes}

theorem mapView_entry : EntryView mapView := ⟨fun _ => rfl, fun _ => rfl⟩

theorem Sees.present (hsees : Sees t key L rest h) (hne : ∀ e ∈ L, e.expires ≠ 0 → e.expires ≠ t)
    (hs : Expiring.Shows mapView t key L o) : (mapView.current t o).isSome = h.present := by
  rw [hsees.current mapView_entry (fun e he _ => hne e he) hs]
  cases h <;> rfl

/-- A kind of store takes its value as its flags say. -/
theorem opTakes_kind (kind : StoreKind) (a : StoreArgs) (present : Bool) :
    ∃ op, kind.call a = .store op a ∧
    opTakes op present = kind.takes present := by
  cases kind with
  | set => exact ⟨_, rfl, by cases present <;> rfl⟩
  | safeSet => exact ⟨_, rfl, by cases present <;> rfl⟩
  | add => exact ⟨_, rfl, by cases present <;> rfl⟩
  | safeAdd => exact ⟨_, rfl, by cases present <;> rfl⟩
  | replace => exact ⟨_, rfl, by cases present <;> rfl⟩

theorem StoreArgs.Plain.storeValue (ha : a.Plain) (op : Nat) :
    storeValue op a = .ok (some a.bytes) := by
  unfold MpsShdict.storeValue StoreArgs.bytes
  rcases ha.value with hty | hty | ⟨hty, hv⟩
  · rw [hty]
  · rw [hty]
  · obtain ⟨v, hv⟩ := Option.ne_none_iff_exists'.mp hv
    rw [hty, hv]
    rfl

/-- Flags that are an `int` come back as they were. -/
theorem int32_ofInt32 {x : Int} (h : -2 ^ 31 ≤ x ∧ x < 2 ^ 31) : int32 (ofInt32 x) = x := by
  unfold int32 ofInt32
  omega

/-- What a store leaves of its key shows what it has bound, if it has not failed for lack
of memory. -/
theorem Stored.shows {r : StoreResult} (ha : a.Plain) (h : Stored t a L' r (some a.bytes))
    (hok : r.errmsg ≠ some "no memory") :
    Expiring.Shows mapView t a.key L' (some (a.binding t)) ∧ r.rc = ngxOk := by
  cases h with
  | full hrc hmsg => exact absurd hmsg hok
  | bound off hrc hb =>
    have hshows : Expiring.Shows mapView t a.key L' (some (mapView.binding
        ⟨off, a.key, ofInt32 a.userFlags, dueAt t a.exptime, .plain a.valueType a.bytes⟩)) :=
      hb.shows mapView_entry
    refine ⟨?_, hrc⟩
    have hbinding : mapView.binding ⟨off, a.key, ofInt32 a.userFlags, dueAt t a.exptime,
        .plain a.valueType a.bytes⟩ = a.binding t := by
      simp only [mapView, Value.content, StoreArgs.binding, int32_ofInt32 ha.userFlags]
    rwa [← hbinding]

/-- A call at the time `t` on the entries `L`, none of which is due just then. The clock
stands still during the call. -/
structure Moment (t : Nat) (env : Env) (L : List Entry) : Prop where
  small : t < 2 ^ 62
  clock : ∀ i, env.mpsClockTimeMs i = t
  due : DueBy t L
  distinct : ∀ x ∈ L, ∀ y ∈ L, x.key = y.key → x = y
  undue : ∀ e ∈ L, e.expires ≠ 0 → e.expires ≠ t

theorem Moment.undueOf {key : Bytes} (hm : Moment t env L) :
    ∀ e ∈ L, e.key = key → e.expires ≠ 0 → e.expires ≠ t := fun e he _ => hm.undue e he

theorem Moment.sees {call : Call} (hm : Moment t env L) (hc : call.Picks True env L c)
    (hkey : call.key = some key) (hseen : call.seen env L = afterExpire env L) :
    Sees t key L (others c.found (afterExpire env L)) (hit t c.found) :=
  hc.sees hkey hseen hm.small hm.clock hm.due hm.distinct fun e he _ => hm.undue e he

/-- **A store does to its key what the map does.** It takes its value or leaves the key
alone, in both cases as the flags say of what is live. -/
theorem storeEntries_shows (hm : Moment t env L) (hc : (kind.call a).Picks True env L c)
    (hexp : a.exptime < 2 ^ 63) (ha : a.Plain) (hs : Expiring.Shows mapView t a.key L o)
    (hok : ∀ r, ((kind.call a).entries env c L).result = .store r → r.errmsg ≠ some "no memory") :
    Expiring.Shows mapView t a.key ((kind.call a).entries env c L).entries
      ((MapCall.store kind a).step t o).1 ∧
      (MapCall.store kind a).Answers env ((MapCall.store kind a).step t o).2
        ((kind.call a).entries env c L).result := by
  obtain ⟨op, hop, htakes⟩ := opTakes_kind kind a (hit t c.found).present
  rw [hop] at hc hok ⊢
  have hsees := hm.sees hc rfl rfl
  have hpresent := hsees.present hm.undue hs
  have hstore := storeFoundEntries_stored env op c (some a.bytes) hm.small hm.clock hexp hsees
  simp only [Call.entries, Outcome.map, storeEntries,
    ha.storeValue op, hm.clock, MapCall.step, hpresent, htakes] at hstore hok ⊢
  cases htake : kind.takes (hit t c.found).present with
  | true =>
    rw [htake, if_pos rfl] at hstore
    rw [if_pos rfl]
    exact hstore.shows ha (hok _ rfl)
  | false =>
    rw [htake, if_neg (by decide)] at hstore
    rw [if_neg (by decide)]
    exact ⟨hstore.2.shows mapView_entry hm.undueOf hs, hstore.1⟩

/-- A store of nil takes its key out, or is refused. -/
theorem StoreKind.call_nil (ha : a.valueType = .tnil) : ∃ op, kind.call a = .store op a ∧
    if kind.erases then (∀ present, opTakes op present = true) ∧ storeValue op a = .ok none
    else storeValue op a = .error "attempt to add or replace nil values" := by
  have hnil : ∀ op, storeValue op a =
      if op &&& (mpsShdictAddFlag ||| mpsShdictReplaceFlag) ≠ 0 then
        .error "attempt to add or replace nil values" else .ok none := by
    intro op
    simp only [storeValue, ha]
  cases kind with
  | set | safeSet => exact ⟨_, rfl, fun _ => rfl, hnil _⟩
  | add | safeAdd | replace => exact ⟨_, rfl, hnil _⟩

/-- A store of nil does to its key what the map does: it takes it out, or is refused and
changes nothing. -/
theorem eraseEntries_shows (hm : Moment t env L) (hc : (kind.call a).Picks True env L c)
    (hexp : a.exptime < 2 ^ 63) (ha : a.valueType = .tnil)
    (hs : Expiring.Shows mapView t a.key L o) :
    Expiring.Shows mapView t a.key ((kind.call a).entries env c L).entries
        ((MapCall.erase kind a).step t o).1 ∧
      (MapCall.erase kind a).Answers env ((MapCall.erase kind a).step t o).2
        ((kind.call a).entries env c L).result := by
  obtain ⟨op, hop, hvalue⟩ := kind.call_nil ha
  rw [hop] at hc ⊢
  cases herases : kind.erases with
  | true =>
    obtain ⟨htakes, hvalue⟩ : (∀ present, opTakes op present = true) ∧
      storeValue op a = .ok none := by
      rwa [herases] at hvalue
    have hstore := storeFoundEntries_stored env op c none hm.small hm.clock hexp
      (hm.sees hc rfl rfl)
    rw [htakes, if_pos rfl] at hstore
    simp only [MapCall.step, herases, if_true, Call.entries,
      Outcome.map, storeEntries, hvalue, hm.clock]
    cases hstore with
    | unbound hrc hb => exact ⟨.none hb, hrc⟩
  | false =>
    replace hvalue : storeValue op a = .error "attempt to add or replace nil values" := by
      rwa [herases] at hvalue
    simp only [MapCall.step, herases, Call.entries, Outcome.map, storeEntries, hvalue]
    exact ⟨hs, rfl⟩

/-- A delete is a store of nil. -/
theorem deleteEntries_shows {key : Bytes} (hm : Moment t env L)
    (hc : (Call.delete key).Picks True env L c) (hs : Expiring.Shows mapView t key L o) :
    Expiring.Shows mapView t key ((Call.delete key).entries env c L).entries
      ((MapCall.delete key).step t o).1 ∧
      (MapCall.delete key).Answers env ((MapCall.delete key).step t o).2
        ((Call.delete key).entries env c L).result :=
  eraseEntries_shows (a := ⟨key, .tnil, none, Double.zero, 0, 0⟩) hm
    (show (StoreKind.set.call ⟨key, .tnil, none, Double.zero, 0, 0⟩).Picks True env L c from hc)
    (show (0 : Int) < 2 ^ 63 by decide) rfl hs

/-- What a read of a value hands out. -/
theorem valueResult_reads {bytes : Bytes} {valueType : ValueType} {userFlags bufLen : Nat}
    (ht : (Value.plain valueType bytes).Typed) (hroom : 1 ≤ bufLen) (deadline : Nat) :
    (valueResult env (.plain valueType bytes) userFlags bufLen false false).Reads
        ⟨.plain valueType bytes, int32 userFlags, deadline⟩ ∨
      (valueResult env (.plain valueType bytes) userFlags bufLen false false).NoRoom
        ⟨.plain valueType bytes, int32 userFlags, deadline⟩ env bufLen := by
  unfold valueResult
  dsimp only
  rcases ht with rfl | ⟨rfl, hsize⟩ | ⟨rfl, hsize⟩
  · by_cases hshort : bufLen < bytes.length ∧ (ValueType.tstring = .tboolean ∨
        ValueType.tstring = .tstring ∧ ¬ env.malloc)
    · rw [if_pos hshort]
      exact .inr ⟨rfl, by simpa using hshort.2, bytes, rfl, hshort.1⟩
    · rw [if_neg hshort]
      exact .inl ⟨rfl, ⟨_, _, rfl, rfl, rfl, fun n hn => (Option.some.inj hn).symm⟩, rfl⟩
  · rw [if_neg (by simp)]
    simp only [dif_pos (show bytes.length = 8 from hsize)]
    exact .inl ⟨rfl, ⟨_, _, rfl, rfl, rfl, fun n hn => (Option.some.inj hn).symm⟩, rfl⟩
  · rw [if_neg (by omega)]
    simp only [if_neg (not_not.mpr hsize)]
    exact .inl ⟨rfl, ⟨_, _, rfl, rfl, rfl, fun n hn => by cases hn⟩, rfl⟩

/-- What a read at the time `t` sees. -/
theorem Moment.sees_all (hm : Moment t env L) {key : Bytes} {bufLen : Nat}
    (hc : (Call.get key bufLen false).Picks True env L c) :
    Sees t key L (others c.found L) (hit t c.found) := by
  have hs := MpsShdict.sees (M := L) (R := []) hm.small
    (by simpa using hm.due) (by simp) (hc.finds key rfl)
    (hc.only trivial key rfl) (by simpa using hm.distinct)
    (by simpa using fun e he _ => hm.undue e he)
  rwa [List.append_nil] at hs

/-- **A read hands out what the map binds**, and leaves its key alone. -/
theorem getEntries_shows {bufLen : Nat} (hm : Moment t env L)
    (hc : (Call.get key bufLen false).Picks True env L c) (hroom : 1 ≤ bufLen)
    (hty : ∀ e ∈ L, e.value.Typed) (hs : Expiring.Shows mapView t key L o)
    (hplain : ∀ b, o = some b → ∃ valueType bytes, b.content = .plain valueType bytes) :
    Expiring.Shows mapView t key ((Call.get key bufLen false).entries env c L).entries
        ((MapCall.get key bufLen).step t o).1 ∧
      (MapCall.get key bufLen).Answers env ((MapCall.get key bufLen).step t o).2
        ((Call.get key bufLen false).entries env c L).result := by
  have hsees := hm.sees_all hc
  have hcurrent := hsees.current mapView_entry hm.undueOf hs
  have hh := hit_entry t c.found
  have hentries : ((Call.get key bufLen false).entries env c L).entries =
      lookupEntries c.found L := by
    simp only [Call.entries, Outcome.map, getEntries, hm.clock]
    cases hit t c.found <;> rfl
  rw [hentries]
  simp only [MapCall.step, hcurrent, Call.entries, Outcome.map, getEntries, hm.clock]
  -- an expired entry is moved to the head and read as nil, like none
  cases hhit : hit t c.found with
  | absent =>
    rw [hhit] at hsees hh
    have hfound : c.found = none := hh.symm
    rw [hfound] at hsees ⊢
    exact ⟨hsees.kept_absent.shows mapView_entry hm.undueOf hs, rfl, rfl⟩
  | expired e =>
    rw [hhit] at hsees hh
    have hfound : c.found = some e := hh.symm
    rw [hfound] at hsees ⊢
    exact ⟨(hsees.kept rfl).shows mapView_entry hm.undueOf hs, rfl, rfl⟩
  | live e =>
    rw [hhit] at hsees hh
    have hfound : c.found = some e := hh.symm
    rw [hfound] at hsees ⊢
    refine ⟨(hsees.kept rfl).shows mapView_entry hm.undueOf hs, ?_⟩
    obtain ⟨he, hk, hl⟩ := hsees.live e rfl
    have ho := hs.bound e he hk ((mapView_entry.liveItem_iff (hm.undue e he)).mpr hl)
    obtain ⟨valueType, bytes, hcontent⟩ := hplain _ ho
    cases hv : e.value with
    | list elems =>
      simp [mapView, hv, Value.content] at hcontent
    | plain valueType bytes =>
      have htyped := hty e he
      rw [hv] at htyped
      have hbinding : mapView.binding e =
          ⟨.plain valueType bytes, int32 e.userFlags, e.expires⟩ := by
        simp only [mapView, hv, Value.content]
      simp only [Hit.live?, Option.map_some, hbinding, hv]
      exact valueResult_reads htyped hroom e.expires

end Shows

/-! ### Runs are runs of the map -/

section Runs
variable {s : Nat} {d : Shdict} {ys : List MapEvent} {y : MapEvent} {t : Nat}
  {L : List Entry} {c : Choice} {m : Bytes → Option MapBinding}

theorem MapCall.key_call (call : MapCall) : call.call.key = some call.key := by
  cases call with
  | store kind a => cases kind <;> rfl
  | erase kind a => cases kind <;> rfl
  | delete key => rfl
  | get key bufLen => rfl

/-- No call of the map is a counter. -/
theorem MapCall.safe (call : MapCall) (env : Env) (L : List Entry) : call.call.Safe env L := by
  cases call with
  | store kind a => cases kind <;> trivial
  | erase kind a => cases kind <;> trivial
  | delete key => trivial
  | get key bufLen => trivial

theorem MapRun.safeRun (run : MapRun s ys d) : SafeRun s (ys.map MapEvent.event) d := by
  induction run with
  | init h => exact .init h
  | call run h hy ih => exact .call ih h (MapCall.safe _ _ _)

/-- The map holds no lists. -/
theorem mapAfter_plain (ys : List MapEvent) (key : Bytes) (b : MapBinding)
    (h : mapAfter ys key = some b) :
    ∃ valueType bytes, b.content = .plain valueType bytes := by
  -- induction on the calls; only a store that is taken changes what its key is bound to
  induction ys with
  | nil => cases h
  | cons y ys ih =>
    by_cases hk : key = y.call.key
    · subst hk
      rw [mapAfter, MapEvent.map, Function.update_self] at h
      cases hcall : y.call with
      | store kind a =>
        rw [hcall] at h ih
        simp only [MapCall.step] at h
        split at h
        · obtain rfl := Option.some.inj h
          exact ⟨_, _, rfl⟩
        · exact ih h
      | erase kind a =>
        rw [hcall] at h ih
        simp only [MapCall.step] at h
        split at h
        · cases h
        · exact ih h
      | delete k =>
        rw [hcall] at h
        cases h
      | get k bufLen =>
        rw [hcall] at h ih
        exact ih h
    · rw [mapAfter, MapEvent.map, Function.update_of_ne hk] at h
      exact ih h

/-- No call of a fair run evicts by force. -/
theorem MapEvent.unforced (hfair : y.Fair L)
    (hanswer : y.answer = (y.call.call.entries y.env c L).result) :
    y.answer.rounds = 0 := by
  have hform : (∃ r, y.answer = .store r) ∨ ∃ r, y.answer = .get r := by
    rw [hanswer]
    cases y.call with
    | store kind a => cases kind <;> exact .inl ⟨_, rfl⟩
    | erase kind a => cases kind <;> exact .inl ⟨_, rfl⟩
    | delete key => exact .inl ⟨_, rfl⟩
    | get key bufLen => exact .inr ⟨_, rfl⟩
  rcases hform with ⟨r, hr⟩ | ⟨r, hr⟩
  · rw [hr]
    exact Answer.rounds_of_forcible (r := .store r) (hfair.unfailing r hr).2
  · rw [hr]
    rfl

/-- **A call does to its key what the map does**, and answers so. One case for each kind
of call. -/
theorem MapEvent.own (hm : Moment y.time y.env L) (hfair : y.Fair L) (hok : y.call.call.Ok)
    (hc : y.call.call.Picks True y.env L c)
    (hanswer : y.answer = (y.call.call.entries y.env c L).result)
    (hty : ∀ e ∈ L, e.value.Typed) (hs : Expiring.Shows mapView y.time y.call.key L (m y.call.key))
    (hplain : ∀ b, m y.call.key = some b → ∃ valueType bytes, b.content = .plain valueType bytes) :
    Expiring.Shows mapView y.time y.call.key
      (y.call.call.entries y.env c L).entries (y.map m y.call.key) ∧
      y.call.Answers y.env (y.call.step y.time (m y.call.key)).2 y.answer := by
  have hplainCall := hfair.plain
  have hunfailing := hfair.unfailing
  rw [MapEvent.map, Function.update_self]
  rw [hanswer] at hunfailing ⊢
  cases hcall : y.call with
  | store kind a =>
    rw [hcall] at hok hc hs hplainCall hunfailing
    have hexp : a.exptime < 2 ^ 63 := by
      cases kind <;> exact hok.2
    exact storeEntries_shows hm hc hexp hplainCall hs fun r hr => (hunfailing r hr).1
  | erase kind a =>
    rw [hcall] at hok hc hs hplainCall
    have hexp : a.exptime < 2 ^ 63 := by
      cases kind <;> exact hok.2
    exact eraseEntries_shows hm hc hexp hplainCall hs
  | delete key =>
    rw [hcall] at hc hs
    exact deleteEntries_shows hm hc hs
  | get key bufLen =>
    rw [hcall] at hc hs hplain hplainCall
    exact getEntries_shows hm hc hplainCall hty hs hplain

/-- **The entries show the map**, and every call has answered what the map does, in every
run of its calls on a clock that does not run backwards. -/
theorem MapRun.shows (hs : 12 ≤ s) (hs' : s ≤ 16) (run : MapRun s ys d)
    (hclock : Nondecreasing (ys.map MapEvent.event)) :
    (∀ t, (∀ y ∈ ys, y.time ≤ t) →
      ∀ key, Expiring.Shows mapView t key d.entries (mapAfter ys key)) ∧
      AnswersAsMap ys := by
  induction run with
  | init h =>
    refine ⟨?_, trivial⟩
    intro t _ key
    have hrep : Rep (mpsSlabSizesInit (2 ^ s)) s True _ [] [] := h.rep hs hs'
    rw [hrep.entries_eq]
    exact .none (by simp)
  | call run hx hfair ih =>
    next ys d d' y =>
    have hclock' : Nondecreasing (ys.map MapEvent.event) :=
      ⟨fun x hx => hclock.below x (List.mem_cons_of_mem _ hx),
        fun x hx => hclock.within x (List.mem_cons_of_mem _ hx),
        (List.pairwise_cons.mp hclock.across).2⟩
    obtain ⟨hshows, hanswers⟩ := ih hclock'
    obtain ⟨spare, hrep⟩ := SafeRun.rep hs hs' run.safeRun
    obtain ⟨L, spare', hrep₀, hinv⟩ := run.safeRun.run.recency hs hs'
    obtain rfl : d.entries = L := hrep₀.entries_eq
    obtain ⟨c, hc, hrep', -, hanswer⟩ := hx.entries hrep fun _ => MapCall.safe _ _ _
    -- others lose no live entry, since the call evicts nothing by force
    have hold := hinv.evictsOldest hclock hrep.laid.off_nodup hc hanswer
    have hearlier : ∀ y' ∈ ys, y'.time ≤ y.time := fun y' hy' =>
      (List.pairwise_cons.mp hclock.across).1 _ (List.mem_map_of_mem hy') 0 0
    have hlt : ∀ i, y.env.clock i < 2 ^ 62 := hclock.below y.event List.mem_cons_self
    have hm : Moment y.time y.env d.entries := by
      refine ⟨hlt 0, ?_, hinv.dueBy hclock 0,
        fun e he z hz => hrep.key_inj trivial he hz, hfair.undue⟩
      intro i
      rw [Env.mpsClockTimeMs_of_lt (hlt i), hfair.still i]
    have hall := hshows y.time hearlier
    obtain ⟨hown, hanswers'⟩ :=
      MapEvent.own hm hfair hx.2.1 hc hanswer (run.safeRun.run.typed hs hs') (hall _)
      (mapAfter_plain ys _)
    refine ⟨?_, hanswers', hanswers⟩
    intro t ht key
    rw [hrep'.entries_eq]
    refine Expiring.Shows.later ?_ (ht y List.mem_cons_self)
    -- the key of the call, and every other key
    by_cases hk : key = y.call.key
    · rw [hk]
      exact hown
    · have hother : mapAfter (y :: ys) key = mapAfter ys key := Function.update_of_ne hk _ _
      rw [hother]
      refine (hall key).frame (fun e he hek => hold.same (MapCall.key_call _) he ?_) ?_
      · exact fun h => hk (hek.symm.trans h)
      · intro e he hek hl
        refine hold.keeps (MapCall.key_call _) (MapEvent.unforced hfair hanswer) he ?_ ?_
        · exact fun h => hk (hek.symm.trans h)
        · rw [show y.event.env.clock 1 = y.time from hfair.still 1]
          exact (mapView_entry.liveItem_iff (hfair.undue e he)).mp hl

/-- **A dictionary answers as a map does**, in every run of stores, deletes and reads that
finds the memory it needs. Neither the order of recency nor what has been reclaimed can be
told from the answers. -/
theorem answers_as_map (hs : 12 ≤ s) (hs' : s ≤ 16) (run : MapRun s ys d)
    (hclock : Nondecreasing (ys.map MapEvent.event)) : AnswersAsMap ys :=
  (run.shows hs hs' hclock).2

end Runs

/-- The string "B" is stored under "A". -/
def mapSet : MapEvent :=
  ⟨0, calmEnv 5, .store .set (stringArgs [65] [66]), some 4224, .store ⟨ngxOk, none, 0⟩⟩

/-- It is read. -/
def mapGet : MapEvent :=
  ⟨0, calmEnv 6, .get [65] 1, some 4224,
    .get ⟨ngxOk, some .tstring, some [66], some 1, none, some 0, none, none⟩⟩

/-- A string is stored and read. The read finds it under its key, with its flags. -/
theorem answers_as_map_two : AnswersAsMap [mapGet, mapSet] := by
  have hset : mapSet.event.Runs 12 emptyDict (mapSet.event.after 12 emptyDict) :=
    storeEvent_runs 5 ⟨by decide, by decide⟩ (by decide) (by decide +kernel)
  have hget : mapGet.event.Runs 12 (mapSet.event.after 12 emptyDict)
      (mapGet.event.after 12 (mapSet.event.after 12 emptyDict)) :=
    Event.runs_after (by decide) ⟨by decide, by decide⟩ (by decide +kernel)
  have hfair : mapSet.Fair emptyDict.entries := by
    refine ⟨⟨.inr (.inr ⟨rfl, by simp [stringArgs]⟩), by decide⟩, fun _ => rfl, ?_, ?_⟩
    · rw [entries_emptyDict]
      simp
    · intro r hr
      obtain rfl := Answer.store.inj hr
      decide
  have hfair' : mapGet.Fair (mapSet.event.after 12 emptyDict).entries := by
    refine ⟨Nat.le_refl 1, fun _ => rfl, by decide +kernel, ?_⟩
    intro r hr
    cases hr
  refine answers_as_map (s := 12) (by decide) (by decide)
    (.call (.call (.init fresh_emptyDict) hset hfair) hget hfair')
    ⟨?_, ?_, ?_⟩
  · simp [mapGet, mapSet, MapEvent.event, calmEnv]
  · simp [mapGet, mapSet, MapEvent.event, calmEnv, monotone_const]
  · simp [mapGet, mapSet, MapEvent.event, calmEnv]

end MpsShdict
