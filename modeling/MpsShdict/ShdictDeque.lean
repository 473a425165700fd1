import MpsShdict.ShdictErrors
import MpsShdict.ShdictMap
import MpsShdict.ShdictWrap

/-! # A list is a double-ended queue

The calls on one key, whatever is done to others in between, do what they would do to a
queue with two ends that is kept under the key until its deadline.

The queue is a list of typed elements, or a plain value to which no push gets; it knows
nothing of nodes, of links and of the length field. `Call.queueStep` says what each call
does to it. As for the map, the entries show the queue where the entry of the key shows
what is kept, and there is one lemma for each of the calls.
-/
namespace MpsShdict

open Words

/-! ### The queue -/

/-- An element goes in at an end of a queue. -/
def Direction.insert {α : Type} (direction : Direction) (x : α) (xs : List α) : List α :=
  match direction with
  | .left => x :: xs
  | .right => xs ++ [x]

/-- The element at an end of a queue, and the others. There is none if the queue is empty. -/
def Direction.take {α : Type} (direction : Direction) (xs : List α) : Option (α × List α) :=
  match direction with
  | .left => xs.head?.map fun x => (x, xs.tail)
  | .right => xs.getLast?.map fun x => (x, xs.dropLast)

/-- What is kept under a key, and its deadline. Flags are left out, since no call on lists
reads them. -/
structure Queued where
  content : Content
  deadline : Nat
  deriving DecidableEq

/-- An entry stands for what is kept under its key. -/
def queueView : Expiring.View Entry Bytes Queued where
  key := Entry.key
  binding e := ⟨e.value.content, e.expires⟩
  deadline := Queued.deadline

/-- What a call on the queue answers: a length, an element, nil, a code or an error with
its message. -/
inductive QueueAnswer where
  | length (n : Nat)
  | elem (valueType : ValueType) (bytes : Bytes)
  | nil
  | code (rc : Int)
  | error (msg : String)

/-- A push; `full` if it finds no memory. What is no list is refused, and a list that has
no memory for one more element keeps those that it has. -/
def queuePush (a : PushArgs) (full : Bool) (o : Option Queued) : Option Queued × QueueAnswer :=
  match pushValue a with
  | .error msg => (o, .error msg)
  | .ok bytes =>
    match o with
    | some ⟨.plain _ _, _⟩ => (o, .error "value not a list")
    | some ⟨.list xs, deadline⟩ =>
      if full then (o, .error "no memory")
      else (some ⟨.list (a.direction.insert (a.valueType, bytes) xs), deadline⟩,
        .length (xs.length + 1))
    | none =>
      if full then (none, .error "no memory")
      else (some ⟨.list [(a.valueType, bytes)], 0⟩, .length 1)

/-- A pop; there may be no room for a string, neither in the buffer nor elsewhere. The
element then stays where it is. -/
def queuePop (direction : Direction) (bufLen : Nat) (malloc : Bool) (o : Option Queued) :
    Option Queued × QueueAnswer :=
  match o with
  | none => (none, .nil)
  | some ⟨.plain _ _, _⟩ => (o, .error "value not a list")
  | some ⟨.list xs, deadline⟩ =>
    match direction.take xs with
    | none => (none, .nil)
    | some ((valueType, bytes), xs') =>
      if valueType = .tstring ∧ bufLen < bytes.length ∧ malloc = false then (o, .error "no memory")
      else (if xs' = [] then none else some ⟨.list xs', deadline⟩, .elem valueType bytes)

/-- `mps_shdict_llen`. A key with nothing under it has the length 0. -/
def queueLlen (o : Option Queued) : Option Queued × QueueAnswer :=
  match o with
  | none => (none, .length 0)
  | some ⟨.plain _ _, _⟩ => (o, .error "value not a list")
  | some ⟨.list xs, _⟩ => (o, .length xs.length)

/-- A store at the time `t`; `full` if it finds no memory. In that case what was kept is
given up, which is what the source does. -/
def queueStore (t op : Nat) (a : StoreArgs) (full : Bool) (o : Option Queued) :
    Option Queued × QueueAnswer :=
  match storeValue op a with
  | .error msg => (o, .error msg)
  | .ok none => (none, .code ngxOk)
  | .ok (some bytes) =>
    if full then (none, .error "no memory")
    else (some ⟨.plain a.valueType bytes, dueAt t a.exptime⟩, .code ngxOk)

/-- `mps_shdict_set_expire` at the time `t`. It changes the deadline of what is kept, and
nothing else. -/
def queueSetExpire (t : Nat) (exptime : Int) (o : Option Queued) : Option Queued × QueueAnswer :=
  match o with
  | none => (none, .code ngxDeclined)
  | some b => (some { b with deadline := dueAt t exptime }, .code ngxOk)

/-- **What a call at the time `t` does to what is kept under its key**, and its answer.
Whether there is memory is not the queue's to say: it is given. -/
def Call.queueStep (t : Nat) (malloc full : Bool) (o : Option Queued) : Call →
    Option Queued × QueueAnswer
  | .push a => queuePush a full o
  | .pop direction _ bufLen => queuePop direction bufLen malloc o
  | .llen _ => queueLlen o
  | .store op a => queueStore t op a full o
  | .setExpire _ exptime => queueSetExpire t exptime o
  | _ => (o, .code ngxOk)

/-- A call that a queue knows: a push, a pop or `mps_shdict_llen`, or `mps_shdict_set`,
`mps_shdict_delete` or `mps_shdict_set_expire`. -/
def Call.OnQueue : Call → Prop
  | .push _ | .pop _ _ _ | .llen _ | .setExpire _ _ => True
  | .store op _ => op = 0
  | _ => False

/-- The call has found no memory. -/
def Answer.full : Answer → Bool
  | .store r => r.rc = ngxError ∧ r.errmsg = some "no memory"
  | .list r => r.errmsg = some "no memory"
  | _ => false

/-- The answer is the one of the queue, in all that a caller looks at. -/
def QueueAnswer.Agrees : QueueAnswer → Answer → Prop
  | .length n, .list r => r.value = n ∧ r.errmsg = none
  | .error msg, .list r => r.value = ngxError ∧ r.errmsg = some msg
  | .elem valueType bytes, .get r =>
    r.rc = ngxOk ∧ r.valueType = some valueType ∧ r.value = some bytes ∧
      r.strLen = some bytes.length
  | .nil, .get r => r.rc = ngxOk ∧ r.valueType = some .tnil
  | .error msg, .get r => r.rc = ngxError ∧ r.err = some msg
  | .code rc, .store r => r.rc = rc
  | .error msg, .store r => r.rc = ngxError ∧ r.errmsg = some msg
  | .code rc, .code rc' => rc' = rc
  | _, _ => False

/-! ### Lists that are kept -/

/-- A list that is kept has an element, and not more than an `int` can tell. -/
def Queued.Ok (b : Queued) : Prop := ∀ xs, b.content = .list xs → xs ≠ [] ∧ xs.length < 2 ^ 31

/-- A push does not get to a list of `2 ^ 31 - 1` elements. -/
def Call.Fits (o : Option Queued) : Call → Prop
  | .push _ => ∀ xs deadline, o = some ⟨.list xs, deadline⟩ → xs.length + 1 < 2 ^ 31
  | _ => True

section Ends
variable {α β : Type} {direction : Direction} {x : α} {xs xs' : List α}
  {o : Option Queued} {call : Call} {t : Nat} {malloc full : Bool}

theorem Direction.length_insert : (direction.insert x xs).length = xs.length + 1 := by
  cases direction with
  | left => rfl
  | right => exact List.length_append

theorem Direction.length_take (h : direction.take xs = some (x, xs')) :
    xs.length = xs'.length + 1 := by
  cases direction with
  | left =>
    cases xs with
    | nil => cases h
    | cons y ys =>
      obtain ⟨rfl, rfl⟩ := Prod.mk.inj (Option.some.inj h)
      rfl
  | right =>
    obtain ⟨y, hy, he⟩ := Option.map_eq_some_iff.mp h
    obtain ⟨rfl, rfl⟩ := Prod.mk.inj he
    have hpos := List.length_pos_of_mem (List.mem_of_getLast? hy)
    rw [List.length_dropLast]
    omega

/-- There is something to take from a queue that is not empty. -/
theorem Direction.take_isSome (hne : xs ≠ []) : ∃ x xs', direction.take xs = some (x, xs') := by
  cases direction with
  | left =>
    cases xs with
    | nil => exact absurd rfl hne
    | cons y ys => exact ⟨y, ys, rfl⟩
  | right => exact ⟨_, _, by rw [Direction.take, List.getLast?_eq_some_getLast hne]; rfl⟩

theorem insertElem_map (f : Elem → β) (y : Elem) (elems : List Elem) :
    (insertElem direction y elems).map f = direction.insert (f y) (elems.map f) := by
  cases direction with
  | left => rfl
  | right => exact List.map_append

theorem takeElem_map (f : Elem → β) (elems : List Elem) :
    direction.take (elems.map f) = (takeElem direction elems).map fun p => (f p.1, p.2.map f) := by
  cases direction with
  | left => cases elems <;> rfl
  | right =>
    rw [Direction.take, takeElem, List.getLast?_map, ← List.map_dropLast]
    cases elems.getLast? <;> rfl

theorem queueStore_ok {op : Nat} {a : StoreArgs} (ho : ∀ b, o = some b → b.Ok) :
    ∀ b, (queueStore t op a full o).1 = some b → b.Ok := by
  intro b hb xs hxs
  simp only [queueStore] at hb
  split at hb
  · exact ho b hb xs hxs
  · cases hb
  · split at hb
    · cases hb
    · obtain rfl := Option.some.inj hb
      cases hxs

theorem queueSetExpire_ok {exptime : Int} (ho : ∀ b, o = some b → b.Ok) :
    ∀ b, (queueSetExpire t exptime o).1 = some b → b.Ok := by
  intro b hb xs hxs
  cases o with
  | none => cases hb
  | some b' =>
    obtain rfl := Option.some.inj hb
    exact ho b' rfl xs hxs

theorem queueLlen_ok (ho : ∀ b, o = some b → b.Ok) : ∀ b, (queueLlen o).1 = some b → b.Ok := by
  rcases o with _ | ⟨_ | xs, deadline⟩
  · exact ho
  · exact ho
  · exact ho

theorem queuePush_ok {a : PushArgs} (ho : ∀ b, o = some b → b.Ok) (hfits : (Call.push a).Fits o) :
    ∀ b, (queuePush a full o).1 = some b → b.Ok := by
  simp only [queuePush]
  split
  · exact ho
  · rcases o with _ | ⟨_ | xs, deadline⟩
    · intro b hb ys hys
      dsimp only at hb
      split at hb
      · cases hb
      · obtain rfl := Option.some.inj hb
        obtain rfl := Content.list.inj hys
        exact ⟨by simp, by simp⟩
    · exact ho
    · dsimp only
      split
      · exact ho
      · intro b hb ys hys
        obtain rfl := Option.some.inj hb
        obtain rfl := Content.list.inj hys
        have hlt := hfits xs deadline rfl
        refine ⟨List.ne_nil_of_length_pos ?_, ?_⟩
        · rw [Direction.length_insert]
          omega
        · rw [Direction.length_insert]
          exact hlt

theorem queuePop_ok {bufLen : Nat} (ho : ∀ b, o = some b → b.Ok) :
    ∀ b, (queuePop direction bufLen malloc o).1 = some b → b.Ok := by
  simp only [queuePop]
  rcases o with _ | ⟨_ | xs, deadline⟩
  · exact ho
  · exact ho
  · have hold := ho _ rfl xs rfl
    dsimp only
    cases htake : direction.take xs with
    | none =>
      intro b hb
      cases hb
    | some p =>
      obtain ⟨x, xs'⟩ := p
      have hlen := Direction.length_take htake
      dsimp only
      split
      · exact ho
      · intro b hb ys hys
        by_cases hnil : xs' = []
        · rw [if_pos hnil] at hb
          cases hb
        · rw [if_neg hnil] at hb
          obtain rfl := Option.some.inj hb
          obtain rfl := Content.list.inj hys
          exact ⟨hnil, by omega⟩

/-- The queue keeps no empty lists, and none that are too long, if no push gets to a list
that is full in this sense. -/
theorem queueStep_ok (ho : ∀ b, o = some b → b.Ok) (hfits : call.Fits o) :
    ∀ b, (call.queueStep t malloc full o).1 = some b → b.Ok := by
  cases call with
  | get | incr | getTtl | flushAll => exact ho
  | setExpire k exptime => exact queueSetExpire_ok ho
  | llen k => exact queueLlen_ok ho
  | store op a => exact queueStore_ok ho
  | push a => exact queuePush_ok ho hfits
  | pop direction k bufLen => exact queuePop_ok ho

end Ends

/-! ### The entries show the queue -/

theorem queueView_entry : EntryView queueView := ⟨fun _ => rfl, fun _ => rfl⟩

theorem queueView_plain {e : Entry} {valueType : ValueType} {bytes : Bytes}
    (hv : e.value = .plain valueType bytes) :
    queueView.binding e = ⟨.plain valueType bytes, e.expires⟩ := by
  simp only [queueView, hv, Value.content]

theorem queueView_list {e : Entry} {elems : List Elem} (hv : e.value = .list elems) :
    queueView.binding e = ⟨.list (elems.map fun x => (x.valueType, x.bytes)), e.expires⟩ := by
  simp only [queueView, hv, Value.content]

/-- A call at the time `t` on the entries `L`; that of `key` is not due just then. Other
entries may be. -/
structure MomentOf (t : Nat) (key : Bytes) (env : Env) (L : List Entry) : Prop where
  small : t < 2 ^ 62
  clock : ∀ i, env.mpsClockTimeMs i = t
  due : DueBy t L
  distinct : ∀ x ∈ L, ∀ y ∈ L, x.key = y.key → x = y
  undue : ∀ e ∈ L, e.key = key → e.expires ≠ 0 → e.expires ≠ t

/-- **What a push leaves of its key**, for the list `elems` of the entry `e`: the list
with the new element at its end, or for want of memory the list as it was. A list that had
nothing in it is then removed. -/
inductive Pushed (a : PushArgs) (v : Bytes) (e : Entry) (elems : List Elem) (L' : List Entry)
    (r : ListResult) :
    Prop where
  | grown (lnode : Nat) (hval : r.value = (elems.length + 1 : Nat)) (hmsg : r.errmsg = none)
      (h : Binds a.key L'
        { e with value := .list (insertElem a.direction ⟨lnode, a.valueType, v⟩ elems) })
  | full (hval : r.value = ngxError) (hmsg : r.errmsg = some "no memory")
      (hnil : elems = [] → ∀ y ∈ L', y.key ≠ a.key)
      (h : elems ≠ [] → Binds a.key L' { e with value := .list elems })

section Queue
variable {t : Nat} {key v : Bytes} {L L' rest : List Entry} {env : Env} {c : Choice} {e : Entry}
  {o : Option Queued} {a : PushArgs} {elems : List Elem} {h : Hit} {r : ListResult}

theorem MomentOf.sees {call : Call} (hm : MomentOf t key env L) (hc : call.Picks True env L c)
    (hkey : call.key = some key) (hseen : call.seen env L = afterExpire env L) :
    Sees t key L (others c.found (afterExpire env L)) (hit t c.found) :=
  hc.sees hkey hseen hm.small hm.clock hm.due hm.distinct hm.undue

theorem pushNodeEntries_pushed (hown : ∀ y ∈ rest, y.key ≠ a.key) (hk : e.key = a.key)
    (hlen : elems.length + 1 < 2 ^ 31) :
    Pushed a v e elems (pushNodeEntries a v c e elems rest).entries
      (pushNodeEntries a v c e elems rest).result := by
  unfold pushNodeEntries
  cases c.elem with
  | none =>
    by_cases hnil : elems = []
    · rw [hnil]
      exact .full rfl rfl (fun _ => hown) fun h => absurd rfl h
    · have hne : u32 elems.length ≠ 0 := fun h0 => hnil ((u32_eq_zero_iff (by omega)).mp h0)
      simp only [if_neg hne]
      exact .full rfl rfl (fun h => absurd h hnil) fun _ => binds_cons hown hk
  | some lnode =>
    refine .grown lnode ?_ rfl (binds_cons hown hk)
    have hins : (insertElem a.direction ⟨lnode, a.valueType, v⟩ elems).length = elems.length + 1 :=
      (insertElem_perm _ _ _).length_eq
    simp only [ListResult.length, Value.elems, hins]
    rw [u32_of_lt (by omega), int32_of_lt (by omega)]

/-- A list that is started anew, wherever it gets its header: in a new chunk or in that of
an expired list. It has no deadline. -/
theorem initListEntries_pushed (env : Env) (v : Bytes) (c : Choice)
    (hown : ∀ y ∈ rest, y.key ≠ a.key) (sd : Option Nat) :
    ∃ e : Entry, e.expires = 0 ∧
      Pushed a v e [] (initListEntries env a v c rest sd).entries
        (initListEntries env a v c rest sd).result := by
  unfold initListEntries
  cases c.alloc.node with
  | none =>
    exact ⟨⟨0, a.key, 0, 0, .list []⟩, rfl, .full rfl rfl (fun _ => hown) fun h => absurd rfl h⟩
  | some node =>
    exact ⟨⟨node, a.key, env.junk.userFlags, 0, .list []⟩,
      rfl, pushNodeEntries_pushed hown rfl (by simp)⟩

/-- What a push leaves shows what it has pushed. -/
theorem Pushed.shows (hpush : Pushed a v e elems L' r) (hv : pushValue a = .ok v)
    (hne : elems ≠ []) :
    Expiring.Shows queueView t a.key L'
        (queuePush a (Answer.list r).full (some ⟨(Value.list elems).content, e.expires⟩)).1 ∧
      (queuePush a (Answer.list r).full (some ⟨(Value.list elems).content, e.expires⟩)).2.Agrees
        (.list r) := by
  simp only [queuePush, hv, Value.content]
  cases hpush with
  | grown lnode hval hmsg hb =>
    have hfull : (Answer.list r).full = false := by simp [Answer.full, hmsg]
    rw [hfull, if_neg (by decide)]
    refine ⟨?_, by rw [List.length_map]; exact hval, hmsg⟩
    have hshows := hb.shows (t := t) queueView_entry
    simp only [queueView, Value.content, insertElem_map] at hshows
    exact hshows
  | full hval hmsg hnil hb =>
    have hfull : (Answer.list r).full = true := by simp [Answer.full, hmsg]
    rw [hfull, if_pos rfl]
    exact ⟨(hb hne).shows queueView_entry, hval, hmsg⟩

/-- What a push leaves of a list that it has started anew shows the queue, too: one
element without a deadline, or nothing. -/
theorem Pushed.shows_first (hpush : Pushed a v e [] L' r) (hexp : e.expires = 0)
    (hv : pushValue a = .ok v) :
    Expiring.Shows queueView t a.key L' (queuePush a (Answer.list r).full none).1 ∧
      (queuePush a (Answer.list r).full none).2.Agrees (.list r) := by
  simp only [queuePush, hv]
  cases hpush with
  | grown lnode hval hmsg hb =>
    have hfull : (Answer.list r).full = false := by simp [Answer.full, hmsg]
    rw [hfull, if_neg (by decide)]
    refine ⟨?_, hval, hmsg⟩
    have hshows := hb.shows (t := t) queueView_entry
    simp only [queueView, Value.content, insertElem_map, hexp] at hshows
    cases hdir : a.direction with
    | left =>
      rw [hdir] at hshows
      exact hshows
    | right =>
      rw [hdir] at hshows
      exact hshows
  | full hval hmsg hnil _ =>
    have hfull : (Answer.list r).full = true := by simp [Answer.full, hmsg]
    rw [hfull, if_pos rfl]
    exact ⟨shows_none queueView_entry (hnil rfl), hval, hmsg⟩

/-- **A push does to its key what the queue does.** The cases are those of the lookup: a
live list, a live value that is none, an expired list or value, and no entry. -/
theorem pushEntries_shows (hm : MomentOf t a.key env L) (hc : (Call.push a).Picks True env L c)
    (hs : Expiring.Shows queueView t a.key L o) (ho : ∀ b, queueView.current t o = some b → b.Ok)
    (hfits : (Call.push a).Fits (queueView.current t o)) :
    Expiring.Shows queueView t a.key (pushEntries env a c L).entries
        (queuePush a (Answer.list (pushEntries env a c L).result).full (queueView.current t o)).1 ∧
      (queuePush a (Answer.list (pushEntries env a c L).result).full
        (queueView.current t o)).2.Agrees
        (.list (pushEntries env a c L).result) := by
  have hsees := hm.sees hc rfl rfl
  have hcurrent := hsees.current queueView_entry hm.undue hs
  unfold pushEntries
  cases hv : pushValue a with
  | error msg =>
    simp only [queuePush, hv]
    exact ⟨hs.current, rfl, rfl⟩
  | ok v =>
    have hcur := hs.current
    rw [hcurrent] at ho hfits hcur ⊢
    simp only [hm.clock]
    -- an expired list is used again, an expired value is freed: both start a new list
    cases hh : hit t c.found with
    | absent =>
      obtain ⟨e, hexp, hpush⟩ := initListEntries_pushed env v c hsees.own none
      exact hpush.shows_first hexp hv
    | expired e =>
      obtain ⟨-, hk, -⟩ := hsees.expired e hh
      cases hval : e.value with
      | plain valueType bytes =>
        obtain ⟨e', hexp, hpush⟩ := initListEntries_pushed env v c hsees.own (some e.off)
        simp only [hval]
        exact hpush.shows_first hexp hv
      | list elems =>
        have hpush : Pushed a v { e with expires := 0 } [] _ _ :=
          pushNodeEntries_pushed (c := c) hsees.own hk (by simp)
        simp only [hval]
        exact hpush.shows_first rfl hv
    | live e =>
      obtain ⟨hin, hk, hl⟩ := hsees.live e hh
      rw [hh] at ho hfits hsees hcur
      cases hval : e.value with
      | plain valueType bytes =>
        simp only [Hit.live?, Option.map_some, queueView_plain hval, queuePush, hv, hval] at hcur ⊢
        exact ⟨(hsees.kept rfl).shows queueView_entry hm.undue hcur, rfl, rfl⟩
      | list elems =>
        simp only [Hit.live?, Option.map_some, queueView_list hval, hval] at ho hfits ⊢
        obtain ⟨hne, -⟩ := ho _ rfl _ rfl
        have hlt := hfits _ _ rfl
        rw [List.length_map] at hlt
        exact Pushed.shows (pushNodeEntries_pushed hsees.own hk hlt) hv (by simpa using hne)

/-- An element is read out for a pop. If there is no room for it the pop reports so and
the element is not taken. -/
theorem elemResult_agrees (env : Env) {x : Elem} (bufLen : Nat) (ht : x.Typed) :
    (x.valueType = .tstring ∧ bufLen < x.bytes.length ∧ env.malloc = false ∧
        (elemResult env x bufLen).2 = false ∧
        (QueueAnswer.error "no memory").Agrees (.get (elemResult env x bufLen).1)) ∨
      (¬ (x.valueType = .tstring ∧ bufLen < x.bytes.length ∧ env.malloc = false) ∧
        (elemResult env x bufLen).2 = true ∧
        (QueueAnswer.elem x.valueType x.bytes).Agrees (.get (elemResult env x bufLen).1)) := by
  unfold elemResult
  rcases ht with hty | ⟨hty, hsize⟩
  · rw [hty]
    by_cases hroom : bufLen < x.bytes.length ∧ ¬ env.malloc = true
    · simp only [if_pos hroom]
      exact .inl ⟨trivial, hroom.1, by simpa using hroom.2, trivial, rfl, rfl⟩
    · simp only [if_neg hroom]
      exact .inr ⟨fun h => hroom ⟨h.2.1, by simp [h.2.2]⟩, trivial, rfl, rfl, rfl, rfl⟩
  · rw [hty]
    rw [dif_pos (show x.bytes.length = 8 from hsize)]
    refine .inr ⟨?_, rfl, rfl, rfl, rfl, rfl⟩
    intro h
    cases h.1

/-- A pop from a list. The entry goes with the last element. -/
theorem popList_shows {direction : Direction} {bufLen : Nat} (hown : ∀ y ∈ rest, y.key ≠ key)
    (hk : e.key = key) (hv : e.value = .list elems) (hty : e.value.Typed) (hne : elems ≠ [])
    (hlen : elems.length < 2 ^ 31) :
    Expiring.Shows queueView t key (popList env direction bufLen e elems rest).entries
        (queuePop direction bufLen env.malloc (some (queueView.binding e))).1 ∧
      (queuePop direction bufLen env.malloc (some (queueView.binding e))).2.Agrees
        (.get (popList env direction bufLen e elems rest).result) := by
  have hbinding := queueView_list hv
  have hkept : Expiring.Shows queueView t key (e :: rest) (some (queueView.binding e)) :=
    (binds_cons hown hk).shows queueView_entry
  have hzero : u32 elems.length ≠ 0 := fun h0 => hne ((u32_eq_zero_iff (by omega)).mp h0)
  obtain ⟨p, elems', htake⟩ : ∃ x elems', takeElem direction elems = some (x, elems') := by
    show ∃ x elems', direction.take elems = some (x, elems')
    exact Direction.take_isSome hne
  have hlength := takeElem_length htake
  rw [hv] at hty
  rw [popList, htake]
  simp only [hbinding, queuePop, takeElem_map, htake, Option.map_some, if_neg hzero]
  rcases elemResult_agrees env bufLen (hty p (takeElem_subset htake).1) with
    ⟨h1, h2, h3, hpop, hagrees⟩ | ⟨hroom, hpop, hagrees⟩
  · simp only [if_pos (⟨h1, h2, h3⟩ : p.valueType = .tstring ∧
      bufLen < p.bytes.length ∧ env.malloc = false), hpop, Bool.false_eq_true, if_false, ← hbinding]
    exact ⟨hkept, hagrees⟩
  · simp only [if_neg hroom, hpop, if_true,
      u32_of_lt (show elems.length < 2 ^ 32 by omega), List.map_eq_nil_iff]
    by_cases hone : elems.length = 1
    · -- the last element takes the entry with it
      simp only [if_pos hone,
        if_pos (List.eq_nil_of_length_eq_zero (show elems'.length = 0 by omega))]
      exact ⟨shows_none queueView_entry hown, hagrees⟩
    · have hne' : elems' ≠ [] := fun h0 => hone (by rw [hlength, h0]; rfl)
      simp only [if_neg hone, if_neg hne']
      refine ⟨?_, hagrees⟩
      have hleft :
          Binds key ({ e with value := .list elems' } :: rest) { e with value := .list elems' } :=
        binds_cons hown hk
      exact hleft.shows queueView_entry

/-- **A pop does to its key what the queue does.** The length is below `2 ^ 31`, so that
it reads as it is. -/
theorem popEntries_shows {direction : Direction} {bufLen : Nat} (hm : MomentOf t key env L)
    (hc : (Call.pop direction key bufLen).Picks True env L c) (hty : ∀ e ∈ L, e.value.Typed)
    (hs : Expiring.Shows queueView t key L o) (ho : ∀ b, queueView.current t o = some b → b.Ok) :
    Expiring.Shows queueView t key (popEntries env direction bufLen c L).entries
        (queuePop direction bufLen env.malloc (queueView.current t o)).1 ∧
      (queuePop direction bufLen env.malloc (queueView.current t o)).2.Agrees
        (.get (popEntries env direction bufLen c L).result) := by
  have hsees := hm.sees hc rfl rfl
  have hcurrent := hsees.current queueView_entry hm.undue hs
  have hcur := hs.current
  unfold popEntries
  rw [hcurrent] at ho hcur ⊢
  simp only [hm.clock]
  cases hh : hit t c.found with
  | absent => exact ⟨shows_none queueView_entry hsees.own, rfl, rfl⟩
  | expired e =>
    rw [hh] at hsees hcur
    exact ⟨(hsees.kept rfl).shows queueView_entry hm.undue hcur, rfl, rfl⟩
  | live e =>
    rw [hh] at hsees ho hcur
    obtain ⟨hin, hk, hl⟩ := hsees.live e rfl
    cases hval : e.value with
    | plain valueType bytes =>
      simp only [Hit.live?, Option.map_some, queueView_plain hval, queuePop, hval] at hcur ⊢
      exact ⟨(hsees.kept rfl).shows queueView_entry hm.undue hcur, rfl, rfl⟩
    | list elems =>
      obtain ⟨hne, hlt⟩ :=
        ho (queueView.binding e) rfl _ (congrArg Queued.content (queueView_list hval))
      rw [List.length_map] at hlt
      simp only [Hit.live?, Option.map_some, hval]
      exact popList_shows hsees.own hk hval (hty e hin) (by simpa using hne) hlt

/-- **`mps_shdict_llen` tells the length of the queue.** -/
theorem llenEntries_shows (hm : MomentOf t key env L) (hc : (Call.llen key).Picks True env L c)
    (hs : Expiring.Shows queueView t key L o) (ho : ∀ b, queueView.current t o = some b → b.Ok) :
    Expiring.Shows queueView t key (llenEntries env c L).entries
      (queueLlen (queueView.current t o)).1 ∧
      (queueLlen (queueView.current t o)).2.Agrees (.list (llenEntries env c L).result) := by
  have hsees := hm.sees hc rfl rfl
  have hcurrent := hsees.current queueView_entry hm.undue hs
  have hcur := hs.current
  unfold llenEntries
  rw [hcurrent] at ho hcur ⊢
  simp only [hm.clock]
  cases hh : hit t c.found with
  | absent => exact ⟨shows_none queueView_entry hsees.own, rfl, rfl⟩
  | expired e =>
    rw [hh] at hsees hcur
    exact ⟨(hsees.kept rfl).shows queueView_entry hm.undue hcur, rfl, rfl⟩
  | live e =>
    rw [hh] at hsees ho hcur
    have hkept := (hsees.kept rfl).shows queueView_entry hm.undue hcur
    cases hval : e.value with
    | plain valueType bytes =>
      simp only [Hit.live?, Option.map_some, queueView_plain hval, queueLlen, hval] at hkept ⊢
      exact ⟨hkept, rfl, rfl⟩
    | list elems =>
      have hbinding := queueView_list hval
      obtain ⟨-, hlt⟩ := ho (queueView.binding e) rfl _ (congrArg Queued.content hbinding)
      simp only [Hit.live?, Option.map_some, hbinding, queueLlen, hval] at hkept ⊢
      refine ⟨hkept, ?_, rfl⟩
      rw [List.length_map] at hlt ⊢
      simp only [ListResult.length, hval, Value.elems]
      rw [u32_of_lt (by omega), int32_of_lt hlt]

/-- **A store does to its key what the queue does.** It replaces whatever is kept, be it a
list or not. -/
theorem storeEntries_queued {a : StoreArgs} (hm : MomentOf t a.key env L)
    (hc : (Call.store 0 a).Picks True env L c) (hexp : a.exptime < 2 ^ 63)
    (hs : Expiring.Shows queueView t a.key L o) :
    Expiring.Shows queueView t a.key (storeEntries env 0 a c L).entries
        (queueStore t 0 a (Answer.store (storeEntries env 0 a c L).result).full
          (queueView.current t o)).1 ∧
      (queueStore t 0 a (Answer.store (storeEntries env 0 a c L).result).full
        (queueView.current t o)).2.Agrees
        (.store (storeEntries env 0 a c L).result) := by
  have hsees := hm.sees hc rfl rfl
  unfold storeEntries
  cases hv : storeValue 0 a with
  | error msg =>
    simp only [queueStore, hv]
    exact ⟨hs.current, rfl, rfl⟩
  | ok value =>
    have hstored := storeFoundEntries_stored env 0 c value hm.small hm.clock hexp hsees
    rw [show opTakes 0 (hit t c.found).present = true from rfl, if_pos rfl] at hstored
    simp only [hm.clock]
    -- what is stored, or that nothing is, does not depend on what was there
    generalize storeFoundEntries env 0 a value c _ _ = outcome at hstored ⊢
    cases hstored with
    | unbound hrc hown =>
      simp only [queueStore, hv]
      exact ⟨shows_none queueView_entry hown, hrc⟩
    | bound off hrc hb =>
      have hfull : (Answer.store outcome.result).full = false := by
        simp [Answer.full, hrc, ngxOk, ngxError]
      simp only [queueStore, hv, hfull, Bool.false_eq_true, if_false]
      exact ⟨hb.shows queueView_entry, hrc⟩
    | full hrc hmsg hown =>
      have hfull : (Answer.store outcome.result).full = true := by simp [Answer.full, hrc, hmsg]
      simp only [queueStore, hv, hfull, if_true]
      exact ⟨shows_none queueView_entry hown, hrc, hmsg⟩

/-- The entry of a key gets a new deadline. -/
theorem binds_setExpires (hdistinct : ∀ x ∈ L, ∀ y ∈ L, x.key = y.key → x = y)
    (he : e ∈ L) (hk : e.key = key) (expires : Nat) :
    Binds key (setExpires e.off expires L) { e with expires := expires } := by
  intro y
  rw [setExpires, List.mem_map]
  constructor
  · rintro ⟨⟨z, hz, rfl⟩, hzk⟩
    have hkey : z.key = key := by
      split at hzk
      · exact hzk
      · exact hzk
    obtain rfl := hdistinct z hz e he (hkey.trans hk.symm)
    rw [if_pos rfl]
  · rintro rfl
    exact ⟨⟨e, he, if_pos rfl⟩, hk⟩

/-- **A new deadline goes to what is kept**, unless an expired entry is still there. Such
an entry would come back, and the queue has forgotten it. -/
theorem setExpireEntries_shows {exptime : Int} (hm : MomentOf t key env L)
    (hc : (Call.setExpire key exptime).Picks True env L c) (hexp : exptime < 2 ^ 63)
    (hlive : ∀ e ∈ L, e.key = key → e.Live t) (hs : Expiring.Shows queueView t key L o) :
    Expiring.Shows queueView t key (setExpireEntries env exptime c L).entries
        (queueSetExpire t exptime (queueView.current t o)).1 ∧
      (queueSetExpire t exptime (queueView.current t o)).2.Agrees
        (.code (setExpireEntries env exptime c L).result) := by
  have hfinds := hc.finds key rfl
  cases hfound : c.found with
  | none =>
    have hnone := hfinds.complete trivial hfound
    have hcurrent := hs.current_none fun e he hk => absurd hk (hnone e he)
    rw [setExpireEntries, hfound, hcurrent]
    exact ⟨shows_none queueView_entry hnone, rfl⟩
  | some e =>
    obtain ⟨he, hk⟩ := hfinds.sound e hfound
    have hitem : queueView.LiveItem t e :=
      (queueView_entry.liveItem_iff (hm.undue e he hk)).mpr (hlive e he hk)
    rw [setExpireEntries, hfound, hs.current_eq he hk hitem]
    simp only [hm.clock, deadline_eq hm.small hexp, queueSetExpire]
    refine ⟨?_, rfl⟩
    exact (binds_setExpires hm.distinct he hk (dueAt t exptime)).shows (t := t) queueView_entry

/-- **Each call of the queue does to its key what the queue does**, and answers so. The
lemmas of the calls are put together here. -/
theorem Call.OnQueue.shows {call : Call} (hon : call.OnQueue) (hkey : call.key = some key)
    (hm : MomentOf t key env L) (hok : call.Ok)
    (hc : call.Picks True env L c) (hty : ∀ e ∈ L, e.value.Typed)
    (hlive : ∀ exptime, call = .setExpire key exptime → ∀ e ∈ L, e.key = key → e.Live t)
    (hs : Expiring.Shows queueView t key L o) (ho : ∀ b, queueView.current t o = some b → b.Ok)
    (hfits : call.Fits (queueView.current t o)) :
    Expiring.Shows queueView t key (call.entries env c L).entries
        (call.queueStep t env.malloc (call.entries env c L).result.full (queueView.current t o)).1 ∧
      (call.queueStep t env.malloc (call.entries env c L).result.full
        (queueView.current t o)).2.Agrees
        (call.entries env c L).result := by
  cases call with
  | get | incr | getTtl | flushAll => exact hon.elim
  | push a =>
    obtain rfl := Option.some.inj hkey
    exact pushEntries_shows hm hc hs ho hfits
  | pop direction k bufLen =>
    obtain rfl := Option.some.inj hkey
    exact popEntries_shows hm hc hty hs ho
  | llen k =>
    obtain rfl := Option.some.inj hkey
    exact llenEntries_shows hm hc hs ho
  | store op a =>
    obtain rfl := Option.some.inj hkey
    obtain rfl : op = 0 := hon
    exact storeEntries_queued hm hc hok.2 hs
  | setExpire k exptime =>
    obtain rfl := Option.some.inj hkey
    exact setExpireEntries_shows hm hc hok.2 (hlive exptime rfl) hs

end Queue

end MpsShdict
