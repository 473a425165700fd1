import MpsShdict.ShdictDequeRuns
import MpsShdict.SetupMap

/-! # A list of Lua is a double-ended queue

Whatever strings and numbers any workers push to a key, they are popped as they were
pushed, in the order of a queue with two ends.  The queue of this module has values of Lua
for its elements and knows nothing of types, bytes, cells and buffers.  It is the queue of
the C calls seen through what the methods pass on and what they return: each method on the
key makes one call, the answer of that call is the one of the queue of C, and what the
method makes of it is what the queue of Lua returns.
-/
namespace MpsShdict

open Words

/-! ### The queue -/

/-- What is kept under a key: a plain value of Lua, or a list of values. -/
inductive LuaContent where
  | plain (v : LuaValue)
  | list (xs : List LuaValue)

/-- What is kept under a key, and its deadline. The elements of a list are values of Lua. -/
structure LuaQueued where
  content : LuaContent
  deadline : Nat

/-- A call on the queue, its arguments having been checked: a push, a pop, a length, a new
deadline, or a `set`, which is a `delete` where the value is nil. -/
inductive LuaQueueCall where
  | push (direction : Direction) (value : LuaValue)
  | pop (direction : Direction)
  | llen
  /-- `set`, or `delete` where the value is nil -/
  | set (value : LuaValue) (exptime : Int)
  | expire (exptime : Int)

/-- The call of the queue that a method is, and its key, if its arguments are accepted. -/
def LuaCall.queued (N : LuaNumbers) : LuaCall → Option (Bytes × LuaQueueCall)
  | .push direction key value =>
    (pushArgs direction key value).toOption.map fun a => (a.key, .push direction value)
  | .pop direction key => (checkedKey key).toOption.map fun key => (key, .pop direction)
  | .llen key => (checkedKey key).toOption.map fun key => (key, .llen)
  | .store .set key value exptime flags =>
    (storeArgs N key value exptime flags).toOption.map fun a => (a.key, .set value a.exptime)
  | .delete key =>
    (storeArgs N key .nil .nil .nil).toOption.map fun a => (a.key, .set .nil a.exptime)
  | .expire key exptime =>
    if exptime.truthy then (expireArgs N key exptime).toOption.map fun a => (a.1, .expire a.2)
    else none
  | _ => none

/-- What counts of it at the time `t`. -/
def LuaQueued.current (t : Nat) (o : Option LuaQueued) : Option LuaQueued :=
  o.filter fun b => Expiring.Live b.deadline t

/-- A string that the buffer has no room for. -/
def LuaValue.Long : LuaValue → Bool
  | .string bytes => strBufSize < bytes.length
  | _ => false

/-- A method that fails. -/
def refusal (msg : String) : LuaResult := .ok [.nil, .text msg]

/-- A push, as it leaves the list and with what it returns; `full` if it finds no memory. -/
def luaPush (N : LuaNumbers) (direction : Direction) (value : LuaValue) (full : Bool)
    (o : Option LuaQueued) :
    Option LuaQueued × LuaResult :=
  match o with
  | some ⟨.plain _, _⟩ => (o, refusal "value not a list")
  | some ⟨.list xs, deadline⟩ =>
    if full then (o, refusal "no memory")
    else (some ⟨.list (direction.insert value xs), deadline⟩,
      .ok [.number (N.ofInt (xs.length + 1 : Nat))])
  | none =>
    if full then (none, refusal "no memory")
    else (some ⟨.list [value], 0⟩, .ok [.number (N.ofInt (1 : Nat))])

/-- A pop. A string that is longer than the buffer needs memory outside of the pool, and
stays where it is if there is none. -/
def luaPop (direction : Direction) (malloc : Bool) (o : Option LuaQueued) :
    Option LuaQueued × LuaResult :=
  match o with
  | none => (none, .ok [.nil])
  | some ⟨.plain _, _⟩ => (o, refusal "value not a list")
  | some ⟨.list xs, deadline⟩ =>
    match direction.take xs with
    | none => (none, .ok [.nil])
    | some (v, xs') =>
      if v.Long ∧ malloc = false then (o, refusal "no memory")
      else (if xs' = [] then none else some ⟨.list xs', deadline⟩, .ok [v])

/-- `metatable:llen`. What is no list is refused with the text of the C code. -/
def luaLlen (N : LuaNumbers) (o : Option LuaQueued) : Option LuaQueued × LuaResult :=
  match o with
  | none => (none, .ok [.number (N.ofInt (0 : Nat))])
  | some ⟨.plain _, _⟩ => (o, refusal "value not a list")
  | some ⟨.list xs, _⟩ => (o, .ok [.number (N.ofInt xs.length)])

/-- `set`, or `delete` where the value is nil.  A store that finds no memory has given the old
value up.  It also tells whether other keys had to go by force, which is no affair of the
queue: that much is taken from its result. -/
def luaStore (t : Nat) (value : LuaValue) (exptime : Int) (full forcible : Bool) :
    Option LuaQueued × LuaResult :=
  if value = .nil then (none, .ok [.boolean true, .nil, .boolean false])
  else if full then (none, .ok [.boolean false, .text "no memory", .boolean forcible])
  else (some ⟨.plain value, dueAt t exptime⟩, .ok [.boolean true, .nil, .boolean forcible])

/-- `metatable:expire` at the time `t`. Where nothing is kept it fails with "not found". -/
def luaExpire (t : Nat) (exptime : Int) (o : Option LuaQueued) : Option LuaQueued × LuaResult :=
  match o with
  | none => (none, refusal "not found")
  | some b => (some { b with deadline := dueAt t exptime }, .ok [.boolean true])

/-- **What a call at the time `t` does to what is kept under its key**, and what it returns. -/
def LuaQueueCall.step (N : LuaNumbers) (t : Nat) (malloc full forcible : Bool)
    (o : Option LuaQueued) : LuaQueueCall → Option LuaQueued × LuaResult
  | .push direction value => luaPush N direction value full o
  | .pop direction => luaPop direction malloc o
  | .llen => luaLlen N o
  | .set value exptime => luaStore t value exptime full forcible
  | .expire exptime => luaExpire t exptime o

/-- A method has found no memory. -/
def LuaResult.full : LuaResult → Bool
  | .ok (_ :: msg :: _) => msg = .text "no memory"
  | _ => false

/-- A store has told that it has evicted entries by force. -/
def LuaResult.forcible : LuaResult → Bool
  | .ok [_, _, .boolean b] => b
  | _ => false

/-- What an event does to what is kept under its key, and what it has to return. -/
def LuaEvent.queue (N : LuaNumbers) (y : LuaEvent) (q : LuaQueueCall) (o : Option LuaQueued) :
    Option LuaQueued × LuaResult :=
  q.step N y.time y.env.malloc (LuaResult.full y.result) (LuaResult.forcible y.result)
    (LuaQueued.current y.time o)

/-- What is kept under `k` after the events. -/
def luaQueueAfter (N : LuaNumbers) (k : Bytes) : List LuaEvent → Option LuaQueued
  | [] => none
  | y :: ys =>
    match y.call.queued N with
    | some (key, q) =>
      if key = k then (y.queue N q (luaQueueAfter N k ys)).1 else luaQueueAfter N k ys
    | none => luaQueueAfter N k ys

/-- Every method on `k` has returned what the queue does. -/
def LuaAnswersAsQueue (N : LuaNumbers) (k : Bytes) : List LuaEvent → Prop
  | [] => True
  | y :: ys =>
    (∀ q, y.call.queued N = some (k, q) → y.result = (y.queue N q (luaQueueAfter N k ys)).2) ∧
      LuaAnswersAsQueue N k ys

/-! ### Values of C -/

/-- How an element is stored, by its type and its bytes. Other values cannot be pushed. -/
def LuaValue.elem : LuaValue → ValueType × Bytes
  | .number x => (.tnumber, x.bytes)
  | .string bytes => (.tstring, bytes)
  | _ => (.tnil, [])

/-- A number or a string. -/
def LuaValue.Elem : LuaValue → Prop
  | .number _ | .string _ => True
  | _ => False

/-- In the terms of C. -/
def LuaContent.content : LuaContent → Content
  | .plain v => v.content
  | .list xs => .list (xs.map LuaValue.elem)

def LuaQueued.queued (b : LuaQueued) : Queued := ⟨b.content.content, b.deadline⟩

/-- A list has numbers and strings. -/
def LuaQueued.Ok (b : LuaQueued) : Prop := ∀ xs, b.content = .list xs → ∀ v ∈ xs, v.Elem

section Values
variable {N : LuaNumbers} {cells : FfiCells} {direction : Direction}
  {key value v : LuaValue} {t : Nat}
  {o : Option LuaQueued} {b : LuaQueued} {malloc : Bool} {xs xs' : List LuaValue}

theorem LuaQueued.map_current : queueView.current t (o.map LuaQueued.queued) =
    (LuaQueued.current t o).map LuaQueued.queued := by
  cases o with
  | none => rfl
  | some b =>
    show Option.filter _ (some b.queued) = _
    rw [LuaQueued.current, Option.filter_some, Option.filter_some]
    show (if decide (Expiring.Live b.deadline t) = true then some b.queued else none) = _
    split <;> rfl

theorem LuaValue.content_plain (v : LuaValue) :
    ∃ valueType bytes, v.content = .plain valueType bytes := by
  cases v <;> exact ⟨_, _, rfl⟩

theorem Direction.insert_map {α β : Type} (f : α → β) (x : α) (xs : List α) :
    (direction.insert x xs).map f = direction.insert (f x) (xs.map f) := by
  cases direction with
  | left => rfl
  | right => exact List.map_append

theorem Direction.take_map {α β : Type} (f : α → β) (xs : List α) :
    direction.take (xs.map f) = (direction.take xs).map fun p => (f p.1, p.2.map f) := by
  cases direction with
  | left => cases xs <;> rfl
  | right =>
    rw [Direction.take, Direction.take, List.getLast?_map, ← List.map_dropLast]
    cases xs.getLast? <;> rfl

theorem Direction.mem_insert {α : Type} {x y : α} {xs : List α} :
    y ∈ direction.insert x xs ↔ y = x ∨ y ∈ xs := by
  cases direction with
  | left => exact List.mem_cons
  | right => simp [Direction.insert, or_comm]

theorem Direction.mem_of_take {α : Type} {x : α} {xs xs' : List α}
    (h : direction.take xs = some (x, xs')) :
    x ∈ xs ∧ ∀ y ∈ xs', y ∈ xs := by
  cases direction with
  | left =>
    cases xs with
    | nil => cases h
    | cons z zs =>
      obtain ⟨rfl, rfl⟩ := Prod.mk.inj (Option.some.inj h)
      exact ⟨List.mem_cons_self, fun _ => List.mem_cons_of_mem _⟩
  | right =>
    obtain ⟨z, hz, he⟩ := Option.map_eq_some_iff.mp h
    obtain ⟨rfl, rfl⟩ := Prod.mk.inj he
    exact ⟨List.mem_of_getLast? hz, fun _ hy => List.dropLast_subset _ hy⟩

/-- What `shdict_push` passes on is the element. -/
theorem pushArgs_elem {a : PushArgs} (h : pushArgs direction key value = .ok a) :
    value.Elem ∧ a.direction = direction ∧
      ∃ bytes, pushValue a = .ok bytes ∧ (a.valueType, bytes) = value.elem := by
  obtain ⟨-, -, hdir, ⟨rfl, hty⟩ | ⟨rfl, hty, -⟩⟩ := pushArgs_ok h
  · exact ⟨trivial, hdir, a.strValue, by rw [pushValue, hty], by rw [hty]; rfl⟩
  · exact ⟨trivial, hdir, a.numValue.bytes, by rw [pushValue, hty], by rw [hty]; rfl⟩

end Values

/-! ### What a method makes of an answer -/

/-- A method returns `result` where the queue of C answers `ans`. The lengths and the
elements are turned into values of Lua, the errors into their texts. -/
inductive Says (N : LuaNumbers) : QueueAnswer → LuaResult → Prop
  | length (n : Nat) : Says N (.length n) (.ok [.number (N.ofInt n)])
  | elem {v : LuaValue} (hv : v.Elem) : Says N (.elem v.elem.1 v.elem.2) (.ok [v])
  | nil : Says N .nil (.ok [.nil])
  | full : Says N (.error "no memory") (refusal "no memory")
  | notList : Says N (.error "value not a list") (refusal "value not a list")

section Answers
variable {N : LuaNumbers} {ans : QueueAnswer} {result : LuaResult}

theorem Says.list {r : ListResult} (h : Says N ans result) (hr : ans.Agrees (.list r))
    (cells : FfiCells) :
    pushReturn N (cells.list r) r.value = result ∧ llenReturn N (cells.list r) r.value = result ∧
      LuaResult.full result = (Answer.list r).full := by
  have error : ∀ msg, r.value = ngxError ∧ r.errmsg = some msg →
      pushReturn N (cells.list r) r.value = refusal msg ∧
      llenReturn N (cells.list r) r.value = refusal msg := by
    rintro msg ⟨hvalue, hmsg⟩
    have herr : (cells.list r).errmsg = some msg := by
      rw [FfiCells.list, hmsg]
      rfl
    rw [pushReturn, llenReturn, FfiCells.message,
      failedReturn, herr, hvalue, if_pos le_rfl, if_pos le_rfl]
    exact ⟨rfl, rfl⟩
  cases h with
  | length n =>
    obtain ⟨hvalue, hmsg⟩ := hr
    have hpos : ¬ r.value ≤ ngxError := by
      rw [hvalue, ngxError]
      omega
    rw [pushReturn, llenReturn, if_neg hpos, if_neg hpos, hvalue, Answer.full, hmsg]
    exact ⟨rfl, rfl, rfl⟩
  | full =>
    obtain ⟨hpush, hllen⟩ := error _ hr
    exact ⟨hpush, hllen, by rw [Answer.full, hr.2]; decide⟩
  | notList =>
    obtain ⟨hpush, hllen⟩ := error _ hr
    exact ⟨hpush, hllen, by rw [Answer.full, hr.2]; decide +kernel⟩
  | elem | nil => exact hr.elim

/-- **What is popped is what was pushed.** -/
theorem Says.get {r : GetResult} (h : Says N ans result) (hs : PopShape r)
    (hr : ans.Agrees (.get r)) (cells : FfiCells) :
    popReturn (cells.offer.get r) r.rc = result := by
  have error : ∀ msg, r.rc = ngxError ∧ r.err = some msg →
      popReturn (cells.offer.get r) r.rc = refusal msg := by
    rintro msg ⟨hrc, hmsg⟩
    have herr : (cells.offer.get r).errmsg = some msg := by
      rw [FfiCells.get_errmsg, hmsg]
      rfl
    rw [popReturn, failedReturn, herr, hrc, if_pos (by decide)]
    rfl
  cases h with
  | length => exact hr.elim
  | full => exact error _ hr
  | notList => exact error _ hr
  | nil =>
    obtain ⟨hrc, hty⟩ := hr
    cases hs with
    | failed h => exact absurd hrc h
    | nil => rfl
    | string | number => cases hty
  | @elem v hv =>
    obtain ⟨hrc, hty, hvalue, hlen⟩ := hr
    cases hs with
    | failed h => exact absurd hrc h
    | nil => cases hlen
    | string bytes =>
      cases v with
      | string z =>
        obtain rfl : bytes = z := Option.some.inj hvalue
        exact congrArg (fun z => Except.ok [LuaValue.string z]) FfiCells.string_get
      | number x => cases hty
      | nil | boolean | table | function | userdata | thread => exact hv.elim
    | number num n =>
      cases v with
      | number x =>
        obtain ⟨x, hx⟩ := x
        obtain ⟨num, hnum⟩ := num
        obtain rfl : num = x := Option.some.inj hvalue
        rfl
      | string z => cases hty
      | nil | boolean | table | function | userdata | thread => exact hv.elim

end Answers

/-! ### The queue of C -/

/-- An answer that a call can give, on some entries. -/
def Call.Gives (c : Call) (answer : Answer) : Prop :=
  ∃ env ch L, answer = (c.entries env ch L).result

section Queue
variable {N : LuaNumbers} {direction : Direction} {key value v : LuaValue} {t : Nat}
  {o : Option LuaQueued} {malloc full forcible : Bool} {xs : List LuaValue}

theorem queuePush_map (full : Bool) {a : PushArgs} (h : pushArgs direction key value = .ok a) :
    (queuePush a full (o.map LuaQueued.queued)).1 =
      (luaPush N direction value full o).1.map LuaQueued.queued ∧
      Says N (queuePush a full (o.map LuaQueued.queued)).2
        (luaPush N direction value full o).2 := by
  obtain ⟨-, hdir, bytes, hbytes, helem⟩ := pushArgs_elem h
  simp only [queuePush, hbytes, luaPush]
  rcases o with _ | ⟨v | xs, deadline⟩
  · cases full with
    | true => exact ⟨rfl, .full⟩
    | false => exact ⟨by simp [LuaQueued.queued, LuaContent.content, helem], .length 1⟩
  · obtain ⟨valueType, bytes', hv⟩ := v.content_plain
    simp only [Option.map_some, LuaQueued.queued, LuaContent.content, hv]
    exact ⟨trivial, .notList⟩
  · cases full with
    | true => exact ⟨rfl, .full⟩
    | false =>
      refine ⟨?_, ?_⟩
      · simp [LuaQueued.queued, LuaContent.content, helem, hdir, Direction.insert_map]
      · simpa [LuaQueued.queued, LuaContent.content] using Says.length (N := N) (xs.length + 1)

theorem queuePop_map (direction : Direction) (malloc : Bool) (ho : ∀ b, o = some b → b.Ok) :
    (queuePop direction strBufSize malloc (o.map LuaQueued.queued)).1 =
        (luaPop direction malloc o).1.map LuaQueued.queued ∧
      Says N (queuePop direction strBufSize malloc (o.map LuaQueued.queued)).2
        (luaPop direction malloc o).2 := by
  simp only [queuePop, luaPop]
  rcases o with _ | ⟨v | xs, deadline⟩
  · exact ⟨rfl, .nil⟩
  · obtain ⟨valueType, bytes', hv⟩ := v.content_plain
    simp only [Option.map_some, LuaQueued.queued, LuaContent.content, hv]
    exact ⟨trivial, .notList⟩
  · simp only [Option.map_some, LuaQueued.queued, LuaContent.content, Direction.take_map]
    cases htake : direction.take xs with
    | none => exact ⟨rfl, .nil⟩
    | some p =>
      obtain ⟨v, xs'⟩ := p
      have hv : v.Elem := ho _ rfl xs rfl v (Direction.mem_of_take htake).1
      have hlong : (v.elem.1 = .tstring ∧ strBufSize < v.elem.2.length ∧ malloc = false) ↔
          (v.Long = true ∧ malloc = false) := by
        cases v with
        | string bytes => simp [LuaValue.elem, LuaValue.Long]
        | number x => simp [LuaValue.elem, LuaValue.Long]
        | nil | boolean | table | function | userdata | thread => exact hv.elim
      simp only [Option.map_some, hlong, List.map_eq_nil_iff]
      split
      · exact ⟨rfl, .full⟩
      · refine ⟨?_, .elem hv⟩
        split <;> rfl

theorem queueLlen_map :
    (queueLlen (o.map LuaQueued.queued)).1 = (luaLlen N o).1.map LuaQueued.queued ∧
      Says N (queueLlen (o.map LuaQueued.queued)).2 (luaLlen N o).2 := by
  simp only [queueLlen, luaLlen]
  rcases o with _ | ⟨v | xs, deadline⟩
  · exact ⟨rfl, .length 0⟩
  · obtain ⟨valueType, bytes', hv⟩ := v.content_plain
    simp only [Option.map_some, LuaQueued.queued, LuaContent.content, hv]
    exact ⟨trivial, .notList⟩
  · refine ⟨rfl, ?_⟩
    simpa [LuaQueued.queued, LuaContent.content] using Says.length (N := N) xs.length

theorem queueStore_map {exptime flags : LuaValue} {a : StoreArgs}
    (h : storeArgs N key value exptime flags = .ok a) :
    (queueStore t 0 a full (o.map LuaQueued.queued)).1 =
      (luaStore t value a.exptime full forcible).1.map LuaQueued.queued := by
  by_cases hnil : value = .nil
  · subst hnil
    obtain ⟨-, -, hvalue, -⟩ := storeArgs_ok h
    simp only [valueArg, Except.ok.injEq, Prod.mk.injEq] at hvalue
    simp [queueStore, storeValue, ← hvalue.1, luaStore]
  · obtain ⟨ha, hcontent⟩ := storeArgs_plain h (storeArgs_plain_of_ne h hnil)
    rw [luaStore, if_neg hnil]
    simp only [queueStore, ha.storeValue]
    cases full with
    | true => rfl
    | false =>
      simp only [Bool.false_eq_true, if_false, Option.map_some, LuaQueued.queued,
        LuaContent.content, hcontent]

/-- What `set` passes on has a value that can be stored, or is a nil. -/
theorem storeArgs_value {exptime flags : LuaValue} {a : StoreArgs}
    (h : storeArgs N key value exptime flags = .ok a) :
    ∃ v, storeValue 0 a = .ok v ∧ (value = .nil ↔ v = none) := by
  by_cases hnil : value = .nil
  · subst hnil
    obtain ⟨-, -, hvalue, -⟩ := storeArgs_ok h
    simp only [valueArg, Except.ok.injEq, Prod.mk.injEq] at hvalue
    exact ⟨none, by simp [storeValue, ← hvalue.1], by simp⟩
  · have ha := (storeArgs_plain h (storeArgs_plain_of_ne h hnil)).1
    exact ⟨_, ha.storeValue 0, by simp [hnil]⟩

/-- A `mps_shdict_set` declines nothing, and a delete needs no memory. -/
theorem setEntries_result {a : StoreArgs} {v : Option Bytes} (hv : storeValue 0 a = .ok v)
    (env : Env) (c : Choice) (L : List Entry) :
    (∃ rounds, (storeEntries env 0 a c L).result = ⟨ngxOk, none, rounds⟩ ∧
      (v = none → rounds = 0)) ∨
      v ≠ none ∧ ∃ rounds,
        (storeEntries env 0 a c L).result = ⟨ngxError, some "no memory", rounds⟩ := by
  have hinsert : ∀ rest sd,
      (∃ rounds, (storeInsertEntries env a v c rest sd).result = ⟨ngxOk, none, rounds⟩ ∧
        (v = none → rounds = 0)) ∨
      v ≠ none ∧ ∃ rounds,
        (storeInsertEntries env a v c rest sd).result = ⟨ngxError, some "no memory", rounds⟩ := by
    intro rest sd
    cases v with
    | none => exact .inl ⟨0, rfl, fun _ => rfl⟩
    | some bytes =>
      simp only [storeInsertEntries, insertEntry]
      cases c.alloc.node with
      | none => exact .inr ⟨Option.some_ne_none _, _, rfl⟩
      | some node => exact .inl ⟨_, rfl, fun h => absurd h (Option.some_ne_none _)⟩
  have hreplace : ∀ e rest,
      (∃ rounds, (storeReplaceEntries env a v c e rest).result = ⟨ngxOk, none, rounds⟩ ∧
        (v = none → rounds = 0)) ∨
      v ≠ none ∧ ∃ rounds,
        (storeReplaceEntries env a v c e rest).result = ⟨ngxError, some "no memory", rounds⟩ := by
    intro e rest
    unfold storeReplaceEntries
    split
    · split
      · exact .inl ⟨0, rfl, fun h => absurd h (Option.some_ne_none _)⟩
      · exact hinsert _ _
    · exact hinsert _ _
  simp only [storeEntries, hv, storeFoundEntries]
  cases hit (env.mpsClockTimeMs 2) c.found with
  | absent => exact hinsert _ _
  | live e | expired e => exact hreplace e _

/-- **A `set` returns what the queue does.** -/
theorem luaStore_returns {a : StoreArgs} {exptime flags : LuaValue} {r : StoreResult}
    (h : storeArgs N key value exptime flags = .ok a) (hgives : (Call.store 0 a).Gives (.store r))
    (cells : FfiCells) :
    LuaResult.full (storeReturn (cells.store r) r.rc) = (Answer.store r).full ∧
      storeReturn (cells.store r) r.rc =
        (luaStore t value a.exptime (LuaResult.full (storeReturn (cells.store r) r.rc))
          (LuaResult.forcible (storeReturn (cells.store r) r.rc))).2 := by
  obtain ⟨env, c, L, hanswer⟩ := hgives
  obtain rfl : r = (storeEntries env 0 a c L).result := Answer.store.inj hanswer
  obtain ⟨v, hv, hnil⟩ := storeArgs_value h
  rcases setEntries_result hv env c L with ⟨rounds, hr, hzero⟩ | ⟨hne, rounds, hr⟩
  · rw [hr]
    refine ⟨rfl, ?_⟩
    by_cases hn : value = .nil
    · obtain rfl := hzero (hnil.mp hn)
      rw [luaStore, if_pos hn]
      rfl
    · rw [luaStore, if_neg hn]
      rfl
  · obtain ⟨x, hreturn⟩ : ∃ x, storeReturn (cells.store (storeEntries env 0 a c L).result)
        (storeEntries env 0 a c L).result.rc =
        .ok [.boolean false, .text "no memory", .boolean x] := by
      rw [hr]
      simp [storeReturn, ngxError, ngxOk, FfiCells.message, FfiCells.store, Except.map]
    have hfull : LuaResult.full (.ok [.boolean false, .text "no memory", .boolean x]) = true := by
      simp [LuaResult.full]
    rw [hreturn, hfull, luaStore, if_neg (mt hnil.mp hne), hr]
    exact ⟨by simp [Answer.full], rfl⟩

end Queue

/-! ### Methods -/

/-- What a method tells that is the call `q` of the queue, its call of C being `c`: both
leave the same under the key, and the result is the one of the queue of Lua. -/
structure LuaQueueCall.Tells (N : LuaNumbers) (q : LuaQueueCall) (t : Nat) (malloc : Bool)
    (o : Option LuaQueued) (c : Call) (answer : Answer) (result : LuaResult) : Prop where
  kept : (c.queueStep t malloc answer.full (o.map LuaQueued.queued)).1 =
    (q.step N t malloc (LuaResult.full result) (LuaResult.forcible result) o).1.map
      LuaQueued.queued
  result : result = (q.step N t malloc (LuaResult.full result) (LuaResult.forcible result) o).2

/-- What goes into a queue are numbers and strings. -/
def LuaQueueCall.Ok : LuaQueueCall → Prop
  | .push _ value => value.Elem
  | _ => True

/-- **A method that is a call of the queue tells what the queue does.** Whatever the call
of C answers as the queue of C, the method returns as the queue of Lua. -/
structure LuaCall.IsQueued (N : LuaNumbers) (call : LuaCall) (k : Bytes) (q : LuaQueueCall)
    (c : Call) : Prop where
  queued : call.queued N = some (k, q)
  issues : call.issues N = some c
  key : c.key = some k
  ok : q.Ok
  tells : ∀ t malloc o answer (cells : FfiCells), (∀ b, o = some b → b.Ok) → c.Gives answer →
    (c.queueStep t malloc answer.full (o.map LuaQueued.queued)).2.Agrees answer →
    q.Tells N t malloc o c answer (call.returns N (cells.after c answer) answer)

section Methods
variable {N : LuaNumbers} {direction : Direction} {key value exptime flags : LuaValue}
  {t : Nat} {k : Bytes} {malloc full forcible : Bool} {o : Option LuaQueued}
  {q : LuaQueueCall} {c : Call} {call : LuaCall}

theorem Call.Gives.shaped {answer : Answer} (h : c.Gives answer) : answer.Shaped c := by
  obtain ⟨env, ch, L, rfl⟩ := h
  exact Call.entries_shaped _ _ _ _

theorem LuaCall.isQueued_push {a : PushArgs} (h : pushArgs direction key value = .ok a) :
    (LuaCall.push direction key value).IsQueued N a.key (.push direction value) (.push a) := by
  refine ⟨Checked.map_eq_some.mpr ⟨a, h, rfl⟩,
    Checked.map_eq_some.mpr ⟨a, h, rfl⟩, rfl, (pushArgs_elem h).1, ?_⟩
  rintro t malloc o answer cells - ⟨env, ch, L, hanswer⟩ hagrees
  obtain ⟨r, rfl⟩ : ∃ r, answer = .list r := ⟨_, hanswer⟩
  replace hagrees :
    (queuePush a (Answer.list r).full (o.map LuaQueued.queued)).2.Agrees (.list r) := hagrees
  obtain ⟨hkept, hsay⟩ := queuePush_map (N := N) (o := o) (Answer.list r).full h
  obtain ⟨hpush, -, hfull⟩ := hsay.list hagrees cells
  have hresult : (LuaCall.push direction key value).returns N
      (cells.after (.push a) (.list r)) (.list r) = _ :=
    hpush
  rw [hresult]
  refine ⟨hkept.trans ?_, ?_⟩
  · rw [hfull]
    rfl
  · rw [hfull]
    rfl

theorem LuaCall.isQueued_pop (h : checkedKey key = .ok k) :
    (LuaCall.pop direction key).IsQueued N k (.pop direction) (.pop direction k strBufSize) := by
  refine ⟨Checked.map_eq_some.mpr ⟨k, h, rfl⟩,
    Checked.map_eq_some.mpr ⟨k, h, rfl⟩, rfl, trivial, ?_⟩
  intro t malloc o answer cells ho hgives hagrees
  have hs := hgives.shaped
  obtain ⟨env, ch, L, hanswer⟩ := hgives
  obtain ⟨r, rfl⟩ : ∃ r, answer = .get r := ⟨_, hanswer⟩
  obtain ⟨hkept, hsay⟩ := queuePop_map (N := N) direction malloc ho
  have hresult : (LuaCall.pop direction key).returns N
      (cells.after (.pop direction k strBufSize) (.get r))
      (.get r) = _ := hsay.get hs hagrees cells
  rw [hresult]
  exact ⟨hkept, rfl⟩

theorem LuaCall.isQueued_llen (h : checkedKey key = .ok k) :
    (LuaCall.llen key).IsQueued N k .llen (.llen k) := by
  refine ⟨Checked.map_eq_some.mpr ⟨k, h, rfl⟩,
    Checked.map_eq_some.mpr ⟨k, h, rfl⟩, rfl, trivial, ?_⟩
  rintro t malloc o answer cells - ⟨env, ch, L, hanswer⟩ hagrees
  obtain ⟨r, rfl⟩ : ∃ r, answer = .list r := ⟨_, hanswer⟩
  obtain ⟨hkept, hsay⟩ := queueLlen_map (N := N) (o := o)
  have hresult : (LuaCall.llen key).returns N (cells.after (.llen k) (.list r)) (.list r) = _ :=
    (hsay.list hagrees cells).2.1
  rw [hresult]
  exact ⟨hkept, rfl⟩

/-- `set`, and `delete`, whose arguments are the ones of a `set` of nil. -/
theorem LuaCall.isQueued_set {a : StoreArgs} (h : storeArgs N key value exptime flags = .ok a)
    (hqueued : call.queued N = some (a.key, .set value a.exptime))
    (hissues : call.issues N = some (.store 0 a))
    (hreturns : ∀ cells r, call.returns N cells (.store r) = storeReturn cells r.rc) :
    call.IsQueued N a.key (.set value a.exptime) (.store 0 a) := by
  refine ⟨hqueued, hissues, rfl, trivial, ?_⟩
  rintro t malloc o answer cells - hgives -
  obtain ⟨r, rfl⟩ : ∃ r, answer = .store r := by
    obtain ⟨env, ch, L, hanswer⟩ := hgives
    exact ⟨_, hanswer⟩
  obtain ⟨hfull, hresult⟩ := luaStore_returns (t := t) h hgives cells
  rw [hreturns]
  refine ⟨?_, hresult⟩
  show (queueStore t 0 a (Answer.store r).full _).1 = _
  rw [← hfull]
  exact queueStore_map h

theorem LuaCall.isQueued_expire {a : Bytes × Int} (htruthy : exptime.truthy)
    (h : expireArgs N key exptime = .ok a) :
    (LuaCall.expire key exptime).IsQueued N a.1 (.expire a.2) (.setExpire a.1 a.2) := by
  refine ⟨?_, ?_, rfl, trivial, ?_⟩
  · exact (if_pos htruthy).trans (Checked.map_eq_some.mpr ⟨a, h, rfl⟩)
  · exact (if_pos htruthy).trans (Checked.map_eq_some.mpr ⟨a, h, rfl⟩)
  rintro t malloc o answer cells - ⟨env, ch, L, hanswer⟩ hagrees
  obtain ⟨rc, rfl⟩ : ∃ rc, answer = .code rc := ⟨_, hanswer⟩
  cases o with
  | none =>
    obtain rfl : rc = ngxDeclined := hagrees
    exact ⟨rfl, rfl⟩
  | some b =>
    obtain rfl : rc = ngxOk := hagrees
    exact ⟨rfl, rfl⟩

theorem LuaCall.queued_isQueued (h : call.queued N = some (k, q)) : ∃ c, call.IsQueued N k q c := by
  cases call with
  | push direction key value =>
    obtain ⟨a, ha, he⟩ := Checked.map_eq_some.mp h
    cases he
    exact ⟨_, LuaCall.isQueued_push ha⟩
  | pop direction key =>
    obtain ⟨k, hk, he⟩ := Checked.map_eq_some.mp h
    cases he
    exact ⟨_, LuaCall.isQueued_pop hk⟩
  | llen key =>
    obtain ⟨k, hk, he⟩ := Checked.map_eq_some.mp h
    cases he
    exact ⟨_, LuaCall.isQueued_llen hk⟩
  | store kind key value exptime flags =>
    cases kind with
    | set =>
      obtain ⟨a, ha, he⟩ := Checked.map_eq_some.mp h
      cases he
      exact ⟨_, LuaCall.isQueued_set ha h (Checked.map_eq_some.mpr ⟨a, ha, rfl⟩) fun _ _ => rfl⟩
    | safeSet | add | safeAdd | replace => cases h
  | delete key =>
    obtain ⟨a, ha, he⟩ := Checked.map_eq_some.mp h
    cases he
    exact ⟨_, LuaCall.isQueued_set ha h (Checked.map_eq_some.mpr ⟨a, ha, rfl⟩) fun _ _ => rfl⟩
  | expire key exptime =>
    simp only [LuaCall.queued] at h
    split at h
    · next htruthy =>
      obtain ⟨a, ha, he⟩ := Checked.map_eq_some.mp h
      cases he
      exact ⟨_, LuaCall.isQueued_expire htruthy ha⟩
    · cases h
  | get | incr | flushAll | ttl | capacity | freeSpace => cases h

/-- A method whose call of C is one that queues know is a call of the queue. -/
theorem LuaCall.queued_of_onQueue (h : call.issues N = some c) (hon : c.OnQueue) :
    call.queued N ≠ none := by
  have some_ne {α β : Type} {x : Checked α} {f : α → β}
      {a : α} (h : x = .ok a) : x.toOption.map f ≠ none := by
    rw [Checked.map_eq_some.mpr ⟨a, h, rfl⟩]
    exact Option.some_ne_none _
  cases call with
  | push direction key value =>
    obtain ⟨a, ha, -⟩ := Checked.map_eq_some.mp h
    exact some_ne ha
  | pop direction key =>
    obtain ⟨k, hk, -⟩ := Checked.map_eq_some.mp h
    exact some_ne hk
  | llen key =>
    obtain ⟨k, hk, -⟩ := Checked.map_eq_some.mp h
    exact some_ne hk
  | store kind key value exptime flags =>
    obtain ⟨a, ha, rfl⟩ := Checked.map_eq_some.mp h
    cases kind with
    | set => exact some_ne ha
    | safeSet | add | safeAdd | replace => exact absurd (show _ = 0 from hon) (by decide)
  | delete key =>
    obtain ⟨a, ha, -⟩ := Checked.map_eq_some.mp h
    exact some_ne ha
  | expire key exptime =>
    simp only [LuaCall.issues] at h
    split at h
    · next htruthy =>
      obtain ⟨a, ha, -⟩ := Checked.map_eq_some.mp h
      rw [LuaCall.queued, if_pos htruthy]
      exact some_ne ha
    · cases h
  | get key | ttl key =>
    obtain ⟨k, -, rfl⟩ := Checked.map_eq_some.mp h
    exact hon.elim
  | incr key value init initTtl =>
    obtain ⟨a, -, rfl⟩ := Checked.map_eq_some.mp h
    exact hon.elim
  | flushAll =>
    obtain rfl := Option.some.inj h
    exact hon.elim
  | capacity | freeSpace => cases h

/-- Lists go on having numbers and strings. -/
theorem LuaQueueCall.step_ok (hq : q.Ok) (ho : ∀ b, o = some b → b.Ok) :
    ∀ b, (q.step N t malloc full forcible o).1 = some b → b.Ok := by
  intro b hb xs hxs v hv
  -- only a push adds an element, and it is a number or a string
  cases q with
  | push direction value =>
    simp only [LuaQueueCall.step, luaPush] at hb
    split at hb
    · exact ho b hb xs hxs v hv
    · split at hb
      · exact ho b hb xs hxs v hv
      · next ys deadline _ =>
        obtain rfl := Option.some.inj hb
        obtain rfl := LuaContent.list.inj hxs
        rcases Direction.mem_insert.mp hv with rfl | hv
        · exact hq
        · exact ho _ rfl ys rfl v hv
    · split at hb
      · cases hb
      · obtain rfl := Option.some.inj hb
        obtain rfl := LuaContent.list.inj hxs
        obtain rfl := List.mem_singleton.mp hv
        exact hq
  | pop direction =>
    simp only [LuaQueueCall.step, luaPop] at hb
    split at hb
    · cases hb
    · exact ho b hb xs hxs v hv
    · next ys deadline =>
      split at hb
      · cases hb
      · next w ys' htake =>
        split at hb
        · exact ho b hb xs hxs v hv
        · split at hb
          · cases hb
          · obtain rfl := Option.some.inj hb
            obtain rfl := LuaContent.list.inj hxs
            exact ho _ rfl ys rfl v ((Direction.mem_of_take htake).2 v hv)
  | llen =>
    simp only [LuaQueueCall.step, luaLlen] at hb
    split at hb
    · cases hb
    · exact ho b hb xs hxs v hv
    · exact ho b hb xs hxs v hv
  | set value exptime =>
    simp only [LuaQueueCall.step, luaStore] at hb
    split at hb
    · cases hb
    · split at hb
      · cases hb
      · obtain rfl := Option.some.inj hb
        cases hxs
  | expire exptime =>
    cases o with
    | none => cases hb
    | some b' =>
      obtain rfl := Option.some.inj hb
      exact ho b' rfl xs hxs v hv

end Methods

/-! ### Runs of a queue -/

/-- The call of C that an event makes. There is none if the arguments are refused. -/
structure LuaEvent.Makes (N : LuaNumbers) (s : Nat) (y : LuaEvent) (w w' : LuaState)
    (x : Event) : Prop where
  issues : y.call.issues N = some x.call
  base : x.base = y.base
  env : x.env = y.env
  runs : x.Runs s w.dict w'.dict

/-- The states that events lead to, the last one first, whose calls of C are fair to the
key `k`. Events that make no call are in it as they are. -/
inductive LuaQueueRun (N : LuaNumbers) (s : Nat) (k : Bytes) : List LuaEvent → LuaState → Prop where
  | init {d : Shdict} (h : Fresh s d) : LuaQueueRun N s k [] ⟨d, fun _ => .new⟩
  | call {ys : List LuaEvent} {w w' : LuaState} {y : LuaEvent} (run : LuaQueueRun N s k ys w)
      (h : y.Runs N s w w')
      (hy : ∀ x, y.Makes N s w w' x →
        x.QueueFair k w.dict.entries w'.dict.entries ∧ QueueSafe k x w.dict.entries) :
      LuaQueueRun N s k (y :: ys) w'

/-- The calls of C that a run comes to, with the queue of C that they lead to, which is
that of Lua in the terms of C. -/
structure ComesToQueue (N : LuaNumbers) (s : Nat) (k : Bytes) (ys : List LuaEvent) (w : LuaState)
    (zs : List Event) : Prop where
  run : QueueRun s k (QueueSafe k) zs w.dict
  clock : Nondecreasing zs
  env : ∀ z ∈ zs, ∃ y ∈ ys, ∀ i, z.env.clock i = y.time
  after : queueAfter k zs = (luaQueueAfter N k ys).map LuaQueued.queued
  ok : ∀ b, luaQueueAfter N k ys = some b → b.Ok

section Runs
variable {N : LuaNumbers} {s : Nat} {k : Bytes} {w w' : LuaState} {y : LuaEvent}
  {ys : List LuaEvent} {q : LuaQueueCall}

theorem luaQueueAfter_own (h : y.call.queued N = some (k, q)) :
    luaQueueAfter N k (y :: ys) = (y.queue N q (luaQueueAfter N k ys)).1 := by
  simp only [luaQueueAfter, h, if_true]

theorem luaQueueAfter_other (h : ∀ q, y.call.queued N ≠ some (k, q)) :
    luaQueueAfter N k (y :: ys) = luaQueueAfter N k ys := by
  rw [luaQueueAfter]
  split
  · next key q hq =>
    refine if_neg ?_
    rintro rfl
    exact h q hq
  · rfl

/-- **A run of Lua is a run of the queue of C**, and what C answers is what Lua tells.
Both are proved in one induction, since the queue before an event must be known for its
answer. -/
theorem LuaQueueRun.comesTo (hs : 12 ≤ s) (hs' : s ≤ 16) (run : LuaQueueRun N s k ys w)
    (hclock : LuaNondecreasing ys) :
    (∃ zs, ComesToQueue N s k ys w zs) ∧ LuaAnswersAsQueue N k ys := by
  induction run with
  | init h =>
    exact ⟨⟨[], .init h, ⟨by simp, by simp, by simp⟩, by simp, rfl, fun _ hb => nomatch hb⟩,
      trivial⟩
  | call run h hy ih =>
    next ys w w' y =>
    obtain ⟨⟨zs, hzs⟩, hanswers⟩ := ih ⟨fun z hz => hclock.below z (List.mem_cons_of_mem _ hz),
      (List.pairwise_cons.mp hclock.across).2⟩
    have henvs : ∀ z ∈ zs, ∃ x ∈ y :: ys, ∀ i, z.env.clock i = x.time := by
      intro z hz
      obtain ⟨x, hx, hi⟩ := hzs.env z hz
      exact ⟨x, List.mem_cons_of_mem _ hx, hi⟩
    rcases h.cases with ⟨hnone, hd, -⟩ | ⟨x, hcall, hbase, henv, hx, hresult, -⟩
    · -- the arguments are refused
      have hother : ∀ q, y.call.queued N ≠ some (k, q) := by
        intro q hq
        obtain ⟨c, hc⟩ := LuaCall.queued_isQueued hq
        cases hnone.symm.trans hc.issues
      refine ⟨⟨zs, hd ▸ hzs.run, hzs.clock, henvs, ?_, ?_⟩,
        fun q hq => absurd hq (hother q), hanswers⟩
      · rw [luaQueueAfter_other hother]
        exact hzs.after
      · rw [luaQueueAfter_other hother]
        exact hzs.ok
    · obtain ⟨hfair, hsafe⟩ := hy x ⟨hcall, hbase, henv, hx⟩
      have htime : ∀ i, x.env.clock i = y.time := by
        intro i
        rw [hfair.still i, Event.time, henv, LuaEvent.time]
      have hclock' : Nondecreasing (x :: zs) := by
        refine hzs.clock.cons_still htime (hclock.below y List.mem_cons_self) ?_
        intro e he
        obtain ⟨u, hu, hi⟩ := hzs.env e he
        exact ⟨u.time, (List.pairwise_cons.mp hclock.across).1 u hu, hi⟩
      have henvs' : ∀ z ∈ x :: zs, ∃ u ∈ y :: ys, ∀ i, z.env.clock i = u.time := by
        intro z hz
        rcases List.mem_cons.mp hz with rfl | hz
        · exact ⟨y, List.mem_cons_self, htime⟩
        · exact henvs z hz
      have run' : QueueRun s k (QueueSafe k) (x :: zs) w'.dict := .call hzs.run hx hfair hsafe
      by_cases hk : x.call.key = some k
      · -- the method is a call of the queue
        obtain ⟨⟨k', q⟩, hq⟩ :=
          Option.ne_none_iff_exists'.mp (LuaCall.queued_of_onQueue hcall (hfair.own hk))
        obtain ⟨c, hc⟩ := LuaCall.queued_isQueued hq
        obtain rfl : x.call = c := Option.some.inj (hcall.symm.trans hc.issues)
        obtain rfl : k = k' := Option.some.inj (hk.symm.trans hc.key)
        have hgives : x.call.Gives x.answer := by
          obtain ⟨spare, hrep⟩ := SafeRun.rep hs hs' hzs.run.safeRun
          obtain ⟨ch, -, -, -, hanswer⟩ := hx.entries hrep fun _ => hsafe.1
          exact ⟨_, _, _, hanswer⟩
        have hcurrent : ∀ b, LuaQueued.current y.time (luaQueueAfter N k ys) = some b → b.Ok :=
          fun b hb => hzs.ok b (Option.filter_eq_some_iff.mp hb).1
        have hqueue : x.queue (queueAfter k zs) = x.call.queueStep y.time y.env.malloc x.answer.full
            ((LuaQueued.current y.time (luaQueueAfter N k ys)).map LuaQueued.queued) := by
          rw [Event.queue, show x.time = y.time from htime 0,
            henv, hzs.after, LuaQueued.map_current]
        have hagrees := (answers_as_queue hs hs' run' hclock').1 hk
        rw [hqueue] at hagrees
        have htells := hc.tells y.time y.env.malloc _ x.answer
          (w.cells y.worker) hcurrent hgives hagrees
        rw [← hresult] at htells
        refine ⟨⟨x :: zs, run', hclock', henvs', ?_, ?_⟩, ?_, hanswers⟩
        · rw [luaQueueAfter_own hq, queueAfter, if_pos hk, hqueue]
          exact htells.kept
        · rw [luaQueueAfter_own hq]
          exact LuaQueueCall.step_ok hc.ok hcurrent
        · intro q' hq'
          obtain rfl : q = q' := congrArg Prod.snd (Option.some.inj (hq.symm.trans hq'))
          exact htells.result
      · -- the method is on another key
        have hother : ∀ q, y.call.queued N ≠ some (k, q) := by
          intro q hq
          obtain ⟨c, hc⟩ := LuaCall.queued_isQueued hq
          obtain rfl : x.call = c := Option.some.inj (hcall.symm.trans hc.issues)
          exact hk hc.key
        refine ⟨⟨x :: zs, run', hclock', henvs', ?_, ?_⟩,
          fun q hq => absurd hq (hother q), hanswers⟩
        · rw [luaQueueAfter_other hother, queueAfter, if_neg hk]
          exact hzs.after
        · rw [luaQueueAfter_other hother]
          exact hzs.ok

/-- **The methods answer as a queue does**: whatever numbers and strings any workers push to
a key are popped as they were pushed, in the order of the queue, whatever is done to other
keys in between. -/
theorem lua_answers_as_queue (hs : 12 ≤ s) (hs' : s ≤ 16) (run : LuaQueueRun N s k ys w)
    (hclock : LuaNondecreasing ys) : LuaAnswersAsQueue N k ys :=
  (run.comesTo hs hs' hclock).2

end Runs

/-! ### A list that two workers share -/

/-- Worker 0 pushes the string "B" to "A". -/
def luaPushString : LuaEvent :=
  ⟨0, 0, calmEnv 5, .push .left (.string [65]) (.string [66]), .ok [.number (Double.ofInt 1)]⟩

/-- Worker 1 pushes the number 7 at the other end. -/
def luaPushNumber : LuaEvent :=
  ⟨1, 4096, calmEnv 6, .push .right (.string [65]) (.number (Double.ofInt 7)),
    .ok [.number (Double.ofInt 2)]⟩

/-- Worker 1 pops the string. -/
def luaPopString : LuaEvent :=
  ⟨1, 4096, calmEnv 7, .pop .left (.string [65]), .ok [.string [66]]⟩

/-- Worker 0 pops the number. -/
def luaPopNumber : LuaEvent :=
  ⟨0, 0, calmEnv 8, .pop .right (.string [65]), .ok [.number (Double.ofInt 7)]⟩

/-- Nothing is left that could get a deadline. -/
def luaExpireNone : LuaEvent :=
  ⟨1, 4096, calmEnv 9, .expire (.string [65]) (.number (Double.ofInt 1)), refusal "not found"⟩

/-- An event at a quiet time, where no entry has a deadline and the lists are short. -/
theorem LuaEvent.Makes.calm {N : LuaNumbers} {s t : Nat} {y : LuaEvent} {w w' : LuaState}
    {x : Event} {c : Call} (hx : y.Makes N s w w' x) (henv : y.env = calmEnv t)
    (hc : y.call.issues N = some c) (hkey : c.key = some [65]) (hon : c.OnQueue)
    (hL : ∀ e ∈ w.dict.entries, e.expires = 0 ∧ e.value.elems.length < 3) :
    x.QueueFair [65] w.dict.entries w'.dict.entries ∧ QueueSafe [65] x w.dict.entries := by
  obtain rfl : x.call = c := Option.some.inj (hx.issues.symm.trans hc)
  exact ⟨queueFair_calm (hx.env.trans henv) hkey hon fun e he => (hL e he).1,
    queueSafe_short hon fun e he => (hL e he).2⟩

/-- What is left of the list after each of the first four events. -/
def luaOneElem : LuaState := luaPushString.after wholeNumbers 12 luaStart
def luaTwoElems : LuaState := luaPushNumber.after wholeNumbers 12 luaOneElem
def luaLastElem : LuaState := luaPopString.after wholeNumbers 12 luaTwoElems
def luaNoElem : LuaState := luaPopNumber.after wholeNumbers 12 luaLastElem

theorem luaPushString_runs : luaPushString.Runs wholeNumbers 12 luaStart luaOneElem :=
  LuaEvent.runs_after (by decide) (show offsetofListData + 1 < 2 ^ 31 by decide)
    (by decide +kernel)

theorem luaPushNumber_runs : luaPushNumber.Runs wholeNumbers 12 luaOneElem luaTwoElems :=
  LuaEvent.runs_after (by decide) trivial (by decide +kernel)

theorem luaPopString_runs : luaPopString.Runs wholeNumbers 12 luaTwoElems luaLastElem :=
  LuaEvent.runs_after (by decide) trivial (by decide +kernel)

theorem luaPopNumber_runs : luaPopNumber.Runs wholeNumbers 12 luaLastElem luaNoElem :=
  LuaEvent.runs_after (by decide) trivial (by decide +kernel)

theorem luaExpireNone_runs : luaExpireNone.Runs wholeNumbers 12 luaNoElem
    (luaExpireNone.after wholeNumbers 12 luaNoElem) :=
  LuaEvent.runs_after (by decide) trivial (by decide +kernel)

/-- **Two workers push a string and a number**, and pop them from both ends. What is
popped at an end is what was pushed there, and nothing is left that could get a deadline. -/
theorem lua_answers_as_queue_two : LuaAnswersAsQueue wholeNumbers [65]
    [luaExpireNone, luaPopNumber, luaPopString, luaPushNumber, luaPushString] := by
  have hentries : ∀ L ∈ [luaStart.dict.entries, luaOneElem.dict.entries,
      luaTwoElems.dict.entries, luaLastElem.dict.entries, luaNoElem.dict.entries],
      ∀ e ∈ L, e.expires = 0 ∧ e.value.elems.length < 3 := by decide +kernel
  simp only [List.forall_mem_cons] at hentries
  obtain ⟨e₀, e₁, e₂, e₃, e₄, -⟩ := hentries
  refine lua_answers_as_queue (s := 12) (by decide) (by decide) (.call (.call (.call (.call (.call
    (.init fresh_emptyDict)
    luaPushString_runs fun x hx => hx.calm (t := 5)
      (c := .push ⟨.left, [65], .tstring, [66], .zero⟩) rfl rfl rfl trivial e₀)
    luaPushNumber_runs fun x hx => hx.calm (t := 6)
      (c := .push ⟨.right, [65], .tnumber, [], .ofInt 7⟩) rfl rfl rfl trivial e₁)
    luaPopString_runs fun x hx => hx.calm (t := 7)
      (c := .pop .left [65] strBufSize) rfl rfl rfl trivial e₂)
    luaPopNumber_runs fun x hx => hx.calm (t := 8)
      (c := .pop .right [65] strBufSize) rfl rfl rfl trivial e₃)
    luaExpireNone_runs fun x hx => hx.calm (t := 9)
      (c := .setExpire [65] (wholeNumbers.millis (.ofInt 1))) rfl rfl rfl trivial e₄) ⟨?_, ?_⟩
  · simp [luaPushString, luaPushNumber, luaPopString, luaPopNumber, luaExpireNone,
      LuaEvent.time, calmEnv]
  · simp [luaPushString, luaPushNumber, luaPopString, luaPopNumber, luaExpireNone,
      LuaEvent.time, calmEnv]

end MpsShdict
