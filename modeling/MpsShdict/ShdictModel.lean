import MpsShdict.ShdictCalls
import MpsShdict.ShdictRep

/-! # What the calls do to the entries

Each call again, on the list of entries, the one used last first. What a call takes from
the tree and from the allocator is a `Choice`: the entry that its lookup finds, and the
chunks that it is given. A call answers with the entries it leaves, the blocks it loses
track of, the entry it leaves `sd` at and its result.

This is the abstract model of the dictionary. It has no offsets but those that name
entries, no links, no bytes of lengths; a call is a function on lists, a few lines long,
that keeps the branches of the source and its order of effects. `ShdictRefine` and
`ShdictLists` prove that the code does to the pool what these functions do to the entries,
so whatever is proved about them is proved about the code. A claim about the contents of
the dictionary is a claim about these functions, and never looks at the pool.
-/
namespace MpsShdict

open Words

/-- What a call finds and what it is given: the entry that the way down ends at, the chunk
for a new entry with the rounds of eviction before it, and the chunk for a new element. -/
structure Choice where
  found : Option Entry
  alloc : Allocated
  elem : Option Nat

/-- What a call leaves: the entries, the blocks that nothing names any more, `sd`, and the
answer. -/
structure Outcome (α : Type) where
  entries : List Entry
  leaked : List Block
  sd : Option Nat
  result : α

/-- The entries when the lookup is done: up to two at the end of the list have gone, if
they had expired. -/
def afterExpire (env : Env) (L : List Entry) : List Entry :=
  (expireEntries (env.mpsClockTimeMs 1) 2 L).1

/-- The entries but for the one that is found. -/
def others (found : Option Entry) (L : List Entry) : List Entry :=
  match found with
  | none => L
  | some e => L.erase e

/-- The value of the entry can be written over by one of `n` bytes: it has that length,
and it is no list. -/
def Entry.fits (e : Entry) (n : Nat) : Bool :=
  match e.value with
  | .plain _ bytes => n = bytes.length
  | .list _ => false

/-! ### Stores -/

/-- A new entry, if there is a chunk for it. Entries may have been evicted for it, with or
without success. -/
def insertEntry {α : Type} (env : Env) (c : Choice) (L : List Entry) (sd : Option Nat)
    (entry : Nat → Entry) (done full : Nat → α) : Outcome α :=
  let L := evictEntries env 0 c.alloc.rounds L
  match c.alloc.node with
  | none => ⟨L, [], sd, full c.alloc.rounds⟩
  | some node => ⟨entry node :: L, [], some node, done c.alloc.rounds⟩

/-- The entry that a store makes. -/
def storedEntry (env : Env) (a : StoreArgs) (value : Bytes) (node : Nat) : Entry :=
  ⟨node, a.key, ofInt32 a.userFlags, deadline (env.mpsClockTimeMs 33) a.exptime,
    .plain a.valueType value⟩

/-- From the label `insert` on. -/
def storeInsertEntries (env : Env) (a : StoreArgs) (value : Option Bytes) (c : Choice)
    (L : List Entry) (sd : Option Nat) : Outcome StoreResult :=
  match value with
  | none => ⟨L, [], sd, ⟨ngxOk, none, 0⟩⟩
  | some value => insertEntry env c L sd (storedEntry env a value) (fun f => ⟨ngxOk, none, f⟩)
      fun f => ⟨ngxError, some "no memory", f⟩

/-- From the label `replace` on, `rest` being the other entries. -/
def storeReplaceEntries (env : Env) (a : StoreArgs) (value : Option Bytes) (c : Choice) (e : Entry)
    (rest : List Entry) : Outcome StoreResult :=
  match value with
  | some v =>
    if e.fits v.length then
      let e' : Entry := { e with
        expires := deadline (env.mpsClockTimeMs 3) a.exptime
        userFlags := ofInt32 a.userFlags
        value := .plain a.valueType v }
      ⟨e' :: rest, [], some e.off, ⟨ngxOk, none, 0⟩⟩
    else storeInsertEntries env a value c rest (some e.off)
  | none => storeInsertEntries env a value c rest (some e.off)

/-- `mps_shdict_store`, with what the lookup comes to, `rest` being the other entries. -/
def storeFoundEntries (env : Env) (op : Nat) (a : StoreArgs) (value : Option Bytes) (c : Choice)
    (rest : List Entry) (h : Hit) : Outcome StoreResult :=
  if op &&& mpsShdictReplaceFlag ≠ 0 then
    match h with
    | .live e => storeReplaceEntries env a value c e rest
    | .expired e => ⟨e :: rest, [], some e.off, ⟨ngxDeclined, some "not found", 0⟩⟩
    | .absent => ⟨rest, [], none, ⟨ngxDeclined, some "not found", 0⟩⟩
  else if op &&& mpsShdictAddFlag ≠ 0 then
    match h with
    | .live e => ⟨e :: rest, [], some e.off, ⟨ngxDeclined, some "exists", 0⟩⟩
    | .expired e => storeReplaceEntries env a value c e rest
    | .absent => storeInsertEntries env a value c rest none
  else
    match h with
    | .absent => storeInsertEntries env a value c rest none
    | .live e | .expired e => storeReplaceEntries env a value c e rest

/-- `mps_shdict_store`: all stores and the deletion. -/
def storeEntries (env : Env) (op : Nat) (a : StoreArgs) (c : Choice) (L : List Entry) :
    Outcome StoreResult :=
  match storeValue op a with
  | .error e => ⟨L, [], none, ⟨ngxError, some e, 0⟩⟩
  | .ok value =>
    storeFoundEntries env op a value c (others c.found (afterExpire env L))
      (hit (env.mpsClockTimeMs 2) c.found)

/-! ### Reads -/

/-- A value is read out. -/
def valueResult (env : Env) (value : Value) (userFlags bufLen : Nat) (getStale stale : Bool) :
    GetResult :=
  let flags := some (int32 userFlags)
  let isStale := if getStale then some stale else none
  match value with
  | .list _ => .plain ngxError (some .tlist) (some "value is a list")
  | .plain valueType value =>
    if bufLen < value.length ∧ (valueType = .tboolean ∨ valueType = .tstring ∧ ¬ env.malloc) then
      .plain ngxError (some valueType) none
    else
      match valueType with
      | .tstring =>
        ⟨ngxOk, some valueType, some value, some value.length, none, flags, isStale, none⟩
      | .tnumber =>
        if h : value.length = 8 then
          ⟨ngxOk, some valueType, none, some value.length, some ⟨value, h⟩, flags, isStale, none⟩
        else .plain ngxError (some valueType) none
      | .tboolean =>
        if value.length ≠ 1 then .plain ngxError (some valueType) none
        else ⟨ngxOk, some valueType, some value, none, none, flags, isStale, none⟩
      | .tlist => .plain ngxError (some valueType) (some "value is a list")
      | _ => .plain ngxError (some valueType) none

/-- `mps_shdict_get`. -/
def getEntries (env : Env) (bufLen : Nat) (getStale : Bool) (c : Choice) (L : List Entry) :
    Outcome GetResult :=
  let L := lookupEntries c.found L
  match hit (env.mpsClockTimeMs 2) c.found with
  | .absent => ⟨L, [], none, .plain ngxOk (some .tnil) none⟩
  | .expired e =>
    if getStale then ⟨L, [], some e.off, valueResult env e.value e.userFlags bufLen getStale true⟩
    else ⟨L, [], some e.off, .plain ngxOk (some .tnil) none⟩
  | .live e => ⟨L, [], some e.off, valueResult env e.value e.userFlags bufLen getStale false⟩

/-! ### Counters -/

/-- The entry that a counter makes. -/
def countedEntry (env : Env) (a : IncrArgs) (num : Double) (node : Nat) : Entry :=
  ⟨node, a.key, 0, deadline (env.mpsClockTimeMs 0) a.initTtl, .plain .tnumber num.bytes⟩

/-- From the label `insert` on. -/
def incrInsertEntries (env : Env) (a : IncrArgs) (num : Double) (c : Choice) (L : List Entry)
    (sd : Option Nat) : Outcome IncrResult :=
  insertEntry env c L sd (countedEntry env a num) (fun f => ⟨ngxOk, some num, none, f⟩)
    fun f => ⟨ngxError, none, some "no memory", f⟩

/-- The value of an entry that has not expired is counted up. -/
def incrLive (env : Env) (a : IncrArgs) (e : Entry) (rest : List Entry) : Outcome IncrResult :=
  let failed : Outcome IncrResult :=
    ⟨e :: rest, [], some e.off, ⟨ngxError, none, some "not a number", 0⟩⟩
  match e.value with
  | .plain .tnumber bytes =>
    if h : bytes.length = 8 then
      let num := env.add ⟨bytes, h⟩ a.value
      ⟨{ e with value := .plain .tnumber num.bytes } :: rest, [], some e.off,
        ⟨ngxOk, some num, none, 0⟩⟩
    else failed
  | _ => failed

/-- `mps_shdict_incr`: the entry that is found counts if it has not expired, and otherwise
it is replaced by one that starts from the initial value. -/
def incrEntries (env : Env) (a : IncrArgs) (c : Choice) (L : List Entry) : Outcome IncrResult :=
  let L := afterExpire env L
  let rest := others c.found L
  match hit (env.mpsClockTimeMs 2) c.found, a.init with
  | .live e, _ => incrLive env a e rest
  | .expired e, none => ⟨e :: rest, [], some e.off, ⟨ngxError, none, some "not found", 0⟩⟩
  | .absent, none => ⟨rest, [], none, ⟨ngxError, none, some "not found", 0⟩⟩
  | .expired e, some init =>
    let num := env.add a.value init
    if e.fits 8 then
      ⟨countedEntry env a num e.off :: rest, [], some e.off, ⟨ngxOk, some num, none, 0⟩⟩
    else incrInsertEntries env a num c rest (some e.off)
  | .absent, some init => incrInsertEntries env a (env.add a.value init) c rest none

/-! ### Deadlines -/

/-- Every entry of the list at `off` gets a new deadline. -/
def setExpires (off expires : Nat) (L : List Entry) : List Entry :=
  L.map fun x => if x.off = off then { x with expires := expires } else x

/-- `mps_shdict_set_expire`. -/
def setExpireEntries (env : Env) (exptime : Int) (c : Choice) (L : List Entry) : Outcome Int :=
  match c.found with
  | none => ⟨L, [], none, ngxDeclined⟩
  | some e => ⟨setExpires e.off (deadline (env.mpsClockTimeMs 0) exptime) L, [], none, ngxOk⟩

/-- `mps_shdict_get_ttl`. -/
def ttlResult (env : Env) (c : Choice) : Int :=
  match c.found with
  | none => ngxDeclined
  | some e => if e.expires = 0 then 0 else int64 (sub64 e.expires (env.mpsClockTimeMs 1))

/-- `mps_shdict_flush_all`. -/
def flushEntries (env : Env) (L : List Entry) : Outcome Int :=
  ⟨(expireEntries (env.mpsClockTimeMs 1) 3 (L.map fun e => { e with expires := 1 })).1,
    [], none, ngxOk⟩

/-! ### Lists -/

/-- What a push or `mps_shdict_llen` answers: what is behind its unlock, the error, and
the value that is returned if nothing comes in between. -/
structure ListResult where
  ret : Return
  errmsg : Option String
  value : Int
  deriving DecidableEq

/-- The call ends with a code. -/
def ListResult.code (rc : Int) (errmsg : Option String) : ListResult := ⟨.code rc, errmsg, rc⟩

/-- The call ends with the length of a list. -/
def ListResult.length (e : Entry) : ListResult :=
  ⟨.valueLen e.off, none, int32 (u32 e.value.elems.length)⟩

/-- An element goes to its end of a list. -/
def insertElem (direction : Direction) (x : Elem) (elems : List Elem) : List Elem :=
  match direction with
  | .left => x :: elems
  | .right => elems ++ [x]

/-- From the label `push_node` on, for the list `elems` of the entry `e`. -/
def pushNodeEntries (a : PushArgs) (value : Bytes) (c : Choice) (e : Entry) (elems : List Elem)
    (rest : List Entry) : Outcome ListResult :=
  match c.elem with
  | none =>
    -- a list whose length wraps around to zero is taken out, too, and its elements are lost
    if u32 elems.length = 0 then
      ⟨rest, elems.map Elem.block, some e.off, .code ngxError (some "no memory")⟩
    else ⟨{ e with value := .list elems } :: rest, [],
      some e.off, .code ngxError (some "no memory")⟩
  | some lnode =>
    let e' : Entry := { e with
      value := .list (insertElem a.direction ⟨lnode, a.valueType, value⟩ elems) }
    ⟨e' :: rest, [], some e.off, .length e'⟩

/-- From the label `init_list` on. -/
def initListEntries (env : Env) (a : PushArgs) (value : Bytes) (c : Choice) (L : List Entry)
    (sd : Option Nat) : Outcome ListResult :=
  match c.alloc.node with
  | none => ⟨L, [], sd, .code ngxError (some "no memory")⟩
  | some node => pushNodeEntries a value c ⟨node, a.key, env.junk.userFlags, 0, .list []⟩ [] L

/-- `mps_shdict_push_helper`. An expired entry that is no list is freed and a list takes
its place; an expired list is emptied and used again. -/
def pushEntries (env : Env) (a : PushArgs) (c : Choice) (L : List Entry) : Outcome ListResult :=
  match pushValue a with
  | .error e => ⟨L, [], none, .code ngxError (some e)⟩
  | .ok value =>
    let L := afterExpire env L
    let rest := others c.found L
    match hit (env.mpsClockTimeMs 2) c.found with
    | .absent => initListEntries env a value c rest none
    | .expired e =>
      match e.value with
      | .plain _ _ => initListEntries env a value c rest (some e.off)
      | .list _ => pushNodeEntries a value c { e with expires := 0 } [] rest
    | .live e =>
      match e.value with
      | .plain _ _ => ⟨e :: rest, [], some e.off, .code ngxError (some "value not a list")⟩
      | .list elems => pushNodeEntries a value c e elems rest

/-- An element is read out, and whether it may go. -/
def elemResult (env : Env) (x : Elem) (bufLen : Nat) : GetResult × Bool :=
  match x.valueType with
  | .tstring =>
    if bufLen < x.bytes.length ∧ ¬ env.malloc then
      (.plain ngxError (some .tstring) (some "no memory"), false)
    else
      (⟨ngxOk, some .tstring, some x.bytes, some x.bytes.length, none, none, none, none⟩, true)
  | .tnumber =>
    if h : x.bytes.length = 8 then
      (⟨ngxOk, some .tnumber, none, some x.bytes.length, some ⟨x.bytes, h⟩, none, none, none⟩, true)
    else (.plain ngxError (some .tnumber) (some "bad list number value size"), false)
  | t => (.plain ngxError (some t) (some "bad list node value type"), false)

/-- The element at one end of a list, and the others. -/
def takeElem (direction : Direction) (elems : List Elem) : Option (Elem × List Elem) :=
  match direction with
  | .left => elems.head?.map fun x => (x, elems.tail)
  | .right => elems.getLast?.map fun x => (x, elems.dropLast)

/-- `mps_shdict_pop_helper`, for the list `elems` of the entry `e`. -/
def popList (env : Env) (direction : Direction) (bufLen : Nat) (e : Entry) (elems : List Elem)
    (rest : List Entry) : Outcome GetResult :=
  match takeElem direction elems with
  | none => ⟨e :: rest, [], some e.off, .plain ngxError none (some "bad empty value")⟩
  | some (x, elems') =>
    if u32 elems.length = 0 then
      ⟨e :: rest, [], some e.off, .plain ngxError none (some "bad empty value")⟩
    else
      let (r, popped) := elemResult env x bufLen
      if popped then
        -- a list of length one, but for the wrap-around, is taken out
        if u32 elems.length = 1 then ⟨rest, elems'.map Elem.block, some e.off, r⟩
        else ⟨{ e with value := .list elems' } :: rest, [], some e.off, r⟩
      else ⟨e :: rest, [], some e.off, r⟩

/-- `mps_shdict_pop_helper`. -/
def popEntries (env : Env) (direction : Direction) (bufLen : Nat) (c : Choice) (L : List Entry) :
    Outcome GetResult :=
  let L := afterExpire env L
  let rest := others c.found L
  match hit (env.mpsClockTimeMs 2) c.found with
  | .absent => ⟨rest, [], none, .plain ngxOk (some .tnil) none⟩
  | .expired e => ⟨e :: rest, [], some e.off, .plain ngxOk (some .tnil) none⟩
  | .live e =>
    match e.value with
    | .plain _ _ => ⟨e :: rest, [], some e.off, .plain ngxError none (some "value not a list")⟩
    | .list elems => popList env direction bufLen e elems rest

/-- `mps_shdict_llen`. -/
def llenEntries (env : Env) (c : Choice) (L : List Entry) : Outcome ListResult :=
  let L := afterExpire env L
  let rest := others c.found L
  match hit (env.mpsClockTimeMs 2) c.found with
  | .absent => ⟨rest, [], none, .code 0 none⟩
  | .expired e => ⟨e :: rest, [], some e.off, .code 0 none⟩
  | .live e =>
    match e.value with
    | .plain _ _ => ⟨e :: rest, [], some e.off, .code ngxError (some "value not a list")⟩
    | .list _ => ⟨e :: rest, [], some e.off, .length e⟩

end MpsShdict
