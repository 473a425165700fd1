import MpsShdict.Shdict

/-! # The calls of the dictionary (`mps_shdict.c`)

The locked section of every call on a dictionary. A function is cut at the labels that its
`goto`s lead to; each label is a definition of its own, from there on.

The checks that a call makes before it takes the lock, and the wrappers that the Lua
module calls through the foreign function interface, are in the modules on the setup. What
is behind the unlock matters in one place: a push and `mps_shdict_llen` return the length
of a list, which they read from the entry after they have released the lock. Their
definitions end with a `Return`, which says what will be read, and the value is that of
whatever pool the read finds.
-/
namespace MpsShdict

open Words

/-! ### Storing -/

/-- `MPS_SHDICT_ADD`. -/
def mpsShdictAddFlag : Nat := 1
/-- `MPS_SHDICT_REPLACE`. -/
def mpsShdictReplaceFlag : Nat := 2
/-- `MPS_SHDICT_SAFE_STORE`. -/
def mpsShdictSafeStoreFlag : Nat := 4

/-- What a store call is given: the key, the type and the value, the time to live in
milliseconds, and the user flags. -/
structure StoreArgs where
  key : Bytes
  valueType : ValueType
  /-- `none` is a NULL pointer. -/
  strValue : Option Bytes
  numValue : Double
  exptime : Int
  userFlags : Int

/-- What a store call answers: the return code, the error if there is one, and in how many
rounds entries were evicted for it. -/
structure StoreResult where
  rc : Int
  errmsg : Option String
  /-- The rounds in which entries were evicted by force. -/
  rounds : Nat
  deriving DecidableEq, Repr

/-- `*forcible`. -/
def StoreResult.forcible (r : StoreResult) : Bool := 0 < r.rounds

/-- The switch over `value_type`: the bytes to store, none for NULL, or the error. A nil
is an error for those stores that add or replace. -/
def storeValue (op : Nat) (a : StoreArgs) : Except String (Option Bytes) :=
  match a.valueType with
  | .tstring => .ok a.strValue
  | .tnumber => .ok (some a.numValue.bytes)
  | .tboolean => .ok (some [if a.numValue.isZero then 0 else 1])
  | .tnil =>
    if op &&& (mpsShdictAddFlag ||| mpsShdictReplaceFlag) ≠ 0 then
      .error "attempt to add or replace nil values"
    else .ok none
  | _ => .error "unsupported value type"

/-- The value of an entry is written over. The length is that of the old value, so the
chunk is right; the deadline, the flags and the type are those of the new one. -/
def storeInPlace (d : Shdict) (env : Env) (a : StoreArgs) (value : Bytes) (node : Nat) : Shdict :=
  (d.touch node).setSd node fun sd =>
    { sd with
      expires := deadline (env.mpsClockTimeMs 3) a.exptime
      userFlags := ofInt32 a.userFlags
      valueType := a.valueType
      data := ngxMemcpy sd.data a.key.length value }

/-- From the label `allocated` on. -/
def storeAllocated (env : Env) (a : StoreArgs) (hash : Nat) (value : Bytes) (node : Nat)
    (d : Shdict) : Option Shdict :=
  let d := { d with rbtree.node := d.rbtree.node.setKey node hash }
  let d := d.setSd node fun _ =>
    { valueType := a.valueType
      keyLen := a.key.length % 2 ^ 16
      valueLen := u32 value.length
      expires := deadline (env.mpsClockTimeMs 33) a.exptime
      userFlags := ofInt32 a.userFlags
      data := ngxMemcpy (ngxMemcpy env.junk.data 0 a.key) a.key.length value }
  d.link node

/-- From the label `insert` on. Without a value the call ends here; a safe store may not
evict for its chunk. -/
def storeInsert (sz : Sizes) (base : Nat) (env : Env) (op : Nat) (a : StoreArgs) (hash : Nat)
    (value : Option Bytes) (d : Shdict) (sd : Option Nat) :
    Option (Shdict × Option Nat × StoreResult) :=
  match value with
  | none => some (d, sd, ⟨ngxOk, none, 0⟩)
  | some value => do
    let size := intSize (offsetofColor + offsetofData + a.key.length + value.length)
    let force := op &&& mpsShdictSafeStoreFlag = 0
    let (d, node, rounds) ← allocEntry sz base env size force d
    match node with
    | none => some (d, sd, ⟨ngxError, some "no memory", rounds⟩)
    | some node =>
      let d ← storeAllocated env a hash value node d
      some (d, some node, ⟨ngxOk, none, rounds⟩)

/-- From the label `remove` on. The old entry is gone before the new one is allocated. -/
def storeRemove (sz : Sizes) (base : Nat) (env : Env) (op : Nat) (a : StoreArgs) (hash : Nat)
    (value : Option Bytes) (d : Shdict) (node : Nat) :
    Option (Shdict × Option Nat × StoreResult) := do
  let d ← d.removeEntry sz base node a.key.length
  storeInsert sz base env op a hash value d (some node)

/-- From the label `replace` on; without a value this is the label `remove`. -/
def storeReplace (sz : Sizes) (base : Nat) (env : Env) (op : Nat) (a : StoreArgs) (hash : Nat)
    (value : Option Bytes) (d : Shdict) (node : Nat) :
    Option (Shdict × Option Nat × StoreResult) :=
  match value with
  | some v =>
    if v.length = (d.sd node).valueLen ∧ (d.sd node).valueType ≠ .tlist then
      some (storeInPlace d env a v node, some node, ⟨ngxOk, none, 0⟩)
    else storeRemove sz base env op a hash value d node
  | none => storeRemove sz base env op a hash value d node

/-- `mps_shdict_store`, with what the lookup answers. -/
def storeFound (sz : Sizes) (base : Nat) (env : Env) (op : Nat) (a : StoreArgs) (hash : Nat)
    (value : Option Bytes) (d : Shdict) (rc : Lookup) :
    Option (Shdict × Option Nat × StoreResult) :=
  if op &&& mpsShdictReplaceFlag ≠ 0 then
    match rc with
    | .ok node => storeReplace sz base env op a hash value d node
    | .done node => some (d, some node, ⟨ngxDeclined, some "not found", 0⟩)
    | .declined => some (d, none, ⟨ngxDeclined, some "not found", 0⟩)
  else if op &&& mpsShdictAddFlag ≠ 0 then
    match rc with
    | .ok node => some (d, some node, ⟨ngxDeclined, some "exists", 0⟩)
    | .done node => storeReplace sz base env op a hash value d node
    | .declined => storeInsert sz base env op a hash value d none
  else
    match rc with
    | .declined => storeInsert sz base env op a hash value d none
    | .ok node | .done node => storeReplace sz base env op a hash value d node

/-- `mps_shdict_store`: all stores and the deletion, told apart by the bits of `op` and by
the value. -/
def mpsShdictStore (sz : Sizes) (base : Nat) (env : Env) (op : Nat) (a : StoreArgs) (d : Shdict) :
    Option (Shdict × Option Nat × StoreResult) :=
  match storeValue op a with
  | .error e => some (d, none, ⟨ngxError, some e, 0⟩)
  | .ok value => do
    let hash := ngxMurmurHash2 a.key
    let (d, _) ← mpsShdictExpire sz base (env.mpsClockTimeMs 1) d 1
    let (d, rc) ← mpsShdictLookup d (env.mpsClockTimeMs 2) hash a.key
    storeFound sz base env op a hash value d rc

section Wrappers
variable (sz : Sizes) (base : Nat) (env : Env) (a : StoreArgs) (d : Shdict)

/-- `mps_shdict_set`. -/
def mpsShdictSet : Option (Shdict × Option Nat × StoreResult) :=
  mpsShdictStore sz base env 0 a d

/-- `mps_shdict_safe_set`. -/
def mpsShdictSafeSet : Option (Shdict × Option Nat × StoreResult) :=
  mpsShdictStore sz base env mpsShdictSafeStoreFlag a d

/-- `mps_shdict_add`. -/
def mpsShdictAdd : Option (Shdict × Option Nat × StoreResult) :=
  mpsShdictStore sz base env mpsShdictAddFlag a d

/-- `mps_shdict_safe_add`. -/
def mpsShdictSafeAdd : Option (Shdict × Option Nat × StoreResult) :=
  mpsShdictStore sz base env (mpsShdictAddFlag ||| mpsShdictSafeStoreFlag) a d

/-- `mps_shdict_replace`. -/
def mpsShdictReplace : Option (Shdict × Option Nat × StoreResult) :=
  mpsShdictStore sz base env mpsShdictReplaceFlag a d

/-- `mps_shdict_delete`. -/
def mpsShdictDelete (key : Bytes) : Option (Shdict × Option Nat × StoreResult) :=
  mpsShdictStore sz base env 0 ⟨key, .tnil, none, Double.zero, 0, 0⟩ d

end Wrappers

/-! ### Reading -/

/-- What `mps_shdict_get` and the pops answer.  An output that the call leaves as it
was is `none`. -/
structure GetResult where
  rc : Int
  valueType : Option ValueType
  strValue : Option Bytes
  strLen : Option Nat
  numValue : Option Double
  userFlags : Option Int
  isStale : Option Bool
  err : Option String
  deriving DecidableEq

/-- Nothing but the return code and the type is written. -/
def GetResult.plain (rc : Int) (valueType : Option ValueType) (err : Option String) : GetResult :=
  ⟨rc, valueType, none, none, none, none, none, err⟩

/-- The entry at `sd` is read out; the buffer has room for `bufLen` bytes. A string that
is longer goes to memory from `malloc`, and the call fails where there is none. -/
def getValue (env : Env) (sd : ShdictNode) (bufLen : Nat) (getStale stale : Bool) : GetResult :=
  let valueType := sd.valueType
  let value := readBytes sd.data sd.keyLen sd.valueLen
  let flags := some (int32 sd.userFlags)
  let isStale := if getStale then some stale else none
  if bufLen < value.length ∧ (valueType = .tboolean ∨ valueType = .tstring ∧ ¬ env.malloc) then
    .plain ngxError (some valueType) none
  else
    match valueType with
    | .tstring => ⟨ngxOk, some valueType, some value, some value.length, none, flags, isStale, none⟩
    | .tnumber =>
      if value.length ≠ sizeofDouble then .plain ngxError (some valueType) none
      else ⟨ngxOk, some valueType, none, some value.length,
        some (readDouble sd.data sd.keyLen), flags, isStale, none⟩
    | .tboolean =>
      if value.length ≠ 1 then .plain ngxError (some valueType) none
      else ⟨ngxOk, some valueType, some value, none, none, flags, isStale, none⟩
    | .tlist => .plain ngxError (some valueType) (some "value is a list")
    | _ => .plain ngxError (some valueType) none

/-- `mps_shdict_get`. -/
def mpsShdictGet (env : Env) (key : Bytes) (bufLen : Nat) (getStale : Bool) (d : Shdict) :
    Option (Shdict × Option Nat × GetResult) := do
  let hash := ngxMurmurHash2 key
  let (d, rc) ← mpsShdictLookup d (env.mpsClockTimeMs 2) hash key
  match rc with
  | .declined => some (d, none, .plain ngxOk (some .tnil) none)
  | .done node =>
    if getStale then some (d, some node, getValue env (d.sd node) bufLen getStale true)
    else some (d, some node, .plain ngxOk (some .tnil) none)
  | .ok node => some (d, some node, getValue env (d.sd node) bufLen getStale false)

/-! ### Counting -/

/-- What `mps_shdict_incr` answers; `value` is what `*value` is set to, if it is set. -/
structure IncrResult where
  rc : Int
  value : Option Double
  err : Option String
  /-- The rounds in which entries were evicted by force. -/
  rounds : Nat
  deriving DecidableEq

/-- `*forcible`. -/
def IncrResult.forcible (r : IncrResult) : Bool := 0 < r.rounds

/-- What `mps_shdict_incr` is given. The initial value is there where `has_init` is set. -/
structure IncrArgs where
  key : Bytes
  value : Double
  /-- `init`, where `has_init` is set. -/
  init : Option Double
  initTtl : Int

/-- From the label `setvalue` on. -/
def incrSetValue (env : Env) (a : IncrArgs) (num : Double) (node : Nat) (d : Shdict) : Shdict :=
  d.setSd node fun sd =>
    { sd with
      userFlags := 0
      expires := deadline (env.mpsClockTimeMs 0) a.initTtl
      valueType := .tnumber
      data := ngxMemcpy (ngxMemcpy sd.data 0 a.key) a.key.length num.bytes }

/-- From the label `allocated` to the label `setvalue`. The node is hung up before the key
is written into it, so its place in the tree is that of whatever bytes were in the chunk,
where another key has the hash. -/
def incrAllocated (env : Env) (a : IncrArgs) (hash node : Nat) (d : Shdict) : Option Shdict :=
  let d := { d with rbtree.node := d.rbtree.node.setKey node hash }
  let d := d.setSd node fun _ =>
    { env.junk with keyLen := a.key.length % 2 ^ 16, valueLen := u32 sizeofDouble }
  d.link node

/-- From the label `insert` on. -/
def incrInsert (sz : Sizes) (base : Nat) (env : Env) (a : IncrArgs) (hash : Nat) (num : Double)
    (d : Shdict) (sd : Option Nat) : Option (Shdict × Option Nat × IncrResult) := do
  let size := intSize (offsetofColor + offsetofData + a.key.length + sizeofDouble)
  let (d, node, rounds) ← allocEntry sz base env size true d
  match node with
  | none => some (d, sd, ⟨ngxError, none, some "no memory", rounds⟩)
  | some node =>
    let d ← incrAllocated env a hash node d
    some (incrSetValue env a num node d, some node, ⟨ngxOk, some num, none, rounds⟩)

/-- The value of an entry that has not expired is counted up. -/
def incrInPlace (env : Env) (a : IncrArgs) (d : Shdict) (node : Nat) :
    Shdict × Option Nat × IncrResult :=
  let sd := d.sd node
  if sd.valueType ≠ .tnumber ∨ sd.valueLen ≠ sizeofDouble then
    (d, some node, ⟨ngxError, none, some "not a number", 0⟩)
  else
    let num := env.add (readDouble sd.data a.key.length) a.value
    let d := (d.touch node).setSd node fun sd =>
      { sd with data := ngxMemcpy sd.data a.key.length num.bytes }
    (d, some node, ⟨ngxOk, some num, none, 0⟩)

/-- `mps_shdict_incr`. A counter that has expired counts as not there, and is started
again from the initial value where one is given. -/
def mpsShdictIncr (sz : Sizes) (base : Nat) (env : Env) (a : IncrArgs) (d : Shdict) :
    Option (Shdict × Option Nat × IncrResult) := do
  let hash := ngxMurmurHash2 a.key
  let (d, _) ← mpsShdictExpire sz base (env.mpsClockTimeMs 1) d 1
  let (d, rc) ← mpsShdictLookup d (env.mpsClockTimeMs 2) hash a.key
  match rc, a.init with
  | .ok node, _ => some (incrInPlace env a d node)
  | .done node, none => some (d, some node, ⟨ngxError, none, some "not found", 0⟩)
  | .declined, none => some (d, none, ⟨ngxError, none, some "not found", 0⟩)
  | .done node, some init =>
    let num := env.add a.value init
    if (d.sd node).valueLen = sizeofDouble ∧ (d.sd node).valueType ≠ .tlist then
      some (incrSetValue env a num node (d.touch node), some node, ⟨ngxOk, some num, none, 0⟩)
    else do
      let d ← d.removeEntry sz base node a.key.length
      incrInsert sz base env a hash num d (some node)
  | .declined, some init => incrInsert sz base env a hash (env.add a.value init) d none

/-! ### Deadlines -/

/-- The loop of `mps_shdict_flush_all`, `q` being next: every entry gets the deadline 1,
which is long past. -/
def flushLoop : Nat → Shdict → Nat → Option Shdict
  | 0, _, _ => none
  | fuel + 1, d, q =>
    if q = d.lruQueue then some d
    else
      let d := d.setSd (nodeOfQueue q) fun sd => { sd with expires := 1 }
      flushLoop fuel d (mpsQueueNext d.queue q)

/-- `mps_shdict_flush_all`. -/
def mpsShdictFlushAll (sz : Sizes) (base : Nat) (env : Env) (d : Shdict) :
    Option (Shdict × Int) := do
  let d ← flushLoop d.rounds d (mpsQueueHead d.queue d.lruQueue)
  let (d, _) ← mpsShdictExpire sz base (env.mpsClockTimeMs 1) d 0
  some (d, ngxOk)

/-- `mps_shdict_get_ttl`: the milliseconds that are left, zero without a deadline, and a
negative number once it has passed. The return code for a missing key is a negative number
too. -/
def mpsShdictGetTtl (env : Env) (key : Bytes) (d : Shdict) : Option Int := do
  match ← mpsShdictPeek d (ngxMurmurHash2 key) key with
  | .ok node | .done node =>
    let expires := (d.sd node).expires
    if expires = 0 then some 0 else some (int64 (sub64 expires (env.mpsClockTimeMs 1)))
  | .declined => some ngxDeclined

/-- `mps_shdict_set_expire`. It does not ask whether the entry has expired. -/
def mpsShdictSetExpire (env : Env) (key : Bytes) (exptime : Int) (d : Shdict) :
    Option (Shdict × Int) := do
  match ← mpsShdictPeek d (ngxMurmurHash2 key) key with
  | .ok node | .done node =>
    some (d.setSd node fun sd =>
      { sd with expires := deadline (env.mpsClockTimeMs 0) exptime }, ngxOk)
  | .declined => some (d, ngxDeclined)

/-! ### Lists -/

/-- `MPS_SHDICT_LEFT` and `MPS_SHDICT_RIGHT`, the ends of a list. -/
inductive Direction where
  | left
  | right
  deriving DecidableEq, Repr

/-- What is behind the unlock of a push or of `mps_shdict_llen`: the return of a code, or
of the field `value_len` of the entry at `sd`, which is read only then. -/
inductive Return where
  | code (rc : Int)
  | valueLen (sd : Nat)
  deriving DecidableEq, Repr

/-- The return, from a pool that may have changed since the unlock. -/
def Return.value (d : Shdict) : Return → Int
  | .code rc => rc
  | .valueLen sd => int32 (d.sd sd).valueLen

/-- What a push is given. Which of the two values counts is said by the type. -/
structure PushArgs where
  direction : Direction
  key : Bytes
  valueType : ValueType
  strValue : Bytes
  numValue : Double

/-- The switch over `value_type` of `mps_shdict_push_helper`. -/
def pushValue (a : PushArgs) : Except String Bytes :=
  match a.valueType with
  | .tstring => .ok a.strValue
  | .tnumber => .ok a.numValue.bytes
  | _ => .error "unsupported value type"

/-- The element goes to its end of the list. -/
def pushElement (base : Nat) (env : Env) (a : PushArgs) (value : Bytes) (node lnode : Nat)
    (d : Shdict) : Shdict :=
  let queue := mpsShdictGetListHead base node a.key.length
  let d := d.setSd node fun sd => { sd with valueLen := u32 (sd.valueLen + 1) }
  let element : ShdictListNode :=
    { valueLen := u32 value.length
      valueType := a.valueType
      data := ngxMemcpy env.listJunk 0 value }
  let d := { d with lnode := Function.update d.lnode lnode element }
  match a.direction with
  | .left => { d with queue := mpsQueueInsertHead d.queue queue lnode }
  | .right => { d with queue := mpsQueueInsertTail d.queue queue lnode }

/-- From the label `push_node` on. A list that has just been made, and gets no element, is
taken away again. -/
def pushNode (sz : Sizes) (base : Nat) (env : Env) (a : PushArgs) (value : Bytes) (node : Nat)
    (d : Shdict) : Option (Shdict × Option Nat × Return × Option String) := do
  let (d, lnode) ← d.slabAlloc sz env 31 (intSize (offsetofListData + value.length))
  match lnode with
  | none =>
    let d ← if (d.sd node).valueLen = 0 then d.unlink sz base node else some d
    some (d, some node, .code ngxError, some "no memory")
  | some lnode =>
    some (pushElement base env a value node lnode d, some node, .valueLen node, none)

/-- The new entry of a list. -/
def initList (base : Nat) (env : Env) (a : PushArgs) (hash node : Nat)
    (d : Shdict) : Option Shdict :=
  let queue := mpsShdictGetListHead base node a.key.length
  let d := { d with rbtree.node := d.rbtree.node.setKey node hash }
  let d := d.setSd node fun _ =>
    { env.junk with
      keyLen := a.key.length % 2 ^ 16
      expires := 0
      valueLen := 0
      valueType := .tlist
      data := ngxMemcpy env.junk.data 0 a.key }
  let d := { d with queue := mpsQueueInit d.queue queue }
  d.link node

/-- From the label `init_list` on. -/
def pushInitList (sz : Sizes) (base : Nat) (env : Env) (a : PushArgs) (hash : Nat) (value : Bytes)
    (d : Shdict) (sd : Option Nat) : Option (Shdict × Option Nat × Return × Option String) := do
  let n := alignUp (offsetofColor + offsetofData + a.key.length + sizeofQueue) ngxAlignment
  let (d, node) ← d.slabAlloc sz env 0 (intSize n)
  match node with
  | none => some (d, sd, .code ngxError, some "no memory")
  | some node =>
    let d ← initList base env a hash node d
    pushNode sz base env a value node d

/-- The list of an entry that has expired is emptied: its elements are freed, the deadline
goes, and the entry is used again. -/
def resetList (sz : Sizes) (base keyLen node : Nat) (d : Shdict) : Option Shdict := do
  let d := d.setSd node fun sd => { sd with expires := 0, valueLen := 0 }
  let queue := mpsShdictGetListHead base node keyLen
  let d ← Shdict.freeListNodes sz base queue d.rounds d (mpsQueueHead d.queue queue)
  let d := { d with queue := mpsQueueInit d.queue queue }
  some (d.touch node)

/-- `mps_shdict_push_helper`, up to the return. An expired entry that is no list is
unlinked and a list is made in its place. -/
def mpsShdictPushHelper (sz : Sizes) (base : Nat) (env : Env) (a : PushArgs) (d : Shdict) :
    Option (Shdict × Option Nat × Return × Option String) :=
  match pushValue a with
  | .error e => some (d, none, .code ngxError, some e)
  | .ok value => do
    let hash := ngxMurmurHash2 a.key
    let (d, _) ← mpsShdictExpire sz base (env.mpsClockTimeMs 1) d 1
    let (d, rc) ← mpsShdictLookup d (env.mpsClockTimeMs 2) hash a.key
    match rc with
    | .done node =>
      if (d.sd node).valueType ≠ .tlist then do
        let d ← d.unlink sz base node
        pushInitList sz base env a hash value d (some node)
      else do
        let d ← resetList sz base a.key.length node d
        pushNode sz base env a value node d
    | .ok node =>
      if (d.sd node).valueType ≠ .tlist then
        some (d, some node, .code ngxError, some "value not a list")
      else
        pushNode sz base env a value node (d.touch node)
    | .declined => pushInitList sz base env a hash value d none

/-- The element at `lnode` is read out.  `none` stands for the answer on success. -/
def popValue (env : Env) (ln : ShdictListNode) (bufLen : Nat) : GetResult × Bool :=
  let valueType := ln.valueType
  let value := readBytes ln.data 0 ln.valueLen
  match valueType with
  | .tstring =>
    if bufLen < value.length ∧ ¬ env.malloc then
      (.plain ngxError (some valueType) (some "no memory"), false)
    else
      (⟨ngxOk, some valueType, some value, some value.length, none, none, none, none⟩, true)
  | .tnumber =>
    if value.length ≠ sizeofDouble then
      (.plain ngxError (some valueType) (some "bad list number value size"), false)
    else
      (⟨ngxOk, some valueType, none, some value.length,
        some (readDouble ln.data 0), none, none, none⟩,
        true)
  | _ => (.plain ngxError (some valueType) (some "bad list node value type"), false)

/-- The element at `lnode` leaves the list, and the last one takes the entry along. -/
def popElement (sz : Sizes) (base node lnode : Nat) (d : Shdict) : Option Shdict :=
  let d := { d with queue := mpsQueueRemove d.queue lnode }
  let d := d.slabFree sz base lnode
  if (d.sd node).valueLen = 1 then d.unlink sz base node
  else
    let d := d.setSd node fun sd => { sd with valueLen := sd.valueLen - 1 }
    some (d.touch node)

/-- `mps_shdict_pop_helper`. The element is read out before it is removed, and stays where
that fails. -/
def mpsShdictPopHelper (sz : Sizes) (base : Nat) (env : Env) (direction : Direction) (key : Bytes)
    (bufLen : Nat) (d : Shdict) : Option (Shdict × Option Nat × GetResult) := do
  let hash := ngxMurmurHash2 key
  let (d, _) ← mpsShdictExpire sz base (env.mpsClockTimeMs 1) d 1
  let (d, rc) ← mpsShdictLookup d (env.mpsClockTimeMs 2) hash key
  match rc with
  | .declined => some (d, none, .plain ngxOk (some .tnil) none)
  | .done node => some (d, some node, .plain ngxOk (some .tnil) none)
  | .ok node =>
    if (d.sd node).valueType ≠ .tlist then
      some (d, some node, .plain ngxError none (some "value not a list"))
    else if (d.sd node).valueLen = 0 then
      some (d, some node, .plain ngxError none (some "bad empty value"))
    else
      let queue := mpsShdictGetListHead base node key.length
      let lnode := match direction with
        | .left => mpsQueueHead d.queue queue
        | .right => mpsQueueLast d.queue queue
      let (r, popped) := popValue env (d.lnode lnode) bufLen
      if popped then do
        let d ← popElement sz base node lnode d
        some (d, some node, r)
      else some (d, some node, r)

/-- `mps_shdict_llen`, up to the return. -/
def mpsShdictLlen (sz : Sizes) (base : Nat) (env : Env) (key : Bytes) (d : Shdict) :
    Option (Shdict × Option Nat × Return × Option String) := do
  let hash := ngxMurmurHash2 key
  let (d, _) ← mpsShdictExpire sz base (env.mpsClockTimeMs 1) d 1
  let (d, rc) ← mpsShdictLookup d (env.mpsClockTimeMs 2) hash key
  match rc with
  | .ok node =>
    if (d.sd node).valueType ≠ .tlist then
      some (d, some node, .code ngxError, some "value not a list")
    else some (d.touch node, some node, .valueLen node, none)
  | .done node => some (d, some node, .code 0, none)
  | .declined => some (d, none, .code 0, none)

/-! ### The pool -/

/-- `ENOMEM`. -/
def enomem : Int := 12

/-- `mps_shdict_on_init`, on a pool that `mps_slab_init` has set up. The chunk that it is
given becomes the header of the tree. -/
def mpsShdictOnInit (sz : Sizes) (d : Shdict) : Option (Except Int Shdict) := do
  let (pool, tree) ← mpsSlabAllocLocked sz d.rounds d.pool sizeofTree
  match tree with
  | none => some (.error enomem)
  | some tree =>
    let pool := { pool with data := tree, logNomem := false }
    let rbtree := mpsRbtreeInit d.rbtree.node (tree + offsetofSentinel) .luadict
    some (.ok { d with
      pool := pool
      rbtree := rbtree
      queue := mpsQueueInit d.queue (tree + offsetofLruQueue) })

/-- `mps_shdict_capacity`. -/
def mpsShdictCapacity (d : Shdict) : Nat := d.pool.poolEnd

/-- `mps_shdict_free_space`. -/
def mpsShdictFreeSpace (sz : Sizes) (d : Shdict) : Nat := u64 (d.pool.pfree * sz.pagesize)

end MpsShdict
