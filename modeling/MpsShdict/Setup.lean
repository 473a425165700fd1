import MpsShdict.ShdictMap

/-! # The Lua side (`mps_shdict_setup.lua`)

The methods that a dictionary has in Lua. A method checks its arguments, makes at most one
call of C, and turns what that has written to the FFI cells into values of Lua. The cells
are made once for each worker; no method clears any of them.

The translation keeps the order of the source, since the order of the checks decides which
message is given, and it keeps the texts. `Checked` is for what comes before the call of
C: it goes on with a value, or stops with what the method returns or raises. The returns
are what comes behind the call.

What Lua does with numbers is a `LuaNumbers`. A table has no metatable, and no argument is
a `cdata`.
-/
namespace MpsShdict

open Words

/-! ### Values of Lua -/

/-- A value of Lua. Tables and functions are there only to be refused, so they have no
contents. -/
inductive LuaValue where
  | nil
  | boolean (b : Bool)
  | number (x : Double)
  | string (bytes : Bytes)
  | table
  | function
  | userdata
  | thread
  deriving DecidableEq

/-- `type`. -/
def LuaValue.type : LuaValue → String
  | .nil => "nil"
  | .boolean _ => "boolean"
  | .number _ => "number"
  | .string _ => "string"
  | .table => "table"
  | .function => "function"
  | .userdata => "userdata"
  | .thread => "thread"

/-- The value counts as true. -/
def LuaValue.truthy : LuaValue → Bool
  | .nil | .boolean false => false
  | _ => true

/-- A text of the source, as a string of Lua. -/
def LuaValue.text (msg : String) : LuaValue := .string (msg.toList.map fun c => UInt8.ofNat c.toNat)

/-- What is raised: an error of the source with its text, or one of Lua itself. -/
inductive LuaError where
  /-- `error(msg)` -/
  | error (msg : String)
  /-- An operation of Lua or a conversion of its FFI that does not take a value of that type. -/
  | badType
  /-- `ffi.string` of a NULL pointer. -/
  | nullPointer
  deriving DecidableEq

/-- What a method returns, or raises. -/
abbrev LuaResult := Except LuaError (List LuaValue)

/-- Something that has been checked, or what the method is left with instead. -/
abbrev Checked := Except LuaResult

/-- What Lua does with numbers, and its FFI when it passes them on. The conversions to a
`long` and to an `int` give numbers of that type, and take zero to zero; nothing else is
assumed of them. -/
structure LuaNumbers where
  /-- `x < 0` -/
  negative : Double → Bool
  /-- `x * 1000`, passed for a `long`. -/
  millis : Double → Int
  /-- `x`, passed for an `int`. -/
  toInt : Double → Int
  /-- `tonumber` of an integer of C. -/
  ofInt : Int → Double
  /-- `tonumber(x) / 1000` -/
  seconds : Int → Double
  /-- `tonumber` of a string. -/
  tonumber : Bytes → Option Double
  millis_zero : millis Double.zero = 0
  millis_long : ∀ x, -2 ^ 63 ≤ millis x ∧ millis x < 2 ^ 63
  toInt_zero : toInt Double.zero = 0
  toInt_int : ∀ x, -2 ^ 31 ≤ toInt x ∧ toInt x < 2 ^ 31

/-- `1.0`. -/
def Double.one : Double := ⟨[0, 0, 0, 0, 0, 0, 240, 63], rfl⟩

/-- The number of a type. -/
def ValueType.code : ValueType → Int
  | .tnil => 0
  | .tboolean => 1
  | .tnumber => 3
  | .tstring => 4
  | .tlist => 5
  | .unknown code => code

/-! ### The cells -/

/-- `str_buf_size`. -/
def strBufSize : Nat := 4096

/-- What calls of C write to. A call may leave any of them as it was, and the method
behind it may read what an earlier call has left. -/
structure FfiCells where
  valueType : ValueType
  userFlags : Int
  numValue : Double
  forcible : Bool
  /-- The buffer of `str_buf_size` bytes. -/
  strBuf : Data
  /-- What `str_value_buf[0]` points to, if it is not that buffer. -/
  block : Option Bytes
  valueLen : Nat
  errmsg : Option String

namespace FfiCells

/-- The cells of a worker that starts. -/
def new : FfiCells := ⟨.tnil, 0, Double.zero, false, fun _ => 0, none, 0, none⟩

/-- The buffer is offered to a call. -/
def offer (cells : FfiCells) : FfiCells := { cells with block := none, valueLen := strBufSize }

/-- A value is copied to the buffer, or to a block of its own if it is longer than the
buffer. -/
def fill (cells : FfiCells) (bytes : Bytes) : FfiCells :=
  if strBufSize < bytes.length then { cells with block := some bytes }
  else { cells with strBuf := ngxMemcpy cells.strBuf 0 bytes }

/-- What `mps_shdict_get` or a pop writes. -/
def get (cells : FfiCells) (r : GetResult) : FfiCells :=
  let cells := match r.strValue with
    | some bytes => cells.fill bytes
    | none => cells
  { cells with
    valueType := r.valueType.getD cells.valueType
    userFlags := r.userFlags.getD cells.userFlags
    numValue := r.numValue.getD cells.numValue
    valueLen := r.strLen.getD cells.valueLen
    errmsg := r.err.or cells.errmsg }

/-- What `mps_shdict_store` writes. -/
def store (cells : FfiCells) (r : StoreResult) : FfiCells :=
  { cells with forcible := r.forcible, errmsg := r.errmsg.or cells.errmsg }

/-- What `mps_shdict_incr` writes. -/
def incr (cells : FfiCells) (r : IncrResult) : FfiCells :=
  { cells with
    numValue := r.value.getD cells.numValue
    forcible := r.forcible
    errmsg := r.err.or cells.errmsg }

/-- What a push or `mps_shdict_llen` writes. -/
def list (cells : FfiCells) (r : ListResult) : FfiCells :=
  { cells with errmsg := r.errmsg.or cells.errmsg }

/-- `ffi.string(str_value_buf[0], value_len[0])`. -/
def string (cells : FfiCells) : Bytes :=
  match cells.block with
  | some bytes => bytes.take cells.valueLen
  | none => readBytes cells.strBuf 0 cells.valueLen

/-- `ffi.string(errmsg[0])`. A pointer that has never been written is null, and Lua raises
an error. -/
def message (cells : FfiCells) : Except LuaError LuaValue :=
  match cells.errmsg with
  | some msg => .ok (.text msg)
  | none => .error .nullPointer

end FfiCells

/-! ### Arguments -/

/-- `validate_key`. `tostring` of what is no string is neither empty nor long, so such a
key passes here and is refused by the FFI. -/
def validateKey : LuaValue → Option String
  | .nil => some "nil key"
  | .string key =>
    if key.length = 0 then some "empty key"
    else if 65535 < key.length then some "key too long"
    else none
  | _ => none

/-- What a method does about its key before anything else, up to `#key`. -/
def checkKey (key : LuaValue) : Checked Unit :=
  match validateKey key with
  | some err => .error (.ok [.nil, .text err])
  | none =>
    match key with
    | .string _ | .table => .ok ()
    | _ => .error (.error .badType)

/-- The key, passed for a `const u_char *`. The FFI takes strings only. -/
def keyArg : LuaValue → Checked Bytes
  | .string key => .ok key
  | _ => .error (.error .badType)

/-- What a method does about its key that passes on nothing else. -/
def checkedKey (key : LuaValue) : Checked Bytes := do
  checkKey key
  keyArg key

section Arguments
variable (N : LuaNumbers)

/-- `exptime` of `shdict_store`. What is no number fails in the comparison, but for `nil`
and `false`, which stand for none. -/
def exptimeArg : LuaValue → Checked Double
  | .nil | .boolean false => .ok Double.zero
  | .number x =>
    if N.negative x then .error (.error (.error "bad \"exptime\" argument")) else .ok x
  | _ => .error (.error .badType)

/-- `flags`, passed for an `int`. The FFI takes `true` for 1. -/
def flagsArg : LuaValue → Checked Int
  | .nil | .boolean false => .ok (N.toInt Double.zero)
  | .boolean true => .ok 1
  | .number x => .ok (N.toInt x)
  | _ => .error (.error .badType)

/-- The value of `shdict_store`. -/
def valueArg : LuaValue → Checked (ValueType × Option Bytes × Double)
  | .string bytes => .ok (.tstring, some bytes, Double.zero)
  | .number x => .ok (.tnumber, none, x)
  | .nil => .ok (.tnil, none, Double.zero)
  | .boolean b => .ok (.tboolean, none, if b then Double.one else Double.zero)
  | _ => .error (.ok [.nil, .text "bad value type"])

/-- What `shdict_store` passes on, the checks in the order of the source. -/
def storeArgs (key value exptime flags : LuaValue) : Checked StoreArgs := do
  let exptime ← exptimeArg N exptime
  checkKey key
  let (valueType, strValue, numValue) ← valueArg value
  let key ← keyArg key
  let flags ← flagsArg N flags
  return ⟨key, valueType, strValue, numValue, N.millis exptime, flags⟩

/-- What `shdict_push` passes on. -/
def pushArgs (direction : Direction) (key value : LuaValue) : Checked PushArgs := do
  checkKey key
  let (valueType, strValue, numValue) ← (match value with
    | .string bytes => .ok (.tstring, bytes, Double.zero)
    | .number x => .ok (.tnumber, [], x)
    | _ => .error (.ok [.nil, .text "bad value type"]) : Checked (ValueType × Bytes × Double))
  let key ← keyArg key
  return ⟨direction, key, valueType, strValue, numValue⟩

/-- `tonumber`, where it is asked of what is no number. -/
def luaNumber : LuaValue → Option Double
  | .number x => some x
  | .string bytes => N.tonumber bytes
  | _ => none

/-- `init` of `incr`. -/
def initArg (init : LuaValue) : Checked (Option Double) :=
  if init.truthy then
    match luaNumber N init with
    | some x => .ok (some x)
    | none => .error (.error (.error ("bad init arg: number expected, got " ++ init.type)))
  else .ok none

/-- `init_ttl` of `incr`. -/
def initTtlArg (init : Option Double) : LuaValue → Checked Double
  | .nil => .ok Double.zero
  | initTtl =>
    match luaNumber N initTtl with
    | none => .error (.error (.error ("bad init_ttl arg: number expected, got " ++ initTtl.type)))
    | some x =>
      if N.negative x then .error (.error (.error "bad \"init_ttl\" argument"))
      else if init.isNone then
        .error (.error (.error "must provide \"init\" when providing \"init_ttl\""))
      else .ok x

/-- What `incr` passes on, the value having been written to `num_value[0]`. -/
def incrArgs (key : LuaValue) (value : Double) (init initTtl : LuaValue) : Checked IncrArgs := do
  let init ← initArg N init
  let initTtl ← initTtlArg N init initTtl
  let key ← keyArg key
  return ⟨key, value, init, N.millis initTtl⟩

/-- What `expire` passes on.  A string that is a number becomes one when it is multiplied. -/
def expireArgs (key exptime : LuaValue) : Checked (Bytes × Int) := do
  checkKey key
  match luaNumber N exptime with
  | some x => return (← keyArg key, N.millis x)
  | none => .error (.error .badType)

end Arguments

/-! ### Returns -/

section Returns
variable (N : LuaNumbers)

/-- The end of `shdict_store`. A failure is told with the text in `errmsg[0]`, a success
with whether it has evicted by force. -/
def storeReturn (cells : FfiCells) (rc : Int) : LuaResult :=
  if rc = ngxOk then .ok [.boolean true, .nil, .boolean cells.forcible]
  else cells.message.map fun msg => [.boolean false, msg, .boolean cells.forcible]

/-- The end of a method whose call of C has failed, where it looks at `errmsg[0]` first. A
null pointer there is an error of the method's own. -/
def failedReturn (cells : FfiCells) : LuaResult :=
  match cells.errmsg with
  | some msg => .ok [.nil, .text msg]
  | none => .error (.error "failed to get the key")

/-- The end of `shdict_pop`. -/
def popReturn (cells : FfiCells) (rc : Int) : LuaResult :=
  if rc ≠ ngxOk then failedReturn cells
  else
    match cells.valueType with
    | .tnil => .ok [.nil]
    | .tstring => .ok [.string cells.string]
    | .tnumber => .ok [.number cells.numValue]
    | t => .error (.error ("unknown value type: " ++ toString t.code))

/-- The flags go along unless they are zero. -/
def withFlags (flags : Int) (val : LuaValue) : List LuaValue :=
  if flags ≠ 0 then [val, .number (N.ofInt flags)] else [val]

/-- The end of `get`.  A boolean is read from the buffer. -/
def getReturn (cells : FfiCells) (rc : Int) : LuaResult :=
  if rc ≠ ngxOk then failedReturn cells
  else
    match cells.valueType with
    | .tnil => .ok [.nil]
    | .tstring => .ok (withFlags N cells.userFlags (.string cells.string))
    | .tnumber => .ok (withFlags N cells.userFlags (.number cells.numValue))
    | .tboolean => .ok (withFlags N cells.userFlags (.boolean (cells.strBuf 0 ≠ 0)))
    | t => .error (.error ("unknown value type: " ++ toString t.code))

/-- The end of `incr`. -/
def incrReturn (init : LuaValue) (cells : FfiCells) (rc : Int) : LuaResult :=
  if rc ≠ ngxOk then cells.message.map fun msg => [.nil, msg]
  else if init.truthy then .ok [.number cells.numValue, .nil, .boolean cells.forcible]
  else .ok [.number cells.numValue]

/-- The end of `shdict_push`. -/
def pushReturn (cells : FfiCells) (rc : Int) : LuaResult :=
  if rc ≤ ngxError then cells.message.map fun msg => [.nil, msg]
  else .ok [.number (N.ofInt rc)]

/-- The end of `llen`. -/
def llenReturn (cells : FfiCells) (rc : Int) : LuaResult :=
  if rc ≤ ngxError then failedReturn cells else .ok [.number (N.ofInt rc)]

/-- The end of `ttl`. -/
def ttlReturn (rc : Int) : LuaResult :=
  if rc = ngxDeclined then .ok [.nil, .text "not found"] else .ok [.number (N.seconds rc)]

/-- The end of `expire`. -/
def expireReturn (rc : Int) : LuaResult :=
  if rc = ngxDeclined then .ok [.nil, .text "not found"] else .ok [.boolean true]

end Returns

/-! ### Methods -/

/-- What a method comes to: the pool, the cells of its worker, and what it returns. -/
abbrev LuaRan := Option (Shdict × FfiCells × LuaResult)

section Methods
variable (N : LuaNumbers) (sz : Sizes) (base : Nat) (env : Env) (cells : FfiCells) (d : Shdict)

/-- `shdict_store`. -/
def shdictStore (op : Nat) (key value exptime flags : LuaValue) : LuaRan :=
  match storeArgs N key value exptime flags with
  | .error r => some (d, cells, r)
  | .ok a => do
    let (d, _, r) ← mpsShdictStore sz base env op a d
    let cells := cells.store r
    return (d, cells, storeReturn cells r.rc)

/-- `shdict_push`, `fn` being `mps_shdict_lpush` or `mps_shdict_rpush`. -/
def shdictPush (fn : Direction) (key value : LuaValue) : LuaRan :=
  match pushArgs fn key value with
  | .error r => some (d, cells, r)
  | .ok a => do
    let (d, _, r) ← (mpsShdictPushHelper sz base env a d).map answer
    let cells := cells.list r
    return (d, cells, pushReturn N cells r.value)

/-- `shdict_pop`, `fn` being `mps_shdict_lpop` or `mps_shdict_rpop`. -/
def shdictPop (fn : Direction) (key : LuaValue) : LuaRan :=
  match checkedKey key with
  | .error r => some (d, cells, r)
  | .ok key => do
    let (d, _, r) ← mpsShdictPopHelper sz base env fn key strBufSize d
    let cells := cells.offer.get r
    return (d, cells, popReturn cells r.rc)

namespace Metatable

/-- `metatable:get`. -/
def get (key : LuaValue) : LuaRan :=
  match checkedKey key with
  | .error r => some (d, cells, r)
  | .ok key => do
    let (d, _, r) ← mpsShdictGet env key strBufSize false d
    let cells := cells.offer.get r
    return (d, cells, getReturn N cells r.rc)

/-- `metatable:set`. -/
def set (key value exptime flags : LuaValue) : LuaRan :=
  shdictStore N sz base env cells d 0 key value exptime flags

/-- `metatable:safe_set`. -/
def safeSet (key value exptime flags : LuaValue) : LuaRan :=
  shdictStore N sz base env cells d 4 key value exptime flags

/-- `metatable:add`. -/
def add (key value exptime flags : LuaValue) : LuaRan :=
  shdictStore N sz base env cells d 1 key value exptime flags

/-- `metatable:safe_add`. -/
def safeAdd (key value exptime flags : LuaValue) : LuaRan :=
  shdictStore N sz base env cells d 5 key value exptime flags

/-- `metatable:replace`. -/
def replace (key value exptime flags : LuaValue) : LuaRan :=
  shdictStore N sz base env cells d 2 key value exptime flags

/-- `metatable:delete`. -/
def delete (key : LuaValue) : LuaRan := set N sz base env cells d key .nil .nil .nil

/-- `metatable:incr`.  What is no number is refused by `num_value[0]`. -/
def incr (key value init initTtl : LuaValue) : LuaRan :=
  match checkKey key with
  | .error r => some (d, cells, r)
  | .ok () =>
    match luaNumber N value with
    | none => some (d, cells, .error .badType)
    | some value =>
      let cells := { cells with numValue := value }
      match incrArgs N key value init initTtl with
      | .error r => some (d, cells, r)
      | .ok a => do
        let (d, _, r) ← mpsShdictIncr sz base env a d
        let cells := cells.incr r
        return (d, cells, incrReturn init cells r.rc)

/-- `metatable:flush_all`. -/
def flushAll : LuaRan := do
  let (d, _) ← mpsShdictFlushAll sz base env d
  return (d, cells, .ok [])

/-- `metatable:ttl`. -/
def ttl (key : LuaValue) : LuaRan :=
  match checkedKey key with
  | .error r => some (d, cells, r)
  | .ok key => do
    let rc ← mpsShdictGetTtl env key d
    return (d, cells, ttlReturn N rc)

/-- `metatable:expire`. -/
def expire (key exptime : LuaValue) : LuaRan :=
  if exptime.truthy then
    match expireArgs N key exptime with
    | .error r => some (d, cells, r)
    | .ok (key, exptime) => do
      let (d, rc) ← mpsShdictSetExpire env key exptime d
      return (d, cells, expireReturn rc)
  else some (d, cells, .error (.error "bad \"exptime\" argument"))

/-- `metatable:lpush`. -/
def lpush (key value : LuaValue) : LuaRan := shdictPush N sz base env cells d .left key value

/-- `metatable:rpush`. -/
def rpush (key value : LuaValue) : LuaRan := shdictPush N sz base env cells d .right key value

/-- `metatable:lpop`. -/
def lpop (key : LuaValue) : LuaRan := shdictPop sz base env cells d .left key

/-- `metatable:rpop`. -/
def rpop (key : LuaValue) : LuaRan := shdictPop sz base env cells d .right key

/-- `metatable:llen`. -/
def llen (key : LuaValue) : LuaRan :=
  match checkedKey key with
  | .error r => some (d, cells, r)
  | .ok key => do
    let (d, _, r) ← (mpsShdictLlen sz base env key d).map answer
    let cells := cells.list r
    return (d, cells, llenReturn N cells r.value)

/-- `metatable:capacity`. -/
def capacity : LuaRan := some (d, cells, .ok [.number (N.ofInt (mpsShdictCapacity d))])

/-- `metatable:free_space`. -/
def freeSpace : LuaRan := some (d, cells, .ok [.number (N.ofInt (mpsShdictFreeSpace sz d))])

end Metatable
end Methods

end MpsShdict
