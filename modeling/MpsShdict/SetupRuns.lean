import MpsShdict.Setup

/-! # Runs of Lua

Any number of workers call the methods of one dictionary.  Lua has no types to hold them
back, so a method may get anything for a key, a value or a time.  This module says what
comes of it.  A method refuses what it cannot pass on, or it makes one call of C whose
arguments are as the C code wants them, or it asks how large the pool is.  What reaches the
pool is therefore a run of calls that may be made on it, and what is known of those runs
holds of every program in Lua.
-/
namespace MpsShdict

open Words

/-! ### Calls of methods -/

/-- A call of a method, with the values of Lua that it is given. None of them has been
checked. -/
inductive LuaCall where
  /-- `set`, `safe_set`, `add`, `safe_add` and `replace` -/
  | store (kind : StoreKind) (key value exptime flags : LuaValue)
  | delete (key : LuaValue)
  | get (key : LuaValue)
  | incr (key value init initTtl : LuaValue)
  | flushAll
  | ttl (key : LuaValue)
  | expire (key exptime : LuaValue)
  /-- `lpush` and `rpush` -/
  | push (direction : Direction) (key value : LuaValue)
  /-- `lpop` and `rpop` -/
  | pop (direction : Direction) (key : LuaValue)
  | llen (key : LuaValue)
  | capacity
  | freeSpace

namespace LuaCall
variable (N : LuaNumbers)

/-- The call, by a worker that has the pool mapped at `base`. -/
def run (sz : Sizes) (base : Nat) (env : Env) (cells : FfiCells) (d : Shdict) : LuaCall → LuaRan
  | .store .set key value exptime flags =>
    Metatable.set N sz base env cells d key value exptime flags
  | .store .safeSet key value exptime flags =>
    Metatable.safeSet N sz base env cells d key value exptime flags
  | .store .add key value exptime flags =>
    Metatable.add N sz base env cells d key value exptime flags
  | .store .safeAdd key value exptime flags =>
    Metatable.safeAdd N sz base env cells d key value exptime flags
  | .store .replace key value exptime flags =>
    Metatable.replace N sz base env cells d key value exptime flags
  | .delete key => Metatable.delete N sz base env cells d key
  | .get key => Metatable.get N env cells d key
  | .incr key value init initTtl => Metatable.incr N sz base env cells d key value init initTtl
  | .flushAll => Metatable.flushAll sz base env cells d
  | .ttl key => Metatable.ttl N env cells d key
  | .expire key exptime => Metatable.expire N env cells d key exptime
  | .push .left key value => Metatable.lpush N sz base env cells d key value
  | .push .right key value => Metatable.rpush N sz base env cells d key value
  | .pop .left key => Metatable.lpop sz base env cells d key
  | .pop .right key => Metatable.rpop sz base env cells d key
  | .llen key => Metatable.llen N sz base env cells d key
  | .capacity => Metatable.capacity N cells d
  | .freeSpace => Metatable.freeSpace N sz cells d

/-- What `incr` passes on. -/
def incrChecked (key value init initTtl : LuaValue) : Checked IncrArgs := do
  checkKey key
  match luaNumber N value with
  | none => .error (.error .badType)
  | some value => incrArgs N key value init initTtl

/-- **The call of C** that a method makes, if it makes one. -/
def issues : LuaCall → Option Call
  | .store kind key value exptime flags =>
    (storeArgs N key value exptime flags).toOption.map kind.call
  | .delete key => (storeArgs N key .nil .nil .nil).toOption.map StoreKind.set.call
  | .get key => (checkedKey key).toOption.map fun key => .get key strBufSize false
  | .incr key value init initTtl => (incrChecked N key value init initTtl).toOption.map .incr
  | .flushAll => some .flushAll
  | .ttl key => (checkedKey key).toOption.map .getTtl
  | .expire key exptime =>
    if exptime.truthy then (expireArgs N key exptime).toOption.map fun a => .setExpire a.1 a.2
    else none
  | .push direction key value => (pushArgs direction key value).toOption.map .push
  | .pop direction key => (checkedKey key).toOption.map fun key => .pop direction key strBufSize
  | .llen key => (checkedKey key).toOption.map .llen
  | .capacity | .freeSpace => none

/-- What the methods that change nothing read of the pool.  They take no argument, so that
there is nothing to refuse, and their call of C cannot fail. -/
def reads (sz : Sizes) (d : Shdict) : LuaCall → Option Int
  | .capacity => some (mpsShdictCapacity d)
  | .freeSpace => some (mpsShdictFreeSpace sz d)
  | _ => none

/-- What a method returns, by the cells and the answer of C. -/
def returns (cells : FfiCells) : LuaCall → Answer → LuaResult
  | .store _ _ _ _ _, .store r | .delete _, .store r => storeReturn cells r.rc
  | .get _, .get r => getReturn N cells r.rc
  | .incr _ _ init _, .incr r => incrReturn init cells r.rc
  | .ttl _, .code rc => ttlReturn N rc
  | .expire _ _, .code rc => expireReturn rc
  | .push _ _ _, .list r => pushReturn N cells r.value
  | .pop _ _, .get r => popReturn cells r.rc
  | .llen _, .list r => llenReturn N cells r.value
  | _, _ => .ok []

/-- The sizes of what is stored can be computed: with the strings that are passed, the `int`
in which the C code adds up the size of a chunk does not overflow. -/
def Sized : LuaCall → Prop
  | .store _ (.string key) (.string value) _ _ =>
    offsetofColor + offsetofData + key.length + value.length < 2 ^ 31
  | .push _ _ (.string value) => offsetofListData + value.length < 2 ^ 31
  | _ => True

end LuaCall

namespace FfiCells

/-- What a method leaves in the cells for the call that it makes. -/
def prepare (cells : FfiCells) : Call → FfiCells
  | .get _ _ _ | .pop _ _ _ => cells.offer
  | .incr a => { cells with numValue := a.value }
  | _ => cells

/-- What a call writes to them. -/
def write (cells : FfiCells) : Answer → FfiCells
  | .store r => cells.store r
  | .get r => cells.get r
  | .incr r => cells.incr r
  | .list r => cells.list r
  | .code _ => cells

/-- The cells behind a call. -/
def after (cells : FfiCells) (c : Call) (answer : Answer) : FfiCells :=
  (cells.prepare c).write answer

end FfiCells

/-- **What a method that refuses its arguments is left with.**  It returns one of four texts
behind a `nil`, or raises one of its own errors, or Lua itself raises an error about a value
of the wrong type. -/
inductive Refused : LuaResult → Prop where
  | text {msg : String} (h : msg ∈ ["nil key", "empty key", "key too long", "bad value type"]) :
      Refused (.ok [.nil, .text msg])
  | raised {msg : String} (h : msg ∈ ["bad \"exptime\" argument", "bad \"init_ttl\" argument",
      "must provide \"init\" when providing \"init_ttl\""]) : Refused (.error (.error msg))
  | notNumber {msg : String} (v : LuaValue) (h : msg ∈ ["bad init arg: number expected, got ",
      "bad init_ttl arg: number expected, got "]) : Refused (.error (.error (msg ++ v.type)))
  | badType : Refused (.error .badType)

section Checks
variable {N : LuaNumbers} {α β : Type} {key value exptime flags init initTtl : LuaValue} {k : Bytes}
  {r : LuaResult} {a : StoreArgs} {ia : IncrArgs} {pa : PushArgs} {direction : Direction}

theorem Checked.bind_ok {x : Checked α} {f : α → Checked β} {b : β} :
    (x >>= f) = .ok b ↔ ∃ a, x = .ok a ∧ f a = .ok b := by
  cases x with
  | error r => simp [bind, Except.bind]
  | ok a => simp [bind, Except.bind]

theorem Checked.bind_error {x : Checked α} {f : α → Checked β} :
    (x >>= f) = .error r ↔ x = .error r ∨ ∃ a, x = .ok a ∧ f a = .error r := by
  cases x with
  | error r' => simp [bind, Except.bind]
  | ok a => simp [bind, Except.bind]

theorem Checked.map_eq_some {x : Checked α} {f : α → β} {b : β} :
    x.toOption.map f = some b ↔ ∃ a, x = .ok a ∧ f a = b := by
  cases x with
  | error r => simp [Except.toOption]
  | ok a => simp [Except.toOption]

theorem Checked.map_eq_none {x : Checked α} {f : α → β} :
    x.toOption.map f = none ↔ ∃ r, x = .error r := by
  cases x with
  | error r => simp [Except.toOption]
  | ok a => simp [Except.toOption]

theorem checkKey_string (h : checkKey (.string k) = .ok ()) : KeyOk k := by
  simp only [checkKey, validateKey] at h
  by_cases hempty : k.length = 0
  · simp [hempty] at h
  · by_cases hlong : 65535 < k.length
    · simp [hempty, hlong] at h
    · exact ⟨by omega, by omega⟩

theorem keyArg_ok (h : keyArg key = .ok k) : key = .string k := by
  cases key with
  | string bytes => rw [Except.ok.inj h]
  | nil | boolean | number | table | function | userdata | thread => cases h

/-- A key that is passed on is a string of 1 to 65535 bytes. -/
theorem checkedKey_ok (h : checkedKey key = .ok k) : key = .string k ∧ KeyOk k := by
  obtain ⟨⟨⟩, hcheck, harg⟩ := Checked.bind_ok.mp h
  obtain rfl := keyArg_ok harg
  exact ⟨rfl, checkKey_string hcheck⟩

theorem checkKey_refused (h : checkKey key = .error r) : Refused r := by
  unfold checkKey validateKey at h
  cases key with
  | nil => exact Except.error.inj h ▸ .text (by decide)
  | string bytes =>
    by_cases hempty : bytes.length = 0
    · simp only [hempty, if_true] at h
      exact Except.error.inj h ▸ .text (by decide)
    · by_cases hlong : 65535 < bytes.length
      · simp only [hempty, hlong, if_true, if_false] at h
        exact Except.error.inj h ▸ .text (by decide)
      · simp only [hempty, hlong, if_false] at h
        cases h
  | table => cases h
  | boolean | number | function | userdata | thread => exact Except.error.inj h ▸ .badType

theorem keyArg_refused (h : keyArg key = .error r) : Refused r := by
  cases key with
  | string bytes => cases h
  | nil | boolean | number | table | function | userdata | thread =>
    exact Except.error.inj h ▸ .badType

theorem checkedKey_refused (h : checkedKey key = .error r) : Refused r := by
  rcases Checked.bind_error.mp h with h | ⟨_, _, h⟩
  · exact checkKey_refused h
  · exact keyArg_refused h

/-- What `shdict_store` passes on. -/
theorem storeArgs_ok (h : storeArgs N key value exptime flags = .ok a) :
    key = .string a.key ∧ KeyOk a.key ∧ valueArg value = .ok (a.valueType, a.strValue, a.numValue) ∧
      flagsArg N flags = .ok a.userFlags ∧
      ∃ x, exptimeArg N exptime = .ok x ∧ a.exptime = N.millis x := by
  obtain ⟨x, hx, h⟩ := Checked.bind_ok.mp h
  obtain ⟨⟨⟩, hcheck, h⟩ := Checked.bind_ok.mp h
  obtain ⟨⟨valueType, strValue, numValue⟩, hvalue, h⟩ := Checked.bind_ok.mp h
  obtain ⟨k, hkey, h⟩ := Checked.bind_ok.mp h
  obtain ⟨f, hflags, h⟩ := Checked.bind_ok.mp h
  obtain rfl := Except.ok.inj h
  obtain rfl := keyArg_ok hkey
  exact ⟨rfl, checkKey_string hcheck, hvalue, hflags, x, hx, rfl⟩

theorem storeArgs_refused (h : storeArgs N key value exptime flags = .error r) : Refused r := by
  rcases Checked.bind_error.mp h with h | ⟨x, -, h⟩
  · -- the time to live comes first
    unfold exptimeArg at h
    split at h
    · cases h
    · cases h
    · split at h
      · exact Except.error.inj h ▸ .raised (by decide)
      · cases h
    · exact Except.error.inj h ▸ .badType
  rcases Checked.bind_error.mp h with h | ⟨_, _, h⟩
  · exact checkKey_refused h
  rcases Checked.bind_error.mp h with h | ⟨_, _, h⟩
  · unfold valueArg at h
    split at h
    · cases h
    · cases h
    · cases h
    · cases h
    · exact Except.error.inj h ▸ .text (by decide)
  rcases Checked.bind_error.mp h with h | ⟨_, _, h⟩
  · exact keyArg_refused h
  rcases Checked.bind_error.mp h with h | ⟨_, _, h⟩
  · unfold flagsArg at h
    split at h
    · cases h
    · cases h
    · cases h
    · cases h
    · exact Except.error.inj h ▸ .badType
  · cases h

/-- What `shdict_push` passes on. -/
theorem pushArgs_ok (h : pushArgs direction key value = .ok pa) :
    key = .string pa.key ∧ KeyOk pa.key ∧ pa.direction = direction ∧
      (value = .string pa.strValue ∧ pa.valueType = .tstring ∨
        value = .number pa.numValue ∧ pa.valueType = .tnumber ∧ pa.strValue = []) := by
  obtain ⟨⟨⟩, hcheck, h⟩ := Checked.bind_ok.mp h
  obtain ⟨⟨valueType, strValue, numValue⟩, hvalue, h⟩ := Checked.bind_ok.mp h
  obtain ⟨k, hkey, h⟩ := Checked.bind_ok.mp h
  obtain rfl := Except.ok.inj h
  obtain rfl := keyArg_ok hkey
  refine ⟨rfl, checkKey_string hcheck, rfl, ?_⟩
  cases value with
  | string bytes =>
    simp only [Except.ok.injEq, Prod.mk.injEq] at hvalue
    obtain ⟨rfl, rfl, rfl⟩ := hvalue
    exact .inl ⟨rfl, rfl⟩
  | number x =>
    simp only [Except.ok.injEq, Prod.mk.injEq] at hvalue
    obtain ⟨rfl, rfl, rfl⟩ := hvalue
    exact .inr ⟨rfl, rfl, rfl⟩
  | nil | boolean | table | function | userdata | thread => cases hvalue

theorem pushArgs_refused (h : pushArgs direction key value = .error r) : Refused r := by
  rcases Checked.bind_error.mp h with h | ⟨_, _, h⟩
  · exact checkKey_refused h
  rcases Checked.bind_error.mp h with h | ⟨_, _, h⟩
  · cases value with
    | string bytes => cases h
    | number x => cases h
    | nil | boolean | table | function | userdata | thread =>
      exact Except.error.inj h ▸ .text (by decide)
  rcases Checked.bind_error.mp h with h | ⟨_, _, h⟩
  · exact keyArg_refused h
  · cases h

theorem initArg_refused (h : initArg N init = .error r) : Refused r := by
  unfold initArg at h
  split at h
  · split at h
    · cases h
    · exact Except.error.inj h ▸ .notNumber init (by decide)
  · cases h

theorem initTtlArg_refused {o : Option Double} (h : initTtlArg N o initTtl = .error r) :
    Refused r := by
  unfold initTtlArg at h
  split at h
  · cases h
  · split at h
    · exact Except.error.inj h ▸ .notNumber initTtl (by decide)
    · split at h
      · exact Except.error.inj h ▸ .raised (by decide)
      · split at h
        · exact Except.error.inj h ▸ .raised (by decide)
        · cases h

/-- What `incr` passes on. -/
theorem incrArgs_ok {x : Double} (h : incrArgs N key x init initTtl = .ok ia) :
    key = .string ia.key ∧ ia.value = x ∧
    initArg N init = .ok ia.init ∧ ∃ y, ia.initTtl = N.millis y := by
  obtain ⟨o, hinit, h⟩ := Checked.bind_ok.mp h
  obtain ⟨y, hy, h⟩ := Checked.bind_ok.mp h
  obtain ⟨k, hkey, h⟩ := Checked.bind_ok.mp h
  obtain rfl := Except.ok.inj h
  exact ⟨keyArg_ok hkey, rfl, hinit, y, rfl⟩

theorem incrArgs_refused {x : Double} (h : incrArgs N key x init initTtl = .error r) :
    Refused r := by
  rcases Checked.bind_error.mp h with h | ⟨_, _, h⟩
  · exact initArg_refused h
  rcases Checked.bind_error.mp h with h | ⟨_, _, h⟩
  · exact initTtlArg_refused h
  rcases Checked.bind_error.mp h with h | ⟨_, _, h⟩
  · exact keyArg_refused h
  · cases h

/-- What `expire` passes on. -/
theorem expireArgs_ok {p : Bytes × Int} (h : expireArgs N key exptime = .ok p) :
    key = .string p.1 ∧ KeyOk p.1 ∧ ∃ x, p.2 = N.millis x := by
  obtain ⟨⟨⟩, hcheck, h⟩ := Checked.bind_ok.mp h
  split at h
  · obtain ⟨k, hkey, h⟩ := Checked.bind_ok.mp h
    obtain rfl := Except.ok.inj h
    obtain rfl := keyArg_ok hkey
    exact ⟨rfl, checkKey_string hcheck, _, rfl⟩
  · cases h

theorem expireArgs_refused (h : expireArgs N key exptime = .error r) : Refused r := by
  rcases Checked.bind_error.mp h with h | ⟨_, _, h⟩
  · exact checkKey_refused h
  · split at h
    · rcases Checked.bind_error.mp h with h | ⟨_, _, h⟩
      · exact keyArg_refused h
      · cases h
    · exact Except.error.inj h ▸ .badType

end Checks

/-! ### A method and its call of C -/

section Calls
variable {N : LuaNumbers} {sz : Sizes} {base : Nat} {env : Env}
  {cells cells' : FfiCells} {d d' : Shdict} {r : LuaResult} {call : LuaCall} {c : Call}

/-- A call that is made may be made: its key has 1 to 65535 bytes, its time to live is a
`long`, and its sizes can be computed. -/
theorem LuaCall.issues_ok (h : call.issues N = some c) (hsized : call.Sized) : c.Ok := by
  cases call with
  | store kind key value exptime flags =>
    obtain ⟨a, ha, rfl⟩ := Checked.map_eq_some.mp h
    obtain ⟨hkey, hk, hvalue, -, x, -, hx⟩ := storeArgs_ok ha
    have hok : a.Ok ∧ a.exptime < 2 ^ 63 := by
      refine ⟨⟨hk, ?_⟩, hx ▸ (N.millis_long x).2⟩
      intro v hv
      rw [hv] at hvalue
      cases value with
      | string bytes =>
        simp only [valueArg, Except.ok.injEq, Prod.mk.injEq, Option.some.injEq] at hvalue
        rw [hkey] at hsized
        rw [← hvalue.2.1]
        exact hsized
      | nil | boolean | number => simp [valueArg] at hvalue
      | table | function | userdata | thread => cases hvalue
    cases kind <;> exact hok
  | delete key =>
    obtain ⟨a, ha, rfl⟩ := Checked.map_eq_some.mp h
    obtain ⟨-, hk, hvalue, -, x, -, hx⟩ := storeArgs_ok ha
    refine ⟨⟨hk, ?_⟩, hx ▸ (N.millis_long x).2⟩
    intro v hv
    rw [hv] at hvalue
    simp [valueArg] at hvalue
  | get key | ttl key | llen key | pop direction key =>
    obtain ⟨k, hk, rfl⟩ := Checked.map_eq_some.mp h
    exact (checkedKey_ok hk).2
  | incr key value init initTtl =>
    obtain ⟨a, ha, rfl⟩ := Checked.map_eq_some.mp h
    obtain ⟨⟨⟩, hcheck, ha⟩ := Checked.bind_ok.mp ha
    split at ha
    · cases ha
    · obtain ⟨rfl, -, -, y, hy⟩ := incrArgs_ok ha
      exact ⟨checkKey_string hcheck, hy ▸ (N.millis_long y).2⟩
  | flushAll =>
    obtain rfl := Option.some.inj h
    trivial
  | expire key exptime =>
    simp only [LuaCall.issues] at h
    split at h
    · obtain ⟨p, hp, rfl⟩ := Checked.map_eq_some.mp h
      obtain ⟨-, hk, x, hx⟩ := expireArgs_ok hp
      exact ⟨hk, hx ▸ (N.millis_long x).2⟩
    · cases h
  | push direction key value =>
    obtain ⟨a, ha, rfl⟩ := Checked.map_eq_some.mp h
    obtain ⟨-, hk, -, hvalue⟩ := pushArgs_ok ha
    refine ⟨hk, ?_⟩
    rcases hvalue with ⟨hvalue, -⟩ | ⟨-, -, hvalue⟩
    · rw [hvalue] at hsized
      exact hsized
    · rw [hvalue]
      decide
  | capacity | freeSpace => cases h

theorem shdictStore_issued {kind : StoreKind} {a : StoreArgs} {op : Nat}
    {key value exptime flags : LuaValue} (hop : kind.call a = .store op a)
    (h : storeArgs N key value exptime flags = .ok a) :
    shdictStore N sz base env cells d op key value exptime flags =
      ((kind.call a).run sz base env d).map fun x =>
        (x.1, cells.after (kind.call a) x.2.2,
          (LuaCall.store kind key value exptime flags).returns N
            (cells.after (kind.call a) x.2.2) x.2.2) := by
  rw [hop]
  simp only [shdictStore, h, Call.run, Option.map_map]
  cases mpsShdictStore sz base env op a d <;> rfl

/-- **A method that makes a call of C** does to the pool what that does. -/
theorem LuaCall.run_issued (h : call.issues N = some c) :
    call.run N sz base env cells d = (c.run sz base env d).map fun x =>
      (x.1, cells.after c x.2.2, call.returns N (cells.after c x.2.2) x.2.2) := by
  cases call with
  | store kind key value exptime flags =>
    obtain ⟨a, ha, rfl⟩ := Checked.map_eq_some.mp h
    cases kind <;> exact shdictStore_issued rfl ha
  | delete key =>
    obtain ⟨a, ha, rfl⟩ := Checked.map_eq_some.mp h
    -- a `delete` is a `set` of nil, and returns what that does
    have hsame : ∀ cells y, (LuaCall.store .set key .nil .nil .nil).returns N cells y =
        (LuaCall.delete key).returns N cells y := by
      intro cells y
      cases y <;> rfl
    simp only [LuaCall.run, Metatable.delete, Metatable.set,
      shdictStore_issued (show StoreKind.set.call a = .store 0 a from rfl) ha, hsame]
  | get key =>
    obtain ⟨k, hk, rfl⟩ := Checked.map_eq_some.mp h
    simp only [LuaCall.run, Metatable.get, hk, Call.run, Option.map_map]
    cases mpsShdictGet env k strBufSize false d <;> rfl
  | incr key value init initTtl =>
    obtain ⟨a, ha, rfl⟩ := Checked.map_eq_some.mp h
    obtain ⟨⟨⟩, hcheck, ha⟩ := Checked.bind_ok.mp ha
    cases hvalue : luaNumber N value with
    | none =>
      rw [hvalue] at ha
      cases ha
    | some x =>
      rw [hvalue] at ha
      have hx := (incrArgs_ok ha).2.1
      simp only [LuaCall.run, Metatable.incr, hcheck, hvalue, ha, Call.run, Option.map_map]
      rw [← hx]
      cases mpsShdictIncr sz base env a d <;> rfl
  | flushAll =>
    obtain rfl := Option.some.inj h
    simp only [LuaCall.run, Metatable.flushAll, Call.run, Option.map_map]
    cases mpsShdictFlushAll sz base env d <;> rfl
  | ttl key =>
    obtain ⟨k, hk, rfl⟩ := Checked.map_eq_some.mp h
    simp only [LuaCall.run, Metatable.ttl, hk, Call.run, Option.map_map]
    cases mpsShdictGetTtl env k d <;> rfl
  | expire key exptime =>
    simp only [LuaCall.issues] at h
    split at h
    · next htrue =>
      obtain ⟨p, hp, rfl⟩ := Checked.map_eq_some.mp h
      simp only [LuaCall.run, Metatable.expire, if_pos htrue, hp, Call.run, Option.map_map]
      cases mpsShdictSetExpire env p.1 p.2 d <;> rfl
    · cases h
  | push direction key value =>
    obtain ⟨a, ha, rfl⟩ := Checked.map_eq_some.mp h
    have hrun : shdictPush N sz base env cells d direction key value =
        ((Call.push a).run sz base env d).map fun x =>
          (x.1, cells.after (.push a) x.2.2,
            (LuaCall.push direction key value).returns N (cells.after (.push a) x.2.2) x.2.2) := by
      simp only [shdictPush, ha, Call.run, Option.map_map]
      cases mpsShdictPushHelper sz base env a d <;> rfl
    cases direction <;> exact hrun
  | pop direction key =>
    obtain ⟨k, hk, rfl⟩ := Checked.map_eq_some.mp h
    have hrun : shdictPop sz base env cells d direction key =
        ((Call.pop direction k strBufSize).run sz base env d).map fun x =>
          (x.1, cells.after (.pop direction k strBufSize) x.2.2,
            (LuaCall.pop direction key).returns N
              (cells.after (.pop direction k strBufSize) x.2.2) x.2.2) := by
      simp only [shdictPop, hk, Call.run, Option.map_map]
      cases mpsShdictPopHelper sz base env direction k strBufSize d <;> rfl
    cases direction <;> exact hrun
  | llen key =>
    obtain ⟨k, hk, rfl⟩ := Checked.map_eq_some.mp h
    simp only [LuaCall.run, Metatable.llen, hk, Call.run, Option.map_map]
    cases mpsShdictLlen sz base env k d <;> rfl
  | capacity | freeSpace => cases h

theorem shdictStore_refused {op : Nat} {key value exptime flags : LuaValue}
    (h : storeArgs N key value exptime flags = .error r) :
    Refused r ∧ shdictStore N sz base env cells d op key value exptime flags =
      some (d, cells, r) := by
  refine ⟨storeArgs_refused h, ?_⟩
  simp only [shdictStore, h]

/-- **A method that makes none** leaves the pool and `errmsg[0]` alone, whatever the cells hold.
It has refused its arguments, or it returns what it has read of the pool. -/
theorem LuaCall.run_unissued (sz : Sizes) (base : Nat) (env : Env) (d : Shdict)
    (h : call.issues N = none) :
    ∃ r, (call.reads sz d = none ∧ Refused r ∨
        ∃ n, call.reads sz d = some n ∧ r = .ok [.number (N.ofInt n)]) ∧
      ∀ cells, ∃ cells', cells'.errmsg = cells.errmsg ∧
        call.run N sz base env cells d = some (d, cells', r) := by
  -- all methods but `incr` leave the cells as they are
  have hkeep : (∃ r, (call.reads sz d = none ∧ Refused r) ∧
        ∀ cells, call.run N sz base env cells d = some (d, cells, r)) →
      ∃ r, (call.reads sz d = none ∧ Refused r ∨
          ∃ n, call.reads sz d = some n ∧ r = .ok [.number (N.ofInt n)]) ∧
        ∀ cells, ∃ cells', cells'.errmsg = cells.errmsg ∧
          call.run N sz base env cells d = some (d, cells', r) := by
    rintro ⟨r, hr, hrun⟩
    exact ⟨r, .inl hr, fun cells => ⟨cells, rfl, hrun cells⟩⟩
  cases call with
  | store kind key value exptime flags =>
    obtain ⟨r, hr⟩ := Checked.map_eq_none.mp h
    refine hkeep ⟨r, ⟨rfl, storeArgs_refused hr⟩, ?_⟩
    intro cells
    cases kind <;> exact (shdictStore_refused hr).2
  | delete key =>
    obtain ⟨r, hr⟩ := Checked.map_eq_none.mp h
    exact hkeep ⟨r, ⟨rfl, storeArgs_refused hr⟩, fun cells => (shdictStore_refused hr).2⟩
  | get key =>
    obtain ⟨r, hr⟩ := Checked.map_eq_none.mp h
    refine hkeep ⟨r, ⟨rfl, checkedKey_refused hr⟩, ?_⟩
    intro cells
    simp only [LuaCall.run, Metatable.get, hr]
  | incr key value init initTtl =>
    obtain ⟨r, hr⟩ := Checked.map_eq_none.mp h
    rcases Checked.bind_error.mp hr with hr | ⟨⟨⟩, hcheck, hr⟩
    · refine hkeep ⟨r, ⟨rfl, checkKey_refused hr⟩, ?_⟩
      intro cells
      simp only [LuaCall.run, Metatable.incr, hr]
    -- `incr` writes `num_value[0]` before it looks at its other arguments
    · cases hvalue : luaNumber N value with
      | none =>
        refine hkeep ⟨.error .badType, ⟨rfl, .badType⟩, ?_⟩
        intro cells
        simp only [LuaCall.run, Metatable.incr, hcheck, hvalue]
      | some x =>
        rw [hvalue] at hr
        refine ⟨r, .inl ⟨rfl, incrArgs_refused hr⟩, ?_⟩
        intro cells
        refine ⟨{ cells with numValue := x }, rfl, ?_⟩
        simp only [LuaCall.run, Metatable.incr, hcheck, hvalue, hr]
  | flushAll => cases h
  | ttl key =>
    obtain ⟨r, hr⟩ := Checked.map_eq_none.mp h
    refine hkeep ⟨r, ⟨rfl, checkedKey_refused hr⟩, ?_⟩
    intro cells
    simp only [LuaCall.run, Metatable.ttl, hr]
  | expire key exptime =>
    simp only [LuaCall.issues] at h
    split at h
    · next htrue =>
      obtain ⟨r, hr⟩ := Checked.map_eq_none.mp h
      refine hkeep ⟨r, ⟨rfl, expireArgs_refused hr⟩, ?_⟩
      intro cells
      simp only [LuaCall.run, Metatable.expire, if_pos htrue, hr]
    · next hfalse =>
      have hraised : Refused (.error (.error "bad \"exptime\" argument")) := .raised (by decide)
      refine hkeep ⟨_, ⟨rfl, hraised⟩, ?_⟩
      intro cells
      simp only [LuaCall.run, Metatable.expire, if_neg hfalse]
  | push direction key value =>
    obtain ⟨r, hr⟩ := Checked.map_eq_none.mp h
    refine hkeep ⟨r, ⟨rfl, pushArgs_refused hr⟩, ?_⟩
    intro cells
    cases direction <;> simp only [LuaCall.run, Metatable.lpush, Metatable.rpush, shdictPush, hr]
  | pop direction key =>
    obtain ⟨r, hr⟩ := Checked.map_eq_none.mp h
    refine hkeep ⟨r, ⟨rfl, checkedKey_refused hr⟩, ?_⟩
    intro cells
    cases direction <;> simp only [LuaCall.run, Metatable.lpop, Metatable.rpop, shdictPop, hr]
  | llen key =>
    obtain ⟨r, hr⟩ := Checked.map_eq_none.mp h
    refine hkeep ⟨r, ⟨rfl, checkedKey_refused hr⟩, ?_⟩
    intro cells
    simp only [LuaCall.run, Metatable.llen, hr]
  | capacity | freeSpace => exact ⟨_, .inr ⟨_, rfl, rfl⟩, fun cells => ⟨cells, rfl, rfl⟩⟩

end Calls

/-! ### Workers -/

/-- The dictionary, and the cells of each worker. There may be any number of workers. -/
structure LuaState where
  dict : Shdict
  cells : Nat → FfiCells

/-- A call by a worker, and what it returns or raises. It has the same data outside of the
pool as a call of C. -/
structure LuaEvent where
  worker : Nat
  base : Nat
  env : Env
  call : LuaCall
  result : LuaResult

/-- What an event does: the strings that it passes are short enough for the size of a
chunk to be computed, and the method returns with the event's result. -/
def LuaEvent.Runs (N : LuaNumbers) (s : Nat) (y : LuaEvent) (w w' : LuaState) : Prop :=
  2 ^ s ∣ y.base ∧ y.call.Sized ∧ ∃ cells,
    y.call.run N (mpsSlabSizesInit (2 ^ s)) y.base y.env (w.cells y.worker) w.dict =
      some (w'.dict, cells, y.result) ∧
    w'.cells = Function.update w.cells y.worker cells

/-- The event makes no call of C but one that meets `G`. -/
def LuaEvent.Meets (N : LuaNumbers) (G : Call → Env → List Entry → Prop) (y : LuaEvent)
    (d : Shdict) : Prop :=
  ∀ c, y.call.issues N = some c → G c y.env d.entries

/-- **The states that events lead to** from a fresh dictionary and workers that start, the
last event first.  Every call of C meets `G`. -/
inductive LuaRun (N : LuaNumbers) (s : Nat) (G : Call → Env → List Entry → Prop) :
    List LuaEvent → LuaState → Prop where
  | init {d : Shdict} (h : Fresh s d) : LuaRun N s G [] ⟨d, fun _ => .new⟩
  | call {ys : List LuaEvent} {w w' : LuaState} {y : LuaEvent} (run : LuaRun N s G ys w)
      (h : y.Runs N s w w') (hG : y.Meets N G w.dict) : LuaRun N s G (y :: ys) w'

/-- The message that a call of C writes. -/
def Answer.message : Answer → Option String
  | .store r => r.errmsg
  | .get r => r.err
  | .incr r => r.err
  | .list r => r.errmsg
  | .code _ => none

/-- The last message that the calls of C have written for the worker `i`. Calls without a
message leave the earlier one. -/
def lastMessage (i : Nat) : List (Nat × Event) → Option String
  | [] => none
  | (j, x) :: zs => if j = i then x.answer.message.or (lastMessage i zs) else lastMessage i zs

/-- **What events come to**: the calls of C that they make, with the workers that make them,
and the dictionary that is left.  A method that refuses its arguments and one that only
reads the pool add nothing to the calls.  Any other makes one call, of which `G` holds. -/
inductive Issues (N : LuaNumbers) (s : Nat) (G : Call → Env → List Entry → Prop) :
    List LuaEvent → List (Nat × Event) → Shdict → Prop where
  | init {d : Shdict} (h : Fresh s d) : Issues N s G [] [] d
  | refused {ys : List LuaEvent} {zs : List (Nat × Event)} {d : Shdict} {y : LuaEvent}
      (h : Issues N s G ys zs d) (hcall : y.call.issues N = none)
      (hreads : y.call.reads (mpsSlabSizesInit (2 ^ s)) d = none) (hresult : Refused y.result) :
      Issues N s G (y :: ys) zs d
  | read {ys : List LuaEvent} {zs : List (Nat × Event)} {d : Shdict} {y : LuaEvent} {n : Int}
      (h : Issues N s G ys zs d) (hreads : y.call.reads (mpsSlabSizesInit (2 ^ s)) d = some n)
      (hresult : y.result = .ok [.number (N.ofInt n)]) : Issues N s G (y :: ys) zs d
  | issued {ys : List LuaEvent} {zs : List (Nat × Event)} {d d' : Shdict} {y : LuaEvent}
      {x : Event} {cells : FfiCells} (h : Issues N s G ys zs d)
      (hcall : y.call.issues N = some x.call) (hbase : x.base = y.base) (henv : x.env = y.env)
      (hx : x.Runs s d d') (hG : G x.call x.env d.entries)
      (hcells : cells.errmsg = lastMessage y.worker zs)
      (hresult : y.result = y.call.returns N (cells.after x.call x.answer) x.answer) :
      Issues N s G (y :: ys) ((y.worker, x) :: zs) d'

section Runs
variable {N : LuaNumbers} {s : Nat} {G : Call → Env → List Entry → Prop}
  {w w' : LuaState} {y : LuaEvent}
  {ys : List LuaEvent} {c : Call} {answer : Answer} {cells : FfiCells}

theorem FfiCells.get_errmsg (r : GetResult) : (cells.get r).errmsg = r.err.or cells.errmsg := by
  unfold FfiCells.get
  cases r.strValue with
  | none => rfl
  | some bytes =>
    have hfill : (cells.fill bytes).errmsg = cells.errmsg := by
      unfold FfiCells.fill
      split <;> rfl
    simp only [hfill]

theorem FfiCells.after_errmsg (c : Call) (answer : Answer) :
    (cells.after c answer).errmsg = answer.message.or cells.errmsg := by
  have hprepare : (cells.prepare c).errmsg = cells.errmsg := by cases c <;> rfl
  rw [← hprepare, FfiCells.after]
  cases answer with
  | store | list | incr | code => rfl
  | get r => exact FfiCells.get_errmsg r

/-- An event refuses its arguments, or reads the pool, or makes a call of C. -/
theorem LuaEvent.Runs.cases (h : y.Runs N s w w') :
    (y.call.issues N = none ∧ w'.dict = w.dict ∧ (∀ i, (w'.cells i).errmsg = (w.cells i).errmsg) ∧
      (y.call.reads (mpsSlabSizesInit (2 ^ s)) w.dict = none ∧ Refused y.result ∨
        ∃ n, y.call.reads (mpsSlabSizesInit (2 ^ s)) w.dict = some n ∧
          y.result = .ok [.number (N.ofInt n)])) ∨
    ∃ x : Event, y.call.issues N = some x.call ∧ x.base = y.base ∧ x.env = y.env ∧
      x.Runs s w.dict w'.dict ∧
      y.result = y.call.returns N ((w.cells y.worker).after x.call x.answer) x.answer ∧
      w'.cells = Function.update w.cells y.worker
        ((w.cells y.worker).after x.call x.answer) := by
  obtain ⟨hbase, hsized, cells, hrun, hcells⟩ := h
  cases hc : y.call.issues N with
  | none =>
    obtain ⟨r, hr, hall⟩ :=
      LuaCall.run_unissued (mpsSlabSizesInit (2 ^ s)) y.base y.env w.dict hc
    obtain ⟨cells', herr, hrun'⟩ := hall (w.cells y.worker)
    have he := Option.some.inj (hrun.symm.trans hrun')
    simp only [Prod.mk.injEq] at he
    obtain ⟨hd, rfl, rfl⟩ := he
    refine .inl ⟨rfl, hd, ?_, hr⟩
    intro i
    rw [hcells]
    by_cases hi : i = y.worker
    · rw [hi, Function.update_self, herr]
    · rw [Function.update_of_ne hi]
  | some c =>
    rw [LuaCall.run_issued hc] at hrun
    obtain ⟨⟨d', sd, answer⟩, hcrun, he⟩ := Option.map_eq_some_iff.mp hrun
    simp only [Prod.mk.injEq] at he
    obtain ⟨rfl, rfl, hresult⟩ := he
    exact .inr ⟨⟨y.base, y.env, c, sd, answer⟩, rfl, rfl, rfl,
      ⟨hbase, LuaCall.issues_ok hc hsized, hcrun⟩, hresult.symm, hcells⟩

/-- The calls of C that events come to are a run of calls. -/
theorem Issues.runWith {zs : List (Nat × Event)} {d : Shdict} (h : Issues N s G ys zs d) :
    RunWith s (fun x L => G x.call x.env L) (zs.map Prod.snd) d := by
  induction h with
  | init h => exact .init h
  | refused h hcall hreads hresult ih => exact ih
  | read h hreads hresult ih => exact ih
  | issued h hcall hbase henv hx hG hcells hresult ih => exact .call ih hx hG

/-- **What the methods do to the pool is a run of calls.** `errmsg[0]` holds the last
message that any of them has written for its worker. By induction on the events, each of
which adds one call or none. -/
theorem LuaRun.issues (run : LuaRun N s G ys w) :
    ∃ zs, Issues N s G ys zs w.dict ∧ ∀ i, (w.cells i).errmsg = lastMessage i zs := by
  induction run with
  | init h => exact ⟨[], .init h, fun _ => rfl⟩
  | call run h hG ih =>
    next ys w w' y =>
    obtain ⟨zs, hissues, hlast⟩ := ih
    rcases h.cases with ⟨hnone, hd, herr, hr⟩ | ⟨x, hcall, hbase, henv, hx, hresult, hcells⟩
    · refine ⟨zs, ?_, fun i => (herr i).trans (hlast i)⟩
      rw [hd]
      rcases hr with ⟨hreads, hr⟩ | ⟨n, hreads, hr⟩
      · exact .refused hissues hnone hreads hr
      · exact .read hissues hreads hr
    · refine ⟨(y.worker, x) :: zs, .issued hissues hcall hbase henv hx (henv ▸ hG x.call hcall)
        (hlast y.worker) hresult, ?_⟩
      intro i
      rw [hcells, lastMessage]
      by_cases hi : i = y.worker
      · rw [hi, Function.update_self, FfiCells.after_errmsg, hlast, if_pos rfl]
      · rw [Function.update_of_ne hi, hlast, if_neg (Ne.symm hi)]

/-- Every call of every worker comes to an end, whatever its cells hold, if the size of
what it stores can be computed. -/
theorem LuaRun.returns (hs : 12 ≤ s) (hs' : s ≤ 16) (run : LuaRun N s G ys w) (worker base : Nat)
    (env : Env) (call : LuaCall) (hbase : 2 ^ s ∣ base) (hsized : call.Sized) :
    ∃ w' result, (⟨worker, base, env, call, result⟩ : LuaEvent).Runs N s w w' := by
  obtain ⟨zs, hissues, -⟩ := run.issues
  cases hc : call.issues N with
  | none =>
    obtain ⟨r, -, hall⟩ := LuaCall.run_unissued (mpsSlabSizesInit (2 ^ s)) base env w.dict hc
    obtain ⟨cells, -, hr⟩ := hall (w.cells worker)
    exact ⟨⟨w.dict, Function.update w.cells worker cells⟩, r, hbase, hsized, cells, hr, rfl⟩
  | some c =>
    obtain ⟨L, spare, hrep⟩ := hissues.runWith.run.rep hs hs'
    obtain ⟨ch, -, d', hcrun, -⟩ :=
      Call.run_spec env (LuaCall.issues_ok hc hsized) hrep False.elim
    have hcrun' : c.run (mpsSlabSizesInit (2 ^ s)) base env w.dict = some (d', _, _) :=
      hcrun base hbase
    let answer := (c.entries env ch L).result
    let cells := (w.cells worker).after c answer
    refine ⟨⟨d', Function.update w.cells worker cells⟩, call.returns N cells answer, hbase,
      hsized, cells, ?_, rfl⟩
    rw [LuaCall.run_issued hc, hcrun']
    rfl

/-- **Whatever Lua passes to the methods, what reaches the pool is a run of calls** that may be
made.  Each event is a call that has been refused, one that has told the size of the pool,
or one call of C, whose answer is what the method returns.  `errmsg[0]` of each worker is
the last message that a call of C has written for it, and every call of every worker comes
to an end. -/
theorem lua_runs_as_calls (hs : 12 ≤ s) (hs' : s ≤ 16) (run : LuaRun N s G ys w) :
    (∃ zs, Issues N s G ys zs w.dict ∧
      RunWith s (fun x L => G x.call x.env L) (zs.map Prod.snd) w.dict ∧
      ∀ i, (w.cells i).errmsg = lastMessage i zs) ∧
    ∀ worker base env call, 2 ^ s ∣ base → call.Sized →
      ∃ w' result, (⟨worker, base, env, call, result⟩ : LuaEvent).Runs N s w w' := by
  refine ⟨?_, ?_⟩
  · obtain ⟨zs, hissues, hlast⟩ := run.issues
    exact ⟨zs, hissues, hissues.runWith, hlast⟩
  · intro worker base env call hbase hsized
    exact run.returns hs hs' worker base env call hbase hsized

end Runs

/-! ### Two workers -/

/-- The numbers of a program that counts with whole numbers below `2 ^ 53` and passes them
as numbers. They make the examples computable. -/
def wholeNumbers : LuaNumbers where
  negative x := x.toInt < 0
  millis x := if -2 ^ 63 ≤ x.toInt * 1000 ∧ x.toInt * 1000 < 2 ^ 63 then x.toInt * 1000 else -2 ^ 63
  toInt x := if -2 ^ 31 ≤ x.toInt ∧ x.toInt < 2 ^ 31 then x.toInt else -2 ^ 31
  ofInt := Double.ofInt
  seconds n := Double.ofInt (n / 1000)
  tonumber _ := none
  millis_zero := by decide +kernel
  millis_long x := by
    split
    · assumption
    · decide
  toInt_zero := by decide +kernel
  toInt_int x := by
    split
    · assumption
    · decide

/-- The state that an event leads to. -/
def LuaEvent.after (N : LuaNumbers) (s : Nat) (y : LuaEvent) (w : LuaState) : LuaState :=
  match y.call.run N (mpsSlabSizesInit (2 ^ s)) y.base y.env (w.cells y.worker) w.dict with
  | some (d, cells, _) => ⟨d, Function.update w.cells y.worker cells⟩
  | none => w

theorem LuaEvent.runs_after {N : LuaNumbers} {s : Nat} {y : LuaEvent} {w : LuaState}
    (hbase : 2 ^ s ∣ y.base) (hsized : y.call.Sized)
    (h : (y.call.run N (mpsSlabSizesInit (2 ^ s)) y.base y.env (w.cells y.worker) w.dict).map
      (fun r => r.2.2) =
      some y.result) : y.Runs N s w (y.after N s w) := by
  obtain ⟨⟨d, cells, result⟩, hrun, rfl⟩ := Option.map_eq_some_iff.mp h
  refine ⟨hbase, hsized, cells, ?_, ?_⟩
  · rw [LuaEvent.after, hrun]
  · rw [LuaEvent.after, hrun]

/-- Workers that start, and a dictionary with nothing in it. -/
def luaStart : LuaState := ⟨emptyDict, fun _ => .new⟩

/-- Worker 0 stores the string "B" under "A". -/
def luaSet : LuaEvent :=
  ⟨0, 0, calmEnv 5, .store .set (.string [65]) (.string [66]) .nil .nil,
    .ok [.boolean true, .nil, .boolean false]⟩

/-- Worker 1 reads it. -/
def luaGet : LuaEvent := ⟨1, 0, calmEnv 6, .get (.string [65]), .ok [.string [66]]⟩

theorem luaSet_runs :
    luaSet.Runs wholeNumbers 12 luaStart (luaSet.after wholeNumbers 12 luaStart) :=
  LuaEvent.runs_after (by decide)
    (show offsetofColor + offsetofData + 1 + 1 < 2 ^ 31 by decide) (by decide +kernel)

theorem luaGet_runs : luaGet.Runs wholeNumbers 12 (luaSet.after wholeNumbers 12 luaStart)
    (luaGet.after wholeNumbers 12 (luaSet.after wholeNumbers 12 luaStart)) :=
  LuaEvent.runs_after (by decide) trivial (by decide +kernel)

/-- Worker 1 passes a key with nothing in it. -/
def luaRefused : LuaEvent :=
  ⟨1, 4096, calmEnv 6, .get (.string []), .ok [.nil, .text "empty key"]⟩

/-- Worker 1 counts up the string that worker 0 has stored. -/
def luaFailed : LuaEvent :=
  ⟨1, 4096, calmEnv 7, .incr (.string [65]) (.number (Double.ofInt 1)) .nil .nil,
    .ok [.nil, .text "not a number"]⟩

/-- Worker 0 asks how much of the pool is free: three of its four pages. -/
def luaFree : LuaEvent :=
  ⟨0, 0, calmEnv 8, .freeSpace, .ok [.number (Double.ofInt 12288)]⟩

/-- **Two workers**, one of which passes what is refused, and then makes a call that
fails. The refusal leaves no message in its cells, the failure does, and the cells of the
other worker are as they were. -/
theorem lua_runs_as_calls_two :
    let w₁ := luaSet.after wholeNumbers 12 luaStart
    let w₂ := luaRefused.after wholeNumbers 12 w₁
    let w₃ := luaFailed.after wholeNumbers 12 w₂
    let w₄ := luaFree.after wholeNumbers 12 w₃
    (∃ zs, Issues wholeNumbers 12 (fun _ _ _ => True) [luaFree, luaFailed, luaRefused, luaSet] zs
        w₄.dict ∧ RunWith 12 (fun _ _ => True) (zs.map Prod.snd) w₄.dict ∧
      ∀ i, (w₄.cells i).errmsg = lastMessage i zs) ∧
    ∀ worker base env call, 2 ^ 12 ∣ base → call.Sized →
      ∃ w' result, (⟨worker, base, env, call, result⟩ : LuaEvent).Runs wholeNumbers 12 w₄ w' := by
  intro w₁ w₂ w₃ w₄
  have hrefused : luaRefused.Runs wholeNumbers 12 w₁ w₂ :=
    LuaEvent.runs_after (by decide) trivial (by decide +kernel)
  have hfailed : luaFailed.Runs wholeNumbers 12 w₂ w₃ :=
    LuaEvent.runs_after (by decide) trivial (by decide +kernel)
  have hfree : luaFree.Runs wholeNumbers 12 w₃ w₄ :=
    LuaEvent.runs_after (by decide) trivial (by decide +kernel)
  have run : LuaRun wholeNumbers 12 (fun _ _ _ => True)
      [luaFree, luaFailed, luaRefused, luaSet] w₄ :=
    .call (.call (.call (.call (.init fresh_emptyDict) luaSet_runs fun _ _ => trivial)
      hrefused fun _ _ => trivial) hfailed fun _ _ => trivial) hfree fun _ _ => trivial
  exact lua_runs_as_calls (by decide) (by decide) run

end MpsShdict
