import MpsShdict.SetupRuns

/-! # What methods report

`errmsg[0]` is never cleared. So a method whose call of C fails without a message reports
the message of an earlier call of its worker; this is what a read does that finds no
memory for a long string. Everything else that a method returns is its own.

That is shown in two steps. The answers of the C calls have certain shapes: a failure
comes with a message, and a success with all the outputs that the method looks at. And a
method that meets an answer of such a shape reads no cell that the call has not written.
So it would return the same with fresh cells.
-/
namespace MpsShdict

open Words

/-! ### What a call of C answers -/

/-- What a method takes for a failure: any code but `NGX_OK`, or a length that is
`NGX_ERROR` or less. -/
def Answer.Fails : Answer → Prop
  | .store r => r.rc ≠ ngxOk
  | .get r => r.rc ≠ ngxOk
  | .incr r => r.rc ≠ ngxOk
  | .list r => r.value ≤ ngxError
  | .code _ => False

/-- What `mps_shdict_get` answers. `x` stands for the outputs that Lua does not look at. -/
inductive GetShape : GetResult → Prop where
  | failed {r : GetResult} (h : r.rc ≠ ngxOk) : GetShape r
  | nil : GetShape (.plain ngxOk (some .tnil) none)
  | string (bytes : Bytes) (flags : Int) (x : Option Bool) :
      GetShape ⟨ngxOk, some .tstring, some bytes, some bytes.length, none, some flags, x, none⟩
  | number (num : Double) (flags : Int) (x : Option Bool) (n : Option Nat) :
      GetShape ⟨ngxOk, some .tnumber, none, n, some num, some flags, x, none⟩
  | boolean (b : UInt8) (flags : Int) (x : Option Bool) :
      GetShape ⟨ngxOk, some .tboolean, some [b], none, none, some flags, x, none⟩

/-- What a pop answers. An element that is popped comes with its bytes and their length,
or with its number. -/
inductive PopShape : GetResult → Prop where
  | failed {r : GetResult} (h : r.rc ≠ ngxOk) : PopShape r
  | nil : PopShape (.plain ngxOk (some .tnil) none)
  | string (bytes : Bytes) :
      PopShape ⟨ngxOk, some .tstring, some bytes, some bytes.length, none, none, none, none⟩
  | number (num : Double) (n : Option Nat) :
      PopShape ⟨ngxOk, some .tnumber, none, n, some num, none, none, none⟩

/-- What `mps_shdict_store` answers. Every failure has its message. -/
inductive StoreShape (op : Nat) (a : StoreArgs) : StoreResult → Prop where
  | ok (rounds : Nat) : StoreShape op a ⟨ngxOk, none, rounds⟩
  | full (rounds : Nat) : StoreShape op a ⟨ngxError, some "no memory", rounds⟩
  | missing (h : op &&& mpsShdictReplaceFlag ≠ 0) :
      StoreShape op a ⟨ngxDeclined, some "not found", 0⟩
  | present (h : ¬ op &&& mpsShdictReplaceFlag ≠ 0) :
      StoreShape op a ⟨ngxDeclined, some "exists", 0⟩
  | refused {msg : String} (h : storeValue op a = .error msg) :
      StoreShape op a ⟨ngxError, some msg, 0⟩

section Shapes
variable {env : Env} {v : Value} {x : Elem} {L : List Entry} {c : Choice} {elems : List Elem}
  {direction : Direction} {bufLen : Nat}

theorem valueResult_shape {userFlags : Nat} {getStale stale : Bool} :
    GetShape (valueResult env v userFlags bufLen getStale stale) := by
  have herror : ngxError ≠ ngxOk := by decide
  unfold valueResult
  cases v with
  | list elems => exact .failed herror
  | plain valueType bytes =>
    dsimp only
    split
    · exact .failed herror
    · cases valueType with
      | tstring => exact .string _ _ _
      | tnumber =>
        dsimp only
        split
        · exact .number _ _ _ _
        · exact .failed herror
      | tboolean =>
        dsimp only
        split
        · exact .failed herror
        · next hsize =>
          obtain ⟨b, rfl⟩ := List.length_eq_one_iff.mp (not_not.mp hsize)
          exact .boolean b _ _
      | tnil | tlist | unknown => exact .failed herror

theorem getEntries_shape {getStale : Bool} :
    GetShape (getEntries env bufLen getStale c L).result := by
  unfold getEntries
  cases hit (env.mpsClockTimeMs 2) c.found with
  | absent => exact .nil
  | live e => exact valueResult_shape
  | expired e =>
    cases getStale with
    | true => exact valueResult_shape
    | false => exact .nil

theorem elemResult_shape : PopShape (elemResult env x bufLen).1 := by
  have herror : ngxError ≠ ngxOk := by decide
  unfold elemResult
  cases x.valueType with
  | tstring =>
    dsimp only
    split
    · exact .failed herror
    · exact .string _
  | tnumber =>
    dsimp only
    split
    · exact .number _ _
    · exact .failed herror
  | tnil | tboolean | tlist | unknown => exact .failed herror

theorem popEntries_shape : PopShape (popEntries env direction bufLen c L).result := by
  have herror : ngxError ≠ ngxOk := by decide
  unfold popEntries
  cases hit (env.mpsClockTimeMs 2) c.found with
  | absent => exact .nil
  | expired e => exact .nil
  | live e =>
    dsimp only
    cases e.value with
    | plain valueType bytes => exact .failed herror
    | list elems =>
      simp only [popList]
      split
      · exact .failed herror
      · split
        · exact .failed herror
        · split
          · split
            · exact elemResult_shape
            · exact elemResult_shape
          · exact elemResult_shape

end Shapes

/-! ### Failures and their messages -/

section Messages
variable {env : Env} {v : Value} {x : Elem} {e : Entry} {L rest : List Entry} {c : Choice}
  {elems : List Elem} {direction : Direction} {bufLen : Nat} {call : Call}

/-- A store says why it fails. -/
theorem storeEntries_shape {op : Nat} {a : StoreArgs} :
    StoreShape op a (storeEntries env op a c L).result := by
  -- past the label `insert` a store succeeds or is short of memory
  have hinsert : ∀ {value : Option Bytes} {M : List Entry} {sd : Option Nat},
      StoreShape op a (storeInsertEntries env a value c M sd).result := by
    intro value M sd
    unfold storeInsertEntries insertEntry
    cases value with
    | none => exact .ok 0
    | some bytes =>
      cases c.alloc.node with
      | none => exact .full _
      | some node => exact .ok _
  have hreplace : ∀ {value : Option Bytes} {e : Entry} {M : List Entry},
      StoreShape op a (storeReplaceEntries env a value c e M).result := by
    intro value e M
    unfold storeReplaceEntries
    split
    · split
      · exact .ok 0
      · exact hinsert
    · exact hinsert
  unfold storeEntries
  cases hv : storeValue op a with
  | error msg => exact .refused hv
  | ok value =>
    simp only [storeFoundEntries]
    cases hit (env.mpsClockTimeMs 2) c.found with
    | absent =>
      split
      · next hrep => exact .missing hrep
      · split
        · exact hinsert
        · exact hinsert
    | live e =>
      split
      · exact hreplace
      · next hrep =>
        split
        · exact .present hrep
        · exact hreplace
    | expired e =>
      split
      · next hrep => exact .missing hrep
      · split
        · exact hreplace
        · exact hreplace

/-- A store that fails has a message. -/
theorem StoreShape.tells {op : Nat} {a : StoreArgs} {r : StoreResult} (hr : StoreShape op a r)
    (h : r.rc ≠ ngxOk) : r.errmsg ≠ none := by
  cases hr with
  | ok => exact absurd rfl h
  | full | missing | present | refused => exact Option.some_ne_none _

/-- A counter that fails has a message. -/
theorem incrEntries_tells {a : IncrArgs} (h : (incrEntries env a c L).result.rc ≠ ngxOk) :
    (incrEntries env a c L).result.err ≠ none := by
  have hinsert : ∀ {num : Double} {M : List Entry} {sd : Option Nat},
      (incrInsertEntries env a num c M sd).result.rc ≠ ngxOk →
      (incrInsertEntries env a num c M sd).result.err ≠ none := by
    intro num M sd
    unfold incrInsertEntries insertEntry
    cases c.alloc.node with
    | none => exact fun _ => Option.some_ne_none _
    | some node => exact fun h => absurd rfl h
  revert h
  unfold incrEntries
  cases hit (env.mpsClockTimeMs 2) c.found with
  | absent =>
    cases a.init with
    | none => exact fun _ => Option.some_ne_none _
    | some init => exact hinsert
  | expired e =>
    cases a.init with
    | none => exact fun _ => Option.some_ne_none _
    | some init =>
      dsimp only
      split
      · exact fun h => absurd rfl h
      · exact hinsert
  | live e =>
    simp only [incrLive]
    split
    · split
      · exact fun h => absurd rfl h
      · exact fun _ => Option.some_ne_none _
    · exact fun _ => Option.some_ne_none _

/-- No list has `2 ^ 31 - 1` elements, so that no length is taken for an error. -/
def ShortLists (L : List Entry) : Prop := ∀ e ∈ L, e.value.elems.length + 1 < 2 ^ 31

theorem ListResult.length_pos (h : e.value.elems.length < 2 ^ 31) :
    ¬ (ListResult.length e).value ≤ ngxError := by
  simp only [ListResult.length]
  rw [u32_of_lt (by omega), int32_of_lt (by omega)]
  simp only [ngxError]
  omega

/-- A push that fails has a message, as long as its length is no negative number. -/
theorem pushEntries_tells {a : PushArgs} (hshort : ShortLists L)
    (hsub : ∀ y, c.found = some y → y ∈ L) (h : (pushEntries env a c L).result.value ≤ ngxError) :
    (pushEntries env a c L).result.errmsg ≠ none := by
  -- at `push_node` a length below `2 ^ 31` is no error code
  have hnode : ∀ {e : Entry} {v : Bytes} {elems : List Elem} {M : List Entry},
      elems.length + 1 < 2 ^ 31 →
      (pushNodeEntries a v c e elems M).result.value ≤ ngxError →
      (pushNodeEntries a v c e elems M).result.errmsg ≠ none := by
    intro e v elems M hlen
    unfold pushNodeEntries
    cases c.elem with
    | none =>
      dsimp only
      split
      · exact fun _ => Option.some_ne_none _
      · exact fun _ => Option.some_ne_none _
    | some lnode =>
      refine fun h => absurd h (ListResult.length_pos ?_)
      simpa [Value.elems, (insertElem_perm _ _ _).length_eq] using hlen
  have hinit : ∀ {v : Bytes} {M : List Entry} {sd : Option Nat},
      (initListEntries env a v c M sd).result.value ≤ ngxError →
      (initListEntries env a v c M sd).result.errmsg ≠ none := by
    intro v M sd
    unfold initListEntries
    cases c.alloc.node with
    | none => exact fun _ => Option.some_ne_none _
    | some node => exact hnode (by simp)
  have hh := hit_entry (env.mpsClockTimeMs 2) c.found
  revert h
  unfold pushEntries
  cases pushValue a with
  | error msg => exact fun _ => Option.some_ne_none _
  | ok v =>
    cases hhit : hit (env.mpsClockTimeMs 2) c.found with
    | absent => exact hinit
    | expired e =>
      dsimp only
      cases e.value with
      | plain valueType bytes => exact hinit
      | list elems => exact hnode (by simp)
    | live e =>
      rw [hhit] at hh
      have hlen := hshort e (hsub e hh.symm)
      dsimp only
      cases hv : e.value with
      | plain valueType bytes => exact fun _ => Option.some_ne_none _
      | list elems =>
        rw [hv] at hlen
        exact hnode hlen

/-- `mps_shdict_llen` has a message where it fails, on the same condition. -/
theorem llenEntries_tells (hshort : ShortLists L) (hsub : ∀ y, c.found = some y → y ∈ L)
    (h : (llenEntries env c L).result.value ≤ ngxError) :
    (llenEntries env c L).result.errmsg ≠ none := by
  have hh := hit_entry (env.mpsClockTimeMs 2) c.found
  have hzero : ¬ (ListResult.code 0 none).value ≤ ngxError := by decide
  revert h
  unfold llenEntries
  cases hhit : hit (env.mpsClockTimeMs 2) c.found with
  | absent => exact fun h => absurd h hzero
  | expired e => exact fun h => absurd h hzero
  | live e =>
    rw [hhit] at hh
    have hlen := hshort e (hsub e hh.symm)
    dsimp only
    cases e.value with
    | plain valueType bytes => exact fun _ => Option.some_ne_none _
    | list elems => exact fun h => absurd h (ListResult.length_pos (by omega))

/-- A pop that fails has a message, one without memory for its element among them. -/
theorem popEntries_tells (h : (popEntries env direction bufLen c L).result.rc ≠ ngxOk) :
    (popEntries env direction bufLen c L).result.err ≠ none := by
  revert h
  unfold popEntries
  cases hit (env.mpsClockTimeMs 2) c.found with
  | absent => exact fun h => absurd rfl h
  | expired e => exact fun h => absurd rfl h
  | live e =>
    dsimp only
    cases e.value with
    | plain valueType bytes => exact fun _ => Option.some_ne_none _
    | list elems =>
      have helem : ∀ {x : Elem}, (elemResult env x bufLen).1.rc ≠ ngxOk →
          (elemResult env x bufLen).1.err ≠ none := by
        intro x
        unfold elemResult
        cases x.valueType with
        | tstring =>
          dsimp only
          split
          · exact fun _ => Option.some_ne_none _
          · exact fun h => absurd rfl h
        | tnumber =>
          dsimp only
          split
          · exact fun h => absurd rfl h
          · exact fun _ => Option.some_ne_none _
        | tnil | tboolean | tlist | unknown => exact fun _ => Option.some_ne_none _
      simp only [popList]
      split
      · exact fun _ => Option.some_ne_none _
      · split
        · exact fun _ => Option.some_ne_none _
        · split
          · split
            · exact helem
            · exact helem
          · exact helem

/-- A read that fails has one, too, unless there is no memory for a string that is too
long for the buffer. -/
theorem getEntries_tells (ht : ∀ y ∈ L, y.value.Typed) (hsub : ∀ y, c.found = some y → y ∈ L)
    (hbuf : 1 ≤ bufLen) (h : (getEntries env bufLen false c L).result.rc ≠ ngxOk)
    (hnone : (getEntries env bufLen false c L).result.err = none) :
    ∃ e bytes, hit (env.mpsClockTimeMs 2) c.found = .live e ∧ e.value = .plain .tstring bytes ∧
      bufLen < bytes.length ∧ env.malloc = false := by
  have hh := hit_entry (env.mpsClockTimeMs 2) c.found
  revert h hnone
  unfold getEntries
  cases hhit : hit (env.mpsClockTimeMs 2) c.found with
  | absent => exact fun h => absurd rfl h
  | expired e => exact fun h => absurd rfl h
  | live e =>
    rw [hhit] at hh
    have hty := ht e (hsub e hh.symm)
    dsimp only
    unfold valueResult
    cases hv : e.value with
    | list elems => exact fun _ hnone => absurd hnone (Option.some_ne_none _)
    | plain valueType bytes =>
      rw [hv] at hty
      intro h hnone
      refine ⟨e, bytes, rfl, ?_⟩
      dsimp only at h hnone
      rcases hty with rfl | ⟨rfl, hsize⟩ | ⟨rfl, hsize⟩
      · by_cases hshort : bufLen < bytes.length ∧ (ValueType.tstring = .tboolean ∨
            ValueType.tstring = .tstring ∧ ¬ env.malloc)
        · exact ⟨hv, hshort.1, by simpa using hshort.2⟩
        · rw [if_neg hshort] at h
          exact absurd rfl h
      · rw [if_neg (by simp)] at h
        simp only [dif_pos (show bytes.length = 8 from hsize)] at h
        exact absurd rfl h
      · rw [if_neg (by omega)] at h
        simp only [if_neg (not_not.mpr hsize)] at h
        exact absurd rfl h

end Messages

/-! ### What a method makes of an answer -/

/-- The answer has the shape that goes with its call. -/
def Answer.Shaped : Call → Answer → Prop
  | .store op a, .store r => StoreShape op a r
  | .get _ _ _, .get r => GetShape r
  | .pop _ _ _, .get r => PopShape r
  | _, _ => True

section Returns
variable {N : LuaNumbers} {cells cells₁ cells₂ : FfiCells} {r : GetResult}
  {call : LuaCall} {c : Call} {answer : Answer}

theorem Call.entries_shaped (c : Call) (env : Env) (ch : Choice) (L : List Entry) :
    (c.entries env ch L).result.Shaped c := by
  cases c with
  | get key bufLen getStale => exact getEntries_shape
  | pop direction key bufLen => exact popEntries_shape
  | store op a => exact storeEntries_shape
  | incr | push | llen | getTtl | setExpire | flushAll => trivial

/-- The string that a call has copied is the one that is read. -/
theorem FfiCells.string_get {valueType : Option ValueType} {bytes : Bytes} {num : Option Double}
    {flags : Option Int} {stale : Option Bool} {err : Option String} :
    (cells.offer.get ⟨ngxOk, valueType, some bytes,
      some bytes.length, num, flags, stale, err⟩).string = bytes := by
  simp only [FfiCells.get, FfiCells.offer, FfiCells.fill, FfiCells.string]
  split
  · next h =>
    split at h
    · obtain rfl := Option.some.inj h
      exact List.take_length
    · cases h
  · next h =>
    split at h
    · cases h
    · next hfit =>
      rw [if_neg hfit]
      exact readBytes_memcpy

theorem getReturn_congr (h : GetShape r)
    (he : r.rc ≠ ngxOk → (cells₁.offer.get r).errmsg = (cells₂.offer.get r).errmsg) :
    getReturn N (cells₁.offer.get r) r.rc = getReturn N (cells₂.offer.get r) r.rc := by
  cases h with
  | failed h => simp only [getReturn, if_pos h, failedReturn, he h]
  | nil => rfl
  | string bytes flags x =>
    simp only [getReturn, ne_eq, not_true_eq_false, if_false]
    exact congrArg (fun b => Except.ok (withFlags N flags (.string b)))
      (FfiCells.string_get.trans FfiCells.string_get.symm)
  | number num flags x n => rfl
  | boolean b flags x => rfl

theorem popReturn_congr (h : PopShape r)
    (he : r.rc ≠ ngxOk → (cells₁.offer.get r).errmsg = (cells₂.offer.get r).errmsg) :
    popReturn (cells₁.offer.get r) r.rc = popReturn (cells₂.offer.get r) r.rc := by
  cases h with
  | failed h => simp only [popReturn, if_pos h, failedReturn, he h]
  | nil => rfl
  | string bytes =>
    simp only [popReturn, ne_eq, not_true_eq_false, if_false]
    exact congrArg (fun b => Except.ok [LuaValue.string b])
      (FfiCells.string_get.trans FfiCells.string_get.symm)
  | number num n => rfl

theorem FfiCells.message_congr (h : cells₁.errmsg = cells₂.errmsg) :
    cells₁.message = cells₂.message := by
  rw [FfiCells.message, FfiCells.message, h]

theorem storeReturn_congr {r : StoreResult}
    (he : r.rc ≠ ngxOk → (cells₁.store r).errmsg = (cells₂.store r).errmsg) :
    storeReturn (cells₁.store r) r.rc = storeReturn (cells₂.store r) r.rc := by
  unfold storeReturn
  split
  · rfl
  · next hrc =>
    rw [FfiCells.message_congr (he hrc)]
    rfl

/-- **A method looks at no cell but `errmsg[0]`** that its call has not written, and at
that one only if the call has failed. So the cells may be replaced by any others that
agree there. -/
theorem LuaCall.returns_congr (hc : call.issues N = some c) (hs : answer.Shaped c)
    (he : answer.Fails → (cells₁.after c answer).errmsg = (cells₂.after c answer).errmsg) :
    call.returns N (cells₁.after c answer) answer =
      call.returns N (cells₂.after c answer) answer := by
  cases call with
  | store kind key value exptime flags =>
    obtain ⟨a, -, rfl⟩ := Checked.map_eq_some.mp hc
    cases answer with
    | store r => cases kind <;> exact storeReturn_congr he
    | get | incr | list | code => rfl
  | delete key =>
    obtain ⟨a, -, rfl⟩ := Checked.map_eq_some.mp hc
    cases answer with
    | store r => exact storeReturn_congr he
    | get | incr | list | code => rfl
  | get key =>
    obtain ⟨k, -, rfl⟩ := Checked.map_eq_some.mp hc
    cases answer with
    | get r => exact getReturn_congr hs he
    | store | incr | list | code => rfl
  | incr key value init initTtl =>
    obtain ⟨a, -, rfl⟩ := Checked.map_eq_some.mp hc
    cases answer with
    | incr r =>
      simp only [LuaCall.returns, incrReturn]
      split
      · next hrc => rw [FfiCells.message_congr (he hrc)]
      · rfl
    | store | get | list | code => rfl
  | pop direction key =>
    obtain ⟨k, -, rfl⟩ := Checked.map_eq_some.mp hc
    cases answer with
    | get r => exact popReturn_congr hs he
    | store | incr | list | code => rfl
  | push direction key value =>
    obtain ⟨a, -, rfl⟩ := Checked.map_eq_some.mp hc
    cases answer with
    | list r =>
      simp only [LuaCall.returns, pushReturn]
      split
      · next hrc => rw [FfiCells.message_congr (he hrc)]
      · rfl
    | store | get | incr | code => rfl
  | llen key =>
    obtain ⟨k, -, rfl⟩ := Checked.map_eq_some.mp hc
    cases answer with
    | list r =>
      simp only [LuaCall.returns, llenReturn]
      split
      · next hrc => rw [failedReturn, failedReturn, he hrc]
      · rfl
    | store | get | incr | code => rfl
  | flushAll | ttl | expire | capacity | freeSpace => cases answer <;> rfl

/-- A method raises nothing behind its call, unless the call has failed and there is no message. -/
theorem LuaCall.returns_ok (hc : call.issues N = some c) (hs : answer.Shaped c)
    (he : answer.Fails → (cells.after c answer).errmsg ≠ none) :
    ∃ vs, call.returns N (cells.after c answer) answer = .ok vs := by
  have hmessage : ∀ {cells : FfiCells} {f : LuaValue → List LuaValue}, cells.errmsg ≠ none →
      ∃ vs, cells.message.map f = .ok vs := by
    intro cells f h
    obtain ⟨msg, hmsg⟩ := Option.ne_none_iff_exists'.mp h
    exact ⟨f (.text msg), by rw [FfiCells.message, hmsg]; rfl⟩
  have hfailed : ∀ {cells : FfiCells}, cells.errmsg ≠ none → ∃ vs, failedReturn cells = .ok vs := by
    intro cells h
    obtain ⟨msg, hmsg⟩ := Option.ne_none_iff_exists'.mp h
    exact ⟨_, by rw [failedReturn, hmsg]⟩
  have hstore : ∀ {r : StoreResult}, (r.rc ≠ ngxOk → (cells.store r).errmsg ≠ none) →
      ∃ vs, storeReturn (cells.store r) r.rc = .ok vs := by
    intro r he
    unfold storeReturn
    split
    · exact ⟨_, rfl⟩
    · next hrc => exact hmessage (he hrc)
  -- only the branch of a failure reads `errmsg[0]`, and there a message has been written
  cases call with
  | store kind key value exptime flags =>
    obtain ⟨a, -, rfl⟩ := Checked.map_eq_some.mp hc
    cases answer with
    | store r => cases kind <;> exact hstore he
    | get | incr | list | code => exact ⟨_, rfl⟩
  | delete key =>
    obtain ⟨a, -, rfl⟩ := Checked.map_eq_some.mp hc
    cases answer with
    | store r => exact hstore he
    | get | incr | list | code => exact ⟨_, rfl⟩
  | get key =>
    obtain ⟨k, -, rfl⟩ := Checked.map_eq_some.mp hc
    cases answer with
    | get r =>
      cases (show GetShape r from hs) with
      | failed h =>
        simp only [LuaCall.returns, getReturn, if_pos h]
        exact hfailed (he h)
      | nil | string | number | boolean => exact ⟨_, rfl⟩
    | store | incr | list | code => exact ⟨_, rfl⟩
  | incr key value init initTtl =>
    obtain ⟨a, -, rfl⟩ := Checked.map_eq_some.mp hc
    cases answer with
    | incr r =>
      simp only [LuaCall.returns, incrReturn]
      split
      · next hrc => exact hmessage (he hrc)
      · split
        · exact ⟨_, rfl⟩
        · exact ⟨_, rfl⟩
    | store | get | list | code => exact ⟨_, rfl⟩
  | pop direction key =>
    obtain ⟨k, -, rfl⟩ := Checked.map_eq_some.mp hc
    cases answer with
    | get r =>
      cases (show PopShape r from hs) with
      | failed h =>
        simp only [LuaCall.returns, popReturn, if_pos h]
        exact hfailed (he h)
      | nil | string | number => exact ⟨_, rfl⟩
    | store | incr | list | code => exact ⟨_, rfl⟩
  | push direction key value =>
    obtain ⟨a, -, rfl⟩ := Checked.map_eq_some.mp hc
    cases answer with
    | list r =>
      simp only [LuaCall.returns, pushReturn]
      split
      · next hrc => exact hmessage (he hrc)
      · exact ⟨_, rfl⟩
    | store | get | incr | code => exact ⟨_, rfl⟩
  | llen key =>
    obtain ⟨k, -, rfl⟩ := Checked.map_eq_some.mp hc
    cases answer with
    | list r =>
      simp only [LuaCall.returns, llenReturn]
      split
      · next hrc => exact hfailed (he hrc)
      · exact ⟨_, rfl⟩
    | store | get | incr | code => exact ⟨_, rfl⟩
  | ttl key =>
    cases answer with
    | code rc =>
      simp only [LuaCall.returns, ttlReturn]
      split <;> exact ⟨_, rfl⟩
    | store | get | incr | list => exact ⟨_, rfl⟩
  | expire key exptime =>
    cases answer with
    | code rc =>
      simp only [LuaCall.returns, expireReturn]
      split <;> exact ⟨_, rfl⟩
    | store | get | incr | list => exact ⟨_, rfl⟩
  | flushAll => cases answer <;> exact ⟨_, rfl⟩
  | capacity | freeSpace => cases hc

end Returns

/-! ### Runs -/

/-- What is asked of every call of C: a counter is not hung up where the tree would be out of
order, and no list is so long that its length is no `int`. -/
def Tidy (c : Call) (env : Env) (L : List Entry) : Prop := c.Safe env L ∧ ShortLists L

/-- A read finds a string that does not fit the buffer, and there is no memory for it. -/
def LuaEvent.Starved (N : LuaNumbers) (y : LuaEvent) (L : List Entry) : Prop :=
  ∃ e ∈ L, ∃ bytes, y.call.issues N = some (.get e.key strBufSize false) ∧
    lookupExpired e.expires (y.env.mpsClockTimeMs 2) = false ∧ e.value = .plain .tstring bytes ∧
    strBufSize < bytes.length ∧ y.env.malloc = false

/-- **What an event reports is its own**, but for a read without memory. `zs` are the
calls of C before it. To be its own means that a worker that has just started would get
the same. -/
structure OwnAnswer (N : LuaNumbers) (s : Nat) (zs : List (Nat × Event)) (y : LuaEvent)
    (w w' : LuaState) :
    Prop where
  /-- A worker that has just started gets the same. -/
  own : ¬ y.Starved N w.dict.entries → ∃ cells,
    y.call.run N (mpsSlabSizesInit (2 ^ s)) y.base y.env .new w.dict =
      some (w'.dict, cells, y.result)
  /-- A read without memory reports what an earlier call of the worker has failed with. -/
  starved : y.Starved N w.dict.entries → y.result = match lastMessage y.worker zs with
    | some msg => .ok [.nil, .text msg]
    | none => .error (.error "failed to get the key")
  /-- Nothing is raised behind a call of C, but by a read without memory. -/
  raises : ∀ err, y.result = .error err → y.call.issues N = none ∨ y.Starved N w.dict.entries

section Runs
variable {N : LuaNumbers} {s : Nat} {w w' : LuaState} {y : LuaEvent} {ys : List LuaEvent}
  {c : Call} {env : Env} {ch : Choice} {L : List Entry}

/-- Only `get` reads. -/
theorem LuaCall.issues_get {call : LuaCall} {key : Bytes} {bufLen : Nat} {getStale : Bool}
    (h : call.issues N = some (.get key bufLen getStale)) :
    call = .get (.string key) ∧ bufLen = strBufSize ∧ getStale = false := by
  cases call with
  | get k =>
    obtain ⟨k', hk, hget⟩ := Checked.map_eq_some.mp h
    obtain ⟨rfl, rfl, rfl⟩ := Call.get.inj hget
    exact ⟨congrArg _ (checkedKey_ok hk).1, rfl, rfl⟩
  | store kind =>
    obtain ⟨a, -, ha⟩ := Checked.map_eq_some.mp h
    cases kind <;> cases ha
  | delete | incr | push | pop | llen | ttl =>
    obtain ⟨a, -, ha⟩ := Checked.map_eq_some.mp h
    cases ha
  | expire =>
    simp only [LuaCall.issues] at h
    split at h
    · obtain ⟨a, -, ha⟩ := Checked.map_eq_some.mp h
      cases ha
    · cases h
  | flushAll | capacity | freeSpace => cases h

/-- A call of a method that fails without a message is a read without memory. All calls
but the reads have one in every failure. -/
theorem LuaCall.tells {call : LuaCall} (hcall : call.issues N = some c) (hc : c.Picks True env L ch)
    (ht : ∀ e ∈ L, e.value.Typed) (hshort : ShortLists L) (hf : (c.entries env ch L).result.Fails)
    (hnone : (c.entries env ch L).result.message = none) :
    ∃ e ∈ L, ∃ bytes, c = .get e.key strBufSize false ∧
    lookupExpired e.expires (env.mpsClockTimeMs 2) = false ∧
      e.value = .plain .tstring bytes ∧ strBufSize < bytes.length ∧ env.malloc = false := by
  have hfound : ∀ key, c.key = some key → ∀ e, ch.found = some e → e ∈ L ∧ e.key = key := by
    intro key hkey e he
    obtain ⟨hm, hk⟩ := (hc.finds key hkey).sound e he
    refine ⟨?_, hk⟩
    cases c with
    | get | getTtl | setExpire | flushAll => exact hm
    | store | incr | push | pop | llen => exact afterExpire_subset env L hm
  cases c with
  | store op a => exact absurd hnone (storeEntries_shape.tells hf)
  | incr a => exact absurd hnone (incrEntries_tells hf)
  | push a => exact absurd hnone (pushEntries_tells hshort (fun e he => (hfound _ rfl e he).1) hf)
  | llen key => exact absurd hnone (llenEntries_tells hshort (fun e he => (hfound _ rfl e he).1) hf)
  | pop direction key bufLen => exact absurd hnone (popEntries_tells hf)
  | get key bufLen getStale =>
    obtain ⟨-, rfl, rfl⟩ := LuaCall.issues_get hcall
    obtain ⟨e, bytes, hlive, hv, hlong, hmalloc⟩ :=
      getEntries_tells ht (fun e he => (hfound _ rfl e he).1)
      (by decide) hf hnone
    have hh := hit_entry (env.mpsClockTimeMs 2) ch.found
    rw [hlive] at hh
    obtain ⟨hm, hk⟩ := hfound key rfl e hh.symm
    refine ⟨e, hm, bytes, by rw [hk], ?_, hv, hlong, hmalloc⟩
    rw [← hh] at hlive
    simp only [Hit.entry, hit] at hlive
    split at hlive
    · cases hlive
    · next hx => exact Bool.not_eq_true _ ▸ hx
  | getTtl | setExpire | flushAll => exact hf.elim

/-- A read without memory fails without a message. -/
theorem get_starved {key bytes : Bytes} {bufLen : Nat} {e : Entry}
    (hc : (Call.get key bufLen false).Picks True env L ch)
    (hinj : ∀ x ∈ L, ∀ y ∈ L, x.key = y.key → x = y) (he : e ∈ L) (hk : e.key = key)
    (hx : lookupExpired e.expires (env.mpsClockTimeMs 2) = false)
    (hv : e.value = .plain .tstring bytes)
    (hlong : bufLen < bytes.length) (hmalloc : env.malloc = false) :
    ((Call.get key bufLen false).entries env ch L).result =
      .get (.plain ngxError (some .tstring) none) := by
  have hfound : ch.found = some e := by
    cases hfd : ch.found with
    | none => exact absurd hk ((hc.finds key rfl).complete trivial hfd e he)
    | some y =>
      obtain ⟨hy, hyk⟩ := (hc.finds key rfl).sound y hfd
      rw [hinj y hy e he (hyk.trans hk.symm)]
  have hlive : hit (env.mpsClockTimeMs 2) ch.found = .live e := by
    rw [hfound, hit, hx]
    rfl
  have hshort : bufLen < bytes.length ∧ (ValueType.tstring = .tboolean ∨
      ValueType.tstring = .tstring ∧ ¬ env.malloc) := ⟨hlong, .inr ⟨rfl, by simp [hmalloc]⟩⟩
  simp only [Call.entries, Outcome.map, getEntries, hlive, hv]
  unfold valueResult
  dsimp only
  rw [if_pos hshort]

/-- **What the methods report is their own**, in every run of any number of workers.  The one
exception is a read that finds no memory for a string that is longer than the buffer: it
reports whatever an earlier call of its worker has failed with. -/
theorem own_answers (hs : 12 ≤ s) (hs' : s ≤ 16) (run : LuaRun N s Tidy ys w)
    (h : y.Runs N s w w') (hG : y.Meets N Tidy w.dict) :
    ∃ zs, Issues N s Tidy ys zs w.dict ∧ OwnAnswer N s zs y w w' := by
  obtain ⟨zs, hissues, hlast⟩ := run.issues
  refine ⟨zs, hissues, ?_⟩
  have hrun := hissues.runWith
  obtain ⟨spare, hrep⟩ := SafeRun.rep hs hs' (hrun.mono fun _ _ h => h.1)
  have hinj : ∀ x ∈ w.dict.entries, ∀ z ∈ w.dict.entries, x.key = z.key → x = z := fun x hx z hz =>
    hrep.key_inj trivial hx hz
  have hty := hrun.run.typed hs hs'
  have hstep := h
  obtain ⟨hbase, hsized, cells, hyrun, -⟩ := hstep
  rcases h.cases with ⟨hnone, -, -⟩ | ⟨x, hcall, hb, henv, hx, hresult, -⟩
  · -- no call of C is made
    obtain ⟨r, -, hall⟩ :=
      LuaCall.run_unissued (mpsSlabSizesInit (2 ^ s)) y.base y.env w.dict hnone
    obtain ⟨cells₁, -, h₁⟩ := hall (w.cells y.worker)
    obtain ⟨cells₂, -, h₂⟩ := hall .new
    have he := Option.some.inj (hyrun.symm.trans h₁)
    simp only [Prod.mk.injEq] at he
    obtain ⟨hd, -, hr⟩ := he
    refine ⟨fun _ => ⟨cells₂, ?_⟩, ?_, fun _ _ => .inl hnone⟩
    · rw [h₂, hd, hr]
    · rintro ⟨e, -, bytes, hsome, -⟩
      rw [hnone] at hsome
      cases hsome
  · have hsafe := hG x.call hcall
    rw [← henv] at hsafe
    obtain ⟨ch, hc, -, -, hanswer⟩ := hx.entries hrep fun _ => hsafe.1
    have hshaped : x.answer.Shaped x.call := hanswer ▸ Call.entries_shaped _ _ _ _
    have htells : x.answer.Fails → x.answer.message = none → y.Starved N w.dict.entries := by
      intro hf hm
      rw [hanswer] at hf hm
      obtain ⟨e, he, bytes, hget, hexp, hv, hlong, hmalloc⟩ :=
        LuaCall.tells hcall hc hty hsafe.2 hf hm
      exact ⟨e, he, bytes, hget ▸ hcall, henv ▸ hexp, hv, hlong, henv ▸ hmalloc⟩
    have hsome : ¬ y.Starved N w.dict.entries → x.answer.Fails → ∀ cells : FfiCells,
        (cells.after x.call x.answer).errmsg = x.answer.message ∧
        (cells.after x.call x.answer).errmsg ≠ none := by
      intro hn hf cells
      obtain ⟨msg, hmsg⟩ := Option.ne_none_iff_exists'.mp fun hm => hn (htells hf hm)
      rw [FfiCells.after_errmsg, hmsg]
      exact ⟨rfl, Option.some_ne_none _⟩
    refine ⟨?_, ?_, ?_⟩
    · intro hn
      refine ⟨FfiCells.new.after x.call x.answer, ?_⟩
      have hcrun := hx.2.2
      rw [hb, henv] at hcrun
      rw [LuaCall.run_issued hcall, hcrun, hresult]
      simp only [Option.map_some]
      rw [LuaCall.returns_congr hcall hshaped fun hf =>
        (hsome hn hf _).1.trans (hsome hn hf _).1.symm]
    · rintro ⟨e, he, bytes, hget, hexp, hv, hlong, hmalloc⟩
      have hxc : x.call = .get e.key strBufSize false := Option.some.inj (hcall.symm.trans hget)
      rw [← henv] at hexp hmalloc
      rw [hxc] at hc hanswer
      rw [get_starved hc hinj he rfl hexp hv hlong hmalloc] at hanswer
      rw [hresult, hxc, hanswer, (LuaCall.issues_get hget).1, ← hlast]
      rfl
    · intro err herr
      refine .inr ?_
      by_contra hn
      obtain ⟨vs, hvs⟩ : ∃ vs, y.call.returns N
        ((w.cells y.worker).after x.call x.answer) x.answer = .ok vs :=
        LuaCall.returns_ok hcall hshaped fun hf => (hsome hn hf _).2
      rw [hresult, hvs] at herr
      cases herr

end Runs

/-- The read of worker 1 reports what it has found itself. Worker 0 has written to its own
cells only. -/
theorem own_answers_two : ∃ zs,
    Issues wholeNumbers 12 Tidy [luaSet] zs (luaSet.after wholeNumbers 12 luaStart).dict ∧
    OwnAnswer wholeNumbers 12 zs luaGet (luaSet.after wholeNumbers 12 luaStart)
      (luaGet.after wholeNumbers 12 (luaSet.after wholeNumbers 12 luaStart)) := by
  have hset : luaSet.Meets wholeNumbers Tidy luaStart.dict := by
    intro c hc
    obtain rfl := Option.some.inj hc
    refine ⟨trivial, ?_⟩
    rw [show luaStart.dict.entries = [] from entries_emptyDict]
    exact List.forall_mem_nil _
  have hget : luaGet.Meets wholeNumbers Tidy (luaSet.after wholeNumbers 12 luaStart).dict := by
    intro c hc
    obtain rfl := Option.some.inj hc
    refine ⟨trivial, ?_⟩
    unfold ShortLists
    decide +kernel
  exact own_answers (by decide) (by decide)
    (.call (.init fresh_emptyDict) luaSet_runs hset) luaGet_runs hget

end MpsShdict
