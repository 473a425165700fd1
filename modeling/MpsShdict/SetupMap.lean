import MpsShdict.SetupErrors

/-! # A dictionary of Lua is a map

Whatever boolean, number or string one worker stores, with whatever flags, every worker
gets, until its time to live is over.  Between the two lie a list of bytes in the pool, a
buffer and cells that all calls of a worker share, and the tags by which the C code tells
the types.  The map of this module knows nothing of any of that: it binds keys to values of
Lua, and a store of nil unbinds them.
-/
namespace MpsShdict

open Words

/-! ### The map -/

/-- What a key is bound to: a value of Lua, its flags and its deadline. -/
structure LuaBinding where
  value : LuaValue
  flags : Int
  deadline : Nat

/-- A call of the map, its arguments having been checked. The values that are stored are
still those of Lua. -/
inductive LuaMapCall where
  | store (kind : StoreKind) (key : Bytes) (value : LuaValue) (exptime flags : Int)
  | delete (key : Bytes)
  | get (key : Bytes)

def LuaMapCall.key : LuaMapCall → Bytes
  | .store _ key _ _ _ => key
  | .delete key => key
  | .get key => key

/-- The call of the map that a method is, if its arguments are accepted. -/
def LuaCall.mapped (N : LuaNumbers) : LuaCall → Option LuaMapCall
  | .store kind key value exptime flags =>
    (storeArgs N key value exptime flags).toOption.map fun a =>
      .store kind a.key value a.exptime a.userFlags
  | .delete key => (checkedKey key).toOption.map .delete
  | .get key => (checkedKey key).toOption.map .get
  | _ => none

/-- What counts of a binding at the time `t`. -/
def LuaBinding.current (t : Nat) (o : Option LuaBinding) : Option LuaBinding :=
  o.filter fun b => Expiring.Live b.deadline t

/-- What a store is declined with. -/
def StoreKind.refusal : StoreKind → String
  | .replace => "not found"
  | _ => "exists"

/-- **What a call at the time `t` does to the binding of its key**, and what it returns.  A
store of nil is a `delete` for `set` and `safe_set`, and the other stores refuse it. -/
def LuaMapCall.step (N : LuaNumbers) (t : Nat) (o : Option LuaBinding) :
    LuaMapCall → Option LuaBinding × LuaResult
  | .store kind _ value exptime flags =>
    if value = .nil then
      if kind.erases then (none, .ok [.boolean true, .nil, .boolean false])
      else
        (o, .ok [.boolean false, .text "attempt to add or replace nil values", .boolean false])
    else if kind.takes (LuaBinding.current t o).isSome then
      (some ⟨value, flags, dueAt t exptime⟩, .ok [.boolean true, .nil, .boolean false])
    else (o, .ok [.boolean false, .text kind.refusal, .boolean false])
  | .delete _ => (none, .ok [.boolean true, .nil, .boolean false])
  | .get _ =>
    (o, .ok (match LuaBinding.current t o with
      | some b => withFlags N b.flags b.value
      | none => [.nil]))

def LuaEvent.time (y : LuaEvent) : Nat := y.env.clock 0

/-- The map after the events. -/
def luaAfter (N : LuaNumbers) : List LuaEvent → Bytes → Option LuaBinding
  | [] => fun _ => none
  | y :: ys =>
    match y.call.mapped N with
    | some m => Function.update (luaAfter N ys) m.key (m.step N y.time (luaAfter N ys m.key)).1
    | none => luaAfter N ys

/-- Every method has returned what the map does, or has refused its arguments. The map
before an event is computed from the events before it. -/
def LuaAnswersAsMap (N : LuaNumbers) : List LuaEvent → Prop
  | [] => True
  | y :: ys =>
    (match y.call.mapped N with
      | some m => y.result = (m.step N y.time (luaAfter N ys m.key)).2
      | none => Refused y.result) ∧
      LuaAnswersAsMap N ys

/-! ### Runs of the map -/

/-- A boolean, a number or a string. -/
def LuaValue.Plain : LuaValue → Prop
  | .boolean _ | .number _ | .string _ => True
  | _ => False

/-- A store of whatever value, a delete or a read. Counters and lists are not calls of the
map. -/
def LuaCall.OfMap : LuaCall → Prop
  | .store _ _ _ _ _ | .delete _ | .get _ => True
  | _ => False

/-- What a method returns from a store that has found the memory it needs. -/
def Unfailing (result : LuaResult) : Prop :=
  ∀ a msg forcible, result = .ok [a, msg, .boolean forcible] →
  msg ≠ .text "no memory" ∧ forcible = false

/-- The clock stands still during the call, at the deadline of no entry, and the call
finds the memory that it needs, in the pool without evicting and outside of it for a
string to be read. -/
structure LuaEvent.Fair (y : LuaEvent) (L : List Entry) : Prop where
  ofMap : y.call.OfMap
  still : ∀ i, y.env.clock i = y.time
  undue : ∀ e ∈ L, e.expires ≠ 0 → e.expires ≠ y.time
  malloc : y.env.malloc = true
  unfailing : Unfailing y.result

/-- The states that fair events lead to, the last one first. Each of the events is a
method of the map, by any worker. -/
inductive LuaMapRun (N : LuaNumbers) (s : Nat) : List LuaEvent → LuaState → Prop where
  | init {d : Shdict} (h : Fresh s d) : LuaMapRun N s [] ⟨d, fun _ => .new⟩
  | call {ys : List LuaEvent} {w w' : LuaState} {y : LuaEvent} (run : LuaMapRun N s ys w)
      (h : y.Runs N s w w') (hy : y.Fair w.dict.entries) : LuaMapRun N s (y :: ys) w'

/-- The clock of the events does not run backwards, and stays below `2 ^ 62`. -/
structure LuaNondecreasing (ys : List LuaEvent) : Prop where
  below : ∀ y ∈ ys, y.time < 2 ^ 62
  across : ys.Pairwise fun later earlier => earlier.time ≤ later.time

/-! ### Values and their bytes -/

/-- How a value is stored. The tag tells the type, so that different values have different
contents. -/
def LuaValue.content : LuaValue → Content
  | .boolean b => .plain .tboolean [if b then 1 else 0]
  | .number x => .plain .tnumber x.bytes
  | .string bytes => .plain .tstring bytes
  | _ => .plain .tnil []

/-- The binding in the terms of C. -/
def LuaBinding.binding (b : LuaBinding) : MapBinding := ⟨b.value.content, b.flags, b.deadline⟩

section Values
variable {N : LuaNumbers} {cells : FfiCells} {a : StoreArgs}
  {key value exptime flags : LuaValue} {t : Nat}
  {r : GetResult} {b : LuaBinding} {o : Option LuaBinding}

theorem LuaBinding.map_current : mapView.current t (o.map LuaBinding.binding) =
    (LuaBinding.current t o).map LuaBinding.binding := by
  cases o with
  | none => rfl
  | some b =>
    show Option.filter _ (some b.binding) = _
    rw [LuaBinding.current, Option.filter_some, Option.filter_some]
    show (if decide (Expiring.Live b.deadline t) = true then some b.binding else none) = _
    split <;> rfl

theorem flagsArg_int {x : Int} (h : flagsArg N flags = .ok x) : -2 ^ 31 ≤ x ∧ x < 2 ^ 31 := by
  unfold flagsArg at h
  split at h
  · exact Except.ok.inj h ▸ N.toInt_int _
  · exact Except.ok.inj h ▸ N.toInt_int _
  · exact Except.ok.inj h ▸ by decide
  · exact Except.ok.inj h ▸ N.toInt_int _
  · cases h

/-- A plain value is stored as a value of C that is a boolean, a number or a string. -/
theorem storeArgs_plain (h : storeArgs N key value exptime flags = .ok a) (hv : value.Plain) :
    a.Plain ∧ Content.plain a.valueType a.bytes = value.content := by
  obtain ⟨-, -, hvalue, hflags, -⟩ := storeArgs_ok h
  have hint := flagsArg_int hflags
  cases value with
  | boolean x =>
    simp only [valueArg, Except.ok.injEq, Prod.mk.injEq] at hvalue
    obtain ⟨hty, -, hnum⟩ := hvalue
    refine ⟨⟨.inl hty.symm, hint⟩, ?_⟩
    rw [StoreArgs.bytes, ← hty, ← hnum]
    cases x <;> rfl
  | number x =>
    simp only [valueArg, Except.ok.injEq, Prod.mk.injEq] at hvalue
    obtain ⟨hty, -, hnum⟩ := hvalue
    refine ⟨⟨.inr (.inl hty.symm), hint⟩, ?_⟩
    rw [StoreArgs.bytes, ← hty, ← hnum]
    rfl
  | string x =>
    simp only [valueArg, Except.ok.injEq, Prod.mk.injEq] at hvalue
    obtain ⟨hty, hstr, -⟩ := hvalue
    refine ⟨⟨.inr (.inr ⟨hty.symm, hstr ▸ Option.some_ne_none x⟩), hint⟩, ?_⟩
    rw [StoreArgs.bytes, ← hty, ← hstr]
    rfl
  | nil | table | function | userdata | thread => exact hv.elim

/-- A value that is taken is nil or plain. -/
theorem storeArgs_plain_of_ne (h : storeArgs N key value exptime flags = .ok a)
    (hne : value ≠ .nil) :
    value.Plain := by
  obtain ⟨-, -, hvalue, -⟩ := storeArgs_ok h
  cases value with
  | boolean | number | string => trivial
  | nil => exact absurd rfl hne
  | table | function | userdata | thread => cases hvalue

/-- What is stored tells what it was. -/
theorem LuaValue.content_inj {v v' : LuaValue} (hv : v.Plain) (hv' : v'.Plain)
    (h : v.content = v'.content) :
    v = v' := by
  cases v with
  | boolean x =>
    cases v' with
    | boolean y => cases x <;> cases y <;> first | rfl | cases h
    | number | string => cases h
    | nil | table | function | userdata | thread => exact hv'.elim
  | number x =>
    cases v' with
    | number y =>
      obtain ⟨-, hbytes⟩ := Content.plain.inj h
      cases x
      cases y
      cases hbytes
      rfl
    | boolean | string => cases h
    | nil | table | function | userdata | thread => exact hv'.elim
  | string x =>
    cases v' with
    | string y =>
      obtain ⟨-, rfl⟩ := Content.plain.inj h
      rfl
    | boolean | number => cases h
    | nil | table | function | userdata | thread => exact hv'.elim
  | nil | table | function | userdata | thread => exact hv.elim

theorem getReturn_string {bytes : Bytes} {flags : Int} {x : Option Bool} :
    getReturn N (cells.offer.get ⟨ngxOk, some .tstring,
      some bytes, some bytes.length, none, some flags, x, none⟩)
      ngxOk = .ok (withFlags N flags (.string bytes)) :=
  congrArg (fun z => Except.ok (withFlags N flags (.string z))) FfiCells.string_get

/-- **What is read is what was stored.** The string comes from the buffer or from a block
of its own, the boolean from the first byte of the buffer, and flags that are zero are
left out. -/
theorem getReturn_reads (h : GetShape r) (hr : r.Reads b.binding) (hv : b.value.Plain) :
    getReturn N (cells.offer.get r) r.rc = .ok (withFlags N b.flags b.value) := by
  obtain ⟨valueType, bytes, hcontent, hty, hval, -⟩ := hr.content
  have hcontent' : b.value.content = .plain valueType bytes := hcontent
  have hflags := hr.userFlags
  cases h with
  | failed h => exact absurd hr.rc h
  | nil => cases hflags
  | string z flags x =>
    obtain rfl := Option.some.inj hty
    obtain rfl := Option.some.inj hval
    obtain rfl := Option.some.inj hflags
    have hvalue : b.value = .string z := LuaValue.content_inj hv trivial hcontent'
    rw [hvalue]
    exact getReturn_string
  | number num flags x n =>
    obtain rfl := Option.some.inj hty
    obtain rfl := Option.some.inj hval
    obtain rfl := Option.some.inj hflags
    have hvalue : b.value = .number num := LuaValue.content_inj hv trivial hcontent'
    rw [hvalue]
    rfl
  | boolean z flags x =>
    obtain rfl := Option.some.inj hty
    obtain rfl := Option.some.inj hval
    obtain rfl := Option.some.inj hflags
    show Except.ok (withFlags N b.flags (.boolean (z ≠ 0))) = _
    cases hvalue : b.value with
    | boolean y =>
      rw [hvalue] at hcontent'
      obtain ⟨-, hz⟩ := Content.plain.inj hcontent'
      obtain rfl := (List.cons.inj hz).1
      cases y <;> rfl
    | number | string =>
      rw [hvalue] at hcontent'
      cases hcontent'
    | nil | table | function | userdata | thread =>
      rw [hvalue] at hv
      exact hv.elim

end Values

/-! ### Runs are runs of the map -/

section Runs
variable {N : LuaNumbers} {s : Nat} {w w' : LuaState} {y : LuaEvent}
  {ys : List LuaEvent} {m : LuaMapCall}
  {key : Bytes} {b : LuaBinding} {t : Nat} {o : Option LuaBinding}

theorem StoreShape.unfailing {op : Nat} {a : StoreArgs} {r : StoreResult} {cells : FfiCells}
    (hs : StoreShape op a r) (hv : storeValue op a ≠ .error "no memory")
    (hun : Unfailing (storeReturn (cells.store r) r.rc)) :
    r.errmsg ≠ some "no memory" ∧ r.forcible = false := by
  cases hs with
  | ok rounds => exact ⟨by simp, (hun _ _ _ rfl).2⟩
  | full rounds => exact absurd rfl (hun _ _ _ rfl).1
  | missing => exact ⟨by simp, rfl⟩
  | present => exact ⟨by simp, rfl⟩
  | refused h =>
    refine ⟨fun hmsg => hv ?_, rfl⟩
    rw [h, Option.some.inj hmsg]

/-- A store of the map returns what C says. -/
theorem storeReturn_step {kind : StoreKind} {op : Nat} {a : StoreArgs} {r : StoreResult}
    {cells : FfiCells} {present : Bool} (hop : kind.call a = .store op a) (hs : StoreShape op a r)
    (hun : Unfailing (storeReturn (cells.store r) r.rc))
    (hrc : r.rc = if kind.takes present then ngxOk else ngxDeclined) :
    storeReturn (cells.store r) r.rc =
      if kind.takes present then .ok [.boolean true, .nil, .boolean false]
      else .ok [.boolean false, .text kind.refusal, .boolean false] := by
  cases htakes : kind.takes present with
  | true =>
    rw [htakes] at hrc
    cases hs with
    | ok rounds =>
      have hforcible := (hun _ _ _ rfl).2
      show Except.ok [_, _, LuaValue.boolean (StoreResult.forcible ⟨ngxOk, none, rounds⟩)] = _
      rw [show StoreResult.forcible ⟨ngxOk, none, rounds⟩ = false from hforcible]
      rfl
    | full | missing | present | refused => cases hrc
  | false =>
    rw [htakes] at hrc
    cases hs with
    | ok | full | refused => cases hrc
    | missing hflag =>
      cases kind with
      | replace => rfl
      | set | safeSet | add | safeAdd =>
        obtain ⟨rfl, -⟩ := Call.store.inj hop
        exact absurd rfl hflag
    | present hflag =>
      cases kind with
      | replace =>
        obtain ⟨rfl, -⟩ := Call.store.inj hop
        exact absurd (by decide) hflag
      | set | safeSet => cases htakes
      | add | safeAdd => rfl

/-- **What a method is for the map of C.** It makes the call `c`, whose step is the one of
`m` on bindings in the terms of C, and whose answer makes the method return what `m` does. -/
structure LuaCall.Maps (N : LuaNumbers) (call : LuaCall) (m : LuaMapCall) (c : MapCall) : Prop where
  issues : call.issues N = some c.call
  plain : c.Plain
  key : c.key = m.key
  unfailing : ∀ op a r (cells : FfiCells), c.call = .store op a → StoreShape op a r →
    Unfailing (call.returns N (cells.after c.call (.store r)) (.store r)) →
    r.errmsg ≠ some "no memory" ∧ r.forcible = false
  step : ∀ t o, (c.step t (o.map LuaBinding.binding)).1 = (m.step N t o).1.map LuaBinding.binding
  returns : ∀ t o env answer (cells : FfiCells), (∀ b, o = some b → b.value.Plain) →
    env.malloc = true →
    answer.Shaped c.call → c.Answers env (c.step t (o.map LuaBinding.binding)).2 answer →
    Unfailing (call.returns N (cells.after c.call answer) answer) →
    call.returns N (cells.after c.call answer) answer = (m.step N t o).2

theorem LuaCall.maps_store {kind : StoreKind} {key value exptime flags : LuaValue} {a : StoreArgs}
    (h : storeArgs N key value exptime flags = .ok a) (hne : value ≠ .nil) :
    (LuaCall.store kind key value exptime flags).Maps N
      (.store kind a.key value a.exptime a.userFlags)
      (.store kind a) := by
  obtain ⟨ha, hcontent⟩ := storeArgs_plain h (storeArgs_plain_of_ne h hne)
  have hpresent : ∀ t (o : Option LuaBinding),
      (mapView.current t (o.map LuaBinding.binding)).isSome =
      (LuaBinding.current t o).isSome := by
    intro t o
    rw [LuaBinding.map_current, Option.isSome_map]
  have hbinding : ∀ t, a.binding t =
      (⟨value, a.userFlags, dueAt t a.exptime⟩ : LuaBinding).binding := by
    intro t
    rw [StoreArgs.binding, hcontent]
    rfl
  refine ⟨?_, ha, rfl, ?_, ?_, ?_⟩
  · exact Checked.map_eq_some.mpr ⟨a, h, rfl⟩
  · intro op a' r cells hcall hs hun
    obtain ⟨op', hop, -⟩ := opTakes_kind kind a true
    obtain ⟨-, rfl⟩ := Call.store.inj (hop.symm.trans hcall)
    have hcells : cells.after (MapCall.store kind a).call (.store r) = cells.store r := by
      cases kind <;> rfl
    rw [hcells] at hun
    exact hs.unfailing (by simp [ha.storeValue op]) hun
  · intro t o
    simp only [MapCall.step, LuaMapCall.step, if_neg hne, hpresent, hbinding]
    split <;> rfl
  · intro t o env answer cells _ _ hs hanswer hun
    obtain ⟨op, hop, -⟩ := opTakes_kind kind a true
    cases answer with
    | store r =>
      have hs' : StoreShape op a r := by
        rw [show (MapCall.store kind a).call = .store op a from hop] at hs
        exact hs
      have hrc : r.rc =
          if kind.takes (LuaBinding.current t o).isSome then ngxOk else ngxDeclined := by
        simp only [MapCall.step, hpresent] at hanswer
        cases hk : kind.takes (LuaBinding.current t o).isSome with
        | true =>
          rw [hk] at hanswer
          exact hanswer
        | false =>
          rw [hk] at hanswer
          exact hanswer
      have hcells : cells.after (MapCall.store kind a).call (.store r) = cells.store r := by
        cases kind <;> rfl
      rw [hcells] at hun ⊢
      have hreturn := storeReturn_step hop hs' hun hrc
      simp only [LuaCall.returns, LuaMapCall.step, if_neg hne]
      rw [hreturn]
      split <;> rfl
    | get | incr | list | code =>
      simp only [MapCall.step] at hanswer
      split at hanswer <;> cases hanswer

/-- A store of nil returns what C says. -/
theorem storeReturn_erase {kind : StoreKind} {op : Nat} {a : StoreArgs} {r : StoreResult}
    {cells : FfiCells} (hs : StoreShape op a r)
    (hvalue : kind.erases = false → storeValue op a = .error "attempt to add or replace nil values")
    (hun : Unfailing (storeReturn (cells.store r) r.rc))
    (hrc : r.rc = if kind.erases then ngxOk else ngxError) :
    storeReturn (cells.store r) r.rc =
      if kind.erases then .ok [.boolean true, .nil, .boolean false]
      else
        .ok [.boolean false, .text "attempt to add or replace nil values", .boolean false] := by
  cases herases : kind.erases with
  | true =>
    rw [herases] at hrc
    cases hs with
    | ok rounds =>
      have hforcible := (hun _ _ _ rfl).2
      show Except.ok [_, _, LuaValue.boolean (StoreResult.forcible ⟨ngxOk, none, rounds⟩)] = _
      rw [show StoreResult.forcible ⟨ngxOk, none, rounds⟩ = false from hforcible]
      rfl
    | full | missing | present | refused => cases hrc
  | false =>
    rw [herases] at hrc
    cases hs with
    | ok | missing | present => cases hrc
    | full rounds => exact absurd rfl (hun _ _ _ rfl).1
    | refused h =>
      obtain rfl := Except.error.inj (h.symm.trans (hvalue herases))
      rfl

theorem LuaCall.maps_erase {kind : StoreKind} {key exptime flags : LuaValue} {a : StoreArgs}
    (h : storeArgs N key .nil exptime flags = .ok a) :
    (LuaCall.store kind key .nil exptime flags).Maps N
      (.store kind a.key .nil a.exptime a.userFlags) (.erase kind a) := by
  obtain ⟨-, -, hvalue, -⟩ := storeArgs_ok h
  simp only [valueArg, Except.ok.injEq, Prod.mk.injEq] at hvalue
  have ha : a.valueType = .tnil := hvalue.1.symm
  obtain ⟨op, hop, hnil⟩ := kind.call_nil ha
  -- `set` and `safe_set` delete, the other stores refuse the nil
  have hrefused : kind.erases = false →
      storeValue op a = .error "attempt to add or replace nil values" := by
    intro herases
    rwa [herases] at hnil
  have hcells : ∀ (cells : FfiCells) r,
      cells.after (MapCall.erase kind a).call (.store r) = cells.store r := by
    intro cells r
    cases kind <;> rfl
  refine ⟨Checked.map_eq_some.mpr ⟨a, h, rfl⟩, ha, rfl, ?_, ?_, ?_⟩
  · intro op' a' r cells hcall hs hun
    obtain ⟨rfl, rfl⟩ := Call.store.inj (hop.symm.trans hcall)
    rw [hcells] at hun
    refine hs.unfailing ?_ hun
    cases herases : kind.erases with
    | true =>
      rw [herases, if_pos rfl] at hnil
      simp [hnil.2]
    | false => simp [hrefused herases]
  · intro t o
    simp only [MapCall.step, LuaMapCall.step, if_true]
    split <;> rfl
  · intro t o env answer cells _ _ hs hanswer hun
    cases answer with
    | store r =>
      have hs' : StoreShape op a r := by
        rw [show (MapCall.erase kind a).call = .store op a from hop] at hs
        exact hs
      have hrc : r.rc = if kind.erases then ngxOk else ngxError := by
        simp only [MapCall.step] at hanswer
        cases herases : kind.erases with
        | true =>
          rw [herases] at hanswer
          exact hanswer
        | false =>
          rw [herases] at hanswer
          exact hanswer
      rw [hcells] at hun ⊢
      have hreturn := storeReturn_erase hs' hrefused hun hrc
      simp only [LuaCall.returns, LuaMapCall.step, if_true]
      rw [hreturn]
      split <;> rfl
    | get | incr | list | code =>
      simp only [MapCall.step] at hanswer
      split at hanswer <;> cases hanswer

theorem LuaCall.maps_delete {key : LuaValue} {k : Bytes} (h : checkedKey key = .ok k) :
    (LuaCall.delete key).Maps N (.delete k) (.delete k) := by
  obtain ⟨⟨⟩, hcheck, harg⟩ := Checked.bind_ok.mp h
  have hargs : storeArgs N key .nil .nil .nil = .ok ⟨k, .tnil, none, Double.zero, 0, 0⟩ := by
    rw [storeArgs, hcheck, harg]
    simp only [exptimeArg, valueArg, flagsArg, bind, Except.bind,
      pure, Except.pure, N.millis_zero, N.toInt_zero]
  refine ⟨?_, trivial, rfl, ?_, fun _ _ => rfl, ?_⟩
  · exact Checked.map_eq_some.mpr ⟨_, hargs, rfl⟩
  · intro op a r cells hcall hs hun
    obtain ⟨rfl, rfl⟩ := Call.store.inj hcall
    have hun' : Unfailing (storeReturn (cells.store r) r.rc) := hun
    exact hs.unfailing (by simp [storeValue]) hun'
  · intro t o env answer cells _ _ hs hanswer hun
    cases answer with
    | store r =>
      have hrc : r.rc = if StoreKind.set.takes true then ngxOk else ngxDeclined := hanswer
      have hs' : StoreShape 0 ⟨k, .tnil, none, Double.zero, 0, 0⟩ r := hs
      have hun' : Unfailing (storeReturn (cells.store r) r.rc) := hun
      show storeReturn (cells.store r) r.rc = _
      have hop : StoreKind.set.call ⟨k, .tnil, none, Double.zero, 0, 0⟩ =
          .store 0 ⟨k, .tnil, none, Double.zero, 0, 0⟩ := rfl
      exact storeReturn_step hop hs' hun' hrc
    | get | incr | list | code => cases hanswer

theorem LuaCall.maps_get {key : LuaValue} {k : Bytes} (h : checkedKey key = .ok k) :
    (LuaCall.get key).Maps N (.get k) (.get k strBufSize) := by
  refine ⟨Checked.map_eq_some.mpr ⟨k, h, rfl⟩,
    show 1 ≤ strBufSize by decide, rfl, ?_, fun _ _ => rfl, ?_⟩
  · intro op a r cells hcall
    cases hcall
  intro t o env answer cells hplain hmalloc hs hanswer hun
  simp only [MapCall.step, LuaBinding.map_current] at hanswer
  cases answer with
  | get r =>
    cases ho : LuaBinding.current t o with
    | none =>
      rw [ho] at hanswer
      obtain ⟨hrc, hty⟩ : r.rc = ngxOk ∧ r.valueType = some .tnil := hanswer
      have hreturn : (LuaCall.get key).returns N
          (cells.after (MapCall.get k strBufSize).call (.get r)) (.get r) =
          .ok [.nil] := by
        cases (show GetShape r from hs) with
        | failed h => exact absurd hrc h
        | nil => rfl
        | string | number | boolean => cases hty
      rw [hreturn]
      simp only [LuaMapCall.step, ho]
    | some b =>
      rw [ho] at hanswer
      have hb : o = some b := (Option.filter_eq_some_iff.mp ho).1
      rcases hanswer with hreads | ⟨-, hmalloc', -⟩
      · have hreturn : getReturn N (cells.offer.get r) r.rc = .ok (withFlags N b.flags b.value) :=
          getReturn_reads hs hreads (hplain b hb)
        simp only [LuaMapCall.step, ho]
        exact hreturn
      · rw [hmalloc] at hmalloc'
        cases hmalloc'
  | store | incr | list | code =>
    cases ho : LuaBinding.current t o <;> rw [ho] at hanswer <;> exact hanswer.elim

theorem LuaCall.maps {call : LuaCall} (h : call.mapped N = some m) : ∃ c, call.Maps N m c := by
  cases call with
  | store kind key value exptime flags =>
    obtain ⟨a, ha, rfl⟩ := Checked.map_eq_some.mp h
    by_cases hnil : value = .nil
    · subst hnil
      exact ⟨_, LuaCall.maps_erase ha⟩
    · exact ⟨_, LuaCall.maps_store ha hnil⟩
  | delete key =>
    obtain ⟨k, hk, rfl⟩ := Checked.map_eq_some.mp h
    exact ⟨_, LuaCall.maps_delete hk⟩
  | get key =>
    obtain ⟨k, hk, rfl⟩ := Checked.map_eq_some.mp h
    exact ⟨_, LuaCall.maps_get hk⟩
  | incr | flushAll | ttl | expire | push | pop | llen | capacity | freeSpace => cases h

/-- A method whose arguments are refused is no call of the map. -/
theorem LuaCall.issues_none {call : LuaCall} (h : call.mapped N = none) (hp : call.OfMap) :
    call.issues N = none := by
  cases call with
  | store kind key value exptime flags =>
    obtain ⟨r, hr⟩ := Checked.map_eq_none.mp h
    exact Checked.map_eq_none.mpr ⟨r, hr⟩
  | delete key =>
    obtain ⟨r, hr⟩ := Checked.map_eq_none.mp h
    refine Checked.map_eq_none.mpr ?_
    rcases Checked.bind_error.mp hr with hr | ⟨⟨⟩, hcheck, hr⟩
    · exact ⟨r, Checked.bind_error.mpr (.inr ⟨_, rfl, Checked.bind_error.mpr (.inl hr)⟩)⟩
    · exact ⟨r, Checked.bind_error.mpr (.inr ⟨_, rfl, Checked.bind_error.mpr (.inr ⟨(), hcheck,
        Checked.bind_error.mpr (.inr ⟨_, rfl, Checked.bind_error.mpr (.inl hr)⟩)⟩)⟩)⟩
  | get key =>
    obtain ⟨r, hr⟩ := Checked.map_eq_none.mp h
    exact Checked.map_eq_none.mpr ⟨r, hr⟩
  | incr | flushAll | ttl | expire | push | pop | llen | capacity | freeSpace => exact hp.elim

/-- No method of the map tells the size of the pool. -/
theorem LuaCall.OfMap.reads {call : LuaCall} (h : call.OfMap) (sz : Sizes) (d : Shdict) :
    call.reads sz d = none := by
  cases call with
  | capacity | freeSpace => exact h.elim
  | store | delete | get | incr | flushAll | ttl | expire | push | pop | llen => rfl

/-- The map binds nothing but booleans, numbers and strings. -/
theorem luaAfter_plain (h : luaAfter N ys key = some b) : b.value.Plain := by
  -- induction on the events; only a store that is taken changes what its key is bound to
  induction ys with
  | nil => cases h
  | cons y ys ih =>
    rw [luaAfter] at h
    cases hm : y.call.mapped N with
    | none =>
      rw [hm] at h
      exact ih h
    | some m =>
      rw [hm] at h
      by_cases hk : key = m.key
      · subst hk
        simp only [Function.update_self] at h
        cases hcall : y.call with
        | store kind key value exptime flags =>
          rw [hcall] at hm
          obtain ⟨a, ha, rfl⟩ := Checked.map_eq_some.mp hm
          simp only [LuaMapCall.step] at h
          split at h
          · split at h
            · cases h
            · exact ih h
          · next hne =>
            split at h
            · obtain rfl := Option.some.inj h
              exact storeArgs_plain_of_ne ha hne
            · exact ih h
        | delete key =>
          rw [hcall] at hm
          obtain ⟨k, -, rfl⟩ := Checked.map_eq_some.mp hm
          cases h
        | get key =>
          rw [hcall] at hm
          obtain ⟨k, -, rfl⟩ := Checked.map_eq_some.mp hm
          exact ih h
        | incr | flushAll | ttl | expire | push | pop | llen | capacity | freeSpace =>
          rw [hcall] at hm
          cases hm
      · simp only [Function.update_of_ne hk] at h
        exact ih h

theorem luaAfter_none (h : y.call.mapped N = none) : luaAfter N (y :: ys) = luaAfter N ys := by
  rw [luaAfter, h]

theorem luaAfter_some (h : y.call.mapped N = some m) : luaAfter N (y :: ys) =
    Function.update (luaAfter N ys) m.key (m.step N y.time (luaAfter N ys m.key)).1 := by
  rw [luaAfter, h]

/-- Another call, during which the clock stands still. -/
theorem Nondecreasing.cons_still {xs : List Event} {x : Event} (h : Nondecreasing xs)
    (hstill : ∀ i, x.env.clock i = t) (ht : t < 2 ^ 62)
    (hearlier : ∀ e ∈ xs, ∃ u ≤ t, ∀ i, e.env.clock i = u) : Nondecreasing (x :: xs) := by
  refine ⟨?_, ?_, List.pairwise_cons.mpr ⟨?_, h.across⟩⟩
  · intro e he i
    rcases List.mem_cons.mp he with rfl | he
    · exact (hstill i).trans_lt ht
    · exact h.below e he i
  · intro e he
    rcases List.mem_cons.mp he with rfl | he
    · intro i j _
      exact ((hstill i).trans (hstill j).symm).le
    · exact h.within e he
  · intro e he i j
    obtain ⟨u, hu, hi⟩ := hearlier e he
    exact (hi i).trans_le (hu.trans (hstill j).symm.le)

/-- The calls of C that a run comes to. They are a run of the map of C on the same clock,
and if they answer as it does then the methods do. -/
structure ComesTo (N : LuaNumbers) (s : Nat) (ys : List LuaEvent) (w : LuaState)
    (zs : List MapEvent) : Prop where
  run : MapRun s zs w.dict
  clock : Nondecreasing (zs.map MapEvent.event)
  env : ∀ z ∈ zs, ∃ y ∈ ys, ∀ i, z.env.clock i = y.time
  after : ∀ key, mapAfter zs key = (luaAfter N ys key).map LuaBinding.binding
  answers : AnswersAsMap zs → LuaAnswersAsMap N ys

/-- **A run of Lua is a run of the map of C.** By induction on the events; one whose
arguments are refused adds nothing. -/
theorem LuaMapRun.comesTo (hs : 12 ≤ s) (hs' : s ≤ 16) (run : LuaMapRun N s ys w)
    (hclock : LuaNondecreasing ys) :
    ∃ zs, ComesTo N s ys w zs := by
  induction run with
  | init h =>
    exact ⟨[], .init h, ⟨by simp, by simp, by simp⟩, by simp, fun _ => rfl, fun _ => trivial⟩
  | call run h hy ih =>
    next ys w w' y =>
    obtain ⟨zs, hzs⟩ := ih ⟨fun z hz => hclock.below z (List.mem_cons_of_mem _ hz),
      (List.pairwise_cons.mp hclock.across).2⟩
    have henvs : ∀ z ∈ zs, ∃ x ∈ y :: ys, ∀ i, z.env.clock i = x.time := by
      intro z hz
      obtain ⟨x, hx, hi⟩ := hzs.env z hz
      exact ⟨x, List.mem_cons_of_mem _ hx, hi⟩
    rcases h.cases with ⟨hnone, hd, -, hr⟩ | ⟨x, hcall, hb, henv, hx, hresult, -⟩
    · -- the arguments are refused
      have hm : y.call.mapped N = none := by
        by_contra hm
        obtain ⟨m, hm⟩ := Option.ne_none_iff_exists'.mp hm
        obtain ⟨c, hc⟩ := LuaCall.maps hm
        cases hnone.symm.trans hc.issues
      refine ⟨zs, hd ▸ hzs.run, hzs.clock, henvs, ?_, ?_⟩
      · intro key
        rw [luaAfter_none hm]
        exact hzs.after key
      · intro hanswers
        refine ⟨?_, hzs.answers hanswers⟩
        rw [hm]
        rcases hr with ⟨-, hr⟩ | ⟨n, hreads, -⟩
        · exact hr
        · cases (hy.ofMap.reads _ _).symm.trans hreads
    · have hm : y.call.mapped N ≠ none := by
        intro hm
        cases (LuaCall.issues_none hm hy.ofMap).symm.trans hcall
      obtain ⟨m, hm⟩ := Option.ne_none_iff_exists'.mp hm
      obtain ⟨c, hc⟩ := LuaCall.maps hm
      have hxc : x.call = c.call := Option.some.inj (hcall.symm.trans hc.issues)
      have htime : ∀ i, x.env.clock i = y.time := by
        rw [henv]
        exact hy.still
      obtain ⟨L, spare, hrep⟩ := hzs.run.safeRun.run.rep hs hs'
      obtain ⟨ch, -, -, -, hanswer⟩ := hx.entries hrep False.elim
      have hshaped : x.answer.Shaped c.call := by
        rw [hanswer, ← hxc]
        exact Call.entries_shaped _ _ _ _
      have hun :
          Unfailing (y.call.returns N ((w.cells y.worker).after c.call x.answer) x.answer) := by
        rw [← hxc, ← hresult]
        exact hy.unfailing
      let z : MapEvent := ⟨x.base, x.env, c, x.sd, x.answer⟩
      have hz : z.event = x := by
        show (⟨x.base, x.env, c.call, x.sd, x.answer⟩ : Event) = x
        rw [← hxc]
      have hzt : z.time = y.time := htime 0
      have hfair : z.Fair w.dict.entries := by
        refine ⟨hc.plain, ?_, ?_, ?_⟩
        · intro i
          exact (htime i).trans hzt.symm
        · rw [hzt]
          exact hy.undue
        · intro r hr
          have hxr : x.answer = .store r := hr
          rw [hxr] at hshaped hun
          have hstore : ∃ op a, c.call = .store op a := by
            cases c with
            | store kind a | erase kind a =>
              obtain ⟨op, hop, -⟩ := opTakes_kind kind a true
              exact ⟨op, a, hop⟩
            | delete k => exact ⟨_, _, rfl⟩
            | get k bufLen =>
              rw [hxr, hxc] at hanswer
              cases hanswer
          obtain ⟨op, a, hop⟩ := hstore
          rw [hop] at hshaped
          exact hc.unfailing op a r _ hop hshaped hun
      have hstep := hc.step y.time (luaAfter N ys c.key)
      refine ⟨z :: zs, .call hzs.run (hz.symm ▸ hx) hfair, ?_, ?_, ?_, ?_⟩
      · refine hzs.clock.cons_still htime (hclock.below y List.mem_cons_self) ?_
        intro e he
        obtain ⟨v, hv, rfl⟩ := List.mem_map.mp he
        obtain ⟨u, hu, hi⟩ := hzs.env v hv
        exact ⟨u.time, (List.pairwise_cons.mp hclock.across).1 u hu, hi⟩
      · intro v hv
        rcases List.mem_cons.mp hv with rfl | hv
        · exact ⟨y, List.mem_cons_self, htime⟩
        · exact henvs v hv
      · intro key
        rw [luaAfter_some hm, mapAfter, MapEvent.map, hzs.after]
        show Function.update (mapAfter zs) c.key (c.step z.time _).1 key = _
        rw [hzt, hstep, hc.key]
        by_cases hk : key = m.key
        · rw [hk, Function.update_self, Function.update_self]
        · rw [Function.update_of_ne hk, Function.update_of_ne hk]
          exact hzs.after key
      · rintro ⟨hanswer', hanswers⟩
        refine ⟨?_, hzs.answers hanswers⟩
        rw [hm]
        have hans : c.Answers x.env
            (c.step y.time ((luaAfter N ys c.key).map LuaBinding.binding)).2 x.answer := by
          rw [← hzt, ← hzs.after]
          exact hanswer'
        rw [hresult, hxc]
        rw [hc.key] at hans
        refine hc.returns y.time _ x.env x.answer _ ?_ ?_ hshaped hans hun
        · exact fun b hb => luaAfter_plain hb
        · rw [henv]
          exact hy.malloc

/-- **The methods answer as a map does**, in every run of stores, deletes and reads of any
number of workers that finds the memory it needs. A store of nil is one of the stores,
taken for a delete or refused. -/
theorem lua_answers_as_map (hs : 12 ≤ s) (hs' : s ≤ 16) (run : LuaMapRun N s ys w)
    (hclock : LuaNondecreasing ys) :
    LuaAnswersAsMap N ys := by
  obtain ⟨zs, hzs⟩ := run.comesTo hs hs' hclock
  exact hzs.answers (hzs.run.shows hs hs' hzs.clock).2

end Runs

/-- What worker 0 has stored, worker 1 gets. It has cells of its own, and the pool mapped
where it likes. -/
theorem lua_answers_as_map_two : LuaAnswersAsMap wholeNumbers [luaGet, luaSet] := by
  have hset : luaSet.Fair luaStart.dict.entries := by
    refine ⟨trivial, fun _ => rfl, ?_, rfl, ?_⟩
    · rw [show luaStart.dict.entries = [] from entries_emptyDict]
      exact List.forall_mem_nil _
    · intro a msg forcible h
      obtain ⟨-, rfl, rfl⟩ : LuaValue.boolean true = a ∧ LuaValue.nil = msg ∧ false = forcible := by
        simpa [luaSet] using h
      exact ⟨by decide, rfl⟩
  have hget : luaGet.Fair (luaSet.after wholeNumbers 12 luaStart).dict.entries := by
    refine ⟨trivial, fun _ => rfl, by decide +kernel, rfl, ?_⟩
    intro a msg forcible h
    cases h
  refine lua_answers_as_map (s := 12) (by decide) (by decide)
    (.call (.call (.init fresh_emptyDict) luaSet_runs hset) luaGet_runs hget) ⟨?_, ?_⟩
  · simp [luaGet, luaSet, LuaEvent.time, calmEnv]
  · simp [luaGet, luaSet, LuaEvent.time, calmEnv]

end MpsShdict
