import MpsShdict.String
import Mathlib.Logic.Function.Basic

/-! # The registry of open dictionaries (`mps_shdict_open_or_create`, `mps_shdict_close`)

A process keeps its open dictionaries in one array that grows and shrinks by `realloc`,
and a handle is a pointer into it. Under `dicts_lock` each call is one step. `realloc` is
taken never to move the array, so that a handle is the number of a slot. A mapping of a
pool is named by the number of mappings made before it.

What the system answers to a call (whether the pool can be opened, whether `realloc`
succeeds) is a parameter of the step, so a run covers every answer. The state keeps,
beside the registry, the handles that were returned and those that were closed: the
question is which of the handles that a caller still holds denote its dictionary. When an
entry in the middle is closed, the last one is moved into its slot, and the handle of the
last one is left behind; `not_handlesValid` is a run that does so. As long as each close
takes the last slot, by the handle that was returned for it, nothing of the kind happens
(`handlesValid_of_orderly`).
-/
namespace MpsShdict

/-- `mps_shdict_t`, the element of the array that a process keeps of its dictionaries: the
mapping of the pool, a copy of the path name and the size. -/
structure ShdictHandleData where
  pool : Nat
  name : Bytes
  size : Nat
  deriving DecidableEq

/-- `dicts` with `dicts_count` as its length, and the mappings of the process: how many it
has made, and the pathname of each that it has not unmapped. -/
structure Registry where
  dicts : List ShdictHandleData
  mappings : Nat
  mapped : Nat → Option Bytes

namespace Registry

/-- Before the first call. -/
def empty : Registry := ⟨[], 0, fun _ => none⟩

/-- `find_dict_by_pathname`. -/
def findDictByPathname (r : Registry) (pathname : Bytes) : Option Nat :=
  r.dicts.findIdx? fun d => ngxMemn2cmp d.name pathname = 0

/-- `index_of_dict`; `none` stands for -1. -/
def indexOfDict (r : Registry) (dict : Nat) : Option Nat :=
  (List.range r.dicts.length).find? (· = dict)

/-- What the calls of `mps_shdict_open_or_create` on the system answer. Each of them may
fail on its own. -/
structure OpenAnswers where
  /-- `mps_slab_open_or_create` returns a pool. -/
  slab : Bool
  /-- `strdup` returns a copy. -/
  strdup : Bool
  /-- `realloc` returns the grown array. -/
  realloc : Bool

/-- `mps_shdict_open_or_create`: the registry and the slot returned, or none for NULL. A
pathname that is open already is found by its name, and no new mapping is made. -/
def openOrCreate (r : Registry) (pathname : Bytes) (shmSize : Nat) (a : OpenAnswers) :
    Registry × Option Nat :=
  match r.findDictByPathname pathname with
  | some i => (r, some i)
  | none =>
    if a.slab then
      let pool := r.mappings
      let r := { r with
        mappings := r.mappings + 1, mapped := Function.update r.mapped pool (some pathname) }
      if a.strdup && a.realloc then
        ({ r with dicts := r.dicts ++ [⟨pool, pathname, shmSize⟩] }, some r.dicts.length)
      else
        (r, none)
    else
      (r, none)

/-- `mps_shdict_close`; `shrunk` says whether the shrinking `realloc` succeeds. The last
entry is copied into the slot that becomes free, and the count is only reduced where the
array has been shrunk. -/
def close (r : Registry) (dict : Nat) (shrunk : Bool) : Registry :=
  match r.indexOfDict dict with
  | none => r
  | some i =>
    match r.dicts[i]?, r.dicts.getLast? with
    | some d, some last =>
      let r := { r with
        mapped := Function.update r.mapped d.pool none, dicts := r.dicts.set i last }
      if r.dicts.length = 1 ∨ shrunk then { r with dicts := r.dicts.dropLast } else r
    | _, _ => r

end Registry

/-! ### Handles -/

/-- A pointer some call returned: its slot, the pathname asked for, and the pool
the slot then had. -/
structure Handle where
  slot : Nat
  name : Bytes
  pool : Nat
  deriving DecidableEq

/-- A registry and what its callers know: the handles they were given and those they have
passed to `mps_shdict_close`. The code keeps neither. -/
structure Clients where
  reg : Registry
  issued : List Handle
  closed : List Handle

/-- A call of a client. The close of a handle also tells whether the `realloc` that
shrinks the array succeeds. -/
inductive RegistryCall where
  | openOrCreate (pathname : Bytes) (shmSize : Nat) (a : Registry.OpenAnswers)
  | close (h : Handle) (shrunk : Bool)

namespace Clients
variable (s : Clients)

/-- Before the first call. -/
def start : Clients := ⟨.empty, [], []⟩

/-- The step of a call. -/
def step : RegistryCall → Clients
  | .openOrCreate pathname shmSize a =>
    let (reg, slot) := s.reg.openOrCreate pathname shmSize a
    match slot.bind fun i => reg.dicts[i]?.map fun d => Handle.mk i pathname d.pool with
    | some h => { s with reg := reg, issued := h :: s.issued }
    | none => { s with reg := reg }
  | .close h shrunk => { s with reg := s.reg.close h.slot shrunk, closed := h :: s.closed }

/-- Callers close only what they were given. -/
def Legal : RegistryCall → Prop
  | .openOrCreate .. => True
  | .close h _ => h ∈ s.issued

/-- The handle was returned and has not been closed, so that its owner may expect it to
work. -/
def Live (h : Handle) : Prop := h ∈ s.issued ∧ h ∉ s.closed

/-- The handle denotes an open entry with its name and its pool, which is mapped. -/
def Denotes (r : Registry) (h : Handle) : Prop :=
  ∃ d, r.dicts[h.slot]? = some d ∧ d.name = h.name ∧ d.pool = h.pool ∧
    r.mapped h.pool = some h.name

/-- Opening its pathname again returns the handle. -/
def Reopens (r : Registry) (h : Handle) : Prop :=
  ∀ shmSize a, r.openOrCreate h.name shmSize a = (r, some h.slot)

/-- The call, if it closes a handle a second time, changes nothing for a live one. A test
of the source closes twice and says that it is fine to do so. -/
def SecondCloseHarmless : RegistryCall → Prop
  | .openOrCreate .. => True
  | .close h shrunk => h ∈ s.closed → ∀ g, s.Live g →
      (s.step (.close h shrunk)).reg.dicts[g.slot]? = s.reg.dicts[g.slot]?

/-- The call closes nothing, or it closes the entry in the last slot by the handle that
was returned for that entry, and the array shrinks. This is a condition on the state
before the call and on what `realloc` answers. -/
def Orderly : RegistryCall → Prop
  | .openOrCreate .. => True
  | .close h shrunk => s.reg.dicts.length ≤ h.slot ∨
      (h.slot + 1 = s.reg.dicts.length ∧ (s.reg.dicts[h.slot]?.map fun d => d.pool) = some h.pool ∧
        (s.reg.dicts.length = 1 ∨ shrunk = true))

/-- Every handle that was returned and not closed is good. -/
def HandlesValid : Prop := ∀ h, s.Live h → Denotes s.reg h ∧ Reopens s.reg h

/-- A run of calls, each of which a client may make. It may close a handle that has been
closed already. -/
inductive Run : Clients → Prop
  | start : Run start
  | step {s : Clients} {e : RegistryCall} : Run s → s.Legal e → Run (s.step e)

/-- A run of orderly calls. What is closed is the last slot, by its own handle, so that no
other entry moves. -/
inductive OrderlyRun : Clients → Prop
  | start : OrderlyRun start
  | step {s : Clients} {e : RegistryCall} : OrderlyRun s → s.Legal e → s.Orderly e →
      OrderlyRun (s.step e)

/-! ### Two dictionaries, the first closed first -/

/-- The handles of a run that opens `a` and then `b`. -/
def openedTwo : Clients :=
  (start.step (.openOrCreate [97] 4096 ⟨true, true, true⟩)).step
    (.openOrCreate [98] 4096 ⟨true, true, true⟩)

/-- **Closing the older of two dictionaries takes the handle of the younger one.** The
younger entry is moved to the slot of the older, and its handle points behind the end of
the array. -/
theorem not_handlesValid : ¬ ∀ s, Run s → s.HandlesValid ∧
    ∀ e, s.Legal e → s.SecondCloseHarmless e := by
  intro h
  have hrun : Run (openedTwo.step (.close ⟨0, [97], 0⟩ true)) :=
    ((Run.start.step (e := .openOrCreate [97] 4096 ⟨true, true, true⟩) trivial).step
      (e := .openOrCreate [98] 4096 ⟨true, true, true⟩) trivial).step
      (e := .close ⟨0, [97], 0⟩ true) (by unfold Legal; decide)
  have hlive : (openedTwo.step (.close ⟨0, [97], 0⟩ true)).Live ⟨1, [98], 1⟩ := by
    constructor <;> decide
  obtain ⟨⟨d, hd, -⟩, -⟩ := (h _ hrun).1 _ hlive
  have hnone : (openedTwo.step (.close ⟨0, [97], 0⟩ true)).reg.dicts[1]? = none := by decide
  rw [hnone] at hd
  cases hd

/-! ### Orderly runs -/

/-- What holds between the array and the handles as long as the calls are orderly: every
entry has a live handle, every live handle denotes its entry, and no two entries have one
name. -/
structure HandlesInv (s : Clients) : Prop where
  /-- Every entry has its handle, and a mapping. -/
  entry : ∀ i d, s.reg.dicts[i]? = some d → s.Live ⟨i, d.name, d.pool⟩ ∧
    s.reg.mapped d.pool = some d.name
  /-- Every live handle has its entry. -/
  live : ∀ h, s.Live h → ∃ d, s.reg.dicts[h.slot]? = some d ∧ d.name = h.name ∧ d.pool = h.pool
  /-- The mapping tells the handle. -/
  unique : ∀ g ∈ s.issued, ∀ h ∈ s.issued, g.pool = h.pool → g = h
  fresh : ∀ h ∈ s.issued, h.pool < s.reg.mappings
  /-- No pathname is open twice. -/
  names : ∀ (i j : Nat) (d e : ShdictHandleData), s.reg.dicts[i]? = some d →
    s.reg.dicts[j]? = some e → d.name = e.name → i = j
  closed : ∀ h ∈ s.closed, h ∈ s.issued

variable {s}

theorem findDictByPathname_some {r : Registry} {pathname : Bytes} {i : Nat}
    (h : r.findDictByPathname pathname = some i) :
    ∃ d, r.dicts[i]? = some d ∧ d.name = pathname := by
  obtain ⟨hi, hp, -⟩ := List.findIdx?_eq_some_iff_getElem.mp h
  refine ⟨r.dicts[i], List.getElem?_eq_getElem hi, ?_⟩
  simpa [ngxMemn2cmp_eq_zero] using hp

theorem findDictByPathname_none {r : Registry} {pathname : Bytes}
    (h : r.findDictByPathname pathname = none) {i : Nat} {d : ShdictHandleData}
    (hd : r.dicts[i]? = some d) : d.name ≠ pathname := by
  have := List.findIdx?_eq_none_iff.mp h d (List.mem_of_getElem? hd)
  simpa [ngxMemn2cmp_eq_zero] using this

theorem HandlesInv.findDict (hi : HandlesInv s) {i : Nat} {d : ShdictHandleData}
    (hd : s.reg.dicts[i]? = some d) : s.reg.findDictByPathname d.name = some i := by
  cases hf : s.reg.findDictByPathname d.name with
  | none => exact absurd rfl (findDictByPathname_none hf hd)
  | some j =>
    obtain ⟨e, he, hn⟩ := findDictByPathname_some hf
    rw [hi.names j i e d he hd hn]

theorem HandlesInv.handlesValid (hi : HandlesInv s) : s.HandlesValid := by
  intro h hl
  obtain ⟨d, hd, hn, hp⟩ := hi.live h hl
  refine ⟨⟨d, hd, hn, hp, ?_⟩, fun shmSize a => ?_⟩
  · rw [← hp, ← hn]
    exact (hi.entry _ d hd).2
  · rw [Registry.openOrCreate, ← hn, hi.findDict hd]

/-- An orderly call that closes an entry closes the live handle of the last one. -/
theorem HandlesInv.orderly_close (hi : HandlesInv s) {h : Handle} {shrunk : Bool}
    (hleg : s.Legal (.close h shrunk)) (ho : s.Orderly (.close h shrunk))
    (hlt : h.slot < s.reg.dicts.length) :
    ∃ d, s.reg.dicts[h.slot]? = some d ∧ h.slot + 1 = s.reg.dicts.length ∧ s.Live h ∧
      d.name = h.name ∧ d.pool = h.pool ∧ (s.reg.dicts.length = 1 ∨ shrunk = true) := by
  rcases ho with ho | ⟨hlast, hpool, hsh⟩
  · omega
  have hd : s.reg.dicts[h.slot]? = some s.reg.dicts[h.slot] := List.getElem?_eq_getElem hlt
  rw [hd, Option.map_some, Option.some.injEq] at hpool
  obtain ⟨hl, -⟩ := hi.entry _ _ hd
  have he := hi.unique _ hl.1 h hleg hpool
  refine ⟨_, hd, hlast, he ▸ hl, congrArg Handle.name he, hpool, hsh⟩

theorem indexOfDict_of_le {r : Registry} {i : Nat} (h : r.dicts.length ≤ i) :
    r.indexOfDict i = none := by
  simp only [Registry.indexOfDict, List.find?_eq_none, List.mem_range, decide_eq_true_eq]
  omega

theorem indexOfDict_of_lt {r : Registry} {i : Nat} (h : i < r.dicts.length) :
    r.indexOfDict i = some i := by
  cases hf : r.indexOfDict i with
  | none =>
    have := List.find?_eq_none.mp hf i (by simpa using h)
    simp at this
  | some j => exact congrArg some (by simpa using List.find?_some hf)

theorem close_of_le {r : Registry} {i : Nat} (h : r.dicts.length ≤ i) (shrunk : Bool) :
    r.close i shrunk = r := by
  rw [Registry.close, indexOfDict_of_le h]

/-- Closing the last slot. -/
theorem close_last {r : Registry} {i : Nat} {d : ShdictHandleData} {shrunk : Bool}
    (hd : r.dicts[i]? = some d) (hlast : i + 1 = r.dicts.length)
    (hsh : r.dicts.length = 1 ∨ shrunk = true) :
    r.close i shrunk =
      { r with mapped := Function.update r.mapped d.pool none, dicts := r.dicts.dropLast } := by
  have hl : r.dicts.getLast? = some d := by
    rw [List.getLast?_eq_getElem?, ← hd]
    congr 1
    omega
  rw [Registry.close, indexOfDict_of_lt (by omega)]
  have hset : (r.dicts.set i d).dropLast = r.dicts.dropLast := by
    rw [List.dropLast_eq_take, List.length_set, List.take_set_of_le (by omega),
      ← List.dropLast_eq_take]
  simp only [hd, hl, hset]
  rw [if_pos (by rwa [List.length_set])]

theorem HandlesInv.secondCloseHarmless (hi : HandlesInv s) {e : RegistryCall} (hleg : s.Legal e)
    (ho : s.Orderly e) : s.SecondCloseHarmless e := by
  cases e with
  | openOrCreate => trivial
  | close h shrunk =>
    intro hc g _
    by_cases hlt : h.slot < s.reg.dicts.length
    · obtain ⟨-, -, -, hl, -⟩ := hi.orderly_close hleg ho hlt
      exact absurd hc hl.2
    · simp only [step, close_of_le (not_lt.mp hlt)]

/-- Opening a pathname that is open returns its handle once more. -/
theorem HandlesInv.reopen (hi : HandlesInv s) {i : Nat} {d : ShdictHandleData}
    (hd : s.reg.dicts[i]? = some d) :
    HandlesInv { s with issued := ⟨i, d.name, d.pool⟩ :: s.issued } := by
  obtain ⟨⟨hin, -⟩, -⟩ := hi.entry i d hd
  have hmem : ∀ h, h ∈ (⟨i, d.name, d.pool⟩ : Handle) :: s.issued ↔ h ∈ s.issued := by
    intro h
    rw [List.mem_cons]
    exact ⟨fun ho => ho.elim (fun he => he ▸ hin) id, .inr⟩
  constructor
  · intro j e he
    obtain ⟨⟨h1, h2⟩, h3⟩ := hi.entry j e he
    exact ⟨⟨(hmem _).mpr h1, h2⟩, h3⟩
  · exact fun h hl => hi.live h ⟨(hmem h).mp hl.1, hl.2⟩
  · exact fun g hg h hh => hi.unique g ((hmem g).mp hg) h ((hmem h).mp hh)
  · exact fun h hh => hi.fresh h ((hmem h).mp hh)
  · exact hi.names
  · exact fun h hh => (hmem h).mpr (hi.closed h hh)

/-- A mapping that no entry is made for. -/
theorem HandlesInv.mapOnly (hi : HandlesInv s) (pathname : Bytes) :
    HandlesInv { s with reg := { s.reg with
      mappings := s.reg.mappings + 1
      mapped := Function.update s.reg.mapped s.reg.mappings (some pathname) } } := by
  constructor
  · intro i d hd
    obtain ⟨hl, hm⟩ := hi.entry i d hd
    have hlt := hi.fresh _ hl.1
    exact ⟨hl, by simpa [Function.update_of_ne hlt.ne] using hm⟩
  · exact hi.live
  · exact hi.unique
  · exact fun h hh => (hi.fresh h hh).trans (Nat.lt_succ_self _)
  · exact hi.names
  · exact hi.closed

/-- A new entry with a new mapping, and its handle. -/
theorem HandlesInv.create (hi : HandlesInv s) {pathname : Bytes} (shmSize : Nat)
    (hn : s.reg.findDictByPathname pathname = none) :
    HandlesInv { s with
      reg := { mappings := s.reg.mappings + 1
               mapped := Function.update s.reg.mapped s.reg.mappings (some pathname)
               dicts := s.reg.dicts ++ [⟨s.reg.mappings, pathname, shmSize⟩] }
      issued := ⟨s.reg.dicts.length, pathname, s.reg.mappings⟩ :: s.issued } := by
  -- a slot holds what it held before, or it is the new one
  have hget : ∀ (i : Nat) (d : ShdictHandleData),
      (s.reg.dicts ++ [⟨s.reg.mappings, pathname, shmSize⟩])[i]? = some d →
      s.reg.dicts[i]? = some d ∨
        i = s.reg.dicts.length ∧ d = ⟨s.reg.mappings, pathname, shmSize⟩ := by
    intro i d hd
    rw [List.getElem?_append] at hd
    split at hd
    · exact .inl hd
    · next hlt =>
      rw [List.getElem?_singleton] at hd
      split at hd
      · exact .inr ⟨by omega, (Option.some.inj hd).symm⟩
      · cases hd
  have hnew : ∀ h ∈ s.issued, h.pool ≠ s.reg.mappings := fun h hh => (hi.fresh h hh).ne
  constructor
  · intro i d hd
    rcases hget i d hd with hd | ⟨rfl, rfl⟩
    · obtain ⟨⟨h1, h2⟩, hm⟩ := hi.entry i d hd
      exact ⟨⟨List.mem_cons_of_mem _ h1, h2⟩,
        by simpa [Function.update_of_ne (hnew _ h1)] using hm⟩
    · refine ⟨⟨by simp, ?_⟩, by simp⟩
      intro hc
      exact hnew _ (hi.closed _ hc) rfl
  · rintro h ⟨hh, hc⟩
    rcases List.mem_cons.mp hh with rfl | hh
    · exact ⟨⟨s.reg.mappings, pathname, shmSize⟩, by simp, rfl, rfl⟩
    · obtain ⟨d, hd, h1, h2⟩ := hi.live h ⟨hh, hc⟩
      exact ⟨d, List.getElem?_append_left (List.getElem?_eq_some_iff.mp hd).1 ▸ hd, h1, h2⟩
  · intro g hg h hh he
    rcases List.mem_cons.mp hg with rfl | hg <;> rcases List.mem_cons.mp hh with rfl | hh
    · rfl
    · exact absurd he.symm (hnew h hh)
    · exact absurd he (hnew g hg)
    · exact hi.unique g hg h hh he
  · intro h hh
    rcases List.mem_cons.mp hh with rfl | hh
    · exact Nat.lt_succ_self _
    · exact (hi.fresh h hh).trans (Nat.lt_succ_self _)
  · intro i j d e hd he hde
    rcases hget i d hd with hd | ⟨rfl, rfl⟩ <;> rcases hget j e he with he | ⟨rfl, rfl⟩
    · exact hi.names i j d e hd he hde
    · exact absurd hde (findDictByPathname_none hn hd)
    · exact absurd hde.symm (findDictByPathname_none hn he)
    · rfl
  · exact fun h hh => List.mem_cons_of_mem _ (hi.closed h hh)

/-- The entry in the last slot is closed by its own handle. -/
theorem HandlesInv.closeLast (hi : HandlesInv s) {h : Handle} {d : ShdictHandleData}
    (hd : s.reg.dicts[h.slot]? = some d) (hlast : h.slot + 1 = s.reg.dicts.length)
    (hl : s.Live h) (hp : d.pool = h.pool) :
    HandlesInv { s with
      reg := { s.reg with
        mapped := Function.update s.reg.mapped d.pool none, dicts := s.reg.dicts.dropLast }
      closed := h :: s.closed } := by
  have hget : ∀ (i : Nat) (e : ShdictHandleData), s.reg.dicts.dropLast[i]? = some e →
      s.reg.dicts[i]? = some e ∧ i ≠ h.slot := by
    intro i e he
    rw [List.getElem?_dropLast] at he
    split at he
    · exact ⟨he, by omega⟩
    · cases he
  constructor
  · intro i e he
    obtain ⟨he, hne⟩ := hget i e he
    obtain ⟨⟨h1, h2⟩, hm⟩ := hi.entry i e he
    have hpool : e.pool ≠ d.pool := fun hpe =>
      hne (congrArg Handle.slot (hi.unique _ h1 h hl.1 (hpe.trans hp)))
    refine ⟨⟨h1, ?_⟩, by simpa [Function.update_of_ne hpool] using hm⟩
    rw [List.mem_cons, not_or]
    exact ⟨fun hc => hne (congrArg Handle.slot hc), h2⟩
  · rintro g ⟨hg, hc⟩
    rw [List.mem_cons, not_or] at hc
    obtain ⟨e, he, h1, h2⟩ := hi.live g ⟨hg, hc.2⟩
    refine ⟨e, ?_, h1, h2⟩
    have hne : g.slot ≠ h.slot := by
      intro hs
      rw [hs, hd, Option.some.injEq] at he
      exact hc.1 (hi.unique g hg h hl.1 (by rw [← h2, ← he, hp]))
    have hlt := (List.getElem?_eq_some_iff.mp he).1
    rw [List.getElem?_dropLast, if_pos (by omega), he]
  · exact hi.unique
  · exact hi.fresh
  · exact fun i j e f he hf => hi.names i j e f (hget i e he).1 (hget j f hf).1
  · intro g hg
    rcases List.mem_cons.mp hg with rfl | hg
    · exact hl.1
    · exact hi.closed g hg

/-- The step lemma: an orderly call keeps the invariant. The cases are those of the calls
and of what the system answers. -/
theorem HandlesInv.step (hi : HandlesInv s) {e : RegistryCall} (hleg : s.Legal e)
    (ho : s.Orderly e) : HandlesInv (s.step e) := by
  cases e with
  | openOrCreate pathname shmSize a =>
    cases hf : s.reg.findDictByPathname pathname with
    | some i =>
      obtain ⟨d, hd, rfl⟩ := findDictByPathname_some hf
      simpa [Clients.step, Registry.openOrCreate, hf, hd] using hi.reopen hd
    | none =>
      by_cases hs : a.slab = true
      · by_cases hc : (a.strdup && a.realloc) = true
        · simpa [Clients.step, Registry.openOrCreate, hf, hs, hc] using hi.create shmSize hf
        · simpa [Clients.step, Registry.openOrCreate, hf, hs, hc] using hi.mapOnly pathname
      · simpa [Clients.step, Registry.openOrCreate, hf, hs] using hi
  | close h shrunk =>
    by_cases hlt : h.slot < s.reg.dicts.length
    · obtain ⟨d, hd, hlast, hl, -, hp, hsh⟩ := hi.orderly_close hleg ho hlt
      simp only [Clients.step, close_last hd hlast hsh]
      exact hi.closeLast hd hlast hl hp
    · have hle := not_lt.mp hlt
      simp only [Clients.step, close_of_le hle]
      refine ⟨?_, fun g hg => ?_, hi.unique, hi.fresh, hi.names, ?_⟩
      · intro i d hd
        obtain ⟨⟨h1, h2⟩, hm⟩ := hi.entry i d hd
        refine ⟨⟨h1, ?_⟩, hm⟩
        rw [List.mem_cons, not_or]
        refine ⟨?_, h2⟩
        rintro rfl
        exact hlt (List.getElem?_eq_some_iff.mp hd).1
      · exact hi.live g ⟨hg.1, fun hc => hg.2 (List.mem_cons_of_mem _ hc)⟩
      · intro g hg
        rcases List.mem_cons.mp hg with rfl | hg
        · exact hleg
        · exact hi.closed g hg

theorem HandlesInv.start : HandlesInv start := by
  constructor <;> simp [Clients.start, Registry.empty, Live]

/-- **Handles stay valid in every orderly run**: as long as each call that closes an entry
closes the one in the last slot, by its own handle. A second close of a handle then
changes nothing either. -/
theorem handlesValid_of_orderly (hrun : OrderlyRun s) : s.HandlesValid ∧
    ∀ e, s.Legal e → s.Orderly e → s.SecondCloseHarmless e := by
  have hi : HandlesInv s := by
    induction hrun with
    | start => exact .start
    | step _ hleg ho ih => exact ih.step hleg ho
  exact ⟨hi.handlesValid, fun e => hi.secondCloseHarmless⟩

/-- The run that closes the younger of two dictionaries first. The handle of the older one
is valid after it, and so a second close by an orderly call does no harm. -/
theorem handlesValid_of_orderly_two :
    (openedTwo.step (.close ⟨1, [98], 1⟩ true)).HandlesValid ∧
      ∀ e, (openedTwo.step (.close ⟨1, [98], 1⟩ true)).Legal e →
        (openedTwo.step (.close ⟨1, [98], 1⟩ true)).Orderly e →
        (openedTwo.step (.close ⟨1, [98], 1⟩ true)).SecondCloseHarmless e :=
  handlesValid_of_orderly <|
    ((OrderlyRun.start.step (e := .openOrCreate [97] 4096 ⟨true, true, true⟩) trivial
      trivial).step (e := .openOrCreate [98] 4096 ⟨true, true, true⟩) trivial trivial).step
      (e := .close ⟨1, [98], 1⟩ true) (by unfold Legal; decide) (.inr (by decide))

end Clients

end MpsShdict
