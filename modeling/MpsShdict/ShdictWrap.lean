import MpsShdict.ShdictValues
import MpsShdict.SlabInit

/-! # Lists of any length

As long as there are free pages, a push finds a chunk for its element. So a list gets as
long as there are pages, and its length, which is kept in 32 bits, comes back to zero.

The size of a pool is not bounded by anything but its 64-bit fields, so there is one with
more than `2 ^ 32` free pages, and a list in it that has `2 ^ 32` elements. A push takes a
page at most (`HasList.push`), and an induction on the length counts the pages. The pop
that follows takes the list for a bad one.
-/
namespace MpsShdict

open RedBlack RedBlack.RbTree
open Words

section Grow
variable {sz : Sizes} {s n : Nat} {ord : Prop} {d d' : Shdict} {L : List Entry} {spare : List Block}
  {env : Env} {a : PushArgs} {v : Bytes} {e : Entry} {elems : List Elem}

/-- **While there is a free page** a small request is met, and it takes one page at most.
The pool spells out the same entries after it. -/
theorem Rep.slabAlloc_small (h : Rep sz s ord d L spare) {i size : Nat} (hr : env.refuse i = false)
    (hsize : size ≤ sz.maxSize) (hfree : 0 < d.pool.pfree) :
    ∃ pool p, d.slabAlloc sz env i size = some ({ d with pool := pool }, some p) ∧
      d.pool.pfree ≤ pool.pfree + 1 ∧
      Rep sz s ord { d with pool := pool } L (⟨p, max 1 size⟩ :: spare) := by
  obtain ⟨pool, p, halloc, -, hrep⟩ := h.slabAlloc env i size
  have hlocked : mpsSlabAllocLocked sz d.rounds d.pool size = some (pool, p) := by
    rw [Shdict.slabAlloc, if_neg (by simp [hr])] at halloc
    obtain ⟨⟨pool', p'⟩, hrun, he⟩ := Option.map_eq_some_iff.mp halloc
    simp only [Prod.mk.injEq] at he
    obtain ⟨hd, rfl⟩ := he
    obtain rfl : pool' = pool := congrArg Shdict.pool hd
    exact hrun
  have hP := SlabInv.pages_pos h.owns (b := ⟨d.pool.data, sizeofTree⟩) List.mem_cons_self
  rcases mpsSlabAllocLocked_spec h.owns size (SlabInv.pageTotal_lt h.owns hP) with
    ⟨pool', p', hrun, -, hpfree, -⟩ | ⟨pool', -, -, -, hnone, -⟩
  · obtain ⟨rfl, rfl⟩ := Prod.mk.inj (Option.some.inj (hlocked.symm.trans hrun))
    exact ⟨pool, p', halloc, hpfree hsize, hrep⟩
  · have := hnone hsize
    omega

/-- From the label `push_node` on, where there is a free page. The list has one element
more and the entry has nothing else changed. -/
theorem pushNode_grows (hv : e.value = .list elems) (hkey : e.key = a.key)
    (hlen : offsetofListData + v.length < 2 ^ 31) (hr : env.refuse 31 = false)
    (hsize : offsetofListData + v.length ≤ sz.maxSize) (hfree : 0 < d.pool.pfree)
    (h : Rep sz s ord d (e :: L) spare) :
    ∃ d' lnode, (∀ base, 2 ^ s ∣ base →
        pushNode sz base env a v e.off d = some (d', some e.off, .valueLen e.off, none)) ∧
      d.pool.pfree ≤ d'.pool.pfree + 1 ∧
      Rep sz s ord d'
        ({ e with value := .list (insertElem a.direction ⟨lnode, a.valueType, v⟩ elems) } ::
          L) spare := by
  have hpos : 0 < offsetofListData + v.length := by
    simp only [offsetofListData]
    omega
  obtain ⟨pool, lnode, halloc, hpfree, hrep⟩ := h.slabAlloc_small hr hsize hfree
  rw [Nat.max_eq_right hpos] at hrep
  obtain ⟨d', hrun, hrep', hpool⟩ := pushElement_spec env lnode hv hkey hlen hrep
  refine ⟨d', lnode, fun base hb => ?_, ?_, hrep'⟩
  · simp only [pushNode, intSize_of_lt hlen, halloc,
      Option.bind_eq_bind, Option.bind_some, hrun base hb]
  · rw [hpool]
    exact hpfree

/-- The dictionary has one entry, a list of `n` elements without a deadline. -/
def HasList (s : Nat) (d : Shdict) (key : Bytes) (n : Nat) : Prop :=
  ∃ e elems spare, Rep (mpsSlabSizesInit (2 ^ s)) s True d [e] spare ∧ e.key = key ∧ e.expires = 0 ∧
    e.value = .list elems ∧ elems.length = n

/-- An entry without a deadline stays, if it is the only one. -/
theorem expireLoop_only (h : Rep sz s ord d [e] spare) (hexp : e.expires = 0) (base now : Nat) :
    mpsShdictExpire sz base now d 1 = some (d, 0) := by
  have hlru := h.shape.hung.lru
  have hempty : ¬ mpsQueueEmpty d.queue d.lruQueue = true := by
    rw [hlru.empty_iff]
    simp
  have hlast : nodeOfQueue (mpsQueueLast d.queue d.lruQueue) = e.off := by
    have hq : IsQueue d.queue d.lruQueue ([] ++ [sdQueue e.off]) := hlru
    rw [hq.last]
    simp only [nodeOfQueue, sdQueue, offsetofQueue, offsetofColor]
    omega
  have hkeep : (d.sd e.off).expires = 0 := (h.shape.entries e List.mem_cons_self).expires.trans hexp
  rw [mpsShdictExpire, show 3 - 1 = 1 + 1 from rfl, expireLoop, if_neg hempty]
  simp only [hlast, hkeep]
  rfl

/-- The lookup of the key of the only entry finds it. -/
theorem Finds.only {key : Bytes} {found : Option Entry} (h : Finds True [e] key found)
    (hkey : e.key = key) :
    found = some e := by
  cases found with
  | none => exact absurd hkey (h.complete trivial rfl e List.mem_cons_self)
  | some y => rw [List.mem_singleton.mp (h.sound y rfl).1]

/-- **A push makes a list longer by one**, where there is a free page. The list is found
since it is the only entry and does not expire. -/
theorem HasList.push (env : Env) (h : HasList s d a.key n) (hval : pushValue a = .ok v)
    (hlen : offsetofListData + v.length < 2 ^ 31)
    (hsize : offsetofListData + v.length ≤ (mpsSlabSizesInit (2 ^ s)).maxSize)
    (hr : env.refuse 31 = false) (hfree : 0 < d.pool.pfree) :
    ∃ d' r, (∀ base, 2 ^ s ∣ base →
      mpsShdictPushHelper (mpsSlabSizesInit (2 ^ s)) base env a d = some (d', r)) ∧
      d.pool.pfree ≤ d'.pool.pfree + 1 ∧ HasList s d' a.key (n + 1) := by
  obtain ⟨e, elems, spare, hrep, hkey, hexp, hv, rfl⟩ := h
  obtain ⟨found, d₁, hf, hlook, hrep₁, -, hpool⟩ :=
    mpsShdictLookup_spec hrep (env.mpsClockTimeMs 2) a.key
  obtain rfl := hf.only hkey
  rw [hit, if_neg (by simp [lookupExpired, hexp])] at hlook
  simp only [lookupEntries, List.erase_cons_head] at hrep₁
  have hrep₂ : Rep (mpsSlabSizesInit (2 ^ s)) s True (d₁.touch e.off) [e] spare := hrep₁.touch_head
  have htype : ¬ (d₁.sd e.off).valueType ≠ .tlist := by
    have hval := (hrep₁.shape.entries e List.mem_cons_self).value
    simp only [ValueOk, hv] at hval
    exact not_not.mpr hval.1
  obtain ⟨d', lnode, hrun, hpfree, hrep'⟩ := pushNode_grows (a := a) hv hkey hlen hr hsize
    (show 0 < (d₁.touch e.off).pool.pfree from hpool.symm ▸ hfree) hrep₂
  refine ⟨d', (some e.off, .valueLen e.off, none), ?_, hpool ▸ hpfree, _, _, _, hrep', hkey,
    hexp, rfl, ?_⟩
  · intro base hb
    simp only [mpsShdictPushHelper, hval, expireLoop_only hrep hexp,
      hlook, Hit.lookup, Option.bind_eq_bind, Option.bind_some, if_neg htype]
    exact hrun base hb
  · rw [(insertElem_perm _ _ _).length_eq, List.length_cons]

/-- **The first push** makes a list, where there are two free pages: one for the entry
with the header of the list, and one for the element. -/
theorem Rep.pushFirst (env : Env) (h : Rep (mpsSlabSizesInit (2 ^ s)) s True d [] [])
    (hk : KeyOk a.key) (hval : pushValue a = .ok v) (hlen : offsetofListData + v.length < 2 ^ 31)
    (hsize : offsetofListData + v.length ≤ (mpsSlabSizesInit (2 ^ s)).maxSize)
    (hroom : alignUp (offsetofColor + offsetofData + a.key.length + sizeofQueue) ngxAlignment ≤
      (mpsSlabSizesInit (2 ^ s)).maxSize)
    (hr : ∀ i, env.refuse i = false) (hfree : 2 ≤ d.pool.pfree) :
    ∃ d' r, (∀ base, 2 ^ s ∣ base →
      mpsShdictPushHelper (mpsSlabSizesInit (2 ^ s)) base env a d = some (d', r)) ∧
      d.pool.pfree ≤ d'.pool.pfree + 2 ∧ HasList s d' a.key 1 := by
  have hexp : ∀ base, mpsShdictExpire (mpsSlabSizesInit (2 ^ s)) base
      (env.mpsClockTimeMs 1) d 1 = some (d, 0) := by
    intro base
    have hlru := h.shape.hung.lru
    have hempty : mpsQueueEmpty d.queue d.lruQueue = true := hlru.empty_iff.mpr rfl
    rw [mpsShdictExpire, show 3 - 1 = 1 + 1 from rfl, expireLoop, if_pos hempty]
  obtain ⟨found, d₁, hf, hlook, hrep₁, -, hpool⟩ :=
    mpsShdictLookup_spec h (env.mpsClockTimeMs 2) a.key
  obtain rfl : found = none := by
    cases found with
    | none => rfl
    | some y => exact absurd (hf.sound y rfl).1 (by simp)
  simp only [hit, Hit.lookup] at hlook
  have hpf : d₁.pool.pfree = d.pool.pfree := by rw [hpool]
  obtain ⟨hpos, hsize'⟩ := initList_size hk
  obtain ⟨pool, node, halloc, hpfree, hrep₂⟩ := hrep₁.slabAlloc_small (hr 0) hroom (by omega)
  rw [Nat.max_eq_right hpos] at hrep₂
  obtain ⟨d₂, hinit, hrep₃, hpool₂⟩ := initList_spec env node hk hrep₂ (by simp [lookupEntries])
  obtain ⟨d', lnode, hrun, hpfree', hrep'⟩ := pushNode_grows (a := a) rfl rfl hlen (hr 31) hsize
    (show 0 < d₂.pool.pfree by rw [hpool₂]; simp only; omega) hrep₃
  rw [hpool₂] at hpfree'
  refine ⟨d', (some node, .valueLen node, none), ?_, ?_, _, _, _, hrep', rfl, rfl, rfl, ?_⟩
  · intro base hb
    simp only [mpsShdictPushHelper, hval, hexp, hlook, pushInitList, hsize', halloc, hinit base hb,
      Option.bind_eq_bind, Option.bind_some]
    exact hrun base hb
  · have : pool.pfree ≤ d'.pool.pfree + 1 := hpfree'
    omega
  · rw [(insertElem_perm _ _ _).length_eq, List.length_cons]
    rfl

/-- The string "B" is pushed to the right of the list "A". -/
def wrapArgs : PushArgs := ⟨.right, [65], .tstring, [66], Double.zero⟩

/-- The push, with what it answers. -/
def wrapEvent (d : Shdict) (r : Option Nat × Return × Option String) : Event :=
  ⟨0, calmEnv 0, .push wrapArgs, r.1, .list ⟨r.2.1, r.2.2, r.2.1.value d⟩⟩

/-- **A list gets as long as there are free pages**, by nothing but pushes. The induction
is on the length, with the number of free pages as its budget. -/
theorem exists_longList (hs : 12 ≤ s) (hs' : s ≤ 16) (h : Fresh s d) (hn : 1 ≤ n)
    (hfree : n + 1 ≤ d.pool.pfree) :
    ∃ xs d', RunWith s (fun x _ => ∃ d r, x = wrapEvent d r) xs d' ∧ HasList s d' [65] n ∧
      d.pool.pfree ≤ d'.pool.pfree + (n + 1) := by
  have hmax : 2048 ≤ (mpsSlabSizesInit (2 ^ s)).maxSize := by
    show 2048 ≤ 2 ^ s / 2
    have : 2 ^ 12 ≤ 2 ^ s := Nat.pow_le_pow_right (by decide) hs
    omega
  have hruns : ∀ {d₁ d₂ : Shdict} {r}, (∀ base, 2 ^ s ∣ base →
      mpsShdictPushHelper (mpsSlabSizesInit (2 ^ s)) base (calmEnv 0) wrapArgs d₁ = some (d₂, r)) →
      (wrapEvent d₂ r).Runs s d₁ d₂ := by
    intro d₁ d₂ r hrun
    refine ⟨Nat.dvd_zero _, ⟨⟨by decide, by decide⟩, by decide⟩, ?_⟩
    simp only [wrapEvent, Call.run, hrun 0 (Nat.dvd_zero _), Option.map_some]
    rfl
  -- induction on the length; each push may use up one page
  induction n, hn using Nat.le_induction with
  | base =>
    obtain ⟨d', r, hrun, hpfree, hlist⟩ := Rep.pushFirst (a := wrapArgs) (calmEnv 0) (h.rep hs hs')
      ⟨by decide, by decide⟩ rfl (by decide) (le_trans (by decide) hmax) (le_trans (by decide) hmax)
      (fun _ => rfl) hfree
    exact ⟨_, d', .call (.init h) (hruns hrun) ⟨_, _, rfl⟩, hlist, hpfree⟩
  | succ n hn ih =>
    obtain ⟨xs, d₁, run, hlist, hpfree⟩ := ih (by omega)
    obtain ⟨d', r, hrun, hpfree', hlist'⟩ := HasList.push (a := wrapArgs) (calmEnv 0) hlist rfl
      (by decide) (le_trans (by decide) hmax) rfl (by omega)
    exact ⟨_, d', .call run (hruns hrun) ⟨_, _, rfl⟩, hlist', by omega⟩

end Grow

/-! ### A pool with room for a list that long -/

/-- A dictionary on a pool of `2 ^ 45` bytes has more than `2 ^ 32` free pages. The pool
is set up as any other one; nothing of it need be computed but the number of its pages. -/
theorem exists_largeDict : ∃ d, Fresh 12 d ∧ 2 ^ 32 + 2 ≤ d.pool.pfree := by
  obtain ⟨pool, hpool⟩ : ∃ pool, initPool 12 (2 ^ 45) 3 = .ok pool := ⟨_, rfl⟩
  obtain ⟨-, -, -, hpfree, -⟩ := mpsSlabInit_fields (by decide) (by decide) hpool
  replace hpfree : pool.pfree = 8539896137 := hpfree.trans (by decide +kernel)
  obtain ⟨-, htotal, hempty | ⟨hP, hholds⟩⟩ :=
    mpsSlabInit_spec rfl (by decide) (by decide) (by decide)
    (Nat.dvd_zero _) (by decide) (by decide) hpool
  · have := hempty.total
    omega
  · have hinv : SlabInv (mpsSlabSizesInit (2 ^ 12)) 12 pool.pageTotal pool [] := ⟨_, _, hholds⟩
    rcases mpsSlabAllocLocked_spec hinv sizeofTree (hinv.pageTotal_lt hP) with
      ⟨pool', tree, halloc, -, hless, -⟩ | ⟨pool', -, -, -, hnone, -⟩
    · have hpages := hless (by decide)
      set d₀ : Shdict := { blankDict with pool := pool }
      have hpool' : initPool 12 (2 ^ 45) 3 = .ok d₀.pool := hpool
      have hrun : mpsSlabAllocLocked (mpsSlabSizesInit (2 ^ 12)) d₀.rounds d₀.pool sizeofTree =
          some (pool', some tree) := halloc
      have hinit : ∃ d, mpsShdictOnInit (mpsSlabSizesInit (2 ^ 12)) d₀ = some (.ok d) ∧
          d.pool.pfree = pool'.pfree := by
        simp only [mpsShdictOnInit, hrun, Option.bind_eq_bind, Option.bind_some]
        exact ⟨_, rfl, rfl⟩
      obtain ⟨d, hinit, hd⟩ := hinit
      refine ⟨d, .intro 0 (2 ^ 45) 3 _ _ _ (Nat.dvd_zero _)
        (by decide) (by decide) (by decide) hpool' hinit, ?_⟩
      omega
    · have := hnone (by decide)
      omega

/-- **The length of a list comes back to zero**, and a pop takes the list for a bad one.
This is the failing input for types and lengths that agree. -/
theorem not_typesAgree : ¬ ∀ s xs d, 12 ≤ s → s ≤ 16 → Run s xs d → TypesAgree s d := by
  intro h
  obtain ⟨d₀, hfresh, hfree⟩ := exists_largeDict
  obtain ⟨xs, d, run, ⟨e, elems, spare, hrep, hkey, hexp, hv, hlen⟩, -⟩ :=
    exists_longList (n := 2 ^ 32) (by decide) (by decide) hfresh (by decide) (by omega)
  obtain ⟨c, hway, -, d', hpop, -⟩ := mpsShdictPopHelper_spec (calmEnv 0) .left [65] 1 hrep
  have hagree := (h 12 xs d (by decide) (by decide) run.run).pop 0 (calmEnv 0) .left [65] 1 d' _ _
    (Nat.dvd_zero _) (hpop 0 (Nat.dvd_zero _)) "bad empty value" (by decide)
  have hafter : afterExpire (calmEnv 0) [e] = [e] := by
    simp [afterExpire, expireEntries, expireKeeps, hexp]
  have hfinds := hway.finds
  rw [hafter] at hfinds
  have hzero : u32 elems.length = 0 := by
    rw [hlen]
    rfl
  apply hagree
  rw [popEntries, hfinds.only hkey, hit, if_neg (by simp [lookupExpired, hexp])]
  simp only [hv, popList, hzero]
  cases takeElem .left elems with
  | none => rfl
  | some p => rfl

end MpsShdict
