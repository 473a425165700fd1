import MpsShdict.ShdictRuns

/-! # Position independence

Every caller may have the pool mapped somewhere else. What is in the pool, and what the
calls answer, does not show where.

The pool holds offsets and no addresses, but a few steps compute with the address at which
it is mapped: the set-up and the allocator align addresses, and a free takes one back. All
of them come out the same at every page boundary, because `Call.run_spec` promises one and
the same outcome for all mappings.
-/
namespace MpsShdict

open Words

/-- A call in a sequence, by a process that has the pool mapped at `base`. -/
structure Request where
  base : Nat
  env : Env
  call : Call

/-- What the requests leave and answer, one after the other: after each of them the pool,
the entry that `sd` points to, and the answer. It is `none` if one of the calls does not
return. -/
def trace (s : Nat) : List Request → Shdict → Option (List (Shdict × Option Nat × Answer))
  | [], _ => some []
  | x :: rest, d => do
    let r ← x.call.run (mpsSlabSizesInit (2 ^ s)) x.base x.env d
    let states ← trace s rest r.1
    some (r :: states)

section Trace
variable {s base : Nat} {d : Shdict} {steps : List Request} {L : List Entry} {spare : List Block}

/-- The set-up of a pool does not show where it is mapped. The start of the pages is
aligned by its address, and a base that is a multiple of the page size drops out. -/
theorem mpsSlabInit_base (hbase : 2 ^ s ∣ base) (desc : DescMem) (stat : Nat → SlabStat)
    (word : Nat → Nat) (poolSize minShift : Nat) (mutexErr : Int) :
    mpsSlabInit (mpsSlabSizesInit (2 ^ s)) base desc stat word poolSize minShift mutexErr =
      mpsSlabInit (mpsSlabSizesInit (2 ^ s)) 0 desc stat word poolSize minShift mutexErr := by
  have hpage : (mpsSlabSizesInit (2 ^ s)).pagesize = 2 ^ s := rfl
  have hstart : ∀ p, alignUp (base + p) (2 ^ s) - base = alignUp (0 + p) (2 ^ s) - 0 := by
    intro p
    rw [alignUp_add hbase, Nat.add_sub_cancel_left, Nat.zero_add, Nat.sub_zero]
  unfold mpsSlabInit
  simp only [hpage, Nat.add_assoc, hstart]

/-- Two sequences that differ in the mappings only go on alike. The induction is on the
sequence, and the pools after a call are equal, so that the rest starts from one and the
same pool. -/
theorem trace_base (hrep : Rep (mpsSlabSizesInit (2 ^ s)) s False d L spare)
    (hsteps : ∀ x ∈ steps, 2 ^ s ∣ x.base ∧ x.call.Ok) (hbase : 2 ^ s ∣ base) :
    ∃ states, trace s steps d = some states ∧
      trace s (steps.map fun x => { x with base := base }) d = some states := by
  induction steps generalizing d L spare with
  | nil => exact ⟨[], rfl, rfl⟩
  | cons x steps ih =>
    obtain ⟨hx, hok⟩ := hsteps x List.mem_cons_self
    obtain ⟨c, -, d', hrun, hrep', -⟩ := Call.run_spec x.env hok hrep False.elim
    obtain ⟨states, h1, h2⟩ := ih hrep' fun y hy => hsteps y (List.mem_cons_of_mem _ hy)
    refine ⟨(d', (x.call.entries x.env c L).sd,
      (x.call.entries x.env c L).result) :: states, ?_, ?_⟩
    · simp only [trace, hrun x.base hx, Option.bind_eq_bind, Option.bind_some, h1]
    · simp only [List.map_cons, trace, hrun base hbase, Option.bind_eq_bind, Option.bind_some, h2]

end Trace

/-- **The pool does not show where it is mapped.**  A sequence of calls by processes that have
it mapped at any page boundaries leaves the same pool after each call, and answers the same,
as one by a process that has it mapped at `base`; so does the set-up. -/
theorem position_independent {s : Nat} {d : Shdict} {steps : List Request}
    (base : Nat) (hs : 12 ≤ s) (hs' : s ≤ 16) (hd : Fresh s d)
    (hsteps : ∀ x ∈ steps, 2 ^ s ∣ x.base ∧ x.call.Ok)
    (hbase : 2 ^ s ∣ base) :
    (∃ states, trace s steps d = some states ∧
      trace s (steps.map fun x => { x with base := base }) d = some states) ∧
    ∀ base', 2 ^ s ∣ base' → ∀ desc stat word poolSize minShift mutexErr,
      mpsSlabInit (mpsSlabSizesInit (2 ^ s)) base' desc stat word poolSize minShift mutexErr =
        mpsSlabInit (mpsSlabSizesInit (2 ^ s)) base desc stat word poolSize minShift mutexErr := by
  refine ⟨trace_base (hd.rep hs hs') hsteps hbase, ?_⟩
  intro base' hbase' desc stat word poolSize minShift e
  rw [mpsSlabInit_base hbase', mpsSlabInit_base hbase]

/-- Two processes store a string each, and a third one finds the first string, all with
the pool mapped at different addresses. One process that had made all three calls would
have left the same and answered the same. -/
theorem position_independent_three : ∃ states,
    trace 12 [⟨4096, calmEnv 5, .set (stringArgs [65] [66])⟩,
      ⟨40960, calmEnv 6, .set (stringArgs [67] [68])⟩,
      ⟨0, calmEnv 7, .get [65] 10 false⟩] emptyDict = some states ∧
    trace 12 [⟨8192, calmEnv 5, .set (stringArgs [65] [66])⟩,
      ⟨8192, calmEnv 6, .set (stringArgs [67] [68])⟩,
      ⟨8192, calmEnv 7, .get [65] 10 false⟩] emptyDict = some states := by
  have hset : ∀ key value : Bytes, KeyOk key → value.length < 2 ^ 30 →
      (Call.set (stringArgs key value)).Ok := fun key value hk hv => storeEvent_ok 0 0 hk hv
  exact (position_independent 8192 (by decide) (by decide) fresh_emptyDict (by
    intro x hx
    simp only [List.mem_cons, List.not_mem_nil, or_false] at hx
    rcases hx with rfl | rfl | rfl
    · exact ⟨by decide, hset _ _ ⟨by decide, by decide⟩ (by decide)⟩
    · exact ⟨by decide, hset _ _ ⟨by decide, by decide⟩ (by decide)⟩
    · exact ⟨by decide, by decide, by decide⟩) (by decide)).1

end MpsShdict
