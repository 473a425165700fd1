import MpsShdict.ShdictExpiry

/-! # What the time to live says

`mps_shdict_get_ttl` returns a code, a mark for entries without a deadline or a difference
of times, all of them in one `long`. The difference may be any of the others.

Where 5 milliseconds have gone by since a deadline the difference is -5, which is
`NGX_DECLINED`, and the Lua layer says that the key is not found. At the deadline the
difference is 0, which stands for no deadline at all. And a difference that does not fit a
`long` turns around. Where none of this is the case the answer is exact.
-/
namespace MpsShdict

open Words

/-- `metatable:ttl` from the call of `mps_shdict_get_ttl` on, in milliseconds. The code
for a missing key is turned into a message, and nothing else is. -/
def metatableTtl (rc : Int) : Except String Int :=
  if rc = ngxDeclined then .error "not found" else .ok rc

/-- The time to live `rc` tells at `t` how it stands with a key: whether it is stored,
whether it has a deadline, how far that is ahead or behind, and the message of the Lua
layer is not given for a key that is stored. -/
structure TtlExact (d : Shdict) (key : Bytes) (t : Nat) (rc : Int) : Prop where
  declined : rc = ngxDeclined ↔ ∀ e ∈ d.entries, e.key ≠ key
  zero : rc = 0 ↔ ∃ e ∈ d.entries, e.key = key ∧ e.expires = 0
  left : ∀ e ∈ d.entries, e.key = key → e.expires ≠ 0 → rc = (e.expires : Int) - t
  notFound : metatableTtl rc = .error "not found" → ∀ e ∈ d.entries, e.key ≠ key

/-- The time that is left fits a `long`, and is neither the code nor the mark. This is a
condition on the deadline and the clock alone. -/
def TtlTells (expires t : Nat) : Prop :=
  -2 ^ 63 ≤ (expires : Int) - t ∧ (expires : Int) - t < 2 ^ 63 ∧ expires ≠ t ∧ expires + 5 ≠ t

section Ttl
variable {s : Nat} {d : Shdict} {L : List Entry} {spare : List Block} {xs : List Event} {env : Env}
  {key : Bytes} {c : Choice} {e : Entry} {x : Nat}

theorem int64_range (x : Nat) : -2 ^ 63 ≤ int64 x ∧ int64 x < 2 ^ 63 := by
  have hlt : x % 2 ^ 64 < 2 ^ 64 := Nat.mod_lt _ (Nat.two_pow_pos 64)
  unfold int64
  split
  · omega
  · omega

theorem metatableTtl_error {rc : Int} (h : metatableTtl rc = .error "not found") :
    rc = ngxDeclined := by
  by_contra hne
  rw [metatableTtl, if_neg hne] at h
  cases h

/-- A key that is not stored. -/
theorem ttlExact_absent (hnone : ∀ e ∈ d.entries, e.key ≠ key) (t : Nat) :
    TtlExact d key t ngxDeclined := by
  refine ⟨iff_of_true rfl hnone, iff_of_false (by decide) ?_, fun e he hk => absurd hk (hnone e he),
    fun _ => hnone⟩
  rintro ⟨e, he, hk, -⟩
  exact hnone e he hk

/-- A key whose entry has no deadline. -/
theorem ttlExact_endless (he : e ∈ d.entries) (hk : e.key = key) (hzero : e.expires = 0)
    (huniq : ∀ y ∈ d.entries, y.key = key → y = e) (t : Nat) : TtlExact d key t 0 := by
  refine ⟨iff_of_false (by decide) fun h => h e he hk, iff_of_true rfl ⟨e, he, hk, hzero⟩,
    ?_, fun h => ?_⟩
  · intro y hy hyk hne
    rw [huniq y hy hyk] at hne
    exact absurd hzero hne
  · exact absurd (metatableTtl_error h) (by decide)

/-- A key whose entry has one. -/
theorem ttlExact_deadline {t : Nat} (he : e ∈ d.entries) (hk : e.key = key) (hne : e.expires ≠ 0)
    (huniq : ∀ y ∈ d.entries, y.key = key → y = e) :
    TtlExact d key t (int64 (sub64 e.expires t)) ↔ TtlTells e.expires t := by
  have hstored : ¬ ∀ y ∈ d.entries, y.key ≠ key := fun h => h e he hk
  have hdue : ¬ ∃ y ∈ d.entries, y.key = key ∧ y.expires = 0 := by
    rintro ⟨y, hy, hyk, hzero⟩
    rw [huniq y hy hyk] at hzero
    exact hne hzero
  constructor
  · intro h
    have hleft := h.left e he hk hne
    have hrange := int64_range (sub64 e.expires t)
    have hcode : int64 (sub64 e.expires t) ≠ ngxDeclined := fun heq => hstored (h.declined.mp heq)
    have hmark : int64 (sub64 e.expires t) ≠ 0 := fun heq => hdue (h.zero.mp heq)
    rw [hleft] at hrange hcode hmark
    refine ⟨hrange.1, hrange.2, fun heq => hmark ?_, fun heq => hcode ?_⟩
    · omega
    · rw [ngxDeclined]
      omega
  · rintro ⟨hlow, hhigh, hmark, hcode⟩
    rw [int64_sub64 hhigh hlow]
    have hdeclined : (e.expires : Int) - t ≠ ngxDeclined := by
      rw [ngxDeclined]
      omega
    refine ⟨iff_of_false hdeclined hstored,
      iff_of_false (by omega) hdue, fun y hy hyk _ => ?_, fun h => ?_⟩
    · rw [huniq y hy hyk]
    · exact absurd (metatableTtl_error h) hdeclined

/-- **The time to live is exact** in every state of a safe run, unless the time that is
left reads as the code or as the mark. In both directions: where it does, the answer is
wrong. -/
theorem get_ttl_exact_iff (hs : 12 ≤ s) (hs' : s ≤ 16) (run : SafeRun s xs d)
    (env : Env) (key : Bytes) :
    ∃ rc, mpsShdictGetTtl env key d = some rc ∧ (TtlExact d key (env.mpsClockTimeMs 1) rc ↔
      ∀ e ∈ d.entries, e.key = key → e.expires ≠ 0 →
      TtlTells e.expires (env.mpsClockTimeMs 1)) := by
  obtain ⟨spare, hrep⟩ := run.rep hs hs'
  obtain ⟨c, hf, -, hrun⟩ := mpsShdictGetTtl_spec env key hrep
  refine ⟨_, hrun, ?_⟩
  rw [ttlResult]
  cases hfound : c.found with
  | none =>
    have hnone := hf.complete trivial hfound
    exact iff_of_true (ttlExact_absent hnone _) fun e he hk => absurd hk (hnone e he)
  | some e =>
    obtain ⟨he, hk⟩ := hf.sound e hfound
    have huniq : ∀ y ∈ d.entries, y.key = key → y = e := fun y hy hyk =>
      hrep.key_inj trivial hy he (hyk.trans hk.symm)
    by_cases hzero : e.expires = 0
    · simp only [if_pos hzero]
      refine iff_of_true (ttlExact_endless he hk hzero huniq _) ?_
      intro y hy hyk hne
      rw [huniq y hy hyk] at hne
      exact absurd hzero hne
    · simp only [if_neg hzero]
      rw [ttlExact_deadline he hk hzero huniq]
      constructor
      · intro h y hy hyk _
        rw [huniq y hy hyk]
        exact h
      · exact fun h => h e he hk hzero

end Ttl

/-- **Five milliseconds after its deadline an entry is said not to be stored.** It is
still in the pool, since nothing has reclaimed it. -/
theorem not_ttlExact : ¬ ∀ (s : Nat) xs d env key rc, 12 ≤ s → s ≤ 16 → Run s xs d → KeyOk key →
    mpsShdictGetTtl env key d = some rc → TtlExact d key (env.mpsClockTimeMs 1) rc := by
  intro h
  have hexact := h 12 [dueEvent] dueDict (calmEnv 15)
    [65] (-5) (by decide) (by decide) safeRun_dueDict.run
    ⟨by decide, by decide⟩ (by decide +kernel)
  have hnone := hexact.declined.mp rfl
  rw [entries_dueDict] at hnone
  exact hnone _ List.mem_cons_self rfl

/-- The deadline is four milliseconds ahead, and the answer is exact: four is neither the
code nor the mark. -/
theorem get_ttl_exact_iff_ahead : ∃ rc, mpsShdictGetTtl (calmEnv 6) [65] dueDict = some rc ∧
    (TtlExact dueDict [65] ((calmEnv 6).mpsClockTimeMs 1) rc ↔ ∀ e ∈ dueDict.entries, e.key = [65] →
      e.expires ≠ 0 → TtlTells e.expires ((calmEnv 6).mpsClockTimeMs 1)) :=
  get_ttl_exact_iff (by decide) (by decide) safeRun_dueDict (calmEnv 6) [65]

end MpsShdict
