import Mathlib.Logic.Function.Basic
import Mathlib.Tactic.Common

/-! # Creating a pool (`mps_slab_open_or_create`)

Processes that want one pool race to open or create its file. The mode of the file is all
that tells them whether it is ready: it is created with a mode that nobody can open for
writing and gets its final mode when it is initialised.

Every system call is one step of its caller. It succeeds, where the file allows it to, or
it fails with any error at all; a caller may also die at any step. A caller here is one
call of `mps_slab_open_or_create`, and there may be any number of them, from any number of
processes.

The invariant `Protocol` says what each stage of a caller knows: that it is the only one
at work on the file, how far it has come, or that the file is initialised. A step of one
caller keeps what the others know, because only the creator changes the file and there is
one at most. The theorem is about the whole run, whatever fails and whoever dies in it.
-/
namespace MpsShdict.SlabCreate

variable {P : Type} [DecidableEq P]

/-- The values of `errno` that the code tells apart. Any other one is an error that it
only reports. -/
inductive Errno where
  | enoent
  | eacces
  | eexist
  | other
  deriving DecidableEq

/-- What a system call, `mps_slab_init` or `on_init` answers: no error, or one. -/
abbrev Answer := Option Errno

/-- The file: not there, created with mode `S_IRUSR`, or with its final mode. Nothing
takes it away again. -/
inductive FileMode where
  | absent
  | rusr
  | final
  deriving DecidableEq

/-- The two calls of `mps_slab_open`: before the file is created, and after somebody else
was faster. -/
inductive Attempt where
  | first
  | second
  deriving DecidableEq

/-- The next step of a call. The stages are those of the two calls of `mps_slab_open`, of
`mps_slab_create` in between, and of the wait; a call that is over has returned a pool or
none. -/
inductive Stage where
  /-- `open` in `mps_slab_open` -/
  | openFile (k : Attempt)
  /-- `mmap` in `mps_slab_open` -/
  | openMmap (k : Attempt)
  /-- `close` in `mps_slab_open` -/
  | openClose (k : Attempt)
  /-- `open` with `O_CREAT | O_EXCL` in `mps_slab_create` -/
  | create
  | ftruncate
  /-- `mmap` in `mps_slab_create` -/
  | createMmap
  | slabInit
  | onInit
  | fchmod
  /-- `close` in `mps_slab_create`, with `err` -/
  | createClose (err : Answer)
  | nanosleep
  /-- The call has returned, a pool or NULL. -/
  | returned (pool : Bool)
  | dead
  deriving DecidableEq

/-- The file, what has been done to it, and where every call is. -/
structure Callers (P : Type) where
  mode : FileMode
  /-- The calls that ran `mps_slab_init`. -/
  inits : List P
  /-- The calls that ran `on_init`. -/
  onInits : List P
  /-- `mps_slab_init` has returned 0. -/
  initOk : Bool
  /-- `on_init` has returned 0. -/
  onInitOk : Bool
  stage : P → Stage

namespace Callers
variable (s : Callers P)

/-- No file, and every call at its start. -/
def start : Callers P := ⟨.absent, [], [], false, false, fun _ => .openFile .first⟩

/-- The call goes on at a stage. -/
def goto (p : P) (t : Stage) : Callers P := { s with stage := Function.update s.stage p t }

/-- The end of `mps_slab_open` with an error. After the first attempt only the two errors
of a file that is not there, or not ready, lead to the creation. -/
def openFailed : Attempt → Errno → Stage
  | .first, e => if e ≠ .enoent ∧ e ≠ .eacces then .returned false else .create
  | .second, _ => .returned false

/-- The end of `mps_slab_create`. Only `EEXIST`, somebody else having created the file,
leads to the wait and the second attempt. -/
def createReturns : Answer → Stage
  | none => .returned true
  | some e => if e ≠ .eexist then .returned false else .nanosleep

/-- The system call that a call makes next, with its answer.  `none` means that the
file does not allow the answer, or that the call is over. -/
def advance (p : P) (a : Answer) : Option (Callers P) :=
  match s.stage p, a with
  | .openFile k, none => if s.mode = .final then some (s.goto p (.openMmap k)) else none
  | .openFile k, some e => some (s.goto p (openFailed k e))
  | .openMmap k, none => some (s.goto p (.openClose k))
  | .openMmap k, some e => some (s.goto p (openFailed k e))
  | .openClose _, none => some (s.goto p (.returned true))
  | .openClose k, some e => some (s.goto p (openFailed k e))
  | .create, none =>
    if s.mode = .absent then some { s.goto p .ftruncate with mode := .rusr } else none
  | .create, some e => some (s.goto p (createReturns (some e)))
  | .ftruncate, none => some (s.goto p .createMmap)
  | .createMmap, none => some (s.goto p .slabInit)
  | .ftruncate, some e => some (s.goto p (.createClose (some e)))
  | .createMmap, some e => some (s.goto p (.createClose (some e)))
  | .slabInit, none => some { s.goto p .onInit with inits := p :: s.inits, initOk := true }
  | .slabInit, some e =>
    some { s.goto p (.createClose (some e)) with inits := p :: s.inits }
  | .onInit, none => some { s.goto p .fchmod with onInits := p :: s.onInits, onInitOk := true }
  | .onInit, some e =>
    some { s.goto p (.createClose (some e)) with onInits := p :: s.onInits }
  | .fchmod, none => some { s.goto p (.createClose none) with mode := .final }
  | .fchmod, some e => some (s.goto p (.createClose (some e)))
  | .createClose none, a => some (s.goto p (createReturns a))
  | .createClose (some e), _ => some (s.goto p (createReturns (some e)))
  | .nanosleep, none => some (s.goto p (.openFile .second))
  | .nanosleep, some _ => some (s.goto p (.returned false))
  | .returned _, _ => none
  | .dead, _ => none

/-- One step of one call: it makes a system call and gets an answer, or its process dies. -/
inductive Step : Callers P → Callers P → Prop
  | advance {s s' : Callers P} (p : P) (a : Answer) : s.advance p a = some s' → Step s s'
  | die {s : Callers P} (p : P) : Step s (s.goto p .dead)

/-- A run of steps, from no file and with no call begun. The calls take turns in any way. -/
inductive Run : Callers P → Prop
  | start : Run start
  | step {s s' : Callers P} : Run s → Step s s' → Run s'

/-! ### What the mode tells -/

/-- `mps_slab_init` and `on_init` have both completed. -/
def Initialised : Prop := s.initOk = true ∧ s.onInitOk = true

/-- The stages of the creator before it has given the file its final mode. -/
def Building : Stage → Prop
  | .ftruncate | .createMmap | .slabInit | .onInit | .fchmod => True
  | _ => False

/-- What is known of the file at a stage of the call `p`. -/
def Knows (p : P) : Stage → Prop
  | .ftruncate | .createMmap | .slabInit => s.inits = [] ∧ s.onInits = []
  | .onInit => p ∈ s.inits ∧ s.initOk = true ∧ s.onInits = []
  | .fchmod => s.Initialised
  | .openMmap _ | .openClose _ | .createClose none | .returned true => s.Initialised
  | _ => True

/-- The invariant: one creator at most, and a final mode only on what is initialised. Each
call knows what belongs to its stage. -/
structure Protocol : Prop where
  unique : ∀ p q, Building (s.stage p) → Building (s.stage q) → p = q
  absent : s.mode = .absent → (∀ p, ¬ Building (s.stage p)) ∧ s.inits = [] ∧ s.onInits = []
  once : s.inits.length ≤ 1 ∧ s.onInits.length ≤ 1 ∧ ∀ p ∈ s.onInits, p ∈ s.inits
  final : s.mode = .final → s.Initialised
  knows : ∀ p, s.Knows p (s.stage p)

variable {s} {s' : Callers P} {p : P} {t : Stage}

omit [DecidableEq P] in
theorem Protocol.start : (start : Callers P).Protocol := by
  constructor <;> simp [Callers.start, Building, Knows]

omit [DecidableEq P] in
/-- A stage outside of the creator's knows no more than that the file is initialised. -/
theorem Knows.mono (hk : s.Knows p t) (hb : ¬ Building t) (hi : s.Initialised → s'.Initialised) :
    s'.Knows p t := by
  cases t with
  | openMmap k => exact hi hk
  | openClose k => exact hi hk
  | createClose err => cases err <;> simp_all [Knows]
  | returned pool => cases pool <;> simp_all [Knows]
  | ftruncate => exact absurd trivial hb
  | createMmap => exact absurd trivial hb
  | slabInit => exact absurd trivial hb
  | onInit => exact absurd trivial hb
  | fchmod => exact absurd trivial hb
  | _ => trivial

theorem knows_goto {q : P} {u : Stage} : (s.goto p t).Knows q u ↔ s.Knows q u := by
  cases u with
  | createClose err => cases err <;> rfl
  | returned pool => cases pool <;> rfl
  | _ => rfl

/-- A call goes on and leaves the file alone. -/
theorem Protocol.goto (h : s.Protocol) (hk : s.Knows p t)
    (hb : Building t → Building (s.stage p)) : (s.goto p t).Protocol := by
  have hst : ∀ q, Building ((s.goto p t).stage q) → Building (s.stage q) := by
    intro q hq
    by_cases he : q = p
    · subst q
      exact hb (by simpa [Callers.goto] using hq)
    · simpa [Callers.goto, Function.update_of_ne he] using hq
  refine ⟨fun q r hq hr => h.unique q r (hst q hq) (hst r hr), ?_, h.once, h.final, ?_⟩
  · intro ha
    obtain ⟨hno, hin⟩ := h.absent ha
    exact ⟨fun q hq => hno q (hst q hq), hin⟩
  · intro q
    rw [knows_goto]
    by_cases he : q = p
    · subst q
      simpa [Callers.goto] using hk
    · simpa [Callers.goto, Function.update_of_ne he] using h.knows q

/-- The one creator goes on and changes the file. -/
theorem Protocol.creator (h : s.Protocol) (honly : ∀ q, q ≠ p → ¬ Building (s.stage q))
    (hst : s'.stage = Function.update s.stage p t) (hi : s.Initialised → s'.Initialised)
    (hk : s'.Knows p t) (hm : s'.mode ≠ .absent)
    (honce : s'.inits.length ≤ 1 ∧ s'.onInits.length ≤ 1 ∧ ∀ p ∈ s'.onInits, p ∈ s'.inits)
    (hf : s'.mode = .final → s'.Initialised) : s'.Protocol := by
  have hp : ∀ q, Building (s'.stage q) → q = p := by
    intro q hq
    by_contra he
    rw [hst, Function.update_of_ne he] at hq
    exact honly q he hq
  refine ⟨fun q r hq hr => (hp q hq).trans (hp r hr).symm, fun ha => absurd ha hm, honce, hf, ?_⟩
  intro q
  rw [hst]
  by_cases he : q = p
  · subst q
    simpa using hk
  · rw [Function.update_of_ne he]
    exact (h.knows q).mono (honly q he) hi

theorem openFailed_cases (k : Attempt) (e : Errno) :
    openFailed k e = .create ∨ openFailed k e = .returned false := by
  cases k with
  | first => rw [openFailed]; split <;> simp
  | second => exact .inr rfl

theorem createReturns_some (e : Errno) :
    createReturns (some e) = .returned false ∨ createReturns (some e) = .nanosleep := by
  rw [createReturns]
  split <;> simp

/-- The step lemma. A step of the creator changes the file and is the one step that the
others have to be told about; all other steps leave the file alone. -/
theorem Protocol.step (h : s.Protocol) (hs : Step s s') : s'.Protocol := by
  cases hs with
  | die p => exact h.goto trivial (fun hb => hb.elim)
  | advance p a ha =>
    have hk := h.knows p
    -- while `p` builds the pool nobody else does, and the file is there
    have honly : Building (s.stage p) → ∀ q, q ≠ p → ¬ Building (s.stage q) :=
      fun hp q hq hb => hq (h.unique q p hb hp)
    have hmode : Building (s.stage p) → s.mode ≠ .absent :=
      fun hp he => (h.absent he).1 p hp
    -- a call of the system that fails only sends `p` elsewhere
    have opened : ∀ k e, (s.goto p (openFailed k e)).Protocol := by
      intro k e
      rcases openFailed_cases k e with he | he <;> rw [he] <;>
        exact h.goto trivial (fun hb => hb.elim)
    have closed : ∀ e, (s.goto p (createReturns (some e))).Protocol := by
      intro e
      rcases createReturns_some e with he | he <;> rw [he] <;>
        exact h.goto trivial (fun hb => hb.elim)
    cases hst : s.stage p with
    | openFile k =>
      cases a with
      | some e => simp only [Callers.advance, hst, Option.some.injEq] at ha; exact ha ▸ opened k e
      | none =>
        simp only [Callers.advance, hst, Option.ite_none_right_eq_some, Option.some.injEq] at ha
        exact ha.2 ▸ h.goto (h.final ha.1) (fun hb => hb.elim)
    | openMmap k =>
      rw [hst] at hk
      cases a with
      | some e => simp only [Callers.advance, hst, Option.some.injEq] at ha; exact ha ▸ opened k e
      | none =>
        simp only [Callers.advance, hst, Option.some.injEq] at ha
        exact ha ▸ h.goto hk (fun hb => hb.elim)
    | openClose k =>
      rw [hst] at hk
      cases a with
      | some e => simp only [Callers.advance, hst, Option.some.injEq] at ha; exact ha ▸ opened k e
      | none =>
        simp only [Callers.advance, hst, Option.some.injEq] at ha
        exact ha ▸ h.goto hk (fun hb => hb.elim)
    | create =>
      cases a with
      | some e => simp only [Callers.advance, hst, Option.some.injEq] at ha; exact ha ▸ closed e
      | none =>
        simp only [Callers.advance, hst, Option.ite_none_right_eq_some, Option.some.injEq] at ha
        -- `O_EXCL`: the file was absent, so nobody had begun
        obtain ⟨habs, rfl⟩ := ha
        obtain ⟨hno, hin⟩ := h.absent habs
        exact h.creator (fun q _ => hno q) rfl id hin (by simp) h.once (by simp)
    | ftruncate =>
      rw [hst] at hk
      cases a with
      | some e =>
        simp only [Callers.advance, hst, Option.some.injEq] at ha
        exact ha ▸ h.goto trivial (fun hb => hb.elim)
      | none =>
        simp only [Callers.advance, hst, Option.some.injEq] at ha
        exact ha ▸ h.goto hk (fun _ => hst ▸ trivial)
    | createMmap =>
      rw [hst] at hk
      cases a with
      | some e =>
        simp only [Callers.advance, hst, Option.some.injEq] at ha
        exact ha ▸ h.goto trivial (fun hb => hb.elim)
      | none =>
        simp only [Callers.advance, hst, Option.some.injEq] at ha
        exact ha ▸ h.goto hk (fun _ => hst ▸ trivial)
    | slabInit =>
      rw [hst] at hk honly hmode
      obtain ⟨hin, hon⟩ := hk
      have once : (p :: s.inits).length ≤ 1 ∧ s.onInits.length ≤ 1 ∧
          ∀ q ∈ s.onInits, q ∈ p :: s.inits := by simp [hin, hon]
      cases a with
      | some e =>
        simp only [Callers.advance, hst, Option.some.injEq] at ha
        exact ha ▸ h.creator (honly trivial) rfl id trivial (hmode trivial) once h.final
      | none =>
        simp only [Callers.advance, hst, Option.some.injEq] at ha
        exact ha ▸ h.creator (honly trivial) rfl (fun hi => ⟨rfl, hi.2⟩)
          ⟨List.mem_cons_self, rfl, hon⟩ (hmode trivial) once (fun hf => ⟨rfl, (h.final hf).2⟩)
    | onInit =>
      rw [hst] at hk honly hmode
      obtain ⟨hin, hok, hon⟩ := hk
      have once : s.inits.length ≤ 1 ∧ (p :: s.onInits).length ≤ 1 ∧
          ∀ q ∈ p :: s.onInits, q ∈ s.inits := by simp [hin, hon, h.once.1]
      cases a with
      | some e =>
        simp only [Callers.advance, hst, Option.some.injEq] at ha
        exact ha ▸ h.creator (honly trivial) rfl id trivial (hmode trivial) once h.final
      | none =>
        simp only [Callers.advance, hst, Option.some.injEq] at ha
        exact ha ▸ h.creator (honly trivial) rfl (fun hi => ⟨hi.1, rfl⟩) ⟨hok, rfl⟩
          (hmode trivial) once (fun _ => ⟨hok, rfl⟩)
    | fchmod =>
      rw [hst] at hk honly
      cases a with
      | some e =>
        simp only [Callers.advance, hst, Option.some.injEq] at ha
        exact ha ▸ h.goto trivial (fun hb => hb.elim)
      | none =>
        simp only [Callers.advance, hst, Option.some.injEq] at ha
        exact ha ▸ h.creator (honly trivial) rfl id hk (by simp) h.once (fun _ => hk)
    | createClose err =>
      rw [hst] at hk
      cases err with
      | some e =>
        cases a <;> simp only [Callers.advance, hst, Option.some.injEq] at ha <;>
          exact ha ▸ closed e
      | none =>
        simp only [Callers.advance, hst, Option.some.injEq] at ha
        cases a with
        | some e => exact ha ▸ closed e
        | none => exact ha ▸ h.goto hk (fun hb => hb.elim)
    | nanosleep =>
      cases a <;> simp only [Callers.advance, hst, Option.some.injEq] at ha <;>
        exact ha ▸ h.goto trivial (fun hb => hb.elim)
    | returned pool => cases a <;> simp [Callers.advance, hst] at ha
    | dead => cases a <;> simp [Callers.advance, hst] at ha

/-- **The creation protocol.** In every run one call at most runs `mps_slab_init` and
`on_init`, each once, and when a call has returned a pool both have completed. The number
of callers is arbitrary, and so are the failures. -/
theorem creation_protocol (hrun : Run s) :
    s.inits.length ≤ 1 ∧ s.onInits.length ≤ 1 ∧ (∀ p ∈ s.onInits, p ∈ s.inits) ∧
      ∀ p, s.stage p = .returned true → s.initOk = true ∧ s.onInitOk = true := by
  have h : s.Protocol := by
    induction hrun with
    | start => exact .start
    | step _ hs ih => exact ih.step hs
  refine ⟨h.once.1, h.once.2.1, h.once.2.2, ?_⟩
  intro p hp
  have hk := h.knows p
  rw [hp] at hk
  exact hk

/-- **Two calls race for the file.**  Both find none, and the first one creates it.  The second
may neither create nor open what is not ready: it gets `EEXIST`, waits and opens the file
when it has its final mode.  A third call gets `EACCES` in between and gives up. -/
theorem creation_protocol_race : ∃ s : Callers Nat, s.stage 0 = .returned true ∧
    s.stage 1 = .returned true ∧ s.stage 2 = .returned false ∧
    s.inits.length ≤ 1 ∧ s.onInits.length ≤ 1 ∧ (∀ p ∈ s.onInits, p ∈ s.inits) ∧
    ∀ p, s.stage p = .returned true → s.initOk = true ∧ s.onInitOk = true := by
  have absent := (Run.start.step (.advance 0 (some .enoent) rfl)).step
    (.advance 1 (some .enoent) rfl)
  have created := (absent.step (.advance 0 none rfl)).step (.advance 1 (some .eexist) rfl)
  have mapped := (created.step (.advance 0 none rfl)).step (.advance 0 none rfl)
  have denied := (mapped.step (.advance 2 (some .eacces) rfl)).step (.advance 2 (some .other) rfl)
  have ready := ((denied.step (.advance 0 none rfl)).step (.advance 0 none rfl)).step
    (.advance 0 none rfl)
  have opened := ((ready.step (.advance 1 none rfl)).step (.advance 1 none rfl)).step
    (.advance 1 none rfl)
  have closed := (opened.step (.advance 0 none rfl)).step (.advance 1 none rfl)
  exact ⟨_, rfl, rfl, rfl, creation_protocol closed⟩

end Callers

end MpsShdict.SlabCreate
