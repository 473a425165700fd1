import MpsShdict.ShdictWrap
import MpsShdict.SlabGiven

/-! # The blocks of the dictionary

What the allocator has given out is the header of the dictionary, one block for each entry
and one for each element of a list.

So no call loses a block and none gives one back twice, on whatever path it returns. The
allocator's own books are compared with the entries after any number of calls: the blocks
that are given out are just these, no two of them overlap, no free has been refused, and
an empty dictionary has all of its free space back.

The one exception is a list whose length is kept in 32 bits and has gone round to zero.
The pop of an element then removes the entry, and leaves the other elements where nothing
refers to them.
-/
namespace MpsShdict

open RedBlack RedBlack.RbTree
open Words

/-- **The states that events lead to** from `d₀`, each as `G` says, the last event first.
The first state is named here, since the free space is compared with that of the
beginning. -/
inductive RunFrom (s : Nat) (G : Event → List Entry → Prop) (d₀ : Shdict) : List Event →
    Shdict → Prop where
  | init : RunFrom s G d₀ [] d₀
  | call {xs : List Event} {d d' : Shdict} {x : Event} (run : RunFrom s G d₀ xs d)
      (h : x.Runs s d d') (hG : G x d.entries) : RunFrom s G d₀ (x :: xs) d'

/-- What the dictionary `d` has of its pool, when it was `d₀` right after creation.
`Given` is read from the slots and bitmaps of the allocator, `dictBlocks` from the
entries. -/
structure BlocksExact (s : Nat) (d₀ d : Shdict) : Prop where
  /-- The header, a block for each entry and a block for each element are given out, and
  nothing else is. -/
  given : ∀ base p, 2 ^ s ∣ base → (Given (mpsSlabSizesInit (2 ^ s)) base d.pool p ↔
    ∃ b ∈ dictBlocks d d.entries [], b.off = p)
  /-- None of them is another one. -/
  apart : (dictBlocks d d.entries []).Pairwise fun a b => Clear a.off a.size b.off b.size
  /-- The entries are those of the tree. -/
  tree : ∃ t, RbRep d.rbtree t ∧ t.inorder.Perm (d.entries.map Entry.off)
  /-- No free has been refused. -/
  log : ∀ m ∈ d.pool.log, m = .noMemory
  /-- An empty dictionary has all of its free space back. -/
  space : d.entries = [] →
    mpsShdictFreeSpace (mpsSlabSizesInit (2 ^ s)) d =
      mpsShdictFreeSpace (mpsSlabSizesInit (2 ^ s)) d₀

section Blocks
variable {s : Nat} {ord : Prop} {d₀ d d' : Shdict} {L : List Entry} {spare : List Block} {x : Event}
  {xs : List Event} {G : Event → List Entry → Prop}

theorem RunFrom.runWith (h : Fresh s d₀) (run : RunFrom s G d₀ xs d) : RunWith s G xs d := by
  induction run with
  | init => exact .init h
  | call run hx hG ih => exact .call ih hx hG

/-- A run begins somewhere. -/
theorem RunWith.runFrom (run : RunWith s G xs d) : ∃ d₀, Fresh s d₀ ∧ RunFrom s G d₀ xs d := by
  induction run with
  | init h => exact ⟨_, h, .init⟩
  | call run hx hG ih =>
    obtain ⟨d₀, h, run⟩ := ih
    exact ⟨d₀, h, .call run hx hG⟩

/-- A call leaves the header of the pool, and writes no message but of a lack of memory. A
free that is refused would write one of the others. -/
theorem Event.Runs.quiet (hx : x.Runs s d d')
    (h : Rep (mpsSlabSizesInit (2 ^ s)) s False d L spare) :
    Quiet d.pool d'.pool := by
  obtain ⟨hbase, hok, hrun⟩ := hx
  obtain ⟨c, -, d'', hrun', -, hquiet⟩ := Call.run_spec x.env hok h False.elim
  have he := Option.some.inj ((hrun' x.base hbase).symm.trans hrun)
  obtain ⟨rfl, -⟩ := Prod.mk.inj he
  exact hquiet

/-- What a run leaves of the pool. -/
theorem RunFrom.quiet (hs : 12 ≤ s) (hs' : s ≤ 16) (h : Fresh s d₀) (run : RunFrom s G d₀ xs d) :
    Quiet d₀.pool d.pool := by
  induction run with
  | init => exact .refl _
  | call run hx hG ih =>
    obtain ⟨L, spare, hrep⟩ := (run.runWith h).run.rep hs hs'
    exact ih.trans (hx.quiet hrep)

/-- No message has been written to a fresh dictionary. -/
theorem Fresh.log_nil (hs : 12 ≤ s) (hs' : s ≤ 16) (h : Fresh s d) : d.pool.log = [] := by
  obtain ⟨base, poolSize, minShift, desc, stat, word, hbase, hm, hroom, hlt, hpool, hinit⟩ := h
  next d₁ =>
  obtain ⟨pages, P, -, -, -, -, -, -, hlog, -⟩ := mpsSlabInit_ok rfl hs hs' hm hbase hroom hlt hpool
  have hrun :=
    (SlabRun.init base poolSize minShift desc stat word hbase hm hroom hlt hpool).inv hs hs'
  obtain ⟨pool, p, halloc, -⟩ := hrun.alloc_step sizeofTree
  have halloc' : mpsSlabAllocLocked (mpsSlabSizesInit (2 ^ s)) d₁.rounds d₁.pool sizeofTree =
      some (pool, p) := halloc
  simp only [mpsShdictOnInit, halloc', Option.bind_eq_bind, Option.bind_some] at hinit
  cases p with
  | none => simp at hinit
  | some tree =>
    simp only [Option.some.injEq, Except.ok.injEq] at hinit
    subst hinit
    exact (mpsSlabAllocLocked_log halloc).trans hlog

/-- **A dictionary that has lost track of nothing** has exactly its blocks. The
representation says which blocks the allocator has given out, so what is left is to read
it. -/
theorem Rep.blocksExact (hrep₀ : Rep (mpsSlabSizesInit (2 ^ s)) s ord d₀ [] [])
    (hrep : Rep (mpsSlabSizesInit (2 ^ s)) s ord d d.entries []) (hquiet : Quiet d₀.pool d.pool)
    (hlog : d₀.pool.log = []) : BlocksExact s d₀ d := by
  obtain ⟨tree, hr, hperm, -⟩ := hrep.shape.hung.tree
  refine ⟨fun base p hbase => SlabInv.given_iff hrep.owns hbase,
    hrep.owns.apart.apart, ⟨tree, hr, hperm⟩, ?_, ?_⟩
  · intro m hm
    rcases hquiet.log m hm with hm | hm
    · rw [hlog] at hm
      cases hm
    · exact hm
  · intro hnil
    have howns := hrep.owns
    rw [hnil] at howns
    have howns₀ : Owns (mpsSlabSizesInit (2 ^ s)) s d₀.pool (dictBlocks d [] []) := by
      rw [dictBlocks, hquiet.data]
      exact hrep₀.owns
    rw [Owns, hquiet.pageTotal] at howns
    rw [mpsShdictFreeSpace, mpsShdictFreeSpace,
      SlabInv.pfree_unique howns₀ howns hquiet.toSameHeader]

/-- **No call loses a block, or gives one back twice**, in every run in which no push gets
to a list of `2 ^ 32 - 1` elements. -/
theorem blocks_exact (hs : 12 ≤ s) (hs' : s ≤ 16) (h : Fresh s d₀)
    (run : RunFrom s (fun x L => x.call.Counts x.env L) d₀ xs d) : BlocksExact s d₀ d := by
  obtain ⟨hrep, -⟩ : Rep (mpsSlabSizesInit (2 ^ s)) s False d d.entries [] ∧ Counted d.entries :=
    RunWith.tidy False hs hs' ((run.runWith h).mono fun _ _ h => ⟨False.elim, h⟩)
  exact Rep.blocksExact (h.rep hs hs') hrep (run.quiet hs hs' h) (h.log_nil hs hs')

end Blocks

/-- **After two frees.**  A boolean and two elements were stored, one element has been popped,
and the boolean has been deleted. -/
theorem blocks_exact_deletedDict : BlocksExact 12 emptyDict deletedDict := by
  exact blocks_exact (by decide) (by decide) fresh_emptyDict
    (.call (.call (.call (.call (.call .init booleanStore_runs trivial)
      numberPush_runs numberPush_counts) stringPush_runs stringPush_counts)
      stringPop_runs trivial) booleanDelete_runs trivial)

/-! ### Elements that are lost -/

/-- An element of a list is popped, if the buffer need not be large enough, since there is
memory to copy it to. -/
theorem Elem.Typed.popped {env : Env} {x : Elem} (ht : x.Typed) (hmalloc : env.malloc = true)
    (bufLen : Nat) :
    (elemResult env x bufLen).2 = true := by
  unfold elemResult
  rcases ht with hty | ⟨hty, hsize⟩
  · rw [hty]
    simp [hmalloc]
  · rw [hty]
    simp only [dif_pos (show x.bytes.length = 8 from hsize)]

/-- **A list of `2 ^ 32 + 1` elements goes with its first element**, and the others are
lost. The length of what is left reads as zero, and the pop frees the entry. -/
theorem popEntries_loses {c : Choice} {e : Entry} {x : Elem} {elems : List Elem} {key : Bytes}
    (hc : (Call.pop .left key 1).Picks True (calmEnv 0) [e] c)
    (hkey : e.key = key) (hexp : e.expires = 0)
    (hv : e.value = .list (x :: elems)) (hlen : elems.length = 2 ^ 32) (ht : x.Typed) :
    (popEntries (calmEnv 0) .left 1 c [e]).entries = [] ∧
      (popEntries (calmEnv 0) .left 1 c [e]).leaked = elems.map Elem.block := by
  have hafter : afterExpire (calmEnv 0) [e] = [e] := by
    simp [afterExpire, expireEntries, expireKeeps, hexp]
  have hfinds := hc.finds key rfl
  rw [show (Call.pop .left key 1).seen (calmEnv 0) [e] = [e] from hafter] at hfinds
  have hone : u32 (x :: elems).length = 1 := by
    rw [List.length_cons, hlen]
    rfl
  have htake : takeElem .left (x :: elems) = some (x, elems) := rfl
  have hpopped : (elemResult (calmEnv 0) x 1).2 = true := ht.popped rfl 1
  rw [popEntries, hafter, hfinds.only hkey, hit, if_neg (by simp [lookupExpired, hexp])]
  simp only [hv, popList, htake, hone, hpopped, if_true,
    others, List.erase_cons_head, Nat.one_ne_zero, if_false, and_self]

/-- **The elements behind the first of `2 ^ 32 + 1` are never given back.** One pop takes
the entry with the first element, and the allocator still has the others as given out. -/
theorem not_blocksExact : ¬ ∀ s d₀ xs d, 12 ≤ s → s ≤ 16 → Fresh s d₀ →
    RunFrom s (fun _ _ => True) d₀ xs d → BlocksExact s d₀ d := by
  intro hall
  obtain ⟨d₁, hfresh₁, hfree⟩ := exists_largeDict
  obtain ⟨xs, d, run, ⟨e, elems, spare, hrep, hkey, hexp, hv, hlen⟩, -⟩ :=
    exists_longList (n := 2 ^ 32 + 1) (by decide) (by decide) hfresh₁ (by decide) (by omega)
  have hany : RunWith 12 (fun _ _ => True) xs d := run.mono fun _ _ _ => trivial
  obtain ⟨d₀, hfresh, run₀⟩ := hany.runFrom
  have hok : (Call.pop .left [65] 1).Ok := ⟨by decide, by decide⟩
  obtain ⟨c, hc, d', hrun, hrep', -⟩ := Call.run_spec (calmEnv 0) hok hrep fun _ => trivial
  have hpop : (⟨0, calmEnv 0, .pop .left [65] 1, _, _⟩ : Event).Runs 12 d d' :=
    ⟨Nat.dvd_zero _, hok, hrun 0 (Nat.dvd_zero _)⟩
  have hexact := hall 12 d₀ _ d' (by decide) (by decide) hfresh (.call run₀ hpop trivial)
  have htyped := run.run.typed (by decide) (by decide) e
    (by rw [hrep.entries_eq]; exact List.mem_cons_self)
  rw [hv] at htyped
  cases elems with
  | nil => cases hlen
  | cons x elems =>
    have hrest : elems.length = 2 ^ 32 := Nat.succ.inj hlen
    obtain ⟨hnil, hleaked⟩ := popEntries_loses hc hkey hexp hv hrest (htyped x List.mem_cons_self)
    replace hnil : ((Call.pop .left [65] 1).entries (calmEnv 0) c [e]).entries = [] := hnil
    replace hleaked : ((Call.pop .left [65] 1).entries (calmEnv 0) c [e]).leaked =
      elems.map Elem.block := hleaked
    rw [hnil, hleaked] at hrep'
    cases elems with
    | nil => cases hrest
    | cons y elems =>
      -- the second element is given out, but it is none of the dictionary's
      obtain ⟨b, hb, hoff⟩ := (hexact.given 0 y.off (Nat.dvd_zero _)).mp
        (SlabInv.given hrep'.owns (Nat.dvd_zero _) (b := y.block) (by simp [dictBlocks]))
      rw [hrep'.entries_eq] at hb
      have hheader : b = ⟨d'.pool.data, sizeofTree⟩ := List.mem_singleton.mp hb
      have hclear := (List.pairwise_cons.mp hrep'.owns.apart.apart).1 y.block (by simp)
      rw [hheader] at hoff
      simp only [Clear, Elem.block, sizeofTree, offsetofListData] at hclear hoff
      omega

end MpsShdict
