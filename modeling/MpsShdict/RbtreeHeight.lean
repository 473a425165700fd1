import MpsShdict.RbtreeNext
import MpsShdict.Lib.Rounds
import MpsShdict.Lib.RedBlackHeight

/-! # The cost of the tree operations

The loops of `mps_rbtree.c` follow one path down or up the tree, and a red-black tree of
`n` nodes is no higher than `2 * log2 (n + 1)`. Neither loop of the two fixups turns
round: each round leaves less of the path to the root.

Each loop is bounded by the height of the tree it runs in, and `rbtree_logarithmic` puts
the logarithm in. Two of the bounds need a look at what comes before the loop. An
insertion climbs from the leaf at which it hung the node, whose path is as long as the
tree is high; a deletion climbs from where the successor was, in the tree as it is
relinked, and that the path there is one of the old tree is a lemma of its own
(`deleteRelink_lacks`). For every loop more rounds change nothing, so the bound is on what
the code does and not on what it is allowed to do.
-/
namespace MpsShdict

open RedBlack RedBlack.RbTree Rounds

/-! ### More rounds change nothing -/

section Steady
variable {m : RbMem} {h : RbHeap} {keyOf : Nat → Bytes} {less : RbMem → Nat → Nat → Bool}
  {node temp sentinel : Nat}

theorem insertValueBy_steady : Steady fun fuel => insertValueBy less fuel m temp node sentinel := by
  intro fuel m' hrun
  induction fuel generalizing temp with
  | zero => cases hrun
  | succ fuel ih =>
    simp only [insertValueBy] at hrun ⊢
    generalize (if less m node temp then Side.left else .right) = p at hrun ⊢
    split at hrun
    · exact (if_pos ‹_›).trans hrun
    · exact (if_neg ‹_›).trans (ih hrun)

theorem insertFixup_steady : Steady fun fuel => insertFixup fuel h node := by
  intro fuel h' hrun
  induction fuel generalizing h node with
  | zero => cases hrun
  | succ fuel ih =>
    simp only [insertFixup] at hrun ⊢
    split at hrun
    · exact (if_pos ‹_›).trans (ih hrun)
    · exact (if_neg ‹_›).trans hrun

theorem mpsRbtreeInsert_steady : Steady fun fuel => mpsRbtreeInsert fuel keyOf h node := by
  refine Steady.ite (.const _) (.bind insertValueBy_steady fun m => ?_)
  exact .bind insertFixup_steady fun _ => .const _

theorem mpsRbtreeMin_steady : Steady fun fuel => mpsRbtreeMin fuel m node sentinel := by
  intro fuel x hrun
  induction fuel generalizing node with
  | zero => cases hrun
  | succ fuel ih =>
    simp only [mpsRbtreeMin] at hrun ⊢
    split at hrun
    · exact (if_pos ‹_›).trans (ih hrun)
    · exact (if_neg ‹_›).trans hrun

theorem deleteTargets_steady : Steady fun fuel => deleteTargets fuel h node :=
  .ite (.const _) (.ite (.const _) (.bind mpsRbtreeMin_steady fun _ => .const _))

theorem deleteFixup_steady : Steady fun fuel => deleteFixup fuel h temp := by
  intro fuel h' hrun
  induction fuel generalizing h temp with
  | zero => cases hrun
  | succ fuel ih =>
    simp only [deleteFixup] at hrun ⊢
    split at hrun
    · exact (if_pos ‹_›).trans (ih hrun)
    · exact (if_neg ‹_›).trans hrun

theorem mpsRbtreeDelete_steady : Steady fun fuel => mpsRbtreeDelete fuel h node := by
  refine Steady.bind deleteTargets_steady fun (subst, temp) => ?_
  exact .ite (.const _) (.ite (.const _) deleteFixup_steady)

theorem nextClimb_steady : Steady fun fuel => nextClimb fuel h node := by
  intro fuel x hrun
  induction fuel generalizing node with
  | zero => cases hrun
  | succ fuel ih =>
    simp only [nextClimb] at hrun ⊢
    split at hrun
    · exact (if_pos ‹_›).trans hrun
    · split at hrun
      · exact (if_neg ‹_›).trans ((if_pos ‹_›).trans hrun)
      · exact (if_neg ‹_›).trans ((if_neg ‹_›).trans (ih hrun))

theorem mpsRbtreeNext_steady : Steady fun fuel => mpsRbtreeNext fuel h node :=
  .ite (.map mpsRbtreeMin_steady) nextClimb_steady

end Steady

/-! ### As many rounds as the tree is high -/

section Height
variable {m : RbMem} {h : RbHeap} {t : RbTree Nat} {s p r z : Nat}

/-- The way to the least node makes one step to the left in each round. -/
theorem mpsRbtreeMin_height (ht : IsTree m s p t r) (hne : t ≠ .nil) :
    EndsWithin t.height fun fuel => mpsRbtreeMin fuel m r s := by
  suffices h : ∃ y, mpsRbtreeMin t.height m r s = some y from
    mpsRbtreeMin_steady.endsWithin h.choose_spec
  induction t generalizing p r with
  | nil => exact absurd rfl hne
  | node c l x rt ihl ihr =>
    obtain ⟨rfl, -, -, -, hl, -⟩ := ht
    rw [height, mpsRbtreeMin]
    by_cases hln : l = .nil
    · subst hln
      have hleft : (m r).left = s := hl
      exact ⟨r, if_neg (not_not.mpr hleft)⟩
    · have hleft : (m r).left ≠ s := (hl.root_ne hln).1
      obtain ⟨y, hy⟩ := ihl hl hln
      exact ⟨y, (if_pos hleft).trans (mpsRbtreeMin_steady.mono hy (Nat.le_max_left _ _))⟩

/-- The way down of an insertion goes through one node in each round, whatever the
comparison answers. -/
theorem insertValueBy_height {less : RbMem → Nat → Nat → Bool} (ht : IsTree m s p t r)
    (hne : t ≠ .nil) :
    EndsWithin t.height fun fuel => insertValueBy less fuel m r z s := by
  suffices h : ∃ m', insertValueBy less t.height m r z s = some m' from
    insertValueBy_steady.endsWithin h.choose_spec
  -- induction on the tree below the node that is looked at
  induction t generalizing p r with
  | nil => exact absurd rfl hne
  | node c l x rt ihl ihr =>
    set d : Side := if less m z x then .left else .right with hd
    obtain ⟨a, b, hon, ih⟩ : ∃ a b, RbTree.node c l x rt = on d c a x b ∧ ∀ {p r : Nat},
        IsTree m s p a r → a ≠ .nil → ∃ m', insertValueBy less a.height m r z s = some m' := by
      cases d
      · exact ⟨l, rt, rfl, ihl⟩
      · exact ⟨rt, l, rfl, ihr⟩
    rw [hon] at ht ⊢
    obtain ⟨rfl, -, -, -, ha, -⟩ := isTree_on.mp ht
    rw [height_on]
    simp only [insertValueBy, ← hd]
    by_cases han : a = .nil
    · subst han
      have hch : (m r).child d = s := ha
      exact ⟨_, if_pos hch⟩
    · obtain ⟨m', hm'⟩ := ih ha han
      exact ⟨m', (if_neg (ha.root_ne han).1).trans
        (insertValueBy_steady.mono hm' (Nat.le_max_left _ _))⟩

/-- **An insertion** goes down one path and up the same one. Two rounds more than the
height are enough for either loop. -/
theorem mpsRbtreeInsert_height {keyOf : Nat → Bytes} (hr : RbRep h t) (hzn : z ∉ t.inorder)
    (hzs : z ≠ h.tree.sentinel) :
    EndsWithin (t.height + 2) fun fuel => mpsRbtreeInsert fuel keyOf h z := by
  suffices h : ∃ h', mpsRbtreeInsert (t.height + 2) keyOf h z = some h' from
    mpsRbtreeInsert_steady.endsWithin h.choose_spec
  obtain ⟨p, hz⟩ := hr.zip
  by_cases ht : t = .nil
  · have hroot : h.tree.root = h.tree.sentinel := hr.nil_iff.mpr ht
    rw [mpsRbtreeInsert, if_pos hroot]
    exact ⟨_, rfl⟩
  · have hroot : h.tree.root ≠ h.tree.sentinel := fun he => ht (hr.nil_iff.mp he)
    obtain ⟨ps, m', q, he, -, -, hrun, hz', hk⟩ :=
      insertValueBy_spec (insertValues keyOf h.tree.insert) t ht hz hzn hzs le_rfl
    rw [List.append_nil] at hz'
    have hdown : insertValueBy (insertValues keyOf h.tree.insert)
        (t.height + 2) h.node h.tree.root z
        h.tree.sentinel = some m' :=
      insertValueBy_steady.eq_of_endsWithin hrun
        ((insertValueBy_height hz.sub ht).mono (Nat.le_add_right _ 2))
    obtain ⟨n₀, hval⟩ := hr.valid
    obtain ⟨c, n, hnil, hacc, -⟩ := of_fill_valid (he ▸ hval) fun _ => rfl
    cases hnil
    have hs : h.tree.sentinel ∉ z :: t.inorder := by
      rw [List.mem_cons, not_or]
      exact ⟨hzs.symm, hr.sentinel_notMem⟩
    have hlen : ps.length ≤ t.height := by
      have h := length_add_height_le (t := .nil) ps
      rw [← he] at h
      exact (Nat.le_add_right _ _).trans h
    obtain ⟨h₁, t', hfix, -⟩ := insertFixup_spec ps.length le_rfl
      (Nat.add_le_add_right hlen 2) hz' (.red .nil .nil) (hk.black hs hr.black) hacc
    simp only [mpsRbtreeInsert, hroot, ↓reduceIte,
      hdown, hfix, Option.bind_eq_bind, Option.bind_some]
    exact ⟨_, rfl⟩

/-- The tree lacks a level of black nodes at `temp`, below a path of fewer than `k` nodes. -/
def Lacks (k : Nat) (h : RbHeap) (temp : Nat) : Prop :=
  ∃ fs t p c n, Zip h fs t temp p ∧ (h.node temp).parent = p ∧ (h.node h.tree.sentinel).color = 0 ∧
    Valid t c n ∧ Accepts fs (n + 1) ∧ fs.length < k

/-- The fixup loop climbs that path at most, and comes to an end. -/
theorem Lacks.deleteFixup {k temp : Nat} (hl : Lacks k h temp) :
    ∃ h', deleteFixup (k + 1) h temp = some h' := by
  obtain ⟨fs, t, p, c, n, hz, hpar, hb, hv, hacc, hlen⟩ := hl
  have hfix : RestoredBy (fill fs t).inorder h (MpsShdict.deleteFixup (k + 1) h temp) := by
    cases c with
    | red =>
      obtain ⟨a, x, b, rfl, ha, hb'⟩ := hv.exists_red .left
      exact deleteFixup_exit hz (.red ha hb' hacc) hb
    | black => exact deleteFixup_spec fs.length le_rfl (by omega) hz (fun _ => hpar) hb hv hacc
  obtain ⟨h', -, hrun, -⟩ := hfix
  exact ⟨h', hrun⟩

/-- **The relinking of a deletion** leaves the node that moves up at the end of a path that
was in the tree before. -/
theorem deleteRelink_lacks {fuel subst temp : Nat} (hr : RbRep h t) (hzt : z ∈ t.inorder)
    (htar : deleteTargets fuel h z = some (subst, temp)) (hroot : subst ≠ h.tree.root)
    (hblack : ngxRbtIsRed h.node subst = false) :
    Lacks t.height { deleteRelink h z subst temp with
      node := debugStuff (deleteRelink h z subst temp).node z } temp := by
  obtain ⟨fs, c, l, r, rfl⟩ := exists_path hzt
  obtain ⟨m, hval⟩ := hr.valid
  obtain ⟨cz, n, hvz, haccz, -⟩ := of_fill_valid hval fun _ => rfl
  obtain ⟨p₀, hz₀⟩ := hr.zip
  obtain ⟨hole, p, hz⟩ := hz₀.down_all
  rw [List.append_nil] at hz
  obtain ⟨he, hzs, -, hzc, hlt, hrt⟩ := hz.sub
  subst hole
  have hcolor : ∀ {c : Color} {x : Nat}, (h.node x).color = colorCode c →
      ngxRbtIsRed h.node x = false → c = .black := by
    intro c x hc hred
    rw [ngxRbtIsRed, hc] at hred
    cases c with
    | red => cases hred
    | black => rfl
  have hsentinel : ∀ {h' : RbHeap} {L : List Nat}, Removes L z h h' →
      (h'.node h'.tree.sentinel).color = 0 := by
    intro h' L hrem
    rw [hrem.sentinel, hrem.black, hr.black]
  -- the node has at most one child
  have one : ∀ (d : Side) (a : RbTree Nat), RbTree.node c l z r = on d c .nil z a → subst = z →
      temp = (h.node z).child d.other →
      Lacks (fill fs (.node c l z r)).height { deleteRelink h z subst temp with
        node := debugStuff (deleteRelink h z subst temp).node z } temp := by
    intro d a hda hsubst ht
    rw [hsubst] at hroot hblack ⊢
    have hlen : fs.length < (fill fs (.node c l z r)).height := length_lt_height
    rw [hda] at hz hvz hlen ⊢
    cases fs with
    | nil => exact absurd hz.root.1 hroot
    | cons f fs =>
      obtain ⟨h1, h2, h3⟩ := deleteRelink_self hz ht
      obtain rfl := hcolor hzc hblack
      obtain ⟨-, k, cn, ca, rfl, -, ha⟩ := hvz.of_onBlack
      exact ⟨_, a, p, ca, k, h1, h2, hsentinel h3, ha, haccz, hlen⟩
  by_cases hl : l = .nil
  · subst hl
    have hleft : (h.node z).left = h.tree.sentinel := hlt
    rw [deleteTargets, if_pos hleft] at htar
    cases htar
    exact one .left r rfl rfl rfl
  · have hleft : (h.node z).left ≠ h.tree.sentinel := (hlt.root_ne hl).1
    by_cases hrn : r = .nil
    · subst hrn
      have hright : (h.node z).right = h.tree.sentinel := hrt
      rw [deleteTargets, if_neg hleft, if_pos hright] at htar
      cases htar
      exact one .right l rfl rfl rfl
    · -- the node has two children
      have hright : (h.node z).right ≠ h.tree.sentinel := (hrt.root_ne hrn).1
      obtain ⟨gs, cy, y, B, rfl, hgs, hmin⟩ := mpsRbtreeMin_spec hrt hrn le_rfl
      rw [deleteTargets, if_neg hleft, if_neg hright] at htar
      obtain ⟨y', hy', htar⟩ := Option.bind_eq_some_iff.mp htar
      cases htar
      obtain rfl : subst = y := mpsRbtreeMin_steady.agree hy' hmin
      obtain ⟨q, h1, h2, h3⟩ := deleteRelink_other hz hl hgs rfl
      have hfill : fill fs (.node c l z (fill gs (.node cy .nil subst B))) =
          fill (gs ++ ⟨.right, c, z, l⟩ :: fs) (.node cy .nil subst B) :=
        (fill_append gs (⟨.right, c, z, l⟩ :: fs) _).symm
      obtain ⟨cy', n', hvy, haccy, -⟩ := of_fill_valid (hfill ▸ hval) fun _ => rfl
      obtain ⟨hole', p', hz₂⟩ := (hz.down (d := .right)).2.2.down_all
      obtain ⟨he, -, -, hyc, -, -⟩ := hz₂.sub
      subst hole'
      obtain rfl := hcolor hyc hblack
      obtain ⟨-, k, cn, cB, rfl, -, hB⟩ := Valid.of_onBlack (d := .left) hvy
      have hlen : (gs ++ (⟨.right, c, z, l⟩ : Frame Nat) :: fs).length <
          (fill fs (.node c l z (fill gs (.node .black .nil subst B)))).height := by
        rw [hfill]
        exact length_lt_height
      rw [List.length_append, List.length_cons] at hlen
      refine ⟨_, B, q, cB, k, h1, h2, hsentinel h3, hB, accepts_replace.mp haccy, ?_⟩
      rwa [List.length_append, List.length_cons]

/-- **A deletion** goes down one path and up the same one: down to the successor, and up
from the place that it left. -/
theorem mpsRbtreeDelete_height (hr : RbRep h t) (hzt : z ∈ t.inorder) :
    EndsWithin (t.height + 1) fun fuel => mpsRbtreeDelete fuel h z := by
  suffices h : ∃ h', mpsRbtreeDelete (t.height + 1) h z = some h' from
    mpsRbtreeDelete_steady.endsWithin h.choose_spec
  obtain ⟨⟨subst, temp⟩, htar⟩ : ∃ x, deleteTargets (t.height + 1) h z = some x := by
    rw [deleteTargets]
    split
    · exact ⟨_, rfl⟩
    split
    · exact ⟨_, rfl⟩
    · next hright =>
      obtain ⟨fs, c, l, r, rfl⟩ := exists_path hzt
      obtain ⟨p₀, hz₀⟩ := hr.zip
      obtain ⟨hole, p, hz⟩ := hz₀.down_all
      obtain ⟨he, -, -, -, -, hrt⟩ := hz.sub
      subst hole
      have hrn : r ≠ .nil := by
        rintro rfl
        exact hright hrt
      obtain ⟨y, hy⟩ := mpsRbtreeMin_height hrt hrn
      have hlen := length_add_height_le (t := .node c l z r) fs
      rw [height] at hlen
      rw [show mpsRbtreeMin _ h.node (h.node z).right h.tree.sentinel = some y from hy _ (by omega)]
      exact ⟨_, rfl⟩
  simp only [mpsRbtreeDelete, htar, Option.bind_eq_bind, Option.bind_some]
  by_cases hroot : subst = h.tree.root
  · exact ⟨_, if_pos hroot⟩
  · rw [if_neg hroot]
    cases hred : ngxRbtIsRed h.node subst with
    | true => exact ⟨_, if_pos rfl⟩
    | false =>
      rw [if_neg Bool.false_ne_true]
      exact (deleteRelink_lacks hr hzt htar hroot hred).deleteFixup

/-- **A step to the next node** goes down one path or up one. -/
theorem mpsRbtreeNext_height (hr : RbRep h t) (hzt : z ∈ t.inorder) :
    EndsWithin t.height fun fuel => mpsRbtreeNext fuel h z := by
  suffices h : ∃ x, mpsRbtreeNext t.height h z = some x from
    mpsRbtreeNext_steady.endsWithin h.choose_spec
  obtain ⟨fs, c, l, r, rfl⟩ := exists_path hzt
  obtain ⟨p₀, hz₀⟩ := hr.zip
  obtain ⟨hole, p, hz⟩ := hz₀.down_all
  rw [List.append_nil] at hz
  obtain ⟨he, hzs, -, -, -, hrt⟩ := hz.sub
  subst hole
  rw [mpsRbtreeNext]
  by_cases hrn : r = .nil
  · have hlink : (h.node z).right = h.tree.sentinel := by rwa [hrn] at hrt
    rw [if_neg (not_not.mpr hlink)]
    exact ⟨_, nextClimb_spec hz hzs length_lt_height⟩
  · have hlink : (h.node z).right ≠ h.tree.sentinel := (hrt.root_ne hrn).1
    obtain ⟨y, hy⟩ := mpsRbtreeMin_height hrt hrn
    have hlen := length_add_height_le (t := .node c l z r) fs
    rw [height] at hlen
    rw [if_pos hlink, show mpsRbtreeMin _ h.node (h.node z).right h.tree.sentinel = some y from
      hy _ (by omega)]
    exact ⟨_, rfl⟩

end Height

/-- The rounds that are enough in a tree of `n` nodes: twice the logarithm, and two for
the ends of the path. -/
def logRounds (n : Nat) : Nat := 2 * Nat.log 2 (n + 1) + 2

theorem RbRep.height_add_two_le {h : RbHeap} {t : RbTree Nat} (hr : RbRep h t) :
    t.height + 2 ≤ logRounds t.inorder.length := by
  obtain ⟨n, hv⟩ := hr.valid
  exact Nat.add_le_add_right hv.height_le_log 2

/-- **The tree operations take logarithmic time**, in every tree that insertions and deletions
lead to: each loop ends within `2 * log2 (n + 1) + 2` rounds, `n` being the number of nodes,
and more rounds would change nothing. -/
theorem rbtree_logarithmic {h : RbHeap} {nodes : List Nat} (run : RbRun h nodes) :
    (∀ keyOf, ∀ x ∉ h.tree.sentinel :: nodes,
      EndsWithin (logRounds nodes.length) fun fuel => mpsRbtreeInsert fuel keyOf h x) ∧
    ∀ x ∈ nodes,
      EndsWithin (logRounds nodes.length) (fun fuel => mpsRbtreeDelete fuel h x) ∧
      EndsWithin (logRounds nodes.length) (fun fuel => mpsRbtreeNext fuel h x) ∧
      EndsWithin (logRounds nodes.length) fun fuel =>
        mpsRbtreeMin fuel h.node h.tree.root h.tree.sentinel := by
  obtain ⟨t, hr, hperm⟩ := run.rep
  have hle := hr.height_add_two_le
  rw [hperm.length_eq] at hle
  constructor
  · intro keyOf x hx
    simp only [List.mem_cons, not_or] at hx
    exact (mpsRbtreeInsert_height hr (fun hm => hx.2 (hperm.mem_iff.mp hm)) hx.1).mono hle
  · intro x hx
    have hxt : x ∈ t.inorder := hperm.mem_iff.mpr hx
    obtain ⟨pr, ht⟩ := hr.shape
    have hne : t ≠ .nil := by
      rintro rfl
      cases hxt
    exact ⟨(mpsRbtreeDelete_height hr hxt).mono (by omega),
      (mpsRbtreeNext_height hr hxt).mono (by omega), (mpsRbtreeMin_height ht hne).mono (by omega)⟩

theorem rbtree_logarithmic_two :
    (∀ keyOf, ∀ x ∉ twoNodes.tree.sentinel :: [24, 16],
      EndsWithin 4 fun fuel => mpsRbtreeInsert fuel keyOf twoNodes x) ∧
    ∀ x ∈ [24, 16],
      EndsWithin 4 (fun fuel => mpsRbtreeDelete fuel twoNodes x) ∧
      EndsWithin 4 (fun fuel => mpsRbtreeNext fuel twoNodes x) ∧
      EndsWithin 4 fun fuel =>
        mpsRbtreeMin fuel twoNodes.node twoNodes.tree.root twoNodes.tree.sentinel := by
  have hone : RbRun ((mpsRbtreeInsert 3 (fun _ => []) (mpsRbtreeInit (fun _ => ⟨0, 0, 0, 0, 0⟩) 8
      .standard) 16).get rfl) [16] :=
    .insert (fun _ => []) (.init _ 8 .standard) (by decide) (by decide) (Option.some_get _).symm
  have htwo : RbRun twoNodes [24, 16] :=
    .insert (fun _ => []) hone (by decide) (show _ ≤ 3 by decide) rfl
  exact rbtree_logarithmic htwo

end MpsShdict
