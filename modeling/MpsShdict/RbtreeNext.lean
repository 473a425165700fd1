import MpsShdict.RbtreeOrder

/-! # Visiting a red-black tree

The node behind another one is the leftmost below it on the right, or else the first
ancestor that it is to the left of. `mps_rbtree_next` climbs along the parent links to
find that ancestor, and stops at the root before it follows the link of the root, which
may lead anywhere.

`RbRun` is how trees come about: `mps_rbtree_init`, and then insertions and deletions in
any order, with anything written elsewhere in between. The main theorem is about every
tree of such a run. It says of each node what `mps_rbtree_next` answers there, and that an
iteration which starts at the least node and goes on until there is no next one has seen
every node once, in order.
-/
namespace MpsShdict

open RedBlack RedBlack.RbTree

/-- The nodes from `x` on, as `mps_rbtree_next` leads from each to the one behind. The
loop is that of a caller who walks the whole tree. -/
def visitNext (fuel : Nat) (h : RbHeap) : Nat → Option Nat → Option (List Nat)
  | _, none => some []
  | 0, some _ => none
  | rounds + 1, some x => do
    let next ← mpsRbtreeNext fuel h x
    let nodes ← visitNext fuel h rounds next
    some (x :: nodes)

/-- The nodes of a tree, from `mps_rbtree_min` of its root on. -/
def visitNodes (fuel : Nat) (h : RbHeap) : Option (List Nat) := do
  let x ← mpsRbtreeMin fuel h.node h.tree.root h.tree.sentinel
  visitNext fuel h fuel (some x)

section Next
variable {h : RbHeap} {fs : List (Frame Nat)} {t : RbTree Nat} {hole p z fuel : Nat}
  {xs ys : List Nat}

/-- **The climb** ends at the first node behind the hole. By induction on the context: a
frame on the right is passed, the first one on the left is the answer, and an empty
context is the root. -/
theorem nextClimb_spec (hz : Zip h fs t hole p) (hs : hole ≠ h.tree.sentinel)
    (hfuel : fs.length < fuel) :
    nextClimb fuel h hole = some (after fs).head? := by
  -- induction on the path: the climb goes on while it comes from the right
  induction fs generalizing t hole p fuel with
  | nil =>
    obtain ⟨fuel, rfl⟩ : ∃ k, fuel = k + 1 := ⟨fuel - 1, by omega⟩
    obtain ⟨hroot, -⟩ := hz.root
    rw [nextClimb, if_pos hroot]
    rfl
  | cons f fs ih =>
    simp only [List.length_cons] at hfuel
    obtain ⟨fuel, rfl⟩ : ∃ k, fuel = k + 1 := ⟨fuel - 1, by omega⟩
    have hne := hz.hole_ne_root
    have hparent : (h.node hole).parent = p := hz.sub.parent hs
    have hother := hz.other_ne hs
    obtain ⟨hp, hchild, hup⟩ := hz.up
    rw [nextClimb, hparent, if_neg hne]
    cases hside : f.side with
    | left =>
      rw [hside] at hchild
      have hleft : hole = (h.node p).left := hchild.symm
      rw [if_pos hleft, hp, after, hside]
      rfl
    | right =>
      rw [hside] at hother
      have hleft : hole ≠ (h.node p).left := fun he => hother he.symm
      have hps : p ≠ h.tree.sentinel := by
        obtain ⟨-, hpe, hpne, -⟩ := hz.seg
        exact hpe ▸ hpne
      rw [if_neg hleft, ih hup hps (by omega), after, hside]
      rfl

/-- **`mps_rbtree_next`** finds the node behind another one, or none behind the last. The
position is given by the list of the nodes, and the two cases of the source are whether
the node has a right subtree. -/
theorem mpsRbtreeNext_spec (hr : RbRep h t) (ht : t.inorder = xs ++ z :: ys)
    (hfuel : t.inorder.length ≤ fuel) : mpsRbtreeNext fuel h z = some ys.head? := by
  have hzt : z ∈ t.inorder := by simp [ht]
  obtain ⟨fs, c, l, r, rfl⟩ := exists_path hzt
  obtain ⟨p₀, hz₀⟩ := hr.zip
  obtain ⟨hole, p, hz⟩ := hz₀.down_all
  rw [List.append_nil] at hz
  obtain ⟨he, hzs, -, -, -, hright⟩ := hz.sub
  subst hole
  have hnd := hr.nodup
  rw [inorder_fill] at ht hfuel hnd
  have hys : ys = r.inorder ++ after fs := by
    have he : xs ++ z :: ys = (before fs ++ l.inorder) ++ z :: (r.inorder ++ after fs) := by
      rw [← ht]
      simp [inorder]
    have hmid := (List.nodup_middle.mp (ht ▸ hnd)).notMem
    have hx : z ∉ xs := fun hm => hmid (List.mem_append_left _ hm)
    have hy : z ∉ ys := fun hm => hmid (List.mem_append_right _ hm)
    exact ((List.append_cons_inj_of_notMem hx hy).mp he).2.2
  simp only [inorder, List.length_append, List.length_cons] at hfuel
  rw [mpsRbtreeNext, hys]
  by_cases hrn : r = .nil
  · -- no node is between this one and its ancestors
    subst hrn
    have hlink : (h.node z).right = h.tree.sentinel := hright
    have hdepth := length_le_elems fs
    simp only [elems, List.length_append] at hdepth
    rw [if_neg (not_not.mpr hlink), nextClimb_spec hz hzs (by omega)]
    rfl
  · have hlink : (h.node z).right ≠ h.tree.sentinel := (hright.root_ne hrn).1
    have hfuel' : r.inorder.length ≤ fuel := by omega
    obtain ⟨gs, cy, y, B, rfl, hgs, hmin⟩ := mpsRbtreeMin_spec hright hrn hfuel'
    have hrun : mpsRbtreeMin fuel h.node (h.node z).right h.tree.sentinel = some y := hmin
    rw [if_pos hlink, hrun, inorder_fill, before_eq_nil hgs]
    rfl

/-- **The nodes are visited in order**, from any of them on. -/
theorem visitNext_spec (hr : RbRep h t) (hfuel : t.inorder.length ≤ fuel)
    (rounds : Nat) (xs ys : List Nat) (ht : t.inorder = xs ++ ys) (hrounds : ys.length ≤ rounds) :
    visitNext fuel h rounds ys.head? = some ys := by
  induction ys generalizing xs rounds with
  | nil => cases rounds <;> rfl
  | cons y ys ih =>
    simp only [List.length_cons] at hrounds
    obtain ⟨rounds, rfl⟩ : ∃ k, rounds = k + 1 := ⟨rounds - 1, by omega⟩
    have hrest := ih rounds (xs ++ [y]) (by rw [ht, List.append_assoc]; rfl) (by omega)
    rw [List.head?_cons, visitNext, mpsRbtreeNext_spec hr ht hfuel,
      Option.bind_eq_bind, Option.bind_some, hrest]
    rfl

/-- **An iteration visits every node once**, from left to right. -/
theorem visitNodes_spec (hr : RbRep h t) (hne : t ≠ .nil) (hfuel : t.inorder.length ≤ fuel) :
    visitNodes fuel h = some t.inorder := by
  obtain ⟨pr, ht⟩ := hr.shape
  obtain ⟨gs, c, y, B, he, hgs, hmin⟩ := mpsRbtreeMin_spec ht hne hfuel
  have hhead : t.inorder.head? = some y := by
    rw [he, inorder_fill, before_eq_nil hgs]
    rfl
  rw [visitNodes, hmin, Option.bind_eq_bind, Option.bind_some, ← hhead]
  exact visitNext_spec hr hfuel fuel [] _ rfl hfuel

end Next

/-! ### Runs -/

/-- **The trees** that `mps_rbtree_init` and insertions and deletions lead to, with their
nodes. Between two of these steps anything but the tree may be written, as the rest of the
pool is by those who use the tree. -/
inductive RbRun : RbHeap → List Nat → Prop where
  | init (m : RbMem) (sentinel : Nat) (i : InsertTypeId) : RbRun (mpsRbtreeInit m sentinel i) []
  | insert {h h' : RbHeap} {nodes : List Nat} {x fuel : Nat} (keyOf : Nat → Bytes)
      (run : RbRun h nodes) (hx : x ∉ h.tree.sentinel :: nodes) (hfuel : nodes.length + 2 ≤ fuel)
      (hrun : mpsRbtreeInsert fuel keyOf h x = some h') : RbRun h' (x :: nodes)
  | delete {h h' : RbHeap} {nodes : List Nat} {x fuel : Nat} (run : RbRun h nodes) (hx : x ∈ nodes)
      (hfuel : nodes.length + 1 ≤ fuel) (hrun : mpsRbtreeDelete fuel h x = some h') :
      RbRun h' (nodes.erase x)
  | write {h h' : RbHeap} {nodes : List Nat} (run : RbRun h nodes) (htree : h'.tree = h.tree)
      (hm : ∀ x ∈ h.tree.sentinel :: nodes, h'.node x = h.node x) : RbRun h' nodes

section Runs
variable {h : RbHeap} {nodes : List Nat} {fuel : Nat}

/-- Every run leads to a red-black tree, of the nodes that were inserted and not deleted
since. -/
theorem RbRun.rep (run : RbRun h nodes) : ∃ t, RbRep h t ∧ t.inorder.Perm nodes := by
  induction run with
  | init m sentinel i => exact ⟨.nil, .init m sentinel i, .refl _⟩
  | insert keyOf run hx hfuel hrun ih =>
    obtain ⟨t, hr, hperm⟩ := ih
    simp only [List.mem_cons, not_or] at hx
    rw [← hperm.length_eq] at hfuel
    obtain ⟨h₁, t', xs, ys, hrun', hr', ht, ht', -⟩ := mpsRbtreeInsert_spec hr
      (fun hm => hx.2 (hperm.mem_iff.mp hm)) hx.1 hfuel
    obtain rfl := Option.some.inj (hrun'.symm.trans hrun)
    refine ⟨t', hr', ?_⟩
    rw [ht']
    exact List.perm_middle.trans ((ht ▸ hperm).cons _)
  | delete run hx hfuel hrun ih =>
    obtain ⟨t, hr, hperm⟩ := ih
    rw [← hperm.length_eq] at hfuel
    obtain ⟨h₁, t', xs, ys, hrun', hr', ht, ht', -⟩ := mpsRbtreeDelete_spec hr
      (hperm.mem_iff.mpr hx) hfuel
    obtain rfl := Option.some.inj (hrun'.symm.trans hrun)
    refine ⟨t', hr', ?_⟩
    rw [ht']
    have hmid := ht ▸ hperm
    exact (List.cons_perm_iff_perm_erase.mp (List.perm_middle.symm.trans hmid)).2
  | write run htree hm ih =>
    obtain ⟨t, hr, hperm⟩ := ih
    refine ⟨t, hr.frame htree fun y hy => hm y ?_, hperm⟩
    rcases hy with hy | rfl
    · exact List.mem_cons_of_mem _ (hperm.mem_iff.mp hy)
    · exact List.mem_cons_self

/-- **`mps_rbtree_next` is the successor** in every tree that insertions and deletions lead
to: it finds the node behind each node, none behind the last, and an iteration from
`mps_rbtree_min` of the root visits every node once. -/
theorem mpsRbtreeNext_successor (run : RbRun h nodes) (hne : nodes ≠ [])
    (hfuel : nodes.length ≤ fuel) :
    ∃ t, RbRep h t ∧ t.inorder.Perm nodes ∧ t.inorder.Nodup ∧
      (∀ x ∈ nodes, ∃ xs ys, t.inorder = xs ++ x :: ys ∧ mpsRbtreeNext fuel h x = some ys.head?) ∧
      visitNodes fuel h = some t.inorder := by
  obtain ⟨t, hr, hperm⟩ := run.rep
  have hlen : t.inorder.length ≤ fuel := by rwa [hperm.length_eq]
  refine ⟨t, hr, hperm, hr.nodup, ?_, visitNodes_spec hr ?_ hlen⟩
  · intro x hx
    obtain ⟨xs, ys, ht⟩ := List.append_of_mem (hperm.mem_iff.mpr hx)
    exact ⟨xs, ys, ht, mpsRbtreeNext_spec hr ht hlen⟩
  · rintro rfl
    exact hne hperm.nil_eq.symm

end Runs

/-- A tree of two nodes, the second one put below the first. Its keys are equal, so that
the order is the one of insertion. -/
def twoNodes : RbHeap :=
  let h := mpsRbtreeInit (fun _ => ⟨0, 0, 0, 0, 0⟩) 8 .standard
  ((mpsRbtreeInsert 3 (fun _ => []) h 16).bind fun h =>
    mpsRbtreeInsert 3 (fun _ => []) h 24).get rfl

theorem mpsRbtreeNext_successor_two : ∃ t, RbRep twoNodes t ∧ t.inorder.Perm [24, 16] ∧
    t.inorder.Nodup ∧
    (∀ x ∈ [24, 16], ∃ xs ys, t.inorder = xs ++ x :: ys ∧
      mpsRbtreeNext 2 twoNodes x = some ys.head?) ∧
    visitNodes 2 twoNodes = some t.inorder := by
  have hone : RbRun ((mpsRbtreeInsert 3 (fun _ => []) (mpsRbtreeInit (fun _ => ⟨0, 0, 0, 0, 0⟩) 8
      .standard) 16).get rfl) [16] :=
    .insert (fun _ => []) (.init _ 8 .standard) (by decide) (by decide) (Option.some_get _).symm
  have htwo : RbRun twoNodes [24, 16] :=
    .insert (fun _ => []) hone (by decide) (show _ ≤ 3 by decide) rfl
  exact mpsRbtreeNext_successor htwo (by decide) (by decide)

end MpsShdict
