import Mathlib.Data.List.Perm.Subperm
import MpsShdict.RbtreeOrder
import MpsShdict.Shdict

/-! # Finding a key in the tree

The way down of a lookup compares the hash and then the bytes of the key, with the key
that is looked for on the left; an insertion does so with the node that is hung up on the
left. Both read one strict order. A way down always ends, and what it reaches has the key;
that it reaches every key needs the tree in order.

The order of a tree is decided when a node is hung up. Every call but one writes the key
into the node first; `mps_shdict_incr` hangs up the node and writes the key afterwards, so
that its place is decided by bytes that happen to be there, and is right only where no
other key has the hash. `DictTree` is the trees that insertions and deletions lead to,
under a guard for the insertions. With the guard that the key is in place, or alone with
its hash, every key is found (`findsKeys_of_keyInPlace`); without it there is a tree of
two keys in which one is lost (`not_findsKeys`).
-/
namespace MpsShdict

open RedBlack RedBlack.RbTree
open Words

/-- The node `a` belongs in front of `b`: by hash, then by the bytes of the key. It is
strict, so it says of two nodes that their keys differ. -/
def Before (keyOf : Nat → Bytes) (m : RbMem) (a b : Nat) : Prop :=
  (m a).key < (m b).key ∨ (m a).key = (m b).key ∧ keyOf a < keyOf b

section Order
variable {keyOf keyOf' : Nat → Bytes} {m m' : RbMem} {a b z fuel : Nat} {L : List Nat} {h : RbHeap}
  {t : RbTree Nat}

theorem Before.notGreater (hab : Before keyOf m a b) : NotGreater keyOf 0 .luadict m a b :=
  hab.imp id fun ⟨he, hk⟩ => ⟨he, List.le_of_lt hk⟩

/-- The order of nodes with different keys. -/
theorem NotGreater.before (hab : NotGreater keyOf 0 .luadict m a b)
    (hne : ¬ ((m a).key = (m b).key ∧ keyOf a = keyOf b)) : Before keyOf m a b := by
  rcases hab with hlt | ⟨he, hk⟩
  · exact .inl hlt
  · exact .inr ⟨he, (List.le_iff_lt_or_eq.mp hk).resolve_right fun hk => hne ⟨he, hk⟩⟩

/-- A sorted tree holds no key twice. -/
theorem Before.ne (hab : Before keyOf m a b) : ¬ ((m a).key = (m b).key ∧ keyOf a = keyOf b) := by
  rintro ⟨h1, h2⟩
  rcases hab with hlt | ⟨-, hk⟩
  · omega
  · exact List.lt_irrefl _ (h2 ▸ hk)

theorem Before.congr (hs : L.Pairwise (Before keyOf m)) (hm : ∀ x ∈ L, (m' x).key = (m x).key)
    (hk : ∀ x ∈ L, keyOf' x = keyOf x) : L.Pairwise (Before keyOf' m') := by
  refine hs.imp_of_mem fun {a b} ha hb hab => ?_
  rw [Before, hm a ha, hm b hb, hk a ha, hk b hb]
  exact hab

/-- A node whose hash no other node has may get any key. This is what saves the counters
whose key is written late, as long as there is no collision. -/
theorem Before.rekey (hs : L.Pairwise (Before keyOf m)) (hnd : L.Nodup)
    (hz : ∀ x ∈ L, x ≠ z → (m x).key ≠ (m z).key) (hk : ∀ x ∈ L, x ≠ z → keyOf' x = keyOf x) :
    L.Pairwise (Before keyOf' m) := by
  refine (hs.and hnd).imp_of_mem fun {a b} ha hb hab => ?_
  obtain ⟨hab, hne⟩ := hab
  rcases hab with hlt | ⟨he, hkey⟩
  · exact .inl hlt
  · have haz : a ≠ z := fun haz => hz b hb (fun hbz => hne (haz.trans hbz.symm)) (haz ▸ he.symm)
    have hbz : b ≠ z := fun hbz => hz a ha haz (hbz ▸ he)
    rw [Before, hk a ha haz, hk b hb hbz]
    exact .inr ⟨he, hkey⟩

/-- An insertion into a dictionary tree. A sorted one is left sorted by a new key; an
unsorted one is a red-black tree all the same. -/
theorem mpsRbtreeInsert_before (hr : RbRep h t) (hi : h.tree.insert = .luadict)
    (hzn : z ∉ t.inorder) (hzs : z ≠ h.tree.sentinel) (hfuel : t.inorder.length + 2 ≤ fuel) :
    ∃ h' t', mpsRbtreeInsert fuel keyOf h z = some h' ∧ RbRep h' t' ∧
      t'.inorder.Perm (z :: t.inorder) ∧ Keeps (z :: t.inorder) h h' ∧
      (t.inorder.Pairwise (Before keyOf h.node) →
        (∀ x ∈ t.inorder, ¬ ((h.node x).key = (h.node z).key ∧ keyOf x = keyOf z)) →
        t'.inorder.Pairwise (Before keyOf h'.node)) := by
  obtain ⟨h', t', xs, ys, hrun, hr', ht, ht', hless, hk⟩ :=
    mpsRbtreeInsert_spec hr hzn hzs hfuel
  refine ⟨h', t', hrun, hr', ?_, hk, ?_⟩
  · rw [ht, ht']
    exact List.perm_middle
  · intro hs hnew
    have hsorted : SortedTree keyOf 0 h t.inorder := by
      unfold SortedTree
      rw [hi]
      exact hs.imp Before.notGreater
    obtain ⟨hxs, hys⟩ := hless (hsorted.parted fun he => by rw [hi] at he; cases he)
    -- the insertion goes right where a node is not greater than the new one
    have hiff : ∀ y, insertValues keyOf .luadict h.node z y = true ↔
        ¬ NotGreater keyOf 0 .luadict h.node y z := fun y => insertValues_iff fun he => by cases he
    rw [hi] at hxs hys
    have hbefore : ∀ x ∈ xs, Before keyOf h.node x z := by
      intro x hx
      have hle : NotGreater keyOf 0 .luadict h.node x z := by
        by_contra hgt
        have := (hiff x).mpr hgt
        rw [hxs x hx] at this
        cases this
      exact hle.before (hnew x (by simp [ht, hx]))
    have hafter : ∀ y ∈ ys, Before keyOf h.node z y := by
      intro y hy
      refine (NotGreater.total ((hiff y).mp (hys y hy))).before ?_
      intro he
      exact hnew y (by simp [ht, hy]) ⟨he.1.symm, he.2.symm⟩
    rw [ht']
    rw [ht, List.pairwise_append] at hs
    obtain ⟨sx, sy, sxy⟩ := hs
    refine Before.congr (m := h.node) ?_ (fun x _ => hk.key x) fun x _ => rfl
    refine List.pairwise_append.mpr ⟨sx, List.pairwise_cons.mpr ⟨hafter, sy⟩, ?_⟩
    intro x hx y hy
    rcases List.mem_cons.mp hy with rfl | hy
    · exact hbefore x hx
    · exact sxy x hx y hy

end Order

/-! ### The way down -/

section Find
variable {d : Shdict} {hash fuel : Nat} {kdata : Bytes} {t : RbTree Nat}

/-- The entry at `x` has the hash and the key. -/
def HasKey (d : Shdict) (hash : Nat) (kdata : Bytes) (x : Nat) : Prop :=
  (d.rbtree.node x).key = hash ∧ d.keyOf x = kdata

/-- What a way down through the nodes `L` reaches: an entry that has the key or none, and
every key of the tree if the tree is in order. -/
structure Reaches (d : Shdict) (hash : Nat) (kdata : Bytes) (L : List Nat) (found : Option Nat) :
    Prop where
  sound : ∀ x, found = some x → x ∈ L ∧ HasKey d hash kdata x
  complete : L.Pairwise (Before d.keyOf d.rbtree.node) → found = none →
    ∀ x ∈ L, ¬ HasKey d hash kdata x

/-- A way down ends after no more steps than there are nodes. The induction is on the tree
that is left below. -/
theorem findNode_spec : ∀ {p r : Nat} (fuel : Nat),
    IsTree d.rbtree.node d.rbtree.tree.sentinel p t r →
    t.inorder.length < fuel →
    ∃ found, findNode d hash kdata fuel r = some found ∧ Reaches d hash kdata t.inorder found := by
  induction t with
  | nil =>
    intro p r fuel hr hfuel
    obtain ⟨fuel, rfl⟩ : ∃ k, fuel = k + 1 := ⟨fuel - 1, by omega⟩
    replace hr : r = d.rbtree.tree.sentinel := hr
    exact ⟨none, by simp [findNode, hr], by simp, by simp⟩
  | node c l x rt ihl ihr =>
    intro p r fuel hr hfuel
    obtain ⟨rfl, hne, -, -, hl, hrt⟩ := hr
    simp only [inorder, List.length_append, List.length_cons] at hfuel
    obtain ⟨fuel, rfl⟩ : ∃ k, fuel = k + 1 := ⟨fuel - 1, by omega⟩
    obtain ⟨fl, hfl, hfls, hflc⟩ := ihl fuel hl (by omega)
    obtain ⟨fr, hfr, hfrs, hfrc⟩ := ihr fuel hrt (by omega)
    replace hfl : findNode d hash kdata fuel (d.rbtree.node r).left = some fl := hfl
    replace hfr : findNode d hash kdata fuel (d.rbtree.node r).right = some fr := hfr
    -- to the left where the key belongs in front of the node, and to the right where behind
    have goLeft : (hash < (d.rbtree.node r).key ∨
          hash = (d.rbtree.node r).key ∧ kdata < d.keyOf r) →
        Reaches d hash kdata (node c l r rt).inorder fl := by
      intro hlt
      constructor
      · intro y hy
        obtain ⟨hm, hk⟩ := hfls y hy
        exact ⟨by simp [inorder, hm], hk⟩
      · intro hs hnone y hy hkey
        obtain ⟨rfl, rfl⟩ := hkey
        simp only [inorder, List.pairwise_append, List.pairwise_cons] at hs
        obtain ⟨sl, ⟨sr, -⟩, -⟩ := hs
        simp only [inorder, List.mem_append, List.mem_cons] at hy
        rcases hy with hy | rfl | hy
        · exact hflc sl hnone y hy ⟨rfl, rfl⟩
        · rcases hlt with h1 | ⟨-, h1⟩
          · exact absurd h1 (Nat.lt_irrefl _)
          · exact List.lt_irrefl _ h1
        · rcases sr y hy, hlt with ⟨h1 | ⟨h1, h2⟩, h3 | ⟨h3, h4⟩⟩
          · omega
          · omega
          · omega
          · exact List.lt_irrefl _ (List.lt_trans h2 h4)
    have goRight : ((d.rbtree.node r).key < hash ∨
          hash = (d.rbtree.node r).key ∧ d.keyOf r < kdata) →
        Reaches d hash kdata (node c l r rt).inorder fr := by
      intro hlt
      constructor
      · intro y hy
        obtain ⟨hm, hk⟩ := hfrs y hy
        exact ⟨by simp [inorder, hm], hk⟩
      · intro hs hnone y hy hkey
        obtain ⟨rfl, rfl⟩ := hkey
        simp only [inorder, List.pairwise_append, List.pairwise_cons] at hs
        obtain ⟨-, ⟨-, sr⟩, sl⟩ := hs
        simp only [inorder, List.mem_append, List.mem_cons] at hy
        rcases hy with hy | rfl | hy
        · rcases sl y hy r (by simp), hlt with ⟨h1 | ⟨h1, h2⟩, h3 | ⟨h3, h4⟩⟩
          · omega
          · omega
          · omega
          · exact List.lt_irrefl _ (List.lt_trans h2 h4)
        · rcases hlt with h1 | ⟨-, h1⟩
          · exact absurd h1 (Nat.lt_irrefl _)
          · exact List.lt_irrefl _ h1
        · exact hfrc sr hnone y hy ⟨rfl, rfl⟩
    simp only [findNode, if_neg hne]
    rcases Nat.lt_trichotomy hash (d.rbtree.node r).key with hlt | heq | hgt
    · rw [if_pos hlt]
      exact ⟨fl, hfl, goLeft (.inl hlt)⟩
    · rw [if_neg (by omega), if_neg (by omega)]
      by_cases hzero : ngxMemn2cmp kdata (d.keyOf r) = 0
      · rw [if_pos hzero]
        refine ⟨some r, rfl, ?_, by simp⟩
        intro y hy
        obtain rfl := Option.some.inj hy
        exact ⟨by simp [inorder], heq.symm, ((ngxMemn2cmp_eq_zero _ _).mp hzero).symm⟩
      · rw [if_neg hzero]
        by_cases hneg : ngxMemn2cmp kdata (d.keyOf r) < 0
        · rw [if_pos hneg]
          exact ⟨fl, hfl, goLeft (.inr ⟨heq, (ngxMemn2cmp_neg _ _).mp hneg⟩)⟩
        · rw [if_neg hneg]
          refine ⟨fr, hfr, goRight (.inr ⟨heq, ?_⟩)⟩
          have hle : d.keyOf r ≤ kdata := fun hlt => hneg ((ngxMemn2cmp_neg _ _).mpr hlt)
          refine (List.le_iff_lt_or_eq.mp hle).resolve_right ?_
          intro he
          exact hzero ((ngxMemn2cmp_eq_zero _ _).mpr he.symm)
    · rw [if_neg (by omega), if_pos hgt]
      exact ⟨fr, hfr, goRight (.inl hgt)⟩

/-- The way down from the root. -/
theorem findNode_root (hash : Nat) (kdata : Bytes) (hr : RbRep d.rbtree t)
    (hfuel : t.inorder.length < fuel) :
    ∃ found, findNode d hash kdata fuel d.rbtree.tree.root = some found ∧
      Reaches d hash kdata t.inorder found := by
  obtain ⟨pr, ht⟩ := hr.shape
  exact findNode_spec fuel ht hfuel

end Find

/-! ### Trees of distinct keys -/

/-- The entry that a lookup or a peek ends at. -/
def Lookup.node : Lookup → Option Nat
  | .ok node => some node
  | .done node => some node
  | .declined => none

/-- When a node may be hung up for a key, by the entries that are in the tree. -/
abbrev InsertGuard := Shdict → List Nat → Nat → Bytes → Prop

/-- **The dictionary trees** that insertions of distinct keys and deletions lead to, with
the nodes that are in the tree. A node lies in the pool behind its header and has the hash
of its key when it is hung up; the bytes of the key are there at the latest when the call
returns. Between two of these steps anything but the tree, its keys and the size of the
pool may be written. -/
inductive DictTree (G : InsertGuard) : Shdict → List Nat → Prop where
  | init {d : Shdict} (m : RbMem) (sentinel : Nat)
      (hd : d.rbtree = mpsRbtreeInit m sentinel .luadict) (hpos : 0 < sentinel)
      (hlt : sentinel < d.pool.poolEnd) : DictTree G d []
  | insert {d : Shdict} {nodes : List Nat} {node : Nat} {key : Bytes} {rbtree : RbHeap}
      (f : ShdictNode → ShdictNode) (tree : DictTree G d nodes) (hpos : 0 < node)
      (hlt : node < d.pool.poolEnd) (hnode : node ∉ d.rbtree.tree.sentinel :: nodes)
      (hhash : (d.rbtree.node node).key = ngxMurmurHash2 key)
      (hnew : ∀ x ∈ nodes, d.keyOf x ≠ key) (hG : G d nodes node key)
      (h : mpsRbtreeInsert d.rounds d.keyOf d.rbtree node = some rbtree)
      (hkey : ({ d with rbtree := rbtree }.setSd node f).keyOf node = key) :
      DictTree G ({ d with rbtree := rbtree }.setSd node f) (node :: nodes)
  | delete {d : Shdict} {nodes : List Nat} {node : Nat} {rbtree : RbHeap}
      (tree : DictTree G d nodes) (hnode : node ∈ nodes)
      (h : mpsRbtreeDelete d.rounds d.rbtree node = some rbtree) :
      DictTree G { d with rbtree := rbtree } (nodes.erase node)
  | write {d d' : Shdict} {nodes : List Nat} (tree : DictTree G d nodes)
      (htree : d'.rbtree.tree = d.rbtree.tree)
      (hm : ∀ x ∈ d.rbtree.tree.sentinel :: nodes, d'.rbtree.node x = d.rbtree.node x)
      (hk : ∀ x ∈ nodes, d'.keyOf x = d.keyOf x) (hend : d'.pool.poolEnd = d.pool.poolEnd) :
      DictTree G d' nodes

/-- The bytes of the key are in the node already, or no entry has its hash. Every
insertion but the one of a counter meets the first half. -/
def KeyInPlace : InsertGuard := fun d nodes node key =>
  d.keyOf node = key ∨ ∀ x ∈ nodes, (d.rbtree.node x).key ≠ ngxMurmurHash2 key

/-- A lookup and a peek end at the same entry, and there is one if and only if the tree
holds the bytes of the key. -/
def FindsKeys (d : Shdict) (nodes : List Nat) : Prop :=
  ∀ now key, ∃ d' rc rc', mpsShdictLookup d now (ngxMurmurHash2 key) key = some (d', rc) ∧
    mpsShdictPeek d (ngxMurmurHash2 key) key = some rc' ∧ rc.node = rc'.node ∧
    (∀ x, rc.node = some x → x ∈ nodes ∧ d.keyOf x = key) ∧
    (rc.node.isSome ↔ ∃ x ∈ nodes, d.keyOf x = key)

/-- What holds of every dictionary tree whose keys were in place: it is a red-black tree
of the nodes, in strict order, and each node has the hash of its key. -/
structure DictTreeInv (d : Shdict) (nodes : List Nat) (t : RbTree Nat) : Prop where
  rep : RbRep d.rbtree t
  perm : t.inorder.Perm nodes
  insert : d.rbtree.tree.insert = .luadict
  sorted : t.inorder.Pairwise (Before d.keyOf d.rbtree.node)
  hash : ∀ x ∈ nodes, (d.rbtree.node x).key = ngxMurmurHash2 (d.keyOf x)
  placed : ∀ x ∈ d.rbtree.tree.sentinel :: nodes, 0 < x ∧ x < d.pool.poolEnd

section DictTree
variable {d : Shdict} {nodes : List Nat} {t : RbTree Nat} {x node : Nat}
  {f : ShdictNode → ShdictNode}

theorem Shdict.setSd_keyOf_ne (h : x ≠ node) : (d.setSd node f).keyOf x = d.keyOf x := by
  simp [Shdict.keyOf, Shdict.setSd, h]

theorem Shdict.setSd_id : d.setSd node id = d := by simp [Shdict.setSd]

/-- The nodes and the sentinel are different bytes of the pool. -/
theorem DictTreeInv.length_lt (h : DictTreeInv d nodes t) :
    t.inorder.length + 2 ≤ d.pool.poolEnd := by
  have hnd : (0 :: d.rbtree.tree.sentinel :: nodes).Nodup := by
    refine List.nodup_cons.mpr ⟨fun h0 => absurd (h.placed 0 h0).1 (Nat.lt_irrefl 0), ?_⟩
    refine List.nodup_cons.mpr ⟨fun hs => h.rep.sentinel_notMem (h.perm.mem_iff.mpr hs), ?_⟩
    exact h.perm.nodup_iff.mp h.rep.nodup
  have hsub : (0 :: d.rbtree.tree.sentinel :: nodes) ⊆ List.range d.pool.poolEnd := by
    intro x hx
    rw [List.mem_range]
    rcases List.mem_cons.mp hx with rfl | hx
    · exact Nat.lt_of_le_of_lt (Nat.zero_le _) (h.placed _ List.mem_cons_self).2
    · exact (h.placed x hx).2
  have := (List.subperm_of_subset hnd hsub).length_le
  rw [h.perm.length_eq]
  simp only [List.length_cons, List.length_range] at this
  exact this

/-- An insertion keeps the invariant. -/
theorem DictTreeInv.insert_step {key : Bytes} {rbtree : RbHeap} (hinv : DictTreeInv d nodes t)
    (hpos : 0 < node) (hlt : node < d.pool.poolEnd) (hnode : node ∉ d.rbtree.tree.sentinel :: nodes)
    (hhash : (d.rbtree.node node).key = ngxMurmurHash2 key) (hnew : ∀ x ∈ nodes, d.keyOf x ≠ key)
    (hG : KeyInPlace d nodes node key)
    (h : mpsRbtreeInsert d.rounds d.keyOf d.rbtree node = some rbtree)
    (hkey : ({ d with rbtree := rbtree }.setSd node f).keyOf node = key) :
    ∃ t', DictTreeInv ({ d with rbtree := rbtree }.setSd node f) (node :: nodes) t' := by
  simp only [List.mem_cons, not_or] at hnode
  obtain ⟨h', t', hrun, hr', hperm, hk, hs⟩ := mpsRbtreeInsert_before hinv.rep
    hinv.insert (fun hz => hnode.2 (hinv.perm.mem_iff.mp hz)) hnode.1 hinv.length_lt
  obtain rfl := Option.some.inj (hrun.symm.trans h)
  have hmem : ∀ x, x ∈ t'.inorder ↔ x = node ∨ x ∈ nodes := by
    intro x
    rw [hperm.mem_iff, List.mem_cons, hinv.perm.mem_iff]
  have hkeys : ∀ x, x ≠ node → ({ d with rbtree := h' }.setSd node f).keyOf x = d.keyOf x :=
    fun x hx => Shdict.setSd_keyOf_ne hx
  refine ⟨t', hr', hperm.trans (hinv.perm.cons _), hk.insert.trans hinv.insert, ?_, ?_, ?_⟩
  · rcases hG with hG | hG
    · -- the key was there when the node was hung up
      refine Before.congr (hs hinv.sorted fun x hx he => ?_) (fun _ _ => rfl) ?_
      · exact hnew x (hinv.perm.mem_iff.mp hx) (he.2.trans hG)
      · intro x hx
        by_cases hx' : x = node
        · rw [hx', hkey, hG]
        · exact hkeys x hx'
    · -- no other node has the hash
      refine Before.rekey (z := node) (hs hinv.sorted fun x hx he => ?_) hr'.nodup
        ?_ fun x hx hne => hkeys x hne
      · exact hG x (hinv.perm.mem_iff.mp hx) (he.1.trans hhash)
      · intro x hx hne
        show (h'.node x).key ≠ (h'.node node).key
        rw [hk.key, hk.key, hhash]
        exact hG x (((hmem x).mp hx).resolve_left hne)
  · intro x hx
    show (h'.node x).key = _
    rw [hk.key]
    by_cases hxn : x = node
    · rw [hxn, hkey]
      exact hhash
    · rw [hkeys x hxn]
      exact hinv.hash x ((List.mem_cons.mp hx).resolve_left hxn)
  · intro x hx
    replace hx : x ∈ h'.tree.sentinel :: node :: nodes := hx
    rw [hk.sentinel] at hx
    simp only [List.mem_cons] at hx
    rcases hx with rfl | rfl | hx
    · exact hinv.placed _ (by simp)
    · exact ⟨hpos, hlt⟩
    · exact hinv.placed x (by simp [hx])

/-- A deletion keeps the invariant. -/
theorem DictTreeInv.delete_step {rbtree : RbHeap} (hinv : DictTreeInv d nodes t)
    (hnode : node ∈ nodes) (h : mpsRbtreeDelete d.rounds d.rbtree node = some rbtree) :
    ∃ t', DictTreeInv { d with rbtree := rbtree } (nodes.erase node) t' := by
  have hfuel : t.inorder.length + 1 ≤ d.rounds := by
    have := hinv.length_lt
    rw [Shdict.rounds]
    omega
  obtain ⟨h', t', xs, ys, hrun, hr', ht, ht', hk⟩ :=
    mpsRbtreeDelete_spec hinv.rep (hinv.perm.mem_iff.mpr hnode) hfuel
  obtain rfl := Option.some.inj (hrun.symm.trans h)
  have hnd : (xs ++ node :: ys).Nodup := ht ▸ hinv.rep.nodup
  have hperm : (xs ++ ys).Perm (nodes.erase node) := by
    refine List.Perm.cons_inv (a := node) (List.perm_middle.symm.trans ?_)
    exact (ht ▸ hinv.perm).trans (List.perm_cons_erase hnode)
  have hne : ∀ x ∈ xs ++ ys, x ≠ node := by
    rintro x hx rfl
    exact (List.nodup_cons.mp (List.perm_middle.nodup_iff.mp hnd)).1 hx
  have hmem : ∀ x ∈ nodes.erase node, x ∈ nodes := fun x hx => List.mem_of_mem_erase hx
  refine ⟨t', hr', ht' ▸ hperm, hk.insert.trans hinv.insert, ?_, ?_, ?_⟩
  · rw [ht']
    refine Before.congr (m := d.rbtree.node) ?_ (fun x hx => hk.key x (hne x hx))
      fun _ _ => rfl
    have hs := hinv.sorted
    rw [ht] at hs
    exact hs.sublist ((List.Sublist.refl xs).append (List.sublist_cons_self node ys))
  · intro x hx
    have hxne : x ≠ node := hne x (hperm.mem_iff.mpr hx)
    exact (hk.key x hxne).trans (hinv.hash x (hmem x hx))
  · intro x hx
    replace hx : x ∈ h'.tree.sentinel :: nodes.erase node := hx
    rw [hk.sentinel] at hx
    apply hinv.placed x
    rcases List.mem_cons.mp hx with rfl | hx
    · exact List.mem_cons_self
    · exact List.mem_cons_of_mem _ (hmem x hx)

theorem DictTree.inv (tree : DictTree KeyInPlace d nodes) : ∃ t, DictTreeInv d nodes t := by
  induction tree with
  | init m sentinel hd hpos hlt =>
    refine ⟨.nil, ?_, .refl _, by rw [hd]; rfl, .nil, by simp, ?_⟩
    · rw [hd]
      exact RbRep.init m sentinel .luadict
    · simp [hd, mpsRbtreeInit, hpos, hlt]
  | insert f tree hpos hlt hnode hhash hnew hG h hkey ih =>
    obtain ⟨t, hinv⟩ := ih
    exact hinv.insert_step hpos hlt hnode hhash hnew hG h hkey
  | delete tree hnode h ih =>
    obtain ⟨t, hinv⟩ := ih
    exact hinv.delete_step hnode h
  | write tree htree hm hk hend ih =>
    obtain ⟨t, hinv⟩ := ih
    have hmt : ∀ x ∈ t.inorder, _ = _ := fun x hx =>
      hm x (List.mem_cons_of_mem _ (hinv.perm.mem_iff.mp hx))
    refine ⟨t, hinv.rep.frame htree ?_, hinv.perm, htree ▸ hinv.insert, ?_, ?_, ?_⟩
    · intro y hy
      rcases hy with hy | rfl
      · exact hmt y hy
      · exact hm _ List.mem_cons_self
    · refine Before.congr hinv.sorted (fun x hx => congrArg RbNode.key (hmt x hx)) ?_
      intro x hx
      exact hk x (hinv.perm.mem_iff.mp hx)
    · intro x hx
      rw [hm x (List.mem_cons_of_mem _ hx), hk x hx]
      exact hinv.hash x hx
    · rw [htree, hend]
      exact hinv.placed

/-- **A lookup finds exactly the keys that are in the tree**, in every dictionary tree
whose nodes had their keys when they were hung up, or had the hash for themselves. The run
may insert and delete in any order. -/
theorem findsKeys_of_keyInPlace (tree : DictTree KeyInPlace d nodes) : FindsKeys d nodes := by
  obtain ⟨t, hinv⟩ := tree.inv
  intro now key
  have hfuel : t.inorder.length < d.rounds := by
    have := hinv.length_lt
    rw [Shdict.rounds]
    omega
  obtain ⟨found, hfound, hreach⟩ := findNode_root (ngxMurmurHash2 key) key hinv.rep hfuel
  have hsound : ∀ x, found = some x → x ∈ nodes ∧ d.keyOf x = key := by
    intro x hx
    obtain ⟨hm, -, hk⟩ := hreach.sound x hx
    exact ⟨hinv.perm.mem_iff.mp hm, hk⟩
  have hiff : found.isSome ↔ ∃ x ∈ nodes, d.keyOf x = key := by
    constructor
    · intro hs
      obtain ⟨x, hx⟩ := Option.isSome_iff_exists.mp hs
      exact ⟨x, hsound x hx⟩
    · rintro ⟨x, hx, hk⟩
      by_contra hs
      refine hreach.complete hinv.sorted (Option.not_isSome_iff_eq_none.mp hs) x
        (hinv.perm.mem_iff.mpr hx) ⟨?_, hk⟩
      rw [hinv.hash x hx, hk]
  cases found with
  | none =>
    exact ⟨d, .declined, .declined, by simp [mpsShdictLookup,
      hfound], by simp [mpsShdictPeek, hfound], rfl, hsound, hiff⟩
  | some x =>
    by_cases hexp : lookupExpired ((d.touch x).sd x).expires now = true
    · exact ⟨d.touch x, .done x, .ok x, by simp [mpsShdictLookup, hfound, hexp],
        by simp [mpsShdictPeek, hfound], rfl, hsound, hiff⟩
    · exact ⟨d.touch x, .ok x, .ok x, by simp [mpsShdictLookup, hfound, hexp],
        by simp [mpsShdictPeek, hfound], rfl, hsound, hiff⟩

/-- A dictionary of two pages whose tree is at 4096.  The chunk at 4224 holds the key
"01LV"; nothing has been written to the others, as far as they are not linked. -/
def collisionDict (rbtree : RbHeap) : Shdict where
  pool := ⟨4096, 8, 3, 648, 696, 360, 0, 4096, 8192, false, fun _ => ⟨0, 0, 0⟩,
    fun _ => ⟨0, 0, 0, 0⟩, fun _ => 0, []⟩
  rbtree := rbtree
  queue := fun _ => ⟨0, 0⟩
  sd := fun x => ⟨.tnumber, if x = 4224 then 4 else 3, 8, 0, 0,
    fun i => if x = 4224 then [48, 49, 76, 86].getD i 0 else 0⟩
  lnode := fun _ => ⟨0, .tnil, fun _ => 0⟩

/-- The tree is empty; the nodes have the hash of "01LV" and of "4DG". -/
def collisionEmpty : RbHeap := mpsRbtreeInit (fun _ => ⟨3413460456, 0, 0, 0, 0⟩) 4120 .luadict

/-- The tree with "01LV" in it. -/
def collisionOne : RbHeap :=
  (mpsRbtreeInsert 8192 (collisionDict collisionEmpty).keyOf collisionEmpty 4224).getD
    collisionEmpty

/-- The tree with the node of "4DG" in it, hung up before the key was written. -/
def collisionTwo : RbHeap :=
  (mpsRbtreeInsert 8192 (collisionDict collisionOne).keyOf collisionOne 4352).getD collisionOne

/-- The keys of three nodes.  The first two have the same hash. -/
def placedKey : Nat → Bytes
  | 4224 => [48, 49, 76, 86]
  | 4352 => [52, 68, 71]
  | 4480 => [66]
  | _ => []

/-- The same dictionary, with all three keys written before a node is hung up. -/
def placedDict (rbtree : RbHeap) : Shdict :=
  { collisionDict rbtree with
    sd := fun x => ⟨.tnumber, (placedKey x).length, 8, 0, 0, fun i => (placedKey x).getD i 0⟩ }

/-- The empty tree; the third node has the hash of its key, too. -/
def placedEmpty : RbHeap :=
  mpsRbtreeInit (fun x => ⟨if x = 4480 then 3647070102 else 3413460456, 0, 0, 0, 0⟩) 4120 .luadict

/-- The node is hung up. -/
def placedInsert (rbtree : RbHeap) (node : Nat) : RbHeap :=
  (mpsRbtreeInsert 8192 (placedDict rbtree).keyOf rbtree node).getD rbtree

/-- A node whose key has been written is hung up. -/
theorem placedInsert_step {rbtree rbtree' : RbHeap}
    (tree : DictTree KeyInPlace (placedDict rbtree) nodes) (hpos : 0 < node) (hlt : node < 8192)
    (hnode : node ∉ rbtree.tree.sentinel :: nodes)
    (hhash : (rbtree.node node).key = ngxMurmurHash2 ((placedDict rbtree).keyOf node))
    (hnew : ∀ x ∈ nodes, (placedDict rbtree).keyOf x ≠ (placedDict rbtree).keyOf node)
    (h : mpsRbtreeInsert 8192 (placedDict rbtree).keyOf rbtree node = some rbtree') :
    DictTree KeyInPlace (placedDict rbtree') (node :: nodes) := by
  have hstep := tree.insert id hpos hlt hnode hhash hnew (.inl rfl) h (by rw [Shdict.setSd_id]; rfl)
  rw [Shdict.setSd_id] at hstep
  exact hstep

/-- Two keys with one hash are found, and a third one that has made the second the root.
The insertions rotate the tree, and each lookup of one of the two has to compare the keys. -/
theorem findsKeys_of_keyInPlace_collision :
    let rbtree := placedInsert (placedInsert (placedInsert placedEmpty 4224) 4352) 4480
    rbtree.tree.root = 4352 ∧ FindsKeys (placedDict rbtree) [4480, 4352, 4224] := by
  have h0 : DictTree KeyInPlace (placedDict placedEmpty) [] :=
    .init _ 4120 rfl (by decide) (by decide)
  have h1 : DictTree KeyInPlace (placedDict (placedInsert placedEmpty 4224)) [4224] :=
    placedInsert_step h0 (by decide) (by decide) (by decide) (by decide +kernel) (by simp) rfl
  have h2 : DictTree KeyInPlace (placedDict (placedInsert (placedInsert placedEmpty 4224) 4352))
      [4352, 4224] :=
    placedInsert_step h1 (by decide) (by decide) (by decide +kernel) (by decide +kernel)
      (by decide +kernel) rfl
  have h3 : DictTree KeyInPlace
      (placedDict (placedInsert (placedInsert (placedInsert placedEmpty 4224) 4352) 4480))
      [4480, 4352, 4224] :=
    placedInsert_step h2 (by decide) (by decide) (by decide +kernel) (by decide +kernel)
      (by decide +kernel) rfl
  exact ⟨by decide +kernel, findsKeys_of_keyInPlace h3⟩

/-- The key "4DG" is written. -/
def writeCollision (sd : ShdictNode) : ShdictNode :=
  { sd with data := ngxMemcpy sd.data 0 [52, 68, 71] }

/-- A key that is hung up before it is written, as `mps_shdict_incr` does it, gets lost
where another key has its hash. The two keys "01LV" and "4DG" have one hash. -/
theorem not_findsKeys : ¬ ∀ d nodes, DictTree (fun _ _ _ _ => True) d nodes →
    FindsKeys d nodes := by
  intro hall
  have hempty : DictTree (fun _ _ _ _ => True) (collisionDict collisionEmpty) [] :=
    .init (fun _ => ⟨3413460456, 0, 0, 0, 0⟩) 4120 rfl (by decide) (by decide)
  have hone := (hempty.insert (fun sd => sd) (by decide) (by decide) (by decide)
    (show ((collisionDict collisionEmpty).rbtree.node 4224).key = ngxMurmurHash2 [48, 49, 76, 86] by
      decide +kernel)
    (by simp) trivial (show _ = some collisionOne from rfl) (by decide +kernel))
  have htwo := (hone.insert writeCollision (by decide) (by decide) (by decide)
    (show (collisionOne.node 4352).key = ngxMurmurHash2 [52, 68, 71] by decide +kernel)
    (by decide +kernel) trivial (show _ = some collisionTwo from rfl) (by decide +kernel))
  obtain ⟨d', rc, rc', hlookup, -, -, -, hiff⟩ := hall _ _ htwo 0 [52, 68, 71]
  rw [mpsShdictLookup, show findNode _ _ _ _ _ = some none from rfl] at hlookup
  obtain ⟨rfl, rfl⟩ := Prod.mk.inj (Option.some.inj hlookup)
  have := hiff.mpr ⟨4352, by simp, by decide +kernel⟩
  cases this

end DictTree

end MpsShdict
