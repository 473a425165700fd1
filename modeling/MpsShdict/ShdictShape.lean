import MpsShdict.ShdictEntries

/-! # The tree and the queues of a dictionary

`Hung` says that the tree and the LRU queue hold the same nodes, `EntryOk` that the fields
of a node spell out an entry; a `Shape` is both, for all entries. `ord` is what is known
of the order of the tree: where it holds the tree is sorted. One lemma for each way in
which the code changes the links says what becomes of a shape.

That the order is a parameter is what makes one development serve two purposes. With `ord`
false it is about every run, also about those in which a counter was hung up in a wrong
place: the tree is a red-black tree all the same, and tree and queue agree. With `ord`
true the same lemmas say in addition that keys are found.
-/
namespace MpsShdict

open RedBlack RedBlack.RbTree
open Words

/-- The nodes at the offsets `N` are the ones in the tree, and the LRU queue has them in
this order. Under `ord` the tree is sorted. -/
structure Hung (ord : Prop) (d : Shdict) (N : List Nat) : Prop where
  tree : ∃ t, RbRep d.rbtree t ∧ t.inorder.Perm N ∧
    (ord → t.inorder.Pairwise (Before d.keyOf d.rbtree.node))
  insert : d.rbtree.tree.insert = .luadict
  sentinel : d.rbtree.tree.sentinel = d.pool.data + offsetofSentinel
  lru : IsQueue d.queue d.lruQueue (N.map sdQueue)

/-- The chunk of an element spells it out: its type, the number of its bytes, and the
bytes. -/
structure ElemOk (d : Shdict) (x : Elem) : Prop where
  valueType : (d.lnode x.off).valueType = x.valueType
  valueLen : (d.lnode x.off).valueLen = x.bytes.length
  bytes : readBytes (d.lnode x.off).data 0 x.bytes.length = x.bytes

/-- The value of the entry at `node` is spelled out, behind a key of `keyLen` bytes. -/
def ValueOk (d : Shdict) (e : Entry) : Prop :=
  let sd := d.sd e.off
  match e.value with
  | .plain valueType bytes => sd.valueType = valueType ∧ valueType ≠ .tlist ∧
      sd.valueLen = bytes.length ∧ readBytes sd.data e.key.length bytes.length = bytes
  | .list elems => sd.valueType = .tlist ∧ sd.valueLen = u32 elems.length ∧
      IsQueue d.queue e.listHead (elems.map Elem.off) ∧ ∀ x ∈ elems, ElemOk d x

/-- The node of an entry spells it out: the fields of its chunk, the bytes behind them,
and for a list the queue of its elements. -/
structure EntryOk (d : Shdict) (e : Entry) : Prop where
  hash : (d.rbtree.node e.off).key = ngxMurmurHash2 e.key
  keyLen : (d.sd e.off).keyLen = e.key.length
  key : readBytes (d.sd e.off).data 0 e.key.length = e.key
  userFlags : (d.sd e.off).userFlags = e.userFlags
  expires : (d.sd e.off).expires = e.expires
  value : ValueOk d e

/-- The pool spells out the entries `L`: they are hung up in this order, and each is
spelled out by its node. -/
structure Shape (ord : Prop) (d : Shdict) (L : List Entry) : Prop where
  hung : Hung ord d (L.map Entry.off)
  entries : ∀ e ∈ L, EntryOk d e

section Frame
variable {ord : Prop} {d d' : Shdict} {N : List Nat} {e e' : Entry} {L A B : List Entry} {x : Elem}

theorem EntryOk.keyOf (h : EntryOk d e) : d.keyOf e.off = e.key := by
  rw [Shdict.keyOf, h.keyLen, h.key]

theorem ElemOk.frame (h : ElemOk d x) (hl : d'.lnode x.off = d.lnode x.off) : ElemOk d' x :=
  ⟨hl ▸ h.valueType, hl ▸ h.valueLen, hl ▸ h.bytes⟩

/-- An entry is kept as long as its fields, its elements and its list are. Every call uses
this for the entries that it does not touch. -/
theorem EntryOk.frame (h : EntryOk d e)
    (hk : (d'.rbtree.node e.off).key = (d.rbtree.node e.off).key)
    (hsd : d'.sd e.off = d.sd e.off) (hl : ∀ x ∈ e.value.elems, d'.lnode x.off = d.lnode x.off)
    (hq : ∀ a ∈ e.listCells, d'.queue a = d.queue a) : EntryOk d' e := by
  refine ⟨hk.trans h.hash, hsd ▸ h.keyLen, hsd ▸ h.key, hsd ▸ h.userFlags, hsd ▸ h.expires, ?_⟩
  have hv := h.value
  unfold ValueOk at hv ⊢
  unfold Entry.listCells at hq
  cases hval : e.value with
  | plain valueType bytes =>
    rw [hval] at hv
    rw [hsd]
    exact hv
  | list elems =>
    rw [hval] at hv hl hq
    obtain ⟨h1, h2, h3, h4⟩ := hv
    rw [hsd]
    exact ⟨h1, h2, h3.frame hq, fun x hx => (h4 x hx).frame (hl x hx)⟩

/-- Nodes stay hung up as long as the tree, the queue and the keys are kept. -/
theorem Hung.frame (h : Hung ord d N) (htree : d'.rbtree = d.rbtree)
    (hdata : d'.pool.data = d.pool.data)
    (hq : ∀ a ∈ d.lruQueue :: N.map sdQueue, d'.queue a = d.queue a)
    (hk : ord → ∀ z ∈ N, d'.keyOf z = d.keyOf z) : Hung ord d' N := by
  obtain ⟨t, hr, hp, hs⟩ := h.tree
  refine ⟨⟨t, htree ▸ hr, hp, fun ho => ?_⟩, htree ▸ h.insert, ?_, ?_⟩
  · exact Before.congr (hs ho) (fun _ _ => by rw [htree]) fun z hz => hk ho z (hp.mem_iff.mp hz)
  · rw [htree, hdata]
    exact h.sentinel
  · have hlru : d'.lruQueue = d.lruQueue := by rw [Shdict.lruQueue, Shdict.lruQueue, hdata]
    rw [hlru]
    exact h.lru.frame hq

/-- The pool is the business of the allocator, but for the place of the tree. -/
theorem Shape.setPool (h : Shape ord d L) {pool : SlabPool} (hdata : pool.data = d.pool.data) :
    Shape ord { d with pool := pool } L :=
  ⟨h.hung.frame rfl hdata (fun _ _ => rfl) fun _ _ _ => rfl,
    fun e he => (h.entries e he).frame rfl rfl (fun _ _ => rfl) fun _ _ => rfl⟩

theorem Hung.nodup (h : Hung ord d N) : N.Nodup := by
  obtain ⟨t, hr, hp, -⟩ := h.tree
  exact hp.nodup_iff.mp hr.nodup

end Frame

/-! ### Changes of one entry -/

section Modify
variable {ord : Prop} {n : Nat} {d d' : Shdict} {e e' : Entry} {L A B : List Entry}

theorem mem_middle : e ∈ A ++ e :: B := by simp

theorem mem_sides {x : Entry} (hx : x ∈ A ++ B) : x ∈ A ++ e :: B := by
  simp only [List.mem_append, List.mem_cons] at hx ⊢
  tauto

theorem Laid.sides_ne (hl : Laid n d.pool.data (A ++ e :: B)) {x : Entry} (hx : x ∈ A ++ B) :
    x ≠ e := by
  rintro rfl
  exact (List.nodup_middle.mp hl.nodup).notMem hx

/-- **The one entry `e` becomes `e'`.** Nothing but its fields, its elements and the cells
of its list is written, and its chunks do not overlap those of the others. -/
theorem Shape.modify (hl : Laid n d.pool.data (A ++ e :: B))
    (hl' : Laid n d.pool.data (A ++ e' :: B)) (h : Shape ord d (A ++ e :: B))
    (hoff : e'.off = e.off) (hkey : e'.key = e.key)
    (hdata : d'.pool.data = d.pool.data) (htree : d'.rbtree = d.rbtree)
    (hsd : ∀ z, z ≠ e.off → d'.sd z = d.sd z)
    (hln : ∀ z, z ∉ e.cells → z ∉ e'.cells → d'.lnode z = d.lnode z)
    (hq : ∀ a, a ∉ e.listCells → a ∉ e'.listCells → d'.queue a = d.queue a)
    (hok : EntryOk d' e') : Shape ord d' (A ++ e' :: B) := by
  have he := h.entries e mem_middle
  have hmap : (A ++ e' :: B).map Entry.off = (A ++ e :: B).map Entry.off := by simp [hoff]
  -- the other entries share no cell with `e`, before or after
  have hother : ∀ x ∈ A ++ B, EntryOk d' x := by
    intro x hx
    have hne := hl.sides_ne hx
    have hne' := Laid.sides_ne (d := d) hl' hx
    have hd := hl.disjoint (mem_sides hx) mem_middle hne
    have hd' := hl'.disjoint (mem_sides hx) mem_middle hne'
    have hxo := h.entries x (mem_sides hx)
    have hcell : ∀ a ∈ x.listCells, a ∈ x.cells := fun a ha => List.mem_cons_of_mem _ ha
    refine hxo.frame (by rw [htree]) (hsd _ fun hoff' => ?_) ?_ ?_
    · exact hne (hl.off_inj (mem_sides hx) mem_middle hoff')
    · intro y hy
      have hy' : y.off ∈ x.cells := by
        apply hcell _
        unfold Entry.listCells
        cases hv : x.value with
        | plain valueType bytes => simp [hv, Value.elems] at hy
        | list elems =>
          rw [hv] at hy
          exact List.mem_cons_of_mem _ (List.mem_map.mpr ⟨y, hy, rfl⟩)
      exact hln _ (fun hm => hd hy' hm) fun hm => hd' hy' hm
    · intro a ha
      exact hq a (fun hm => hd (hcell a ha) (List.mem_cons_of_mem _ hm))
        fun hm => hd' (hcell a ha) (List.mem_cons_of_mem _ hm)
  constructor
  · rw [hmap]
    refine h.hung.frame htree hdata (fun a ha => hq a (fun hm => ?_) fun hm => ?_) ?_
    · exact hl.listCell_notMem mem_middle hm ha
    · exact hl'.listCell_notMem mem_middle hm (hmap ▸ ha)
    · intro _ z hz
      obtain ⟨x, hx, rfl⟩ := List.mem_map.mp hz
      by_cases hxe : x = e
      · rw [hxe, he.keyOf, ← hoff, hok.keyOf, hkey]
      · have hx' : x ∈ A ++ B := by
          simp only [List.mem_append, List.mem_cons] at hx ⊢
          tauto
        rw [(hother x hx').keyOf, (h.entries x hx).keyOf]
  · intro x hx
    simp only [List.mem_append, List.mem_cons] at hx
    rcases hx with hx | rfl | hx
    · exact hother x (by simp [hx])
    · exact hok
    · exact hother x (by simp [hx])

end Modify

/-! ### The LRU queue and the tree -/

section Links
variable {ord : Prop} {n : Nat} {d : Shdict} {e : Entry} {L A B : List Entry}

/-- The cells of the lists are not written where only those of the LRU queue are. -/
theorem EntryOk.of_lru {N : List Nat} {d' : Shdict} (h : EntryOk d e)
    (hk : (d'.rbtree.node e.off).key = (d.rbtree.node e.off).key) (hsd : d'.sd = d.sd)
    (hln : d'.lnode = d.lnode)
    (hq : ∀ a, a ∉ d.lruQueue :: N.map sdQueue → d'.queue a = d.queue a)
    (hoff : ∀ a ∈ e.listCells, a ∉ d.lruQueue :: N.map sdQueue) : EntryOk d' e :=
  h.frame hk (by rw [hsd]) (fun _ _ => by rw [hln]) fun a ha => hq a (hoff a ha)

/-- **An entry is moved to the head of the LRU queue.** The tree is not written. -/
theorem Shape.touch (hl : Laid n d.pool.data (A ++ e :: B)) (h : Shape ord d (A ++ e :: B)) :
    Shape ord (d.touch e.off) (e :: (A ++ B)) := by
  obtain ⟨⟨t, hr, hp, hs⟩, h1, h2, hlru⟩ := h.hung
  simp only [List.map_append, List.map_cons] at hlru
  have hrem := hlru.remove
  have hmem : sdQueue e.off ∉ d.lruQueue ::
      ((A.map Entry.off).map sdQueue ++ (B.map Entry.off).map sdQueue) := by
    have hnd : ((d.lruQueue :: (A.map Entry.off).map sdQueue) ++
        sdQueue e.off :: (B.map Entry.off).map sdQueue).Nodup := hlru.nodup
    exact (List.nodup_middle.mp hnd).notMem
  have hins := hrem.insertHead hmem
  have hframe : ∀ a, a ∉ d.lruQueue :: ((A ++ e :: B).map Entry.off).map sdQueue →
      (d.touch e.off).queue a = d.queue a := by
    intro a ha
    simp only [List.map_append, List.map_cons, List.mem_cons, List.mem_append, not_or] at ha
    obtain ⟨ha1, ha2, ha3, ha4⟩ := ha
    show mpsQueueInsertHead _ _ _ a = _
    have hrest : a ∉ d.lruQueue ::
        ((A.map Entry.off).map sdQueue ++ (B.map Entry.off).map sdQueue) := by
      simp only [List.mem_cons, List.mem_append, not_or]
      exact ⟨ha1, ha2, ha4⟩
    have hall : a ∉ d.lruQueue :: sdQueue e.off ::
        ((A.map Entry.off).map sdQueue ++ (B.map Entry.off).map sdQueue) := by
      simp only [List.mem_cons, List.mem_append, not_or] at hrest ⊢
      exact ⟨ha1, ha3, hrest.2⟩
    rw [hrem.insertHead_frame hall, hlru.remove_frame hrest]
  refine ⟨⟨⟨t, hr, ?_, hs⟩, h1, h2, ?_⟩, ?_⟩
  · apply hp.trans
    simp only [List.map_append, List.map_cons]
    exact List.perm_middle
  · simp only [List.map_append, List.map_cons]
    exact hins
  · intro x hx
    have hx' : x ∈ A ++ e :: B := by
      simp only [List.mem_append, List.mem_cons] at hx ⊢
      tauto
    exact (h.entries x hx').of_lru rfl rfl rfl hframe fun a ha => hl.listCell_notMem hx' ha

/-- **A node is taken off the LRU queue and out of the tree.**  What its entry holds
does not matter. -/
theorem Hung.unlink (hl : Laid n d.pool.data (A ++ e :: B)) (hn : n = d.pool.poolEnd)
    (h : Hung ord d ((A ++ e :: B).map Entry.off)) (hok : ∀ x ∈ A ++ B, EntryOk d x) :
    ∃ rbtree, mpsRbtreeDelete d.rounds d.rbtree e.off = some rbtree ∧
      Shape ord { d with queue := mpsQueueRemove d.queue (sdQueue e.off), rbtree := rbtree }
        (A ++ B) := by
  obtain ⟨⟨t, hr, hp, hs⟩, h1, h2, hlru⟩ := h
  have hmem : e.off ∈ t.inorder := hp.mem_iff.mpr (List.mem_map.mpr ⟨e, mem_middle, rfl⟩)
  -- the tree has fewer nodes than the pool has bytes
  have hfuel : t.inorder.length + 1 ≤ d.rounds := by
    have := hl.length
    rw [hp.length_eq, List.length_map, Shdict.rounds, ← hn]
    omega
  obtain ⟨rb, t', xs, ys, hrun, hr', ht, ht', hk⟩ := mpsRbtreeDelete_spec hr hmem hfuel
  have hnd : (xs ++ e.off :: ys).Nodup := ht ▸ hr.nodup
  -- the node that goes occurs once
  have hne : ∀ x ∈ xs ++ ys, x ≠ e.off := by
    rintro x hx rfl
    exact (List.nodup_middle.mp hnd).notMem hx
  have hlru' := hlru
  simp only [List.map_append, List.map_cons] at hlru hlru'
  refine ⟨rb, hrun, ⟨⟨t', hr', ?_, ?_⟩, hk.insert.trans h1, hk.sentinel.trans h2, ?_⟩, ?_⟩
  · apply List.Perm.cons_inv (a := e.off)
    rw [ht']
    refine List.perm_middle.symm.trans ((ht ▸ hp).trans ?_)
    simp only [List.map_append, List.map_cons]
    exact List.perm_middle
  · intro ho
    rw [ht']
    refine Before.congr (m := d.rbtree.node) ?_ (fun x hx => hk.key x (hne x hx))
      fun _ _ => rfl
    have hs := hs ho
    rw [ht] at hs
    exact hs.sublist ((List.Sublist.refl xs).append (List.sublist_cons_self e.off ys))
  · simp only [List.map_append]
    exact hlru.remove
  · intro x hx
    have hx' : x ∈ A ++ e :: B := mem_sides hx
    have hxe : x.off ≠ e.off := fun he => hl.sides_ne hx (hl.off_inj hx' mem_middle he)
    refine (hok x hx).of_lru (N := (A ++ e :: B).map Entry.off) (hk.key _ hxe) rfl rfl ?_
      fun a ha => hl.listCell_notMem hx' ha
    intro a ha
    simp only [List.map_append, List.map_cons, List.mem_cons, List.mem_append, not_or] at ha
    obtain ⟨ha1, ha2, ha3, ha4⟩ := ha
    apply hlru.remove_frame
    simp only [List.mem_cons, List.mem_append, not_or]
    exact ⟨ha1, ha2, ha4⟩

/-- **A node is put into the tree and at the head of the LRU queue.**  Its fields may
still be written afterwards (`f`), and its key, too, as long as no other key has its
hash. -/
theorem Shape.link (hl : Laid n d.pool.data (e :: L)) (hn : n = d.pool.poolEnd) (h : Shape ord d L)
    (hhash : (d.rbtree.node e.off).key = ngxMurmurHash2 e.key) :
    ∃ d', d.link e.off = some d' ∧ d'.pool = d.pool ∧ d'.sd = d.sd ∧ d'.lnode = d.lnode ∧
      ∀ f, EntryOk (d.setSd e.off f) e →
        (ord → (∀ x ∈ L, x.key ≠ e.key) ∧
          (d.keyOf e.off = e.key ∨ ∀ x ∈ L, ngxMurmurHash2 x.key ≠ ngxMurmurHash2 e.key)) →
        Shape ord (d'.setSd e.off f) (e :: L) := by
  obtain ⟨⟨t, hr, hp, hs⟩, h1, h2, hlru⟩ := h.hung
  have hnd := hl.off_nodup
  rw [List.map_cons] at hnd
  have hmem : e.off ∉ t.inorder := fun hm => (List.nodup_cons.mp hnd).1 (hp.mem_iff.mp hm)
  have hsent : e.off ≠ d.rbtree.tree.sentinel := h2 ▸ hl.sentinel e List.mem_cons_self
  have hfuel : t.inorder.length + 2 ≤ d.rounds := by
    have := hl.length
    rw [hp.length_eq, List.length_map, Shdict.rounds, ← hn]
    simp only [List.length_cons] at this
    omega
  obtain ⟨rb, t', hrun, hr', hperm, hk, hsort⟩ :=
    mpsRbtreeInsert_before hr h1 hmem hsent hfuel
  have hcell : sdQueue e.off ∉ d.lruQueue :: (L.map Entry.off).map sdQueue := by
    have hown := hl.own e List.mem_cons_self
    simp only [Entry.cells, List.nodup_cons, List.mem_cons, not_or] at hown
    simp only [List.mem_cons, List.mem_map, not_or]
    refine ⟨fun he => hown.1.1 he.symm, ?_⟩
    rintro ⟨_, ⟨x, hx, rfl⟩, he⟩
    refine (List.nodup_cons.mp hnd).1 (List.mem_map.mpr ⟨x, hx, ?_⟩)
    unfold sdQueue at he
    omega
  have hins := hlru.insertHead hcell
  refine ⟨{ d with
      rbtree := rb
      queue := mpsQueueInsertHead d.queue d.lruQueue (sdQueue e.off) },
    by rw [Shdict.link, hrun]; rfl, rfl, rfl, rfl, ?_⟩
  intro f hok hord
  have hother : ∀ x ∈ L, x.off ≠ e.off := fun x hx he =>
    (List.nodup_cons.mp hnd).1 (List.mem_map.mpr ⟨x, hx, he⟩)
  have hkeys : ∀ z, z ≠ e.off → (d.setSd e.off f).keyOf z = d.keyOf z := fun z hz =>
    Shdict.setSd_keyOf_ne hz
  have hframe : ∀ a, a ∉ d.lruQueue :: ((e :: L).map Entry.off).map sdQueue →
      mpsQueueInsertHead d.queue d.lruQueue (sdQueue e.off) a = d.queue a := by
    intro a ha
    simp only [List.map_cons] at ha
    exact hlru.insertHead_frame ha
  refine ⟨⟨⟨t', hr', hperm.trans (hp.cons _), ?_⟩, hk.insert.trans h1, hk.sentinel.trans h2,
    hins⟩, ?_⟩
  · intro ho
    obtain ⟨hnew, hplace⟩ := hord ho
    have hxs : ∀ z ∈ t.inorder, ∃ x ∈ L, x.off = z := fun z hz =>
      List.mem_map.mp (hp.mem_iff.mp hz)
    have hoff : ∀ z ∈ t'.inorder, z ≠ e.off → ∃ x ∈ L, x.off = z := fun z hz hne =>
      hxs z ((List.mem_cons.mp (hperm.mem_iff.mp hz)).resolve_left hne)
    -- the key is there already, or the hash alone decides where the node belongs
    rcases hplace with hplace | hplace
    · refine Before.congr (hsort (hs ho) ?_) (fun _ _ => rfl) ?_
      · intro z hz he
        obtain ⟨x, hx, rfl⟩ := hxs z hz
        exact hnew x hx ((h.entries x hx).keyOf.symm.trans (he.2.trans hplace))
      · intro z hz
        by_cases hze : z = e.off
        · rw [hze, hplace]
          exact hok.keyOf
        · exact hkeys z hze
    · have hne : ∀ z ∈ t.inorder, (d.rbtree.node z).key ≠ (d.rbtree.node e.off).key := by
        intro z hz
        obtain ⟨x, hx, rfl⟩ := hxs z hz
        rw [(h.entries x hx).hash, hhash]
        exact hplace x hx
      refine Before.rekey (z := e.off) (hsort (hs ho) fun z hz he => hne z hz he.1) hr'.nodup
        ?_ fun z hz hze => hkeys z hze
      intro z hz hze
      show (rb.node z).key ≠ (rb.node e.off).key
      rw [hk.key, hk.key]
      exact hne z ((List.mem_cons.mp (hperm.mem_iff.mp hz)).resolve_left hze)
  · intro x hx
    rcases List.mem_cons.mp hx with rfl | hx'
    · exact hok.of_lru (hk.key _) rfl rfl hframe fun a ha => hl.listCell_notMem hx ha
    · have hxo : EntryOk (d.setSd e.off f) x :=
        (h.entries x hx').frame rfl (by simp [Shdict.setSd, hother x hx']) (fun _ _ => rfl)
          fun _ _ => rfl
      exact hxo.of_lru (hk.key _) rfl rfl hframe fun a ha => hl.listCell_notMem hx ha

end Links

end MpsShdict
