import MpsShdict.Queue
import MpsShdict.Rbtree
import MpsShdict.Slab
import MpsShdict.String

/-! # The dictionary (`mps_shdict.c`)

An entry is one chunk of the slab: a node of the red-black tree whose end is the entry
proper, with the key and the value behind it. The value of a list entry is a queue header,
aligned behind the key; each element of the list is a chunk of its own. All entries hang
in one tree, ordered by the hash of the key, and on one queue, the entry used last at its
head.

Entries, list nodes and queue cells are named by the offset of their chunk or of the cell,
as the tree nodes are; the pool, the tree and the queues are those of their own modules.
The fields of an entry and its bytes are separate components of the state, so that a write
to one of them says by its form that it leaves the others alone; that the chunks they
stand for do not overlap is proved later, from the allocator's invariant.

`base` is where the calling process has mapped the pool. A call is one locked section.
Whatever it needs that is not in the pool it takes from its `Env`, by the place in the
code that asks for it. A function that leaves `sd` set answers with that, too. A loop over
the nodes of the pool has as many rounds as the pool has bytes, and answers `none` beyond
that; every call is proved to answer.
-/
namespace MpsShdict

open Words

/-! ### Values -/

/-- `MPS_SHDICT_T*`; `unknown` is any number that is none of them, which a caller may
pass. -/
inductive ValueType where
  | tnil
  | tboolean
  | tnumber
  | tstring
  | tlist
  | unknown (code : Int)
  deriving DecidableEq, Repr

/-- `double`, by its bytes, the lowest first. The arithmetic on it belongs to the process,
so addition is a component of `Env`. -/
structure Double where
  bytes : Bytes
  size : bytes.length = 8
  deriving DecidableEq

/-- `num_value == 0`: all bits but the sign are clear. -/
def Double.isZero (x : Double) : Bool :=
  (x.bytes.take 7).all (· == 0) && (x.bytes.drop 7).all fun b => b &&& 127 == 0

/-- `0.0`. -/
def Double.zero : Double := ⟨List.replicate 8 0, rfl⟩

/-- The bytes of a chunk behind its fields. The key comes first and the value behind it. -/
abbrev Data := Nat → UInt8

/-- `n` bytes from byte `i` on. -/
def readBytes (data : Data) (i n : Nat) : Bytes := (List.range n).map fun j => data (i + j)

/-- `ngx_memcpy(data + i, src, len)`. -/
def ngxMemcpy (data : Data) (i : Nat) (src : Bytes) : Data := fun j =>
  if i ≤ j ∧ j < i + src.length then src.getD (j - i) 0 else data j

/-- The double in eight bytes. -/
def readDouble (data : Data) (i : Nat) : Double := ⟨readBytes data i 8, by simp [readBytes]⟩

/-! ### Memory -/

/-- `mps_shdict_node_t`, but for its colour, which is the tree's, and its queue. The
lengths are stored in fields of 16 and of 32 bits. -/
structure ShdictNode where
  valueType : ValueType
  keyLen : Nat
  valueLen : Nat
  expires : Nat
  userFlags : Nat
  data : Data

/-- `mps_shdict_list_node_t`, but for its queue, which is in the memory of the queues
under the same offset. -/
structure ShdictListNode where
  valueLen : Nat
  valueType : ValueType
  data : Data

/-- The pool of a dictionary: the allocator's part, the tree, the queue cells, and the
fields of entries and list nodes by offset. -/
structure Shdict where
  pool : SlabPool
  rbtree : RbHeap
  queue : QueueMem
  sd : Nat → ShdictNode
  lnode : Nat → ShdictListNode

/-- `sizeof(mps_shdict_tree_t)`. -/
def sizeofTree : Nat := 80
/-- `offsetof(mps_shdict_tree_t, sentinel)`. -/
def offsetofSentinel : Nat := 24
/-- `offsetof(mps_shdict_tree_t, lru_queue)`. -/
def offsetofLruQueue : Nat := 64
/-- `offsetof(mps_rbtree_node_t, color)`. -/
def offsetofColor : Nat := 32
/-- `offsetof(mps_shdict_node_t, queue)`. -/
def offsetofQueue : Nat := 16
/-- `offsetof(mps_shdict_node_t, data)`. -/
def offsetofData : Nat := 36
/-- `offsetof(mps_shdict_list_node_t, data)`. -/
def offsetofListData : Nat := 21
/-- `sizeof(mps_queue_t)`. -/
def sizeofQueue : Nat := 16
/-- `sizeof(double)`. -/
def sizeofDouble : Nat := 8
/-- `NGX_ALIGNMENT`. -/
def ngxAlignment : Nat := 8

/-- The queue cell of an entry. -/
def sdQueue (node : Nat) : Nat := node + offsetofColor + offsetofQueue

/-- `mps_queue_data(q, mps_shdict_node_t, queue)`, as the node around the entry. -/
def nodeOfQueue (q : Nat) : Nat := q - offsetofQueue - offsetofColor

/-- `mps_shdict_get_list_head`: the address behind the key, rounded up, and back to an
offset. It depends on the base only through the rounding. -/
def mpsShdictGetListHead (base node len : Nat) : Nat :=
  alignUp (base + node + offsetofColor + offsetofData + len) ngxAlignment - base

/-- What a call finds outside of the pool, and what it finds in a new chunk. Two calls
with the same environment on the same pool do the same. -/
structure Env where
  /-- The readings of the clock.  The places that read it are numbered in the order
  in which a call passes them. -/
  clock : Nat → Nat
  /-- Allocations, by number, that fail although the pool may have room. -/
  refuse : Nat → Bool
  /-- What the chunk of a new entry holds before it is written. -/
  junk : ShdictNode
  /-- What the chunk of a new list node holds before it is written. -/
  listJunk : Data
  /-- `malloc` succeeds. -/
  malloc : Bool
  /-- The sum of two doubles. -/
  add : Double → Double → Double

/-- `mps_clock_time_ms`. -/
def Env.mpsClockTimeMs (env : Env) (i : Nat) : Nat := u64 (env.clock i)

namespace Shdict
variable (d : Shdict)

/-- `&tree->lru_queue`. -/
def lruQueue : Nat := d.pool.data + offsetofLruQueue

/-- The rounds a loop over the nodes of the pool may run for. -/
def rounds : Nat := d.pool.poolEnd

/-- The key bytes of an entry. -/
def keyOf (node : Nat) : Bytes := readBytes (d.sd node).data 0 (d.sd node).keyLen

/-- An assignment to the fields of an entry. -/
def setSd (node : Nat) (f : ShdictNode → ShdictNode) : Shdict :=
  { d with sd := Function.update d.sd node (f (d.sd node)) }

/-- `mps_slab_free_locked`. -/
def slabFree (sz : Sizes) (base p : Nat) : Shdict :=
  { d with pool := mpsSlabFreeLocked sz base d.pool p }

/-- `mps_slab_alloc_locked`, allocation `i` of the call. -/
def slabAlloc (sz : Sizes) (env : Env) (i size : Nat) : Option (Shdict × Option Nat) :=
  if env.refuse i then some (d, none)
  else (mpsSlabAllocLocked sz d.rounds d.pool size).map fun r => ({ d with pool := r.1 }, r.2)

/-- `mps_queue_remove(pool, &sd->queue)`, then
`mps_queue_insert_head(pool, &tree->lru_queue, &sd->queue)`: the entry becomes the one
used last. -/
def touch (node : Nat) : Shdict :=
  { d with queue :=
      mpsQueueInsertHead (mpsQueueRemove d.queue (sdQueue node)) d.lruQueue (sdQueue node) }

/-- `mps_rbtree_insert(pool, &tree->rbtree, node)`, then
`mps_queue_insert_head(pool, &tree->lru_queue, &sd->queue)`. -/
def link (node : Nat) : Option Shdict := do
  let rbtree ← mpsRbtreeInsert d.rounds d.keyOf d.rbtree node
  some { d with rbtree := rbtree, queue := mpsQueueInsertHead d.queue d.lruQueue (sdQueue node) }

/-- `mps_queue_remove(pool, &sd->queue)`, then `mps_rbtree_delete` and
`mps_slab_free_locked` for the node. -/
def unlink (sz : Sizes) (base node : Nat) : Option Shdict := do
  let d := { d with queue := mpsQueueRemove d.queue (sdQueue node) }
  let rbtree ← mpsRbtreeDelete d.rounds d.rbtree node
  some (slabFree { d with rbtree := rbtree } sz base node)

/-- The loop that frees the nodes of a list from `lq` on; it reads the link of a node that
it has just freed. That the link is still there is a property of the allocator. -/
def freeListNodes (sz : Sizes) (base listQueue : Nat) : Nat → Shdict → Nat → Option Shdict
  | 0, _, _ => none
  | fuel + 1, d, lq =>
    if lq = listQueue then some d
    else
      let d := d.slabFree sz base lq
      freeListNodes sz base listQueue fuel d (mpsQueueNext d.queue lq)

/-- An entry is taken out and freed, with its list if it has one. The length of the key is
passed, since the header of the list is behind it. -/
def removeEntry (sz : Sizes) (base node keyLen : Nat) : Option Shdict := do
  let d ←
    if (d.sd node).valueType = .tlist then
      let listQueue := mpsShdictGetListHead base node keyLen
      freeListNodes sz base listQueue d.rounds d (mpsQueueHead d.queue listQueue)
    else some d
  d.unlink sz base node

end Shdict

/-! ### Looking up -/

/-- What `mps_shdict_lookup` and `mps_shdict_peek` return: `NGX_OK`, `NGX_DONE` for an
entry that has expired, or `NGX_DECLINED`. The entry found is the argument. -/
inductive Lookup where
  | ok (node : Nat)
  | done (node : Nat)
  | declined
  deriving DecidableEq, Repr

/-- The way down of `mps_shdict_lookup` and of `mps_shdict_peek`: by the hash, and among
equal hashes by the bytes of the key. -/
def findNode (d : Shdict) (hash : Nat) (kdata : Bytes) : Nat → Nat → Option (Option Nat)
  | 0, _ => none
  | fuel + 1, node =>
    let n := d.rbtree.node node
    if node = d.rbtree.tree.sentinel then some none
    else if hash < n.key then findNode d hash kdata fuel n.left
    else if n.key < hash then findNode d hash kdata fuel n.right
    else
      let rc := ngxMemn2cmp kdata (d.keyOf node)
      if rc = 0 then some (some node)
      else findNode d hash kdata fuel (if rc < 0 then n.left else n.right)

/-- `ms < 0` for `ms = sd->expires - now`, where there is a deadline. At its deadline an
entry has not expired. -/
def lookupExpired (expires now : Nat) : Bool :=
  expires ≠ 0 && int64 (sub64 expires now) < 0

/-- `mps_shdict_lookup`. An entry that is found is used, whether it has expired or not,
and moves to the head of the queue. -/
def mpsShdictLookup (d : Shdict) (now hash : Nat) (kdata : Bytes) : Option (Shdict × Lookup) := do
  let found ← findNode d hash kdata d.rounds d.rbtree.tree.root
  match found with
  | none => some (d, .declined)
  | some node =>
    let d := d.touch node
    if lookupExpired (d.sd node).expires now then some (d, .done node)
    else some (d, .ok node)

/-- `mps_shdict_peek`. It neither moves the entry nor looks at its deadline. -/
def mpsShdictPeek (d : Shdict) (hash : Nat) (kdata : Bytes) : Option Lookup := do
  let found ← findNode d hash kdata d.rounds d.rbtree.tree.root
  match found with
  | none => some .declined
  | some node => some (.ok node)

/-! ### Expiry -/

/-- The entry stays: it has no deadline, or `ms > 0` for `ms = sd->expires - now`. At its
deadline it goes, other than in a lookup. -/
def expireKeeps (expires now : Nat) : Bool :=
  expires = 0 || 0 < int64 (sub64 expires now)

/-- The loop of `mps_shdict_expire`, `left` being `3 - n`: how many it has freed. In the
round with `n = 0` the oldest entry goes whatever its deadline is, which is eviction by
force. -/
def expireLoop (sz : Sizes) (base now : Nat) : Nat → Shdict → Option (Shdict × Nat)
  | 0, d => some (d, 0)
  | left + 1, d =>
    if mpsQueueEmpty d.queue d.lruQueue then some (d, 0)
    else
      let node := nodeOfQueue (mpsQueueLast d.queue d.lruQueue)
      let n := 3 - (left + 1)
      if n ≠ 0 ∧ expireKeeps (d.sd node).expires now then some (d, 0)
      else do
        let d ← d.removeEntry sz base node (d.sd node).keyLen
        let (d, freed) ← expireLoop sz base now left d
        some (d, freed + 1)

/-- `mps_shdict_expire`. -/
def mpsShdictExpire (sz : Sizes) (base now : Nat) (d : Shdict) (n : Nat) :
    Option (Shdict × Nat) :=
  expireLoop sz base now (3 - n) d

/-! ### Allocating an entry -/

/-- `NGX_OK`. -/
def ngxOk : Int := 0
/-- `NGX_ERROR`. -/
def ngxError : Int := -1
/-- `NGX_DECLINED`. -/
def ngxDeclined : Int := -5

/-- `exptime > 0 ? now + (uint64_t) exptime : 0`. -/
def deadline (now : Nat) (exptime : Int) : Nat :=
  if 0 < exptime then u64 (now + ofInt64 exptime) else 0

/-- A size that is computed in an `int` and passed as a `size_t`. -/
def intSize (n : Nat) : Nat := ofInt64 (int32 n)

/-- The loop that evicts by force and tries again, `left` being `30 - i`: the chunk,
and in how many rounds entries were evicted.  `*forcible` is set in each of them. -/
def evictLoop (sz : Sizes) (base : Nat) (env : Env) (size : Nat) :
    Nat → Shdict → Option (Shdict × Option Nat × Nat)
  | 0, d => some (d, none, 0)
  | left + 1, d => do
    let i := 30 - (left + 1)
    let (d, freed) ← mpsShdictExpire sz base (env.mpsClockTimeMs (3 + i)) d 0
    if freed = 0 then some (d, none, 0)
    else
      let (d, node) ← d.slabAlloc sz env (1 + i) size
      match node with
      | some node => some (d, some node, 1)
      | none =>
        let (d, node, rounds) ← evictLoop sz base env size left d
        some (d, node, rounds + 1)

/-- The chunk for a new entry. Where there is none, and `force` is set, entries are
evicted for it and the allocation is tried again, up to thirty times. -/
def allocEntry (sz : Sizes) (base : Nat) (env : Env) (size : Nat) (force : Bool) (d : Shdict) :
    Option (Shdict × Option Nat × Nat) := do
  let (d, node) ← d.slabAlloc sz env 0 size
  match node with
  | some node => some (d, some node, 0)
  | none => if force then evictLoop sz base env size 30 d else some (d, none, 0)

end MpsShdict
