import Swoole.Core.Hash
import Swoole.Library.Chains
import Swoole.Library.StepRun

/-!
# Hash maps

`swHashMap` with string keys, on top of the tables of `uthash`.  A node is in two lists at once: in
the list of all nodes, in the order of their insertion, which starts at a root that is no entry, and
in the chain of its bucket.  When a chain gets too long, the number of buckets is doubled, and all
nodes move to new chains.

The members of the nodes are maps from addresses.  A loop follows at most `fuel` pointers.
-/

namespace Swoole

open StepRun Function

/-! ## `swoole_hash_jenkins` -/

/-- `HASH_JEN_MIX`; the third word has 64 bits. -/
def jenkinsMix (a b : UInt32) (c : UInt64) : UInt32 × UInt32 × UInt64 :=
  let a := (a - b - c.toUInt32) ^^^ (c >>> 13).toUInt32
  let b := (b - c.toUInt32 - a) ^^^ (a <<< 8)
  let c := (c - a.toUInt64 - b.toUInt64) ^^^ (b >>> 13).toUInt64
  let a := (a - b - c.toUInt32) ^^^ (c >>> 12).toUInt32
  let b := (b - c.toUInt32 - a) ^^^ (a <<< 16)
  let c := (c - a.toUInt64 - b.toUInt64) ^^^ (b >>> 5).toUInt64
  let a := (a - b - c.toUInt32) ^^^ (c >>> 3).toUInt32
  let b := (b - c.toUInt32 - a) ^^^ (a <<< 10)
  let c := (c - a.toUInt64 - b.toUInt64) ^^^ (b >>> 15).toUInt64
  (a, b, c)

/-- A byte of the key, moved up; there is nothing to add behind its end. -/
def jenkinsByte (key : Bytes) (i shift : ℕ) : UInt32 :=
  charBits (key.getD i 0) <<< UInt32.ofNat shift

/-- Four bytes of the key. -/
def jenkinsWord (key : Bytes) (i : ℕ) : UInt32 :=
  jenkinsByte key i 0 + jenkinsByte key (i + 1) 8 + jenkinsByte key (i + 2) 16 +
    jenkinsByte key (i + 3) 24

/-- The rounds of twelve bytes. -/
def jenkinsRounds : ℕ → Bytes → UInt32 × UInt32 × UInt64 → UInt32 × UInt32 × UInt64
  | 0, _, state => state
  | rounds + 1, key, (i, j, hashv) =>
    jenkinsRounds rounds (key.drop 12)
      (jenkinsMix (i + jenkinsWord key 0) (j + jenkinsWord key 4)
        (hashv + (jenkinsWord key 8).toUInt64))

/-- `swoole_hash_jenkins`. -/
def hashJenkins (key : Bytes) : UInt64 :=
  let (i, j, hashv) :=
    jenkinsRounds (key.length / 12) key (0x9e3779b9, 0x9e3779b9, 0xfeedbeef)
  let rest := key.drop (key.length / 12 * 12)
  let hashv := hashv + UInt64.ofNat key.length + (jenkinsByte rest 10 24).toUInt64 +
    (jenkinsByte rest 9 16).toUInt64 + (jenkinsByte rest 8 8).toUInt64
  (jenkinsMix (i + jenkinsWord rest 0) (j + jenkinsWord rest 4) hashv).2.2

/-- `hashv`, which is an `unsigned` in the nodes. -/
def hashOf (key : Bytes) : ℕ := (hashJenkins key).toUInt32.toNat

/-- `HASH_TO_BKT`. -/
def bucketOf (hashv numBuckets : ℕ) : ℕ := hashv &&& (numBuckets - 1)

/-- `strndup` stops at a NUL. -/
def strndup (key : Bytes) : Bytes := key.takeWhile (· ≠ 0)

/-! ## The map -/

/-- What may go wrong in place of a result. -/
inductive HashFault where
  /-- A loop has not ended yet. -/
  | endless
  /-- The program uses memory that it does not own. -/
  | memory
  | division
  deriving DecidableEq, Repr

/-- `swHashMap`: the nodes, the list of all nodes from the root on, and the table.  `keyInt` is also
the `keylen` of the handle. -/
structure HashMap where
  keyStr : ℕ → Bytes
  keyInt : ℕ → ℕ
  data : ℕ → ℕ
  hashv : ℕ → ℕ
  list : Links ℕ
  chains : Chains ℕ ℕ
  count : ℕ → ℕ
  expandMult : ℕ → ℕ
  numBuckets : ℕ
  log2NumBuckets : ℕ
  numItems : ℕ
  ineffExpands : ℕ
  noexpand : Bool

namespace HashMap

/-- `swHashMap_new`; the number of buckets is `SW_HASHMAP_INIT_BUCKET_N`. -/
def new (root : ℕ) : HashMap where
  keyStr := fun _ => []
  keyInt := fun _ => 0
  data := fun _ => 0
  hashv := fun _ => 0
  list := ⟨some root, some root, fun _ => none, fun _ => none⟩
  chains := ⟨fun _ => none, fun _ => none, fun _ => none⟩
  count := fun _ => 0
  expandMult := fun _ => 0
  numBuckets := 32
  log2NumBuckets := 5
  numItems := 0
  ineffExpands := 0
  noexpand := false

variable (s : HashMap)

/-! ### Finding -/

/-- `HASH_FIND_IN_BKT`. -/
def findInBucket (key : Bytes) : ℕ → Option ℕ → Except HashFault (Option ℕ)
  | _, none => .ok none
  | 0, some _ => .error .endless
  | fuel + 1, some out =>
    if s.keyInt out = key.length ∧ (s.keyStr out).take key.length = key then .ok (some out)
    else findInBucket key fuel (s.chains.next out)

/-- `swHashMap_node_find`. -/
def nodeFind (fuel : ℕ) (key : Bytes) : Except HashFault (Option ℕ) :=
  s.findInBucket key fuel (s.chains.head (bucketOf (hashOf key) s.numBuckets))

/-- `swHashMap_find`; `NULL` is zero. -/
def find (fuel : ℕ) (key : Bytes) : Except HashFault ℕ :=
  (s.nodeFind fuel key).map fun
    | none => 0
    | some ret => s.data ret

/-! ### Expanding -/

/-- The new buckets while the nodes are moving. -/
structure Growing where
  chains : Chains ℕ ℕ
  count : ℕ → ℕ
  expandMult : ℕ → ℕ
  nonidealItems : ℕ

/-- A node moves to the new bucket `b`. -/
def Growing.moveNode (g : Growing) (ideal b x : ℕ) : Except HashFault Growing :=
  let count := (g.count b + 1) % 2 ^ 32
  if ideal < count then
    if ideal = 0 then .error .division
    else
      .ok
        { chains := g.chains.push b x
          count := update g.count b count
          expandMult := update g.expandMult b (count / ideal)
          nonidealItems := g.nonidealItems + 1 }
  else .ok { g with chains := g.chains.push b x, count := update g.count b count }

/-- The nodes of a chain move. -/
def moveChain (target : ℕ → ℕ) (ideal : ℕ) : ℕ → Option ℕ → Growing → Except HashFault Growing
  | _, none, g => .ok g
  | 0, some _, _ => .error .endless
  | fuel + 1, some x, g =>
    (g.moveNode ideal (target x) x).bind (moveChain target ideal fuel (g.chains.next x))

/-- The chains of some buckets move. -/
def moveChains (target : ℕ → ℕ) (ideal fuel : ℕ) (head : ℕ → Option ℕ) :
    List ℕ → Growing → Except HashFault Growing
  | [], g => .ok g
  | b :: bs, g =>
    (moveChain target ideal fuel (head b) g).bind (moveChains target ideal fuel head bs)

/-- `ideal_chain_maxlen`. -/
def idealChainMaxlen : ℕ :=
  (s.numItems >>> (s.log2NumBuckets + 1)) +
    if s.numItems &&& (s.numBuckets * 2 - 1) ≠ 0 then 1 else 0

/-- An expansion was of no use if more than half of the nodes are too far behind in their chains. -/
def ineffAfter (g : Growing) : ℕ :=
  if s.numItems >>> 1 < g.nonidealItems then s.ineffExpands + 1 else 0

/-- The table with the new buckets; after two expansions of no use there is no other one. -/
def grown (g : Growing) : HashMap :=
  { s with
    chains := g.chains
    count := g.count
    expandMult := g.expandMult
    numBuckets := s.numBuckets * 2
    log2NumBuckets := s.log2NumBuckets + 1
    ineffExpands := s.ineffAfter g
    noexpand := s.noexpand || decide (1 < s.ineffAfter g) }

/-- `HASH_EXPAND_BUCKETS`.  The size of the new block is computed from `2 * num_buckets`, an
`unsigned`: with `2 ^ 31` buckets it is zero. -/
def expand (fuel : ℕ) : Except HashFault HashMap :=
  if 2 ^ 32 ≤ 2 * s.numBuckets then .error .memory
  else
    (moveChains (fun x => bucketOf (s.hashv x) (s.numBuckets * 2)) s.idealChainMaxlen fuel
      s.chains.head (List.range s.numBuckets)
      ⟨⟨fun _ => none, s.chains.next, s.chains.pre⟩, fun _ => 0, fun _ => 0, 0⟩).map s.grown

/-! ### Adding -/

/-- The node enters the chain of the bucket `b`. -/
def enterBucket (b x : ℕ) : HashMap :=
  { s with
    count := update s.count b ((s.count b + 1) % 2 ^ 32)
    chains := s.chains.push b x }

/-- `HASH_ADD_TO_BKT`; `HASH_BKT_CAPACITY_THRESH` is ten. -/
def addToBucket (fuel b x : ℕ) : Except HashFault HashMap :=
  let s' := s.enterBucket b x
  if (s'.expandMult b + 1) % 2 ^ 32 * 10 % 2 ^ 32 ≤ s'.count b ∧ s'.noexpand = false then
    s'.expand fuel
  else .ok s'

/-- The node `x` is put behind the last one, and is counted. -/
def append (tail x : ℕ) : HashMap :=
  { s with
    list :=
      { s.list with
        next := update (update s.list.next x none) tail (some x)
        pre := update s.list.pre x (some tail)
        tail := some x }
    numItems := (s.numItems + 1) % 2 ^ 32
    hashv := update s.hashv x (hashOf ((s.keyStr x).take (s.keyInt x))) }

/-- `swHashMap_node_add`. -/
def nodeAdd (fuel x : ℕ) : Except HashFault HashMap :=
  match s.list.tail with
  | none => .error .memory
  | some tail =>
    let s' := s.append tail x
    s'.addToBucket fuel (bucketOf (s'.hashv x) s'.numBuckets) x

/-- The key of a node. -/
def setKey (x : ℕ) (key : Bytes) : HashMap :=
  { s with
    keyStr := update s.keyStr x (strndup key)
    keyInt := update s.keyInt x key.length }

/-- The data of a node. -/
def setData (x data : ℕ) : HashMap := { s with data := update s.data x data }

/-- `swHashMap_add`, with the answer of `malloc`; `false` is `SW_ERR`. -/
def add (fuel : ℕ) (node : Option ℕ) (key : Bytes) (data : ℕ) : Except HashFault (HashMap × Bool) :=
  match node with
  | none => .ok (s, false)
  | some x => (((s.setKey x key).setData x data).nodeAdd fuel x).map fun s' => (s', true)

/-! ### Deleting, updating, moving -/

/-- The node leaves the list of all nodes. -/
def unlink (x : ℕ) : Links ℕ :=
  { s.list with
    tail := if s.list.tail = some x then s.list.pre x else s.list.tail
    next := match s.list.pre x with
      | none => s.list.next
      | some p => update s.list.next p (s.list.next x)
    pre := match s.list.next x with
      | none => s.list.pre
      | some n => update s.list.pre n (s.list.pre x) }

/-- `swHashMap_node_delete`; a node that is alone in its list takes the table with it. -/
def nodeDelete (x : ℕ) : Except HashFault HashMap :=
  if s.list.pre x = none ∧ s.list.next x = none then .error .memory
  else
    let b := bucketOf (s.hashv x) s.numBuckets
    .ok
      { s with
        list := s.unlink x
        chains := s.chains.remove b x
        count := update s.count b ((s.count b + (2 ^ 32 - 1)) % 2 ^ 32)
        numItems := (s.numItems + (2 ^ 32 - 1)) % 2 ^ 32 }

/-- `swHashMap_update`. -/
def update (fuel : ℕ) (key : Bytes) (data : ℕ) : Except HashFault (HashMap × Bool) :=
  (s.nodeFind fuel key).map fun
    | none => (s, false)
    | some x => (s.setData x data, true)

/-- `swHashMap_del`. -/
def del (fuel : ℕ) (key : Bytes) : Except HashFault (HashMap × Bool) :=
  (s.nodeFind fuel key).bind fun
    | none => .ok (s, false)
    | some x => (s.nodeDelete x).map fun s' => (s', true)

/-- `swHashMap_move`. -/
def move (fuel : ℕ) (oldKey newKey : Bytes) : Except HashFault (HashMap × Bool) :=
  (s.nodeFind fuel oldKey).bind fun
    | none => .ok (s, false)
    | some x =>
      (s.nodeDelete x).bind fun s' =>
        ((s'.setKey x newKey).nodeAdd fuel x).map fun s'' => (s'', true)

/-! ## Runs -/

/-- A call, with the answer of `malloc` if there is one. -/
inductive Op where
  | add (node : Option ℕ) (key : Bytes) (data : ℕ)
  | update (key : Bytes) (data : ℕ)
  | del (key : Bytes)
  | move (oldKey newKey : Bytes)
  deriving DecidableEq, Repr

def call (fuel : ℕ) : Op → Except HashFault (HashMap × Bool)
  | .add node key data => s.add fuel node key data
  | .update key data => s.update fuel key data
  | .del key => s.del fuel key
  | .move oldKey newKey => s.move fuel oldKey newKey

/-- An entry of the finite map, in the order of the insertions; the address of its node is part of
it only to say which addresses are free. -/
structure Row where
  node : ℕ
  key : Bytes
  data : ℕ
  deriving DecidableEq, Repr

/-- **The finite map**: what a call is to do. -/
def rowsAfter (rows : List Row) : Op → List Row
  | .add none _ _ => rows
  | .add (some x) key data => rows ++ [⟨x, key, data⟩]
  | .update key data => rows.map fun r => if r.key = key then { r with data := data } else r
  | .del key => rows.filter fun r => r.key ≠ key
  | .move oldKey newKey =>
    match rows.find? fun r => r.key = oldKey with
    | none => rows
    | some r => (rows.filter fun r => r.key ≠ oldKey) ++ [{ r with key := newKey }]

/-- The program beside the finite map. -/
structure Joint where
  map : Except HashFault HashMap
  rows : List Row

def Joint.step (fuel : ℕ) (j : Joint) (op : Op) : Joint where
  map := j.map.bind fun s => (s.call fuel op).map Prod.fst
  rows := rowsAfter j.rows op

def Joint.init (root : ℕ) : Joint := ⟨.ok (new root), []⟩

/-- **What the program is asked to do**: keys have no NUL, a key that is added or moved to is
absent, and `malloc` gives a block that is free. -/
def Admissible (root : ℕ) (j : Joint) : Op → Prop
  | .add none key _ => 0 ∉ key ∧ key ∉ j.rows.map Row.key
  | .add (some x) key _ =>
    (0 ∉ key ∧ key ∉ j.rows.map Row.key) ∧ x ≠ root ∧ x ∉ j.rows.map Row.node
  | .update key _ => 0 ∉ key
  | .del key => 0 ∉ key
  | .move oldKey newKey => 0 ∉ oldKey ∧ 0 ∉ newKey ∧ newKey ∉ j.rows.map Row.key

instance (root : ℕ) (j : Joint) (op : Op) : Decidable (Admissible root j op) := by
  unfold Admissible
  split <;> infer_instance

/-- **The condition**: the table has fewer than `2 ^ 31` buckets and fewer than `2 ^ 32 - 1` entries
before the call. -/
def Roomy : Joint → Op → Prop
  | ⟨.error _, _⟩, _ => True
  | ⟨.ok s, _⟩, _ => s.numBuckets < 2 ^ 31 ∧ s.numItems < 2 ^ 32 - 1

instance decidableRoomy : ∀ j op, Decidable (Roomy j op) := by
  intro j op
  unfold Roomy
  split <;> infer_instance

/-- **The contract**: every lookup answers what the finite map has for the key, and the entries are
counted. -/
def Joint.Correct (fuel : ℕ) (j : Joint) : Prop :=
  ∃ s, j.map = .ok s ∧ s.numItems = j.rows.length ∧
    ∀ key, 0 ∉ key → s.find fuel key =
      .ok (((j.rows.find? fun r => r.key = key).map Row.data).getD 0)

end HashMap

end Swoole
