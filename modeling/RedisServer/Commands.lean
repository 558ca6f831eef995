import RedisServer.TtlHeap
import RedisServer.Serialisation

/-!
# common.cpp and timer.cpp — the keyspace and its commands

`GlobalData` is what the handlers work on.  Entries live in a store; `db` links their nodes, `heap`
refers to their `heap_idx` fields, `tp` is the queue of the thread pool that destroys sorted-set
entries.  An entry that was deleted or queued is no longer the server's to touch: it leaves the
store, so that following a stale reference to it faults.

The handlers append to `out` and return a result code.  `now` is the value of
`get_monotonic_usec()` in the call.
-/

set_option autoImplicit false

namespace RedisServer

/-- `k_max_args` -/
def maxArgs : Nat := 4

/-- `k_max_msg` -/
def maxMsg : Nat := 4096

inductive ResCode where
  | RES_OK
  | RES_ERR
  | RES_NX
  deriving DecidableEq, Repr

def ResCode.toNat : ResCode → Nat
  | .RES_OK => 0
  | .RES_ERR => 1
  | .RES_NX => 2

structure GlobalData where
  db : HMap := {}
  entries : Store Entry := Store.empty
  next : Ptr := 0
  heap : Heap := []
  tp : List Entry := []

/-- What a handler returns: the state, the result code and `out`. -/
abbrev Handled := Res (GlobalData × ResCode × Bytes)

/-- `entry_eq(node, key)` for an `Entry` with key `key`. -/
def entryEq (entries : Store Entry) (key : Bytes) (node : HNode) : Res Bool := do
  return decide ((← entries.read node.ptr).key = key)

/-- `cmd[i]` -/
def arg (cmd : List Bytes) (i : Nat) : Res Bytes :=
  match cmd[i]? with
  | some s => .ok s
  | none => .error .outOfBounds

/-- `entry->zset` handed to a function that dereferences it. -/
def zsetOf (e : Entry) : Res ZSet :=
  match e.zset with
  | some z => .ok z
  | none => .error .nullZSet

def entrySetTtl (g : GlobalData) (ent : Ptr) (ttlMs : Int) (now : UInt64) : Res GlobalData := do
  let e ← g.entries.read ent
  if ttlMs < 0 then
    match e.heapIdx with
    | none => return g
    | some pos =>
      let (entries, heap) ← heapRemove g.entries g.heap pos
      let entries ← entries.modify ent (fun e => { e with heapIdx := none })
      return { g with entries := entries, heap := heap }
  else
    let val := now + UInt64.ofInt ttlMs * 1000
    match e.heapIdx with
    | none =>
      let pos := g.heap.length
      let entries ← setRef g.entries ent pos
      let (entries, heap) ← heapUpdate entries (g.heap ++ [⟨val, ent⟩]) pos (pos + 1)
      return { g with entries := entries, heap := heap }
    | some pos =>
      let item ← itemAt g.heap pos
      let heap ← setItem g.heap pos { item with val := val }
      let (entries, heap) ← heapUpdate g.entries heap pos heap.length
      return { g with entries := entries, heap := heap }

/-- `entry_del`: a sorted-set entry goes to the thread pool, any other is deleted at once. -/
def entryDel (g : GlobalData) (ent : Ptr) : Res GlobalData := do
  let e ← g.entries.read ent
  let g := { g with entries := g.entries.free ent }
  if e.type = 1 ∧ e.zset.isSome then return { g with tp := g.tp ++ [e] }
  else return g

/-- The handlers' `hm_lookup(&g_data.db, &key.node, entry_eq)` for a temporary `Entry key`. -/
def lookupEntry (g : GlobalData) (key : Bytes) : Res (GlobalData × Option Ptr) := do
  let (db, found) ← hmLookup g.db (strHash key) (entryEq g.entries key)
  return ({ g with db := db }, found.map HNode.ptr)

/-- `new Entry` with its fields filled in, linked by `hm_insert`. -/
def insertEntry (g : GlobalData) (key val : Bytes) (type : Nat) (zset : Option ZSet) :
    Res (GlobalData × Ptr) := do
  let node : HNode := ⟨g.next, strHash key⟩
  let entry : Entry := { node := node, key := key, val := val, type := type, zset := zset }
  let db ← hmInsert g.db node
  return ({ g with db := db, entries := g.entries.write g.next entry, next := g.next + 1 }, g.next)

def doGet (g : GlobalData) (cmd : List Bytes) (out : Bytes) : Handled := do
  let (g, found) ← lookupEntry g (← arg cmd 1)
  match found with
  | none => return (g, .RES_NX, outInt out (ResCode.RES_NX.toNat))
  | some p =>
    let value := (← g.entries.read p).val
    assert (decide (value.length ≤ maxMsg))
    return (g, .RES_OK, outStr out value)

def doSet (g : GlobalData) (cmd : List Bytes) (out : Bytes) : Handled := do
  let (g, _) ← insertEntry g (← arg cmd 1) (← arg cmd 2) 0 none
  return (g, .RES_OK, outInt out ResCode.RES_OK.toNat)

def doDel (g : GlobalData) (cmd : List Bytes) (out : Bytes) : Handled := do
  let key ← arg cmd 1
  let (db, found) ← hmDelete g.db (strHash key) (entryEq g.entries key)
  let g := { g with db := db }
  match found with
  | none => return (g, .RES_OK, outInt out 0)
  | some node => return (← entryDel g node.ptr, .RES_OK, outInt out 1)

/-- `cb_scan` on every node of a scan. -/
def cbScan (entries : Store Entry) : Bytes → List HNode → Res Bytes
  | out, [] => .ok out
  | out, node :: nodes => do cbScan entries (outStr out (← entries.read node.ptr).key) nodes

def doKeys (g : GlobalData) (_cmd : List Bytes) (out : Bytes) : Handled := do
  let out := outArr out (hmSize g.db)
  let out ← cbScan g.entries out (← hScan g.db.ht1)
  let out ← cbScan g.entries out (← hScan g.db.ht2)
  return (g, .RES_OK, out)

/-- The entry `do_zadd` adds to: the one found, or a new sorted-set entry. -/
def zaddEntry (g : GlobalData) (key : Bytes) (found : Option Ptr) : Res (GlobalData × Ptr) :=
  match found with
  | some p => .ok (g, p)
  | none => insertEntry g key [] 1 (some {})

def doZadd (lim : Limits) (g : GlobalData) (cmd : List Bytes) (out : Bytes) : Handled :=
  if cmd.length ≠ 4 then
    .ok (g, .RES_ERR, outErr out ResCode.RES_ERR.toNat (ascii "Usage: zadd <key> <score> <name>"))
  else do
    let score ← stod (← arg cmd 2)
    let name ← arg cmd 3
    let key ← arg cmd 1
    let (g, found) ← lookupEntry g key
    let (g, p) ← zaddEntry g key found
    let entry ← g.entries.read p
    let (zset, added) ← zsetAdd lim (← zsetOf entry) name score
    let g := { g with entries := g.entries.write p { entry with zset := some zset } }
    return (g, .RES_OK, outInt out (if added then 1 else 0))

def doZscore (g : GlobalData) (cmd : List Bytes) (out : Bytes) : Handled :=
  if cmd.length ≠ 3 then
    .ok (g, .RES_ERR, outErr out ResCode.RES_ERR.toNat (ascii "Usage: zscore <key> <name>"))
  else do
    let (g, found) ← lookupEntry g (← arg cmd 1)
    match found with
    | none => return (g, .RES_NX, outNil out)
    | some p =>
      let entry ← g.entries.read p
      if entry.type ≠ 1 ∨ entry.zset.isNone then return (g, .RES_NX, outNil out)
      let (zset, znode) ← zsetLookup (← zsetOf entry) (← arg cmd 2)
      let g := { g with entries := g.entries.write p { entry with zset := some zset } }
      match znode with
      | none => return (g, .RES_NX, outNil out)
      | some z => return (g, .RES_OK, outDbl out (← zset.nodes.read z).score)

def doZrem (lim : Limits) (g : GlobalData) (cmd : List Bytes) (out : Bytes) : Handled :=
  if cmd.length ≠ 3 then
    .ok (g, .RES_ERR, outErr out ResCode.RES_ERR.toNat (ascii "Usage: zrem <key> <name>"))
  else do
    let (g, found) ← lookupEntry g (← arg cmd 1)
    match found with
    | none => return (g, .RES_OK, outInt out 0)
    | some p =>
      let entry ← g.entries.read p
      if entry.type ≠ 1 ∨ entry.zset.isNone then return (g, .RES_OK, outInt out 0)
      let (zset, znode) ← zsetPop lim (← zsetOf entry) (← arg cmd 2)
      match znode with
      | some z =>
        let g := { g with
          entries := g.entries.write p { entry with zset := some (znodeDel zset z) } }
        return (g, .RES_OK, outInt out 1)
      | none =>
        let g := { g with entries := g.entries.write p { entry with zset := some zset } }
        return (g, .RES_OK, outInt out 0)

/-- `while (znode && n < (uint32_t)limit)` of `do_query`. -/
def queryLoop (lim : Limits) (zset : ZSet) (limit : Nat) : Nat → Option Ptr → Nat → Bytes → Res Bytes
  | 0, _, _, _ => .error .outOfFuel
  | _ + 1, none, _, out => .ok out
  | fuel + 1, some z, n, out =>
    if n < limit then do
      let znode ← zset.nodes.read z
      let out := outDbl (outStr out znode.name) znode.score
      queryLoop lim zset limit fuel (← znodeOffset lim zset (some z) 1) (n + 1) out
    else .ok out

def doQuery (lim : Limits) (g : GlobalData) (cmd : List Bytes) (out : Bytes) : Handled :=
  if cmd.length ≠ 6 then
    .ok (g, .RES_ERR, outErr out ResCode.RES_ERR.toNat
      (ascii "Usage: zquery <key> <score> <name> <offset> <limit>"))
  else do
    let (g, found) ← lookupEntry g (← arg cmd 1)
    match found with
    | none => return (g, .RES_NX, out)
    | some p =>
      let entry ← g.entries.read p
      if entry.type ≠ 1 ∨ entry.zset.isNone then return (g, .RES_NX, out)
      let score ← stod (← arg cmd 2)
      let name ← arg cmd 3
      let offset ← stoll (← arg cmd 4)
      let limit ← stoll (← arg cmd 5)
      let zset ← zsetOf entry
      let znode ← zsetQuery lim zset score name
      let znode ← znodeOffset lim zset znode offset
      -- (uint32_t)limit
      let out ← queryLoop lim zset (limit % 2 ^ 32).toNat lim.steps znode 0 out
      return (g, .RES_OK, out)

def doExpire (g : GlobalData) (now : UInt64) (cmd : List Bytes) (out : Bytes) : Handled := do
  match str2int (← arg cmd 2) with
  | none => return (g, .RES_ERR, outErr out ResCode.RES_ERR.toNat (ascii "expect int64"))
  | some ttlMs =>
    let (g, found) ← lookupEntry g (← arg cmd 1)
    match found with
    | none => return (g, .RES_OK, outInt out 0)
    | some p => return (← entrySetTtl g p ttlMs now, .RES_OK, outInt out 1)

def doTtl (g : GlobalData) (now : UInt64) (cmd : List Bytes) (out : Bytes) : Handled := do
  let (g, found) ← lookupEntry g (← arg cmd 1)
  match found with
  | none => return (g, .RES_OK, outInt out (-2))
  | some p =>
    match (← g.entries.read p).heapIdx with
    | none => return (g, .RES_OK, outInt out (-1))
    | some pos =>
      let expireAt := (← itemAt g.heap pos).val
      return (g, .RES_OK,
        outInt out (if expireAt > now then ((expireAt - now) / 1000).toNat else 0))

def doRequest (lim : Limits) (now : UInt64) (g : GlobalData) (cmd : List Bytes) (out : Bytes) :
    Handled :=
  match cmd with
  | [] => .ok (g, .RES_ERR, out)
  | name :: _ =>
    if name = ascii "keys" ∧ cmd.length = 1 then doKeys g cmd out
    else if name = ascii "get" ∧ cmd.length = 2 then doGet g cmd out
    else if name = ascii "set" ∧ cmd.length = 3 then doSet g cmd out
    else if name = ascii "del" ∧ cmd.length = 2 then doDel g cmd out
    else if name = ascii "zadd" then doZadd lim g cmd out
    else if name = ascii "zscore" then doZscore g cmd out
    else if name = ascii "zrem" then doZrem lim g cmd out
    else if name = ascii "zquery" then doQuery lim g cmd out
    else if name = ascii "expire" ∧ cmd.length = 3 then doExpire g now cmd out
    else if name = ascii "ttl" ∧ cmd.length = 2 then doTtl g now cmd out
    else .ok (g, .RES_ERR, out)

/-! ## The TTL loop of process_timers -/

/-- `k_max_works` -/
def maxWorks : Nat := 2000

/-- One iteration: delete the entry that owns `heap[0]`. -/
def expireTop (g : GlobalData) : Res GlobalData := do
  let ent := (← itemAt g.heap 0).ref
  let e ← g.entries.read ent
  let (db, node) ← hmDelete g.db e.node.hcode (entryEq g.entries e.key)
  assert (decide (node.map HNode.ptr = some ent))
  match e.heapIdx with
  | none => .error .outOfBounds -- heap[(size_t)-1]
  | some pos =>
    let (entries, heap) ← heapRemove g.entries g.heap pos
    let entries ← entries.modify ent (fun e => { e with heapIdx := none })
    entryDel { g with db := db, entries := entries, heap := heap } ent

/-- The loop; its break behind `nworks++ >= k_max_works` allows `maxWorks + 1` iterations. -/
def expireLoop (now : UInt64) : Nat → GlobalData → Res GlobalData
  | 0, g => .ok g
  | n + 1, g =>
    match g.heap with
    | [] => .ok g
    | top :: _ => if top.val < now then do expireLoop now n (← expireTop g) else .ok g

def processTimers (g : GlobalData) (now : UInt64) : Res GlobalData :=
  expireLoop now (maxWorks + 1) g

end RedisServer
