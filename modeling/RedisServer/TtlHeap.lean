import RedisServer.ZSet

/-!
# heap.cpp and the `Entry` of common.h — the TTL heap

The heap's items point back into the keyspace: `HeapItem.ref` is the address of an `Entry`'s
`heap_idx` field, here the address of the `Entry`.  Moving an item rewrites the field it refers to
(`*a[pos].ref = pos`), which faults when the `Entry` is gone.  `heap_idx` is `none` for
`(size_t)-1`.
-/

set_option autoImplicit false

namespace RedisServer

structure Entry where
  node : HNode
  key : Bytes
  val : Bytes
  type : Nat := 0
  zset : Option ZSet := none
  heapIdx : Option Nat := none

structure HeapItem where
  val : UInt64
  ref : Ptr
  deriving DecidableEq, Repr

abbrev Heap := List HeapItem

def heapParent (i : Nat) : Nat := (i + 1) / 2 - 1
def heapLeft (i : Nat) : Nat := i * 2 + 1
def heapRight (i : Nat) : Nat := i * 2 + 2

/-- `a[i]` -/
def itemAt (a : Heap) (i : Nat) : Res HeapItem :=
  match a[i]? with
  | some t => .ok t
  | none => .error .outOfBounds

/-- `a[pos] = t` -/
def setItem (a : Heap) (pos : Nat) (t : HeapItem) : Res Heap :=
  if pos < a.length then .ok (a.set pos t) else .error .outOfBounds

/-- `*ref = pos` -/
def setRef (entries : Store Entry) (ref : Ptr) (pos : Nat) : Res (Store Entry) :=
  entries.modify ref (fun e => { e with heapIdx := some pos })

/-- `a[pos] = t; *a[pos].ref = pos;` -/
def place (entries : Store Entry) (a : Heap) (pos : Nat) (t : HeapItem) :
    Res (Store Entry × Heap) := do
  let a ← setItem a pos t
  return (← setRef entries t.ref pos, a)

/-- The loop of `heap_up` and the two lines behind it; `t` is the item taken out at the start. -/
def heapUpLoop : Nat → Store Entry → Heap → HeapItem → Nat → Res (Store Entry × Heap)
  | 0, _, _, _, _ => .error .outOfFuel
  | fuel + 1, entries, a, t, pos =>
    if 0 < pos then do
      let above ← itemAt a (heapParent pos)
      if above.val > t.val then
        let (entries, a) ← place entries a pos above
        heapUpLoop fuel entries a t (heapParent pos)
      else place entries a pos t
    else place entries a pos t

def heapUp (entries : Store Entry) (a : Heap) (pos : Nat) : Res (Store Entry × Heap) := do
  heapUpLoop (pos + 1) entries a (← itemAt a pos) pos

/-- `if (c < len && a[c].val < min_val) { min_pos = c; min_val = a[c].val; }` -/
def smaller (a : Heap) (len c : Nat) (min : Nat × UInt64) : Res (Nat × UInt64) :=
  if c < len then do
    let x ← itemAt a c
    if x.val < min.2 then return (c, x.val) else return min
  else .ok min

/-- The loop of `heap_down` and the two lines behind it. -/
def heapDownLoop : Nat → Store Entry → Heap → HeapItem → Nat → Nat → Res (Store Entry × Heap)
  | 0, _, _, _, _, _ => .error .outOfFuel
  | fuel + 1, entries, a, t, pos, len => do
    let min ← smaller a len (heapLeft pos) (pos, t.val)
    let min ← smaller a len (heapRight pos) min
    if min.1 = pos then place entries a pos t
    else
      let (entries, a) ← place entries a pos (← itemAt a min.1)
      heapDownLoop fuel entries a t min.1 len

def heapDown (entries : Store Entry) (a : Heap) (pos len : Nat) : Res (Store Entry × Heap) := do
  heapDownLoop (len + 1) entries a (← itemAt a pos) pos len

def heapUpdate (entries : Store Entry) (a : Heap) (pos len : Nat) : Res (Store Entry × Heap) := do
  let t ← itemAt a pos
  if 0 < pos then
    if (← itemAt a (heapParent pos)).val > t.val then heapUp entries a pos
    else heapDown entries a pos len
  else heapDown entries a pos len

/-- `if (pos != last) { heap[pos] = heap[last]; *heap[pos].ref = pos; }` -/
def fillHole (entries : Store Entry) (heap : Heap) (pos : Nat) : Res (Store Entry × Heap) :=
  let last := heap.length - 1
  if pos = last then .ok (entries, heap)
  else do place entries heap pos (← itemAt heap last)

/-- Take slot `pos` out of the heap: the lines `entry_set_ttl` and `process_timers` share.  The
    last item fills the hole and is moved to where it belongs. -/
def heapRemove (entries : Store Entry) (heap : Heap) (pos : Nat) : Res (Store Entry × Heap) :=
  if heap = [] then .error .outOfBounds -- size() - 1 wraps around
  else do
    let (entries, heap) ← fillHole entries heap pos
    let heap := heap.dropLast
    if pos < heap.length then heapUpdate entries heap pos heap.length
    else return (entries, heap)

end RedisServer
