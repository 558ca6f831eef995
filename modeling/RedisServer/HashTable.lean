import RedisServer.Memory

/-!
# hashtable.cpp — the incrementally resized hash map

`HMap` links intrusive nodes (`HNode`) into the chains of two tables.  A chain is the list of the
nodes it links, so `node->next` is the rest of the list; `HTab.tab` is the bucket array, `none`
when it is NULL.  Sizes and positions are `size_t`; they stay far below `2 ^ 64`, except that
`size--` at 0 wraps around (`sizeDec`).

A comparator is passed with its second argument, the key, already applied: `eq cur`.  It reads
memory, so it may fault.  `hm_delete` names `entry_eq` itself; here its callers hand over what
`entry_eq` does on their nodes.
-/

set_option autoImplicit false

namespace RedisServer

/-- A node embedded in the object at `ptr`, with its cached hash value. -/
structure HNode where
  ptr : Ptr
  hcode : UInt64
  deriving DecidableEq, Repr

abbrev Chain := List HNode

structure HTab where
  tab : Option (List Chain) := none
  size : Nat := 0
  mask : Nat := 0
  deriving DecidableEq, Repr

structure HMap where
  ht1 : HTab := {} -- newer
  ht2 : HTab := {} -- older
  resizingPos : Nat := 0
  deriving DecidableEq, Repr

/-- `k_max_load_factor` -/
def maxLoadFactor : Nat := 8

/-- `k_resizing_work` -/
def resizingWork : Nat := 128

/-- `size--` on a `size_t`. -/
def sizeDec (n : Nat) : Nat := if n = 0 then 2 ^ 64 - 1 else n - 1

/-- What a lookup returns for `HNode **from`: the link in bucket `pos` behind `depth` nodes. -/
structure Link where
  pos : Nat
  depth : Nat
  deriving DecidableEq, Repr

namespace HTab

/-- `tab[i]` -/
def bucket (t : HTab) (i : Nat) : Res Chain :=
  match t.tab with
  | none => .error .nullDeref
  | some tab =>
    match tab[i]? with
    | none => .error .outOfBounds
    | some chain => .ok chain

/-- `tab[i] = chain` -/
def setBucket (t : HTab) (i : Nat) (chain : Chain) : HTab :=
  { t with tab := t.tab.map (·.set i chain) }

/-- `htab->size--` -/
def charge (t : HTab) : HTab := { t with size := sizeDec t.size }

/-- `*from = node->next`, where `from` points into this table's chains. -/
def unlink (t : HTab) (frm : Link) : Res (HNode × HTab) := do
  let chain ← t.bucket frm.pos
  match chain[frm.depth]? with
  | none => .error .nullDeref
  | some node => .ok (node, t.setBucket frm.pos (chain.eraseIdx frm.depth))

/-- `hcode & mask` -/
def slot (t : HTab) (hcode : UInt64) : Nat := hcode.toNat &&& t.mask

end HTab

def hinit (size : Nat) : Res HTab := do
  assert (decide (0 < size) && decide (size &&& (size - 1) = 0))
  return { tab := some (List.replicate size []), size := 0, mask := size - 1 }

def hinsert (ht : HTab) (node : HNode) : Res HTab := do
  let index := ht.slot node.hcode
  let next ← ht.bucket index
  return { ht.setBucket index (node :: next) with size := ht.size + 1 }

/-- The chain walk of `hlookup`: how many nodes precede the first match. -/
def chainFind (hcode : UInt64) (eq : HNode → Res Bool) : Chain → Res (Option Nat)
  | [] => .ok none
  | cur :: rest =>
    if cur.hcode = hcode then do
      if ← eq cur then return some 0
      else return (← chainFind hcode eq rest).map (· + 1)
    else do return (← chainFind hcode eq rest).map (· + 1)

def hlookup (htab : HTab) (hcode : UInt64) (eq : HNode → Res Bool) : Res (Option Link) :=
  if htab.tab.isNone then .ok none
  else do
    let pos := htab.slot hcode
    let chain ← htab.bucket pos
    return (← chainFind hcode eq chain).map (Link.mk pos)

def hDetach (htab : HTab) (frm : Link) : Res (HNode × HTab) := do
  let (node, htab) ← htab.unlink frm
  return (node, htab.charge)

def hmStartResizing (hmap : HMap) : Res HMap := do
  assert hmap.ht2.tab.isNone
  let ht1 ← hinit ((hmap.ht1.mask + 1) * 2)
  return { ht1 := ht1, ht2 := hmap.ht1, resizingPos := 0 }

/-- The `while` loop of `hm_help_resizing`.  An iteration advances the cursor or moves a node, so
    `resizingWork + tab.length + 1` iterations are never used up (`helpLoop_fuel`). -/
def hmHelpLoop : Nat → Nat → HMap → Res HMap
  | 0, _, _ => .error .outOfFuel
  | fuel + 1, nwork, hmap =>
    if nwork < resizingWork ∧ 0 < hmap.ht2.size then do
      match ← hmap.ht2.bucket hmap.resizingPos with
      | [] => hmHelpLoop fuel nwork { hmap with resizingPos := hmap.resizingPos + 1 }
      | _ :: _ =>
        let (node, ht2) ← hDetach hmap.ht2 ⟨hmap.resizingPos, 0⟩
        let ht1 ← hinsert hmap.ht1 node
        hmHelpLoop fuel (nwork + 1) { hmap with ht1 := ht1, ht2 := ht2 }
    else .ok hmap

def hmHelpResizing (hmap : HMap) : Res HMap := do
  let fuel := resizingWork + (hmap.ht2.tab.getD []).length + 1
  let hmap ← hmHelpLoop fuel 0 hmap
  if hmap.ht2.size = 0 ∧ hmap.ht2.tab.isSome then return { hmap with ht2 := {} }
  else return hmap

/-- `if (!ht1.tab) hinit(&ht1, 4)` -/
def HTab.orInit (t : HTab) : Res HTab := if t.tab.isNone then hinit 4 else .ok t

/-- `hm_insert` up to its `hm_help_resizing`: link the node, start a resize when one is due. -/
def hmLink (hmap : HMap) (node : HNode) : Res HMap := do
  let ht1 ← hmap.ht1.orInit
  let ht1 ← hinsert ht1 node
  let hmap := { hmap with ht1 := ht1 }
  if hmap.ht2.tab.isNone ∧ hmap.ht1.size / (hmap.ht1.mask + 1) > maxLoadFactor then
    hmStartResizing hmap
  else return hmap

def hmInsert (hmap : HMap) (node : HNode) : Res HMap := do
  hmHelpResizing (← hmLink hmap node)

/-- The node `from` points at. -/
def HTab.at (t : HTab) (frm : Link) : Res HNode := do
  return (← t.unlink frm).1

def hmLookup (hmap : HMap) (hcode : UInt64) (eq : HNode → Res Bool) :
    Res (HMap × Option HNode) := do
  let hmap ← hmHelpResizing hmap
  match ← hlookup hmap.ht1 hcode eq with
  | some frm => return (hmap, some (← hmap.ht1.at frm))
  | none =>
    match ← hlookup hmap.ht2 hcode eq with
    | some frm => return (hmap, some (← hmap.ht2.at frm))
    | none => return (hmap, none)

def hmDelete (hmap : HMap) (hcode : UInt64) (eq : HNode → Res Bool) :
    Res (HMap × Option HNode) := do
  let hmap ← hmHelpResizing hmap
  match ← hlookup hmap.ht1 hcode eq with
  | some frm =>
    let (node, ht1) ← hDetach hmap.ht1 frm
    return ({ hmap with ht1 := ht1 }, some node)
  | none =>
    match ← hlookup hmap.ht2 hcode eq with
    | some frm =>
      -- h_detach(&hmap->ht1, from): the link is one of ht2's, the size charged is ht1's
      let (node, ht2) ← hmap.ht2.unlink frm
      return ({ hmap with ht1 := hmap.ht1.charge, ht2 := ht2 }, some node)
    | none => return (hmap, none)

/-- The nodes `h_scan` calls its callback on, in order. -/
def hScan (tab : HTab) : Res (List HNode) :=
  if tab.size = 0 then .ok []
  else do return (← (List.range (tab.mask + 1)).mapM tab.bucket).flatten

/-- `str_hash` of utils.cpp (FNV-1a). -/
def strHash (data : Bytes) : UInt64 :=
  data.foldl (fun hash b => (hash ^^^ b.toUInt64) * 1099511628211) 14695981039346656037

def hmSize (hmap : HMap) : Nat := hmap.ht1.size + hmap.ht2.size

end RedisServer
