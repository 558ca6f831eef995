import RedisServer.Avl
import RedisServer.HashTable
import RedisServer.Numbers

/-!
# zset.cpp — sorted sets

A `ZSet` indexes its members twice: by name through `hmap`, by (score, name) through the AVL tree
`tree`.  Both link the same `ZNode`s.  The model keeps a set's `ZNode`s in stores of the set: the
embedded `AVLNode` in `links`, the rest in `nodes`, both under the `ZNode`'s address; `next` is the
next address `malloc` hands out.
-/

set_option autoImplicit false

namespace RedisServer

structure ZNode where
  hcode : UInt64 -- hnode.hcode
  score : Dbl
  name : Bytes   -- name[0 .. len)
  deriving DecidableEq, Repr

structure ZSet where
  tree : Option Ptr := none
  hmap : HMap := {}
  links : Links := Store.empty
  nodes : Store ZNode := Store.empty
  next : Ptr := 0

/-- `memcmp` of two buffers of one length: the sign of the first difference. -/
def memcmp : Bytes → Bytes → Int
  | a :: as, b :: bs => if a = b then memcmp as bs else if a < b then -1 else 1
  | _, _ => 0

def zless (za zb : ZNode) : Bool :=
  if !za.score.eq zb.score then za.score.lt zb.score
  else
    let minLen := if za.name.length < zb.name.length then za.name.length else zb.name.length
    let cmp := memcmp (za.name.take minLen) (zb.name.take minLen)
    if cmp ≠ 0 then decide (cmp < 0) else decide (za.name.length < zb.name.length)

def znodeNew (name : Bytes) (score : Dbl) : ZNode :=
  { hcode := strHash name, score := score, name := name }

/-- `hcmp(node, key)` for the `HKey` of `name`. -/
def hcmp (nodes : Store ZNode) (name : Bytes) (node : HNode) : Res Bool := do
  let znode ← nodes.read node.ptr
  if znode.name.length ≠ name.length then return false
  return decide (memcmp znode.name name = 0)

/-- `entry_eq(node, key)` for a node that is embedded in a `ZNode`: `container_of` computes the
    address of an `Entry` that is not there, and its `key` is read. -/
def entryEqOnZNode (_ : HNode) : Res Bool := .error .typeConfusion

def zsetLookup (zset : ZSet) (name : Bytes) : Res (ZSet × Option Ptr) :=
  match zset.tree with
  | none => .ok (zset, none)
  | some _ => do
    let (hmap, found) ← hmLookup zset.hmap (strHash name) (hcmp zset.nodes name)
    return ({ zset with hmap := hmap }, found.map HNode.ptr)

inductive Side where
  | left
  | right
  deriving DecidableEq, Repr

/-- `*from`: the root link of the tree (`none`) or a child link of a node. -/
def ZSet.link (zset : ZSet) : Option (Ptr × Side) → Res (Option Ptr)
  | none => .ok zset.tree
  | some (cur, .left) => do return (← zset.links.read cur).left
  | some (cur, .right) => do return (← zset.links.read cur).right

/-- The descent of `tree_add`: the empty link below which `node` belongs. -/
def treeDescend : Nat → ZSet → Ptr → Option (Ptr × Side) → Res (Option (Ptr × Side))
  | 0, _, _, _ => .error .outOfFuel
  | fuel + 1, zset, node, frm => do
    match ← zset.link frm with
    | none => return frm
    | some cur =>
      let less := zless (← zset.nodes.read node) (← zset.nodes.read cur)
      treeDescend fuel zset node (some (cur, if less then .left else .right))

/-- `*from = &node->tnode` for a link inside the tree. -/
def linkNode (m : Links) (frm : Option (Ptr × Side)) (node : Ptr) : Res Links :=
  match frm with
  | none => .ok m
  | some (cur, .left) => m.modify cur (fun a => { a with left := some node })
  | some (cur, .right) => m.modify cur (fun a => { a with right := some node })

def treeAdd (lim : Limits) (zset : ZSet) (node : Ptr) : Res ZSet := do
  let frm ← treeDescend lim.steps zset node none
  let m ← linkNode zset.links frm node
  let m ← m.modify node (fun a => { a with parent := frm.map Prod.fst })
  let (m, root) ← avlFix lim.steps m node
  return { zset with tree := some root, links := m }

def zsetUpdate (lim : Limits) (zset : ZSet) (node : Ptr) (score : Dbl) : Res ZSet := do
  let znode ← zset.nodes.read node
  if znode.score.eq score then return zset
  let (m, tree) ← avlDel lim.steps zset.links node
  let nodes := zset.nodes.write node { znode with score := score }
  treeAdd lim { zset with tree := tree, links := m.write node avlInit, nodes := nodes } node

def zsetAdd (lim : Limits) (zset : ZSet) (name : Bytes) (score : Dbl) : Res (ZSet × Bool) := do
  let (zset, found) ← zsetLookup zset name
  match found with
  | some node => return (← zsetUpdate lim zset node score, false)
  | none =>
    let node := zset.next
    let znode := znodeNew name score
    let hmap ← hmInsert zset.hmap ⟨node, znode.hcode⟩
    let zset := { zset with
      hmap := hmap
      links := zset.links.write node avlInit
      nodes := zset.nodes.write node znode
      next := node + 1 }
    return (← treeAdd lim zset node, true)

def zsetPop (lim : Limits) (zset : ZSet) (name : Bytes) : Res (ZSet × Option Ptr) := do
  let (zset, found) ← zsetLookup zset name
  match found with
  | none => return (zset, none)
  | some node =>
    let znode ← zset.nodes.read node
    let (m, tree) ← avlDel lim.steps zset.links node
    let (hmap, _) ← hmDelete zset.hmap znode.hcode entryEqOnZNode
    return ({ zset with tree := tree, links := m, hmap := hmap }, some node)

/-- `znode_del` -/
def znodeDel (zset : ZSet) (node : Ptr) : ZSet :=
  { zset with links := zset.links.free node, nodes := zset.nodes.free node }

/-- The descent of `zset_query`. -/
def queryDescend : Nat → ZSet → ZNode → Option Ptr → Option Ptr → Res (Option Ptr)
  | 0, _, _, _, _ => .error .outOfFuel
  | _ + 1, _, _, none, found => .ok found
  | fuel + 1, zset, temp, some cur, found => do
    let n ← zset.links.read cur
    if zless (← zset.nodes.read cur) temp then queryDescend fuel zset temp n.right found
    else queryDescend fuel zset temp n.left (some cur)

/-- `memcpy(temp.name, name, len)` writes `len` bytes behind the stack object `temp`. -/
def zsetQuery (lim : Limits) (zset : ZSet) (score : Dbl) (name : Bytes) : Res (Option Ptr) :=
  if lim.slack < name.length then .error .outOfBounds
  else queryDescend lim.steps zset ⟨0, score, name⟩ zset.tree none

/-- `avl_offset`; `offset` is a `double`, and the `int64_t` positions it is compared with are
    converted to `double` too. -/
def avlOffset : Nat → Links → Ptr → Int → Int → Res (Option Ptr)
  | 0, _, _, _, _ => .error .outOfFuel
  | fuel + 1, m, node, offset, pos =>
    if toDouble pos = offset then .ok (some node)
    else do
      let n ← m.read node
      let rc ← avlCount m n.right
      let lc ← avlCount m n.left
      if toDouble pos < offset ∧ offset ≤ toDouble (pos + rc) then
        let node ← deref n.right
        let below ← avlCount m (← m.read node).left
        avlOffset fuel m node offset (pos + (below + 1))
      else if offset < toDouble pos ∧ toDouble (pos - lc) ≤ offset then
        let node ← deref n.left
        let below ← avlCount m (← m.read node).right
        avlOffset fuel m node offset (pos - (below + 1))
      else
        match n.parent with
        | none => return none
        | some parent =>
          if (← m.read parent).right = some node then
            avlOffset fuel m parent offset (pos - (lc + 1))
          else avlOffset fuel m parent offset (pos + (rc + 1))

def znodeOffset (lim : Limits) (zset : ZSet) (node : Option Ptr) (offset : Int) :
    Res (Option Ptr) :=
  match node with
  | none => .ok none
  | some node => avlOffset lim.steps zset.links node (toDouble offset) 0

end RedisServer
