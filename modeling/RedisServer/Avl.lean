import RedisServer.Memory

/-!
# AVL.cpp — parent-linked AVL trees

The `AVLNode` of every `ZNode` of a sorted set lives in a store of its own under the `ZNode`'s
address.  The functions follow and rewrite the links in the order of the source; a loop that
follows links takes a fuel argument and stops with `Fault.outOfFuel` when it is used up.

`count` is a `uint32_t` and wraps around when a subtree has `2 ^ 32` nodes.  `depth` is one too; it
is at most the number of nodes, and a natural number here.

`avl_fix` rotates on its way up but never stores the root of a rotated subtree into its parent's
child link; only `avl_fix_left` and `avl_fix_right` store the result of their inner rotation.
-/

set_option autoImplicit false

namespace RedisServer

structure AVLNode where
  depth : Nat := 0
  count : Nat := 0
  left : Option Ptr := none
  right : Option Ptr := none
  parent : Option Ptr := none
  deriving DecidableEq, Repr

/-- The AVL nodes of one sorted set. -/
abbrev Links := Store AVLNode

/-- What `avl_init` stores. -/
def avlInit : AVLNode := { depth := 1, count := 1 }

def avlDepth (m : Links) : Option Ptr → Res Nat
  | none => .ok 0
  | some p => do return (← m.read p).depth

def avlCount (m : Links) : Option Ptr → Res Nat
  | none => .ok 0
  | some p => do return (← m.read p).count

def avlUpdate (m : Links) (node : Ptr) : Res Links := do
  let n ← m.read node
  let depth := 1 + max (← avlDepth m n.left) (← avlDepth m n.right)
  let count := (1 + (← avlCount m n.left) + (← avlCount m n.right)) % 2 ^ 32
  m.modify node (fun a => { a with depth := depth, count := count })

/-- `if (child) child->parent = parent;` -/
def setParent (m : Links) (child parent : Option Ptr) : Res Links :=
  match child with
  | none => .ok m
  | some c => m.modify c (fun a => { a with parent := parent })

def rotLeft (m : Links) (node : Ptr) : Res (Links × Ptr) := do
  let newNode ← deref (← m.read node).right
  let inner := (← m.read newNode).left
  let m ← setParent m inner (some node)
  let m ← m.modify node (fun a => { a with right := inner })
  let m ← m.modify newNode (fun a => { a with left := some node })
  let parent := (← m.read node).parent
  let m ← m.modify newNode (fun a => { a with parent := parent })
  let m ← m.modify node (fun a => { a with parent := some newNode })
  let m ← avlUpdate m node
  let m ← avlUpdate m newNode
  return (m, newNode)

def rotRight (m : Links) (node : Ptr) : Res (Links × Ptr) := do
  let newNode ← deref (← m.read node).left
  let inner := (← m.read newNode).right
  let m ← setParent m inner (some node)
  let m ← m.modify node (fun a => { a with left := inner })
  let m ← m.modify newNode (fun a => { a with right := some node })
  let parent := (← m.read node).parent
  let m ← m.modify newNode (fun a => { a with parent := parent })
  let m ← m.modify node (fun a => { a with parent := some newNode })
  let m ← avlUpdate m node
  let m ← avlUpdate m newNode
  return (m, newNode)

/-- The inner rotation of `avl_fix_left`, stored into `root->left`. -/
def fixInnerLeft (m : Links) (root : Ptr) : Res Links := do
  let left ← deref (← m.read root).left
  let l ← m.read left
  if (← avlDepth m l.left) < (← avlDepth m l.right) then
    let (m, newLeft) ← rotLeft m left
    m.modify root (fun a => { a with left := some newLeft })
  else return m

/-- The inner rotation of `avl_fix_right`, stored into `root->right`. -/
def fixInnerRight (m : Links) (root : Ptr) : Res Links := do
  let right ← deref (← m.read root).right
  let r ← m.read right
  if (← avlDepth m r.right) < (← avlDepth m r.left) then
    let (m, newRight) ← rotRight m right
    m.modify root (fun a => { a with right := some newRight })
  else return m

def avlFixLeft (m : Links) (root : Ptr) : Res (Links × Ptr) := do
  rotRight (← fixInnerLeft m root) root

def avlFixRight (m : Links) (root : Ptr) : Res (Links × Ptr) := do
  rotLeft (← fixInnerRight m root) root

/-- One round of `avl_fix` at `node`: update, and rotate if the depths differ by two. -/
def avlFixNode (m : Links) (node : Ptr) : Res (Links × Ptr) := do
  let m ← avlUpdate m node
  let n ← m.read node
  let l ← avlDepth m n.left
  let r ← avlDepth m n.right
  if l = r + 2 then avlFixLeft m node
  else if l + 2 = r then avlFixRight m node
  else return (m, node)

def avlFix : Nat → Links → Ptr → Res (Links × Ptr)
  | 0, _, _ => .error .outOfFuel
  | fuel + 1, m, node => do
    let parent := (← m.read node).parent
    let (m, node) ← avlFixNode m node
    match parent with
    | none => return (m, node)
    | some _ =>
      -- up along node->parent; the parent's child link still names the old node
      let up ← deref (← m.read node).parent
      avlFix fuel m up

/-- `(parent->left == node ? parent->left : parent->right) = child;` -/
def replaceChild (m : Links) (parent node : Ptr) (child : Option Ptr) : Res Links :=
  m.modify parent fun a =>
    if a.left = some node then { a with left := child } else { a with right := child }

/-- `while (victim->left) victim = victim->left;` -/
def leftmost : Nat → Links → Ptr → Res Ptr
  | 0, _, _ => .error .outOfFuel
  | fuel + 1, m, victim => do
    match (← m.read victim).left with
    | none => return victim
    | some l => leftmost fuel m l

/-- `*victim = *node` and the three links that pointed to `node`. -/
def swapIn (m : Links) (node victim : Ptr) (root : Option Ptr) : Res (Links × Option Ptr) := do
  let n ← m.read node
  let m ← m.modify victim (fun _ => n)
  let m ← setParent m n.left (some victim)
  let m ← setParent m n.right (some victim)
  match (← m.read node).parent with
  | some parent => return (← replaceChild m parent node (some victim), root)
  | none => return (m, some victim)

def avlDel : Nat → Links → Ptr → Res (Links × Option Ptr)
  | 0, _, _ => .error .outOfFuel
  | fuel + 1, m, node => do
    let n ← m.read node
    match n.right with
    | none =>
      let m ← setParent m n.left n.parent
      match n.parent with
      | some parent =>
        let m ← replaceChild m parent node n.left
        let (m, root) ← avlFix fuel m parent
        return (m, some root)
      | none => return (m, n.left)
    | some right =>
      let victim ← leftmost fuel m right
      let (m, root) ← avlDel fuel m victim
      swapIn m node victim root

end RedisServer
