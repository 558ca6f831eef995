import RedisServer.Avl
import RedisServer.Lib.Trees

/-!
# AVL trees in memory

`Rep m parent t` says that the tree `t` of addresses is stored in `m` below `parent`, with all its
links, depths and counts; `Linked` says so of the links alone.  `Path m child fs` says the same of
the nodes on a path to the root, whose depths and counts may be out of date, as they are while
`avl_fix` walks up.

Results:
* `rotLeft_spec`, `rotRight_spec`, `avlFixNode_spec` — the rotations are those of `Trees`;
* `avlFix_sides` — what `avl_fix_left` and `avl_fix_right` do to a node that is out of balance;
* `avlFix_spec` — on a tree that needs no rotation below its root, `avl_fix` stores the rebalanced
  tree.  A rotation below the root is out of reach of any such statement: `avl_fix` does not store
  its result into the parent's child link.
-/

set_option autoImplicit false

namespace RedisServer

open Runs Trees BinaryTree

/-- A tree of addresses. -/
abbrev PTree := BinaryTree Ptr

/-- The `AVLNode` above the subtrees `l` and `r`; `count` is a `uint32_t`. -/
def cell (l r : PTree) (parent : Option Ptr) : AVLNode where
  depth := max l.height r.height + 1
  count := (l.numNodes + r.numNodes + 1) % 2 ^ 32
  left := root l
  right := root r
  parent := parent

/-- The links of the node above the subtrees `l` and `r`. -/
structure LinksTo (n : AVLNode) (l r : PTree) (parent : Option Ptr) : Prop where
  left : n.left = root l
  right : n.right = root r
  parent : n.parent = parent

/-- The tree is stored below `parent`, depths and counts included; the counts are exact if the tree
has fewer than `2 ^ 32` nodes. -/
def Rep (m : Links) : Option Ptr → PTree → Prop
  | _, nil => True
  | parent, node p l r => m p = some (cell l r parent) ∧ Rep m (some p) l ∧ Rep m (some p) r

/-- The tree is linked below `parent` by child and parent links. -/
def Linked (m : Links) : Option Ptr → PTree → Prop
  | _, nil => True
  | parent, node p l r =>
    (∃ n, m p = some n ∧ LinksTo n l r parent) ∧ Linked m (some p) l ∧ Linked m (some p) r

/-- The tree hangs below `parent` by its child links, with depths and counts; the parent links are
right if `E`. -/
def Hung (E : Prop) (m : Links) : Option Ptr → PTree → Prop
  | _, nil => True
  | parent, node p l r =>
    (∃ up, m p = some (cell l r up) ∧ (E → up = parent)) ∧ Hung E m (some p) l ∧ Hung E m (some p) r

/-- As `Hung`, with the parent link of the root, whose depth and count may be out of date. -/
structure Stale (E : Prop) (m : Links) (parent : Option Ptr) (p : Ptr) (l r : PTree) : Prop where
  top : ∃ n, m p = some n ∧ LinksTo n l r parent
  left : Hung E m (some p) l
  right : Hung E m (some p) r

/-- As `Hung`, with the parent link of the root. -/
def Top (E : Prop) (m : Links) : Option Ptr → PTree → Prop
  | _, nil => True
  | parent, node p l r => m p = some (cell l r parent) ∧ Hung E m (some p) l ∧ Hung E m (some p) r

variable {E : Prop} {m m' : Links} {p q : Ptr} {parent parent' : Option Ptr} {t l r : PTree}

theorem linksTo_cell (l r : PTree) (parent : Option Ptr) : LinksTo (cell l r parent) l r parent :=
  ⟨rfl, rfl, rfl⟩

theorem Rep.linked {m : Links} : ∀ {t : PTree} {parent : Option Ptr}, Rep m parent t →
    Linked m parent t
  | nil, _, _ => trivial
  | node _ l r, parent, ⟨h, hl, hr⟩ => ⟨⟨_, h, linksTo_cell l r parent⟩, hl.linked, hr.linked⟩

theorem Rep.hung {E : Prop} {m : Links} : ∀ {t : PTree} {parent : Option Ptr}, Rep m parent t →
    Hung E m parent t
  | nil, _, _ => trivial
  | node _ _ _, _, ⟨h, hl, hr⟩ => ⟨⟨_, h, fun _ => rfl⟩, hl.hung, hr.hung⟩

theorem Hung.rep {E : Prop} {m : Links} (hE : E) : ∀ {t : PTree} {parent : Option Ptr},
    Hung E m parent t → Rep m parent t
  | nil, _, _ => trivial
  | node _ _ _, _, ⟨⟨_, h, hup⟩, hl, hr⟩ => ⟨hup hE ▸ h, hl.rep hE, hr.rep hE⟩

theorem Top.below (h : Top E m parent t) (hE : E → parent = parent') : Hung E m parent' t := by
  cases t with
  | nil => trivial
  | node p l r => exact ⟨⟨_, h.1, hE⟩, h.2.1, h.2.2⟩

theorem Top.hung (h : Top E m parent t) : Hung E m parent t := h.below fun _ => rfl

theorem Top.stale (h : Top E m parent (node p l r)) : Stale E m parent p l r :=
  ⟨⟨_, h.1, linksTo_cell l r parent⟩, h.2.1, h.2.2⟩

theorem Rep.stale (h : Rep m parent (node p l r)) : Stale E m parent p l r :=
  ⟨⟨_, h.1, linksTo_cell l r parent⟩, h.2.1.hung, h.2.2.hung⟩

/-- Where parent links do not count, the parent of the root does not. -/
theorem Hung.reparent (h : Hung E m parent t) (hE : ¬E) : Hung E m parent' t := by
  cases t with
  | nil => trivial
  | node p l r =>
    obtain ⟨⟨up, hp, -⟩, hl, hr⟩ := h
    exact ⟨⟨up, hp, fun e => absurd e hE⟩, hl, hr⟩

/-- A tree is determined by its root and the child links. -/
theorem Hung.unique {E' : Prop} {m : Links} : ∀ {t t' : PTree} {parent parent' : Option Ptr},
    Hung E m parent t → Hung E' m parent' t' → root t = root t' → t = t'
  | nil, t', _, _, _, _, h => (root_eq_none.mp h.symm).symm
  | node p l r, nil, _, _, _, _, h => by cases h
  | node p l r, node p' l' r', _, _, ⟨⟨up, h₁, _⟩, hl, hr⟩, ⟨⟨up', h₂, _⟩, hl', hr'⟩, h => by
    cases h
    have hc : cell l r up = cell l' r' up' := Option.some.inj (h₁.symm.trans h₂)
    rw [hl.unique hl' (congrArg AVLNode.left hc), hr.unique hr' (congrArg AVLNode.right hc)]

theorem Hung.congr {E : Prop} {m m' : Links} : ∀ {t : PTree} {parent : Option Ptr},
    Hung E m parent t → (∀ q ∈ inorder t, m' q = m q) → Hung E m' parent t
  | nil, _, _, _ => trivial
  | node p l r, _, ⟨⟨up, h, hup⟩, hl, hr⟩, ha => by
    simp only [inorder_node, List.mem_append, List.mem_cons] at ha
    exact ⟨⟨up, (ha p (.inr (.inl rfl))).trans h, hup⟩, hl.congr fun q hq => ha q (.inl hq),
      hr.congr fun q hq => ha q (.inr (.inr hq))⟩

theorem Rep.congr (h : Rep m parent t) (ha : ∀ q ∈ inorder t, m' q = m q) : Rep m' parent t :=
  (Hung.congr (E := True) h.hung ha).rep trivial

theorem Rep.root_some {m : Links} (h : Rep m parent t) (hp : root t = some p) :
    ∃ l r, t = node p l r ∧ m p = some (cell l r parent) := by
  cases t with
  | nil => cases hp
  | node q l r => cases hp; exact ⟨l, r, rfl, h.1⟩

theorem avlDepth_spec (h : Hung E m parent t) : avlDepth m (root t) = .ok t.height := by
  cases t with
  | nil => rfl
  | node p l r =>
    obtain ⟨⟨up, hp, -⟩, -, -⟩ := h
    simp [avlDepth, Store.read_of hp, cell]

theorem avlCount_spec (h : Hung E m parent t) :
    avlCount m (root t) = .ok (t.numNodes % 2 ^ 32) := by
  cases t with
  | nil => rfl
  | node p l r =>
    obtain ⟨⟨up, hp, -⟩, -, -⟩ := h
    simp [avlCount, Store.read_of hp, cell]

/-- `avl_update` above two stored subtrees. -/
theorem avlUpdate_spec (h : Stale E m parent p l r) :
    avlUpdate m p = .ok (m.write p (cell l r parent)) := by
  obtain ⟨⟨n, hn, hlink⟩, hl, hr⟩ := h
  simp only [avlUpdate, Store.read_of hn, ok_bind, hlink.left, hlink.right, avlDepth_spec hl,
    avlDepth_spec hr, avlCount_spec hl, avlCount_spec hr]
  rw [Store.modify_of _ hn]
  congr 2
  obtain ⟨d, c, nl, nr, np⟩ := n
  obtain ⟨rfl, rfl, rfl⟩ := hlink
  simp only [cell, AVLNode.mk.injEq, and_true]
  exact ⟨by omega, by omega⟩

/-- Re-parenting a subtree changes its root only. -/
theorem setParent_spec (h : Hung E m parent t) (hnd : (inorder t).Nodup) (parent' : Option Ptr) :
    ∃ m', setParent m (root t) parent' = .ok m' ∧ Hung E m' parent' t ∧
      ∀ q, root t ≠ some q → m' q = m q := by
  cases t with
  | nil => exact ⟨m, rfl, trivial, fun _ _ => rfl⟩
  | node p l r =>
    obtain ⟨⟨up, hp, -⟩, hl, hr⟩ := h
    obtain ⟨-, hnr, hd⟩ := List.nodup_append.mp hnd
    have hpl : ∀ q ∈ inorder l, q ≠ p := fun q hq => hd q hq p List.mem_cons_self
    have hpr : ∀ q ∈ inorder r, q ≠ p := fun q hq h => (List.nodup_cons.mp hnr).1 (h ▸ hq)
    refine ⟨m.write p (cell l r parent'), Store.modify_of _ hp,
      ⟨⟨_, Store.write_self _ _ _, fun _ => rfl⟩,
        hl.congr fun q hq => Store.write_of_ne _ _ (hpl q hq),
        hr.congr fun q hq => Store.write_of_ne _ _ (hpr q hq)⟩, ?_⟩
    intro q hq
    exact Store.write_of_ne _ _ fun h => hq (by rw [h]; rfl)

theorem Hung.write (h : Hung E m parent t) (hp : p ∉ inorder t) (n : AVLNode) :
    Hung E (m.write p n) parent t :=
  h.congr fun _ hq => Store.write_of_ne _ _ fun h => hp (h ▸ hq)

/-- After `avl_update` depth and count are right. -/
theorem Stale.update (h : Stale E m parent p l r) (hl : p ∉ inorder l) (hr : p ∉ inorder r) :
    Top E (m.write p (cell l r parent)) parent (node p l r) :=
  ⟨Store.write_self _ _ _, h.left.write hl _, h.right.write hr _⟩

/-! ## Laying out a tree -/

/-- A store that holds the tree. -/
def layout : Option Ptr → PTree → Links
  | _, nil => Store.empty
  | parent, node p l r => fun q =>
    if q = p then some (cell l r parent)
    else if q ∈ inorder l then layout (some p) l q
    else layout (some p) r q

theorem rep_layout (parent : Option Ptr) (h : (inorder t).Nodup) :
    Rep (layout parent t) parent t := by
  induction t generalizing parent with
  | nil => trivial
  | node p l r ihl ihr =>
    obtain ⟨hl, hr, hd⟩ := List.nodup_append.mp h
    obtain ⟨hpr, hr⟩ := List.nodup_cons.mp hr
    refine ⟨if_pos rfl, (ihl (some p) hl).congr ?_, (ihr (some p) hr).congr ?_⟩
    · intro q hq
      have hqp : q ≠ p := hd q hq p List.mem_cons_self
      simp only [layout, if_neg hqp, if_pos hq]
    · intro q hq
      have hqp : q ≠ p := fun h => hpr (h ▸ hq)
      have hql : q ∉ inorder l := fun h => hd q h q (List.mem_cons_of_mem _ hq) rfl
      simp only [layout, if_neg hqp, if_neg hql]

/-! ## Rotations -/

theorem rotLeft_spec {a b : Ptr} {x y z : PTree} (h : Stale E m parent a x (node b y z))
    (hnd : (inorder (node a x (node b y z))).Nodup) :
    ∃ m', rotLeft m a = .ok (m', b) ∧ Top E m' parent (node b (node a x y) z) ∧
      ∀ q, q ∉ inorder (node a x (node b y z)) → m' q = m q := by
  obtain ⟨⟨n, hn, hlink⟩, hx, ⟨up, hb, -⟩, hy, hz⟩ := h
  simp only [inorder_node, List.nodup_append, List.nodup_cons, List.mem_append, List.mem_cons,
    not_or] at hnd
  obtain ⟨-, ⟨⟨hay, hab, haz⟩, hndy, ⟨hbz, -⟩, hyz⟩, hx'⟩ := hnd
  have hby : b ∉ inorder y := fun h => hyz b h b (.inl rfl) rfl
  have hax : a ∉ inorder x := fun h => hx' a h a (.inl rfl) rfl
  have hbx : b ∉ inorder x := fun h => hx' b h b (.inr (.inr (.inl rfl))) rfl
  have hba : b ≠ a := Ne.symm hab
  -- the inner subtree goes below a
  obtain ⟨m₁, h₁, hy₁, ho₁⟩ := setParent_spec hy hndy (some a)
  have ho : ∀ q, q ∉ inorder y → m₁ q = m q := fun q hq => ho₁ q fun h => hq (root_mem h)
  have ha₁ : m₁ a = some n := (ho a hay).trans hn
  have hb₁ : m₁ b = some (cell y z up) := (ho b hby).trans hb
  have hx₁ : Hung E m₁ (some a) x := hx.congr fun q hq => ho q fun hqy =>
    hx' q hq q (.inr (.inl hqy)) rfl
  have hz₁ : Hung E m₁ (some b) z := hz.congr fun q hq => ho q fun hqy => hyz q hqy q (.inr hq) rfl
  unfold rotLeft
  simp only [Store.read_of hn, ok_bind, hlink.right, root_node, deref_some, Store.read_of hb]
  rw [show (cell y z up).left = root y from rfl, h₁]
  simp only [ok_bind, Store.modify, Store.read, Store.write, ha₁, hb₁, if_true, if_neg hab,
    if_neg hba, pure_ok]
  -- the four link assignments
  generalize hM : Store.write _ a _ = M
  have hMa : ∃ n', M a = some n' ∧ LinksTo n' x y (some b) :=
    ⟨{ n with right := root y, parent := some b }, by rw [← hM]; exact Store.write_self _ _ _,
      hlink.left, rfl, rfl⟩
  have hMb : ∃ n', M b = some n' ∧ LinksTo n' (node a x y) z parent :=
    ⟨{ cell y z up with left := some a, parent := n.parent },
      by rw [← hM, Store.write_of_ne _ _ hba]; exact Store.write_self _ _ _, rfl, rfl,
      hlink.parent⟩
  have hMo : ∀ q, q ≠ a → q ≠ b → M q = m₁ q := by
    intro q hqa hqb
    rw [← hM, Store.write_of_ne _ _ hqa, Store.write_of_ne _ _ hqb, Store.write_of_ne _ _ hqb,
      Store.write_of_ne _ _ hqa]
  have hx₂ := hx₁.congr fun q hq => hMo q (fun h => hax (h ▸ hq)) fun h => hbx (h ▸ hq)
  have hy₂ := hy₁.congr fun q hq => hMo q (fun h => hay (h ▸ hq)) fun h => hby (h ▸ hq)
  have hz₂ := hz₁.congr fun q hq => hMo q (fun h => haz (h ▸ hq)) fun h => hbz (h ▸ hq)
  -- the two updates
  have hsa : Stale E M (some b) a x y := ⟨hMa, hx₂, hy₂⟩
  have hra := (hsa.update hax hay).hung
  have hsb : Stale E (M.write a (cell x y (some b))) parent b (node a x y) z :=
    ⟨by rw [Store.write_of_ne _ _ hba]; exact hMb, hra, hz₂.write haz _⟩
  rw [avlUpdate_spec hsa, ok_bind, avlUpdate_spec hsb, ok_bind]
  refine ⟨_, rfl, hsb.update (by simp [hba, hbx, hby]) hbz, ?_⟩
  intro q hq
  simp only [inorder_node, List.mem_append, List.mem_cons, not_or] at hq
  rw [Store.write_of_ne _ _ hq.2.2.2.1, Store.write_of_ne _ _ hq.2.1, hMo q hq.2.1 hq.2.2.2.1,
    ho q hq.2.2.1]

theorem rotRight_spec {a b : Ptr} {x y z : PTree} (h : Stale E m parent a (node b x y) z)
    (hnd : (inorder (node a (node b x y) z)).Nodup) :
    ∃ m', rotRight m a = .ok (m', b) ∧ Top E m' parent (node b x (node a y z)) ∧
      ∀ q, q ∉ inorder (node a (node b x y) z) → m' q = m q := by
  obtain ⟨⟨n, hn, hlink⟩, ⟨⟨up, hb, -⟩, hx, hy⟩, hz⟩ := h
  simp only [inorder_node, List.nodup_append, List.nodup_cons, List.mem_append, List.mem_cons]
    at hnd
  obtain ⟨⟨-, ⟨hby, hndy⟩, hx'⟩, ⟨haz, -⟩, hb'⟩ := hnd
  have hbx : b ∉ inorder x := fun h => hx' b h b (.inl rfl) rfl
  have hba : b ≠ a := hb' b (.inr (.inl rfl)) a (.inl rfl)
  have hab : a ≠ b := Ne.symm hba
  have hax : a ∉ inorder x := fun h => hb' a (.inl h) a (.inl rfl) rfl
  have hay : a ∉ inorder y := fun h => hb' a (.inr (.inr h)) a (.inl rfl) rfl
  have hbz : b ∉ inorder z := fun h => hb' b (.inr (.inl rfl)) b (.inr h) rfl
  -- the inner subtree goes below a
  obtain ⟨m₁, h₁, hy₁, ho₁⟩ := setParent_spec hy hndy (some a)
  have ho : ∀ q, q ∉ inorder y → m₁ q = m q := fun q hq => ho₁ q fun h => hq (root_mem h)
  have ha₁ : m₁ a = some n := (ho a hay).trans hn
  have hb₁ : m₁ b = some (cell x y up) := (ho b hby).trans hb
  have hx₁ : Hung E m₁ (some b) x := hx.congr fun q hq => ho q fun hqy =>
    hx' q hq q (.inr hqy) rfl
  have hz₁ : Hung E m₁ (some a) z := hz.congr fun q hq => ho q fun hqy =>
    hb' q (.inr (.inr hqy)) q (.inr hq) rfl
  unfold rotRight
  simp only [Store.read_of hn, ok_bind, hlink.left, root_node, deref_some, Store.read_of hb]
  rw [show (cell x y up).right = root y from rfl, h₁]
  simp only [ok_bind, Store.modify, Store.read, Store.write, ha₁, hb₁, if_true, if_neg hab,
    if_neg hba, pure_ok]
  -- the four link assignments
  generalize hM : Store.write _ a _ = M
  have hMa : ∃ n', M a = some n' ∧ LinksTo n' y z (some b) :=
    ⟨{ n with left := root y, parent := some b }, by rw [← hM]; exact Store.write_self _ _ _,
      rfl, hlink.right, rfl⟩
  have hMb : ∃ n', M b = some n' ∧ LinksTo n' x (node a y z) parent :=
    ⟨{ cell x y up with right := some a, parent := n.parent },
      by rw [← hM, Store.write_of_ne _ _ hba]; exact Store.write_self _ _ _, rfl, rfl,
      hlink.parent⟩
  have hMo : ∀ q, q ≠ a → q ≠ b → M q = m₁ q := by
    intro q hqa hqb
    rw [← hM, Store.write_of_ne _ _ hqa, Store.write_of_ne _ _ hqb, Store.write_of_ne _ _ hqb,
      Store.write_of_ne _ _ hqa]
  have hx₂ := hx₁.congr fun q hq => hMo q (fun h => hax (h ▸ hq)) fun h => hbx (h ▸ hq)
  have hy₂ := hy₁.congr fun q hq => hMo q (fun h => hay (h ▸ hq)) fun h => hby (h ▸ hq)
  have hz₂ := hz₁.congr fun q hq => hMo q (fun h => haz (h ▸ hq)) fun h => hbz (h ▸ hq)
  -- the two updates
  have hsa : Stale E M (some b) a y z := ⟨hMa, hy₂, hz₂⟩
  have hra := (hsa.update hay haz).hung
  have hsb : Stale E (M.write a (cell y z (some b))) parent b x (node a y z) :=
    ⟨by rw [Store.write_of_ne _ _ hba]; exact hMb, hx₂.write hax _, hra⟩
  rw [avlUpdate_spec hsa, ok_bind, avlUpdate_spec hsb, ok_bind]
  refine ⟨_, rfl, hsb.update hbx (by simp [hba, hby, hbz]), ?_⟩
  intro q hq
  simp only [inorder_node, List.mem_append, List.mem_cons, not_or] at hq
  rw [Store.write_of_ne _ _ hq.1.2.1, Store.write_of_ne _ _ hq.2.1, hMo q hq.2.1 hq.1.2.1,
    ho q hq.1.2.2]

/-! ## avl_fix_left and avl_fix_right -/

/-- Storing the root of a rotated left subtree. -/
theorem Stale.setLeft {l' : PTree} {n : AVLNode} (hlink : LinksTo n l r parent)
    (hl : Hung E m (some p) l') (hr : Hung E m (some p) r) (hpl : p ∉ inorder l')
    (hpr : p ∉ inorder r) :
    Stale E (m.write p { n with left := root l' }) parent p l' r :=
  ⟨⟨_, Store.write_self _ _ _, rfl, hlink.right, hlink.parent⟩, hl.write hpl _, hr.write hpr _⟩

theorem Stale.setRight {r' : PTree} {n : AVLNode} (hlink : LinksTo n l r parent)
    (hl : Hung E m (some p) l) (hr : Hung E m (some p) r') (hpl : p ∉ inorder l)
    (hpr : p ∉ inorder r') :
    Stale E (m.write p { n with right := root r' }) parent p l r' :=
  ⟨⟨_, Store.write_self _ _ _, hlink.left, rfl, hlink.parent⟩, hl.write hpl _, hr.write hpr _⟩

theorem fixInnerLeft_spec {a b : Ptr} {x y : PTree} (h : Stale E m parent a (node b x y) r)
    (hnd : (inorder (node a (node b x y) r)).Nodup) :
    ∃ m', fixInnerLeft m a = .ok m' ∧
      Stale E m' parent a
        (if x.height < y.height then rotateLeft (node b x y) else node b x y) r ∧
      ∀ q, q ∉ inorder (node a (node b x y) r) → m' q = m q := by
  have ⟨⟨n, hn, hlink⟩, hl, hr⟩ := h
  have ⟨⟨up, hb, hup⟩, hx, hy⟩ := hl
  obtain ⟨hndl, hndr, hd⟩ := List.nodup_append.mp hnd
  have hal : a ∉ inorder (node b x y) := fun h => hd a h a List.mem_cons_self rfl
  have har : a ∉ inorder r := (List.nodup_cons.mp hndr).1
  unfold fixInnerLeft
  simp only [Store.read_of hn, ok_bind, hlink.left, root_node, deref_some, Store.read_of hb]
  simp only [show (cell x y up).left = root x from rfl,
    show (cell x y up).right = root y from rfl, avlDepth_spec hx, avlDepth_spec hy,
    ok_bind]
  by_cases hxy : x.height < y.height
  · rw [if_pos hxy, if_pos hxy]
    match y, hb, hy, hal, hndl, hd, hxy with
    | nil, _, _, _, _, _, hxy => simp at hxy
    | node c u v, hb, hy, hal, hndl, hd, _ =>
      have hst : Stale E m up b x (node c u v) := ⟨⟨_, hb, linksTo_cell _ _ _⟩, hx, hy⟩
      obtain ⟨m₁, h₁, htop, ho⟩ := rotLeft_spec hst hndl
      have hn₁ : m₁ a = some n := (ho a hal).trans hn
      have hr₁ : Hung E m₁ (some a) r := hr.congr fun q hq => ho q fun hql =>
        hd q hql q (List.mem_cons_of_mem _ hq) rfl
      have hal' : a ∉ inorder (node c (node b x u) v) := by simpa using hal
      refine ⟨_, by rw [h₁]; exact Store.modify_of _ hn₁, .setLeft hlink (htop.below hup) hr₁ hal' har,
        ?_⟩
      intro q hq
      have hqa : q ≠ a := by rintro rfl; simp at hq
      rw [Store.write_of_ne _ _ hqa]
      exact ho q fun h => hq (List.mem_append_left _ h)
  · rw [if_neg hxy, if_neg hxy]
    exact ⟨m, rfl, h, fun _ _ => rfl⟩

theorem fixInnerRight_spec {a b : Ptr} {x y : PTree} (h : Stale E m parent a l (node b x y))
    (hnd : (inorder (node a l (node b x y))).Nodup) :
    ∃ m', fixInnerRight m a = .ok m' ∧
      Stale E m' parent a l
        (if y.height < x.height then rotateRight (node b x y) else node b x y) ∧
      ∀ q, q ∉ inorder (node a l (node b x y)) → m' q = m q := by
  have ⟨⟨n, hn, hlink⟩, hl, hr⟩ := h
  have ⟨⟨up, hb, hup⟩, hx, hy⟩ := hr
  obtain ⟨-, hndr, hd⟩ := List.nodup_append.mp hnd
  obtain ⟨har, hndr⟩ := List.nodup_cons.mp hndr
  have hal : a ∉ inorder l := fun h => hd a h a List.mem_cons_self rfl
  unfold fixInnerRight
  simp only [Store.read_of hn, ok_bind, hlink.right, root_node, deref_some, Store.read_of hb]
  simp only [show (cell x y up).left = root x from rfl,
    show (cell x y up).right = root y from rfl, avlDepth_spec hx, avlDepth_spec hy,
    ok_bind]
  by_cases hxy : y.height < x.height
  · rw [if_pos hxy, if_pos hxy]
    match x, hb, hx, har, hndr, hd, hxy with
    | nil, _, _, _, _, _, hxy => simp at hxy
    | node c u v, hb, hx, har, hndr, hd, _ =>
      have hst : Stale E m up b (node c u v) y := ⟨⟨_, hb, linksTo_cell _ _ _⟩, hx, hy⟩
      obtain ⟨m₁, h₁, htop, ho⟩ := rotRight_spec hst hndr
      have hn₁ : m₁ a = some n := (ho a har).trans hn
      have hl₁ : Hung E m₁ (some a) l := hl.congr fun q hq => ho q fun hqr =>
        hd q hq q (List.mem_cons_of_mem _ hqr) rfl
      have har' : a ∉ inorder (node c u (node b v y)) := by simpa using har
      refine ⟨_, by rw [h₁]; exact Store.modify_of _ hn₁, .setRight hlink hl₁ (htop.below hup) hal har',
        ?_⟩
      intro q hq
      have hqa : q ≠ a := by rintro rfl; simp at hq
      rw [Store.write_of_ne _ _ hqa]
      exact ho q fun h => hq (List.mem_append_right _ (List.mem_cons_of_mem _ h))
  · rw [if_neg hxy, if_neg hxy]
    exact ⟨m, rfl, h, fun _ _ => rfl⟩

/-- **`avl_fix_left`** is `Trees.fixLeft`. -/
theorem avlFixLeft_spec {a b : Ptr} {x y : PTree} (h : Stale E m parent a (node b x y) r)
    (hnd : (inorder (node a (node b x y) r)).Nodup) :
    ∃ m' p, avlFixLeft m a = .ok (m', p) ∧ root (fixLeft (node a (node b x y) r)) = some p ∧
      Top E m' parent (fixLeft (node a (node b x y) r)) ∧
      ∀ q, q ∉ inorder (node a (node b x y) r) → m' q = m q := by
  obtain ⟨m₁, h₁, hst, ho₁⟩ := fixInnerLeft_spec h hnd
  have hfix : fixLeft (node a (node b x y) r) = rotateRight (node a
      (if x.height < y.height then rotateLeft (node b x y) else node b x y) r) := rfl
  have hin : inorder (if x.height < y.height then rotateLeft (node b x y) else node b x y) =
      inorder (node b x y) := by split <;> simp
  rw [hfix]
  generalize ht : (if x.height < y.height then rotateLeft (node b x y) else node b x y) = t
    at hst hin ⊢
  match t, hst, hin with
  | nil, _, hin => simp at hin
  | node c u v, hst, hin =>
    have hnd' : (inorder (node a (node c u v) r)).Nodup := by
      rw [inorder_node, hin]; exact hnd
    obtain ⟨m₂, h₂, hrep, ho₂⟩ := rotRight_spec hst hnd'
    refine ⟨m₂, c, by simp [avlFixLeft, h₁, h₂], rfl, hrep, ?_⟩
    intro q hq
    rw [ho₂ q (by rw [inorder_node, hin]; exact hq), ho₁ q hq]

/-- **`avl_fix_right`** is `Trees.fixRight`. -/
theorem avlFixRight_spec {a b : Ptr} {x y : PTree} (h : Stale E m parent a l (node b x y))
    (hnd : (inorder (node a l (node b x y))).Nodup) :
    ∃ m' p, avlFixRight m a = .ok (m', p) ∧ root (fixRight (node a l (node b x y))) = some p ∧
      Top E m' parent (fixRight (node a l (node b x y))) ∧
      ∀ q, q ∉ inorder (node a l (node b x y)) → m' q = m q := by
  obtain ⟨m₁, h₁, hst, ho₁⟩ := fixInnerRight_spec h hnd
  have hfix : fixRight (node a l (node b x y)) = rotateLeft (node a l
      (if y.height < x.height then rotateRight (node b x y) else node b x y)) := rfl
  have hin : inorder (if y.height < x.height then rotateRight (node b x y) else node b x y) =
      inorder (node b x y) := by split <;> simp
  rw [hfix]
  generalize ht : (if y.height < x.height then rotateRight (node b x y) else node b x y) = t
    at hst hin ⊢
  match t, hst, hin with
  | nil, _, hin => simp at hin
  | node c u v, hst, hin =>
    have hnd' : (inorder (node a l (node c u v))).Nodup := by
      rw [inorder_node, hin]; exact hnd
    obtain ⟨m₂, h₂, hrep, ho₂⟩ := rotLeft_spec hst hnd'
    refine ⟨m₂, c, by simp [avlFixRight, h₁, h₂], rfl, hrep, ?_⟩
    intro q hq
    rw [ho₂ q (by rw [inorder_node, hin]; exact hq), ho₁ q hq]

/-- `t` is stored below `parent` with all its links and depths, balanced, and its counts are exact:
none has wrapped around. -/
structure AvlSubtree (m : Links) (parent : Option Ptr) (t : PTree) : Prop where
  rep : Rep m parent t
  balanced : Balanced t
  size : t.numNodes < 2 ^ 32

/-- `res` is the root of a valid subtree with the nodes of `old` in their order, in the place of
`old`; `taller` is the depth `old` had on its deeper side.  Other nodes are left alone. -/
def Rebalances (res : Res (Links × Ptr)) (m : Links) (parent : Option Ptr) (old : PTree)
    (taller : Nat) : Prop :=
  ∃ m' p t, res = .ok (m', p) ∧ root t = some p ∧ AvlSubtree m' parent t ∧
    inorder t = inorder old ∧ (t.height = taller + 1 ∨ t.height = taller) ∧
    ∀ q, q ∉ inorder old → m' q = m q

theorem numNodes_of_inorder {t t' : PTree} (h : inorder t = inorder t') :
    t.numNodes = t'.numNodes := by
  rw [← length_inorder, h, length_inorder]

/-- **`avl_fix_left` and `avl_fix_right`** repair a node whose valid subtrees differ in depth by
two; its own depth and count need not be up to date.  The count of all its nodes is one that
`uint32_t` can hold. -/
theorem avlFix_sides {a : Ptr} (htop : ∃ n, m a = some n ∧ LinksTo n l r parent)
    (hl : AvlSubtree m (some a) l) (hr : AvlSubtree m (some a) r)
    (hnd : (inorder (node a l r)).Nodup) (hsize : (node a l r).numNodes < 2 ^ 32) :
    (l.height = r.height + 2 → Rebalances (avlFixLeft m a) m parent (node a l r) l.height) ∧
      (l.height + 2 = r.height → Rebalances (avlFixRight m a) m parent (node a l r) r.height) := by
  have hst : Stale True m parent a l r := ⟨htop, hl.rep.hung, hr.rep.hung⟩
  constructor
  · intro h
    cases l with
    | nil => simp at h
    | node b x y =>
      obtain ⟨m', p, hfix, hroot, htop', ho⟩ := avlFixLeft_spec hst hnd
      exact ⟨m', p, _, hfix, hroot,
        ⟨htop'.hung.rep trivial, balanced_fixLeft hl.balanced hr.balanced h,
          (numNodes_of_inorder (inorder_fixLeft _)).trans_lt hsize⟩,
        inorder_fixLeft _, height_fixLeft hl.balanced h, ho⟩
  · intro h
    cases r with
    | nil => simp at h
    | node b x y =>
      obtain ⟨m', p, hfix, hroot, htop', ho⟩ := avlFixRight_spec hst hnd
      exact ⟨m', p, _, hfix, hroot,
        ⟨htop'.hung.rep trivial, balanced_fixRight hl.balanced hr.balanced h,
          (numNodes_of_inorder (inorder_fixRight _)).trans_lt hsize⟩,
        inorder_fixRight _, height_fixRight hr.balanced h, ho⟩

/-- The double rotation, where the inner grandchild is the deeper one. -/
theorem avlFix_sides_inner :
    let l : PTree := node 1 nil (node 2 nil nil)
    let m := layout none (node 3 l nil)
    Rebalances (avlFixLeft m 3) m none (node 3 l nil) 2 := by
  intro l m
  have hrep : Rep m none (node 3 l nil) := rep_layout none (by decide)
  exact (avlFix_sides ⟨_, hrep.1, linksTo_cell l nil none⟩
    ⟨hrep.2.1, by simp [l, Trees.Balanced], by decide⟩ ⟨trivial, trivial, by decide⟩ (by decide)
    (by decide)).1 rfl

/-- **One round of `avl_fix`** is `Trees.rebalance`. -/
theorem avlFixNode_spec (h : Stale E m parent p l r) (hnd : (inorder (node p l r)).Nodup) :
    ∃ m' p', avlFixNode m p = .ok (m', p') ∧ root (rebalance (node p l r)) = some p' ∧
      Top E m' parent (rebalance (node p l r)) ∧ ∀ q, q ∉ inorder (node p l r) → m' q = m q := by
  obtain ⟨-, hndr, hd⟩ := List.nodup_append.mp hnd
  have hpl : p ∉ inorder l := fun h => hd p h p List.mem_cons_self rfl
  have hpr : p ∉ inorder r := (List.nodup_cons.mp hndr).1
  have hrep := h.update hpl hpr
  have ho : ∀ q, q ∉ inorder (node p l r) → m.write p (cell l r parent) q = m q := fun q hq =>
    Store.write_of_ne _ _ (by rintro rfl; simp at hq)
  unfold avlFixNode
  rw [avlUpdate_spec h, ok_bind, Store.read_of hrep.1, ok_bind,
    show (cell l r parent).left = root l from rfl, show (cell l r parent).right = root r from rfl,
    avlDepth_spec hrep.2.1, avlDepth_spec hrep.2.2, ok_bind, ok_bind, rebalance]
  by_cases h₁ : l.height = r.height + 2
  · rw [if_pos h₁, if_pos h₁]
    cases l with
    | nil => simp at h₁
    | node b x y =>
      obtain ⟨m', p', hf, hroot, hrep', ho'⟩ := avlFixLeft_spec hrep.stale hnd
      exact ⟨m', p', hf, hroot, hrep', fun q hq => (ho' q hq).trans (ho q hq)⟩
  · rw [if_neg h₁, if_neg h₁]
    by_cases h₂ : l.height + 2 = r.height
    · rw [if_pos h₂, if_pos h₂]
      cases r with
      | nil => simp at h₂
      | node b x y =>
        obtain ⟨m', p', hf, hroot, hrep', ho'⟩ := avlFixRight_spec hrep.stale hnd
        exact ⟨m', p', hf, hroot, hrep', fun q hq => (ho' q hq).trans (ho q hq)⟩
    · rw [if_neg h₂, if_neg h₂]
      exact ⟨_, p, rfl, rfl, hrep, ho⟩

/-! ## Paths to the root -/

/-- The parent of the focus. -/
def above : List (Frame Ptr) → Option Ptr
  | [] => none
  | f :: _ => some f.label

/-- The links of the node of a frame, `child` on the side of the focus. -/
def FrameLinks (n : AVLNode) (child parent : Option Ptr) : Frame Ptr → Prop
  | .left _ r => n.left = child ∧ n.right = root r ∧ n.parent = parent
  | .right _ l => n.left = root l ∧ n.right = child ∧ n.parent = parent

/-- The path `fs` is stored above `child`; its depths and counts may be out of date. -/
def Path (E : Prop) (m : Links) : Option Ptr → List (Frame Ptr) → Prop
  | _, [] => True
  | child, f :: fs => (∃ n, m f.label = some n ∧ FrameLinks n child (above fs) f) ∧
    Hung E m (some f.label) f.sibling ∧ Path E m (some f.label) fs

theorem Path.congr {m m' : Links} : ∀ {fs : List (Frame Ptr)} {child : Option Ptr},
    Path E m child fs → (∀ q ∈ around fs, m' q = m q) → Path E m' child fs
  | [], _, _, _ => trivial
  | f :: fs, _, ⟨⟨n, hn, hlink⟩, hs, h⟩, ha => by
    simp only [around, List.mem_cons, List.mem_append] at ha
    exact ⟨⟨n, (ha _ (.inl rfl)).trans hn, hlink⟩, hs.congr fun q hq => ha q (.inr (.inl hq)),
      h.congr fun q hq => ha q (.inr (.inr hq))⟩

/-- Focusing on a subtree of a stored tree. -/
theorem Rep.focus {m : Links} : ∀ {fs : List (Frame Ptr)} {t : PTree}, Rep m none (plug fs t) →
    Rep m (above fs) t ∧ Path E m (root t) fs
  | [], _, h => ⟨h, trivial⟩
  | .left a r :: fs, t, h => by
    have h : Rep m none (plug fs (node a t r)) := h
    obtain ⟨⟨ha, ht, hr⟩, hp⟩ := h.focus
    exact ⟨ht, ⟨_, ha, rfl, rfl, rfl⟩, hr.hung, hp⟩
  | .right a l :: fs, t, h => by
    have h : Rep m none (plug fs (node a l t)) := h
    obtain ⟨⟨ha, hl, ht⟩, hp⟩ := h.focus
    exact ⟨ht, ⟨_, ha, rfl, rfl, rfl⟩, hl.hung, hp⟩

/-! ## avl_fix -/

theorem nodup_focus {fs : List (Frame Ptr)} {t : PTree} (h : (inorder (plug fs t)).Nodup) :
    (inorder t).Nodup ∧ (around fs).Nodup ∧ ∀ q ∈ around fs, q ∉ inorder t := by
  obtain ⟨h₁, h₂, hd⟩ := List.nodup_append.mp (nodup_plug.mp h)
  exact ⟨h₁, h₂, fun q hq hqt => hd q hqt q hq rfl⟩

theorem Top.root_some (h : Top E m parent t) (hp : root t = some p) :
    ∃ n, m p = some n ∧ n.parent = parent := by
  cases t with
  | nil => cases hp
  | node q l r => cases hp; exact ⟨_, h.1, rfl⟩

/-- The parent of a rotated subtree still has the old root as its child. -/
theorem Top.kept (h : Top E m parent (rebalance t)) (hE : E → Balanced t) :
    Hung E m parent (kept t) := by
  cases t with
  | nil => trivial
  | node a l r =>
    rcases kept_cases a l r with
      ⟨hlr, c, u, v, hreb, hk, -⟩ | ⟨hlr, c, u, v, hreb, hk, -⟩ | ⟨-, -, hreb, hk⟩
    · rw [hreb] at h
      rw [hk]
      exact h.2.2.reparent fun e => by obtain ⟨_, _, -, -⟩ := hE e; omega
    · rw [hreb] at h
      rw [hk]
      exact h.2.1.reparent fun e => by obtain ⟨_, _, -, -⟩ := hE e; omega
    · rw [hreb] at h
      rw [hk]
      exact h.hung

/-- A path whose nearest frame holds the focus `t` is a stale node on a shorter path. -/
theorem Path.plug {f : Frame Ptr} {fs : List (Frame Ptr)} (h : Path E m (root t) (f :: fs))
    (ht : Hung E m (some f.label) t) :
    ∃ l r, f.plug t = node f.label l r ∧ Stale E m (above fs) f.label l r ∧
      Path E m (some f.label) fs := by
  obtain ⟨⟨n, hn, hlink⟩, hs, hp⟩ := h
  cases f with
  | left a r => exact ⟨t, r, rfl, ⟨⟨n, hn, hlink.1, hlink.2.1, hlink.2.2⟩, ht, hs⟩, hp⟩
  | right a l => exact ⟨l, t, rfl, ⟨⟨n, hn, hlink.1, hlink.2.1, hlink.2.2⟩, hs, ht⟩, hp⟩

/-- **`avl_fix` from the focus to the root** is `Trees.settle`. -/
theorem avlFix_spec : ∀ (fs : List (Frame Ptr)) {fuel : Nat} {m : Links} {p : Ptr} {l r : PTree},
    Stale E m (above fs) p l r → Path E m (some p) fs →
    (inorder (plug fs (node p l r))).Nodup → (E → CalmBelow (plug fs (node p l r))) →
    fs.length < fuel →
    ∃ m' p', avlFix fuel m p = .ok (m', p') ∧ root (settle fs (node p l r)) = some p' ∧
      Top E m' none (settle fs (node p l r)) ∧
      ∀ q, q ∉ inorder (plug fs (node p l r)) → m' q = m q
  | _, 0, _, _, _, _, _, _, _, _, hf => absurd hf (Nat.not_lt_zero _)
  | [], fuel + 1, m, p, l, r, hst, _, hnd, _, _ => by
    obtain ⟨m', p', h, hroot, htop, ho⟩ := avlFixNode_spec hst hnd
    obtain ⟨⟨n, hn, hlink⟩, -, -⟩ := hst
    refine ⟨m', p', ?_, hroot, htop, ho⟩
    unfold avlFix
    rw [Store.read_of hn, ok_bind, h, ok_bind, hlink.parent]
    rfl
  | f :: fs, fuel + 1, m, p, l, r, hst, hpath, hnd, hc, hf => by
    obtain ⟨hnd₁, -, hd⟩ := nodup_focus hnd
    obtain ⟨m₁, p₁, h₁, hroot, htop, ho⟩ := avlFixNode_spec hst hnd₁
    -- up to the node of the frame
    obtain ⟨n₁, hn₁, hup⟩ := htop.root_some hroot
    obtain ⟨⟨n, hn, hlink⟩, -, -⟩ := hst
    have hstep : avlFix (fuel + 1) m p = avlFix fuel m₁ f.label := by
      rw [avlFix, Store.read_of hn, ok_bind, h₁, ok_bind, hlink.parent]
      simp only [above, Store.read_of hn₁, ok_bind, hup]
      rfl
    have hkept := htop.kept fun e => (hc e).focus
    have hpath₁ : Path E m₁ (root (kept (node p l r))) (f :: fs) := by
      rw [root_kept]
      exact hpath.congr fun q hq => ho q (hd q hq)
    obtain ⟨l', r', hplug, hst', hp'⟩ := hpath₁.plug hkept
    have hsub := inorder_plug_sublist (f :: fs) (inorder_kept_sublist (node p l r))
    have hcalm : E → CalmBelow (plug (f :: fs) (kept (node p l r))) := by
      intro e
      rw [kept_of_balanced (hc e).focus]
      exact hc e
    have hnd' := hnd.sublist hsub
    rw [plug_cons, hplug] at hsub hcalm hnd'
    obtain ⟨m', p', h', hroot', htop', ho'⟩ :=
      avlFix_spec fs hst' hp' hnd' hcalm (Nat.lt_of_succ_lt_succ hf)
    rw [hstep, settle, hplug]
    refine ⟨m', p', h', hroot', htop', ?_⟩
    intro q hq
    rw [ho' q fun h => hq (hsub.subset h), ho q fun h => hq (mem_plug.mpr (.inl h))]

end RedisServer
