import RedisServer.AvlRep

/-!
# Deletion from an AVL tree

`avl_del` takes a node without a right child out at once and calls `avl_fix` on its parent.  Any
other node is replaced by its successor: the successor is deleted first, and then takes over the
fields of the node, wherever the rotations have put it.

Results:
* `avlDel_spec` — on a tree that needs no rotation below its root, `avl_del` stores the rebalanced
  tree of `Trees.removeRoot` in focus, and returns its root;
* `avlDel_loses` — on any other, some member is out of reach afterwards;
* `avlDel_valid_iff` — so the outcome is a valid tree exactly in the first case.
-/

set_option autoImplicit false

namespace RedisServer

open Runs Trees BinaryTree

variable {E : Prop} {m m' : Links} {p v x : Ptr} {fs : List (Frame Ptr)} {t l r : PTree}

/-! ## The links around a focus -/

/-- Replacing the child on the side of the focus. -/
theorem replaceChild_spec {f : Frame Ptr} {n : AVLNode} {parent : Option Ptr} (child : Option Ptr)
    (hn : m f.label = some n) (hlink : FrameLinks n (some x) parent f)
    (hx : x ∉ inorder f.sibling) :
    ∃ n', replaceChild m f.label x child = .ok (m.write f.label n') ∧
      FrameLinks n' child parent f ∧ n'.depth = n.depth ∧ n'.count = n.count := by
  refine ⟨_, Store.modify_of _ hn, ?_⟩
  cases f with
  | left a s =>
    rw [if_pos hlink.1]
    exact ⟨⟨rfl, hlink.2.1, hlink.2.2⟩, rfl, rfl⟩
  | right a s =>
    have hne : n.left ≠ some x := fun h => hx (root_mem (hlink.1.symm.trans h))
    rw [if_neg hne]
    exact ⟨⟨hlink.1, rfl, hlink.2.2⟩, rfl, rfl⟩

theorem height_frame_congr (f : Frame Ptr) {t t' : PTree} (h : t'.height = t.height) :
    (f.plug t').height = (f.plug t).height := by
  cases f <;> simp only [Frame.plug, height, h]

theorem numNodes_frame_congr (f : Frame Ptr) {t t' : PTree} (h : t'.numNodes = t.numNodes) :
    (f.plug t').numNodes = (f.plug t).numNodes := by
  cases f <;> simp only [Frame.plug, numNodes, h]

theorem root_frame (f : Frame Ptr) (t : PTree) : root (f.plug t) = some f.label := by
  cases f <;> rfl

/-- Another focus of the same size, the path unchanged. -/
theorem Rep.refocus {m m' : Links} : ∀ {fs : List (Frame Ptr)} {t t' : PTree},
    Rep m none (plug fs t) → Rep m' (above fs) t' → root t' = root t → t'.height = t.height →
    t'.numNodes = t.numNodes → (∀ q ∈ around fs, m' q = m q) → Rep m' none (plug fs t')
  | [], _, _, _, h, _, _, _, _ => h
  | f :: fs, t, t', h, ht', hr, hh, hn, ho => by
    have h : Rep m none (plug fs (f.plug t)) := h
    obtain ⟨hf, -⟩ := h.focus (E := True)
    simp only [around, List.mem_cons, List.mem_append] at ho
    have hsib : ∀ q ∈ inorder f.sibling, m' q = m q := fun q hq => ho q (.inr (.inl hq))
    have hlabel := ho f.label (.inl rfl)
    have hf' : Rep m' (above fs) (f.plug t') := by
      cases f with
      | left a s =>
        have hcell : cell t' s (above fs) = cell t s (above fs) := by simp only [cell, hr, hh, hn]
        exact ⟨(hlabel.trans hf.1).trans (congrArg some hcell.symm), ht', hf.2.2.congr hsib⟩
      | right a s =>
        have hcell : cell s t' (above fs) = cell s t (above fs) := by simp only [cell, hr, hh, hn]
        exact ⟨(hlabel.trans hf.1).trans (congrArg some hcell.symm), hf.2.1.congr hsib, ht'⟩
    show Rep m' none (plug fs (f.plug t'))
    exact Rep.refocus h hf' ((root_frame f t').trans (root_frame f t).symm)
      (height_frame_congr f hh) (numNodes_frame_congr f hn) fun q hq => ho q (.inr (.inr hq))

/-- Hanging a tree of the same size into the link of a focus. -/
theorem Rep.rehang {f : Frame Ptr} {s t : PTree} {n n' : AVLNode}
    (h : Rep m none (plug (f :: fs) s)) (ht : Rep m' (some f.label) t)
    (hh : t.height = s.height) (hc : t.numNodes = s.numNodes)
    (hn : m f.label = some n) (hn' : m' f.label = some n')
    (hlink : FrameLinks n' (root t) (above fs) f) (hd : n'.depth = n.depth ∧ n'.count = n.count)
    (ho : ∀ q ∈ inorder f.sibling ++ around fs, m' q = m q) : Rep m' none (plug (f :: fs) t) := by
  have h : Rep m none (plug fs (f.plug s)) := h
  obtain ⟨hf, -⟩ := h.focus (E := True)
  have hsib : ∀ q ∈ inorder f.sibling, m' q = m q := fun q hq => ho q (List.mem_append_left _ hq)
  have hf' : Rep m' (above fs) (f.plug t) := by
    obtain ⟨d, c, nl, nr, np⟩ := n'
    cases f with
    | left a s' =>
      obtain ⟨rfl, rfl, rfl⟩ := hlink
      cases hf.1.symm.trans hn
      obtain ⟨rfl, rfl⟩ := hd
      refine ⟨(show m' a = _ from hn').trans ?_, ht, hf.2.2.congr hsib⟩
      simp only [cell, hh, hc]
    | right a s' =>
      obtain ⟨rfl, rfl, rfl⟩ := hlink
      cases hf.1.symm.trans hn
      obtain ⟨rfl, rfl⟩ := hd
      refine ⟨(show m' a = _ from hn').trans ?_, hf.2.1.congr hsib, ht⟩
      simp only [cell, hh, hc]
  show Rep m' none (plug fs (f.plug t))
  exact Rep.refocus h hf' ((root_frame f t).trans (root_frame f s).symm)
    (height_frame_congr f hh) (numNodes_frame_congr f hc)
    fun q hq => ho q (List.mem_append_right _ hq)

/-- The way to the successor. -/
theorem leftmost_spec : ∀ {l : PTree} {a : Ptr} {r : PTree} {parent : Option Ptr} {fuel : Nat},
    Rep m parent (node a l r) → l.height < fuel →
    RedisServer.leftmost fuel m a = .ok (Trees.leftmost a l)
  | _, _, _, _, 0, _, hf => absurd hf (Nat.not_lt_zero _)
  | nil, a, r, parent, fuel + 1, h, _ => by
    rw [RedisServer.leftmost, Store.read_of h.1, ok_bind]
    rfl
  | node b l r', a, r, parent, fuel + 1, h, hf => by
    rw [RedisServer.leftmost, Store.read_of h.1, ok_bind]
    simp only [height] at hf
    exact leftmost_spec h.2.1 (by omega)

/-! ## Taking the place of a node -/

/-- Two disjoint parts of a focus. -/
theorem nodup_children (h : (inorder (plug fs (node x l r))).Nodup) :
    (inorder l).Nodup ∧ (inorder r).Nodup ∧ x ∉ inorder l ∧ x ∉ inorder r ∧
      (∀ q ∈ inorder l, q ∉ inorder r) ∧ x ∉ around fs ∧
      ∀ q ∈ around fs, q ∉ inorder l ∧ q ∉ inorder r := by
  obtain ⟨hnd, -, hd⟩ := nodup_focus h
  obtain ⟨hl, hr, hlr⟩ := List.nodup_append.mp hnd
  obtain ⟨hxr, hr⟩ := List.nodup_cons.mp hr
  refine ⟨hl, hr, fun hx => hlr x hx x List.mem_cons_self rfl, hxr,
    fun q hq hqr => hlr q hq q (List.mem_cons_of_mem _ hqr) rfl, fun hx => hd x hx (by simp),
    ?_⟩
  intro q hq
  have := hd q hq
  simp only [inorder_node, List.mem_append, List.mem_cons, not_or] at this
  exact ⟨this.1, this.2.2⟩

/-- A node is gone from the tree that keeps no more than its subtrees. -/
theorem notMem_without (h : (inorder (plug fs (node x l r))).Nodup)
    (ht : ∀ q ∈ inorder t, q ∈ inorder l ∨ q ∈ inorder r) : x ∉ inorder (plug fs t) := by
  obtain ⟨-, -, hxl, hxr, -, hxfs, -⟩ := nodup_children h
  intro hm
  rcases mem_plug.mp hm with hm | hm
  · exact (ht x hm).elim hxl hxr
  · exact hxfs hm

/-- `*victim = *node` and the parent links of the children. -/
theorem adoptChildren_spec {n : AVLNode} (up : Option Ptr) (hl : Rep m (some x) l)
    (hr : Rep m (some x) r) (hndl : (inorder l).Nodup) (hndr : (inorder r).Nodup)
    (hlr : ∀ q ∈ inorder l, q ∉ inorder r) (hvl : v ∉ inorder l) (hvr : v ∉ inorder r)
    (hv : m v = some n) :
    ∃ m₁ m₂ m₃, m.modify v (fun _ => cell l r up) = .ok m₁ ∧
      setParent m₁ (root l) (some v) = .ok m₂ ∧ setParent m₂ (root r) (some v) = .ok m₃ ∧
      Rep m₃ up (node v l r) ∧ ∀ q, q ∉ inorder (node v l r) → m₃ q = m q := by
  have hne : ∀ {t : PTree}, v ∉ inorder t → ∀ q ∈ inorder t, q ≠ v := fun hv q hq h => hv (h ▸ hq)
  have hl₁ : Hung True (m.write v (cell l r up)) (some x) l := hl.hung.write hvl _
  obtain ⟨m₂, h₂, hl₂, ho₂⟩ := setParent_spec hl₁ hndl (some v)
  have hr₂ : Hung True m₂ (some x) r := hr.hung.congr fun q hq => by
    rw [ho₂ q fun h => hlr q (root_mem h) hq, Store.write_of_ne _ _ (hne hvr q hq)]
  obtain ⟨m₃, h₃, hr₃, ho₃⟩ := setParent_spec hr₂ hndr (some v)
  have hl₃ : Hung True m₃ (some v) l :=
    hl₂.congr fun q hq => ho₃ q fun h => hlr q hq (root_mem h)
  have hv₃ : m₃ v = some (cell l r up) := by
    rw [ho₃ v fun h => hvr (root_mem h), ho₂ v fun h => hvl (root_mem h), Store.write_self]
  refine ⟨_, m₂, m₃, Store.modify_of _ hv, h₂, h₃, ⟨hv₃, hl₃.rep trivial, hr₃.rep trivial⟩, ?_⟩
  intro q hq
  simp only [inorder_node, List.mem_append, List.mem_cons, not_or] at hq
  rw [ho₃ q fun h => hq.2.2 (root_mem h), ho₂ q fun h => hq.1 (root_mem h),
    Store.write_of_ne _ _ hq.2.1]

/-- **`*victim = *node`** puts `victim` where `node` is. -/
theorem swapIn_spec {n : AVLNode} (h : Rep m none (plug fs (node x l r)))
    (hnd : (inorder (plug fs (node x l r))).Nodup) (hv : v ∉ inorder (plug fs (node x l r)))
    (hmv : m v = some n) :
    ∃ m', swapIn m x v (root (plug fs (node x l r))) = .ok (m', root (plug fs (node v l r))) ∧
      Rep m' none (plug fs (node v l r)) ∧ m' x = m x ∧
      ∀ q, q ∉ inorder (plug fs (node x l r)) → q ≠ v → m' q = m q := by
  obtain ⟨⟨hx, hl, hr⟩, hpath⟩ := h.focus (E := True)
  obtain ⟨hndl, hndr, hxl, hxr, hlr, hxfs, hd⟩ := nodup_children hnd
  have hmem : ∀ q, q ∈ inorder (plug fs (node x l r)) ↔
      (q ∈ inorder l ∨ q = x ∨ q ∈ inorder r) ∨ q ∈ around fs := by
    intro q
    rw [mem_plug, inorder_node, List.mem_append, List.mem_cons]
  rw [hmem] at hv
  simp only [not_or] at hv
  obtain ⟨⟨hvl, hvx, hvr⟩, hvfs⟩ := hv
  obtain ⟨m₁, m₂, m₃, h₁, h₂, h₃, hrep, ho⟩ :=
    adoptChildren_spec (above fs) hl hr hndl hndr hlr hvl hvr hmv
  have hout : ∀ q, q ∉ inorder l → q ∉ inorder r → q ≠ v → m₃ q = m q := fun q hql hqr hqv =>
    ho q (by simp [hql, hqr, hqv])
  have hx₃ : m₃ x = some (cell l r (above fs)) := (hout x hxl hxr (Ne.symm hvx)).trans hx
  have hfs : ∀ q ∈ around fs, m₃ q = m q := fun q hq =>
    hout q (hd q hq).1 (hd q hq).2 fun h => hvfs (h ▸ hq)
  have hswap : ∀ root₀, swapIn m x v root₀ =
      (above fs).elim (.ok (m₃, some v)) fun parent => do
        return (← replaceChild m₃ parent x (some v), root₀) := by
    intro root₀
    rw [swapIn, Store.read_of hx, ok_bind, h₁, ok_bind,
      show (cell l r (above fs)).left = root l from rfl, h₂, ok_bind,
      show (cell l r (above fs)).right = root r from rfl, h₃, ok_bind, Store.read_of hx₃, ok_bind]
    dsimp only [cell]
    cases above fs <;> rfl
  rw [hswap]
  cases fs with
  | nil =>
    refine ⟨m₃, rfl, hrep, hx₃.trans hx.symm, ?_⟩
    intro q hq hqv
    rw [hmem] at hq
    simp only [not_or] at hq
    exact hout q hq.1.1 hq.1.2.2 hqv
  | cons f fs =>
    obtain ⟨⟨nf, hnf, hlink⟩, -, -⟩ := hpath
    simp only [around, List.mem_cons, List.mem_append, not_or] at hxfs hvfs hfs hd
    obtain ⟨n', hrep', hlink', hdc⟩ := replaceChild_spec (some v)
      ((hfs f.label (.inl rfl)).trans hnf) hlink hxfs.2.1
    have hfl : f.label ∉ inorder l ∧ f.label ∉ inorder r := hd f.label (.inl rfl)
    have hndfs := (nodup_focus hnd).2.1
    obtain ⟨hflab, -⟩ := List.nodup_cons.mp hndfs
    have hrep₄ : Rep (m₃.write f.label n') (some f.label) (node v l r) :=
      hrep.congr fun q hq => Store.write_of_ne _ _ fun h => by
        simp only [inorder_node, List.mem_append, List.mem_cons] at hq
        rcases hq with hq | rfl | hq
        · exact hfl.1 (h ▸ hq)
        · exact hvfs.1 h
        · exact hfl.2 (h ▸ hq)
    refine ⟨m₃.write f.label n', ?_, ?_, ?_, ?_⟩
    · rw [root_plug_cons f fs (node v l r) (node x l r)]
      simp only [above, Option.elim, hrep', ok_bind, pure_ok]
    · refine h.rehang hrep₄ rfl rfl hnf (Store.write_self _ _ _) hlink' hdc ?_
      intro q hq
      rw [Store.write_of_ne _ _ fun h : q = f.label => hflab (h ▸ hq)]
      exact hfs q (.inr (List.mem_append.mp hq))
    · rw [Store.write_of_ne _ _ hxfs.1]
      exact hx₃.trans hx.symm
    · intro q hq hqv
      rw [hmem, around, List.mem_cons] at hq
      simp only [not_or] at hq
      rw [Store.write_of_ne _ _ hq.2.1, hout q hq.1.1 hq.1.2.2 hqv]

/-! ## avl_del -/

/-- Removing a node without a right child below another node. -/
theorem avlDel_leafward {f : Frame Ptr} {fuel : Nat} (h : Rep m none (plug (f :: fs) (node x l nil)))
    (hnd : (inorder (plug (f :: fs) (node x l nil))).Nodup)
    (hE : E → CalmBelow (plug (f :: fs) l)) (hfuel : fs.length < fuel) :
    ∃ m' p', avlDel (fuel + 1) m x = .ok (m', some p') ∧
      root (settle fs (f.plug l)) = some p' ∧ Top E m' none (settle fs (f.plug l)) ∧ m' x = m x ∧
      ∀ q, q ∉ inorder (plug (f :: fs) (node x l nil)) → m' q = m q := by
  obtain ⟨⟨hx, hl, -⟩, hpath⟩ := h.focus (E := E)
  obtain ⟨hndl, -, hxl, -, -, hxfs, hd⟩ := nodup_children hnd
  have hndfs := (nodup_focus hnd).2.1
  have hmem : ∀ q, q ∈ inorder (plug (f :: fs) (node x l nil)) ↔
      (q ∈ inorder l ∨ q = x) ∨ q ∈ around (f :: fs) := by
    intro q
    rw [mem_plug]
    simp
  -- the left subtree goes below the parent
  obtain ⟨m₁, h₁, hl₁, ho₁⟩ := setParent_spec (E := E) hl.hung hndl (some f.label)
  have ho : ∀ q, q ∉ inorder l → m₁ q = m q := fun q hq => ho₁ q fun h => hq (root_mem h)
  have hpath₁ := hpath.congr fun q hq => ho q (hd q hq).1
  obtain ⟨⟨nf, hnf, hlink⟩, hs, hp⟩ := hpath₁
  have hxs : x ∉ inorder f.sibling := fun h => hxfs (by simp [around, h])
  obtain ⟨n', h₂, hlink', -⟩ := replaceChild_spec (root l) hnf hlink hxs
  -- the path above the left subtree
  obtain ⟨hflab, -⟩ := List.nodup_cons.mp hndfs
  have hne : ∀ {q : Ptr}, q ∈ inorder f.sibling ++ around fs → q ≠ f.label := fun hq h =>
    hflab (h ▸ hq)
  have hpath₂ : Path E (m₁.write f.label n') (root l) (f :: fs) :=
    ⟨⟨n', Store.write_self _ _ _, hlink'⟩,
      hs.congr fun q hq => Store.write_of_ne _ _ (hne (List.mem_append_left _ hq)),
      hp.congr fun q hq => Store.write_of_ne _ _ (hne (List.mem_append_right _ hq))⟩
  have hfl : f.label ∉ inorder l := (hd f.label List.mem_cons_self).1
  obtain ⟨l', r', hplug, hst, hp'⟩ := hpath₂.plug (hl₁.write hfl n')
  have hsub : (inorder (plug (f :: fs) l)).Sublist (inorder (plug (f :: fs) (node x l nil))) :=
    inorder_plug_sublist (f :: fs) (List.sublist_append_left _ _)
  have hnd' := hnd.sublist hsub
  rw [plug_cons, hplug] at hE hnd' hsub
  obtain ⟨m', p', h', hroot, htop, ho'⟩ := avlFix_spec fs hst hp' hnd' hE hfuel
  have hx' : x ∉ inorder (plug (f :: fs) l) := notMem_without hnd fun _ => .inl
  rw [plug_cons, hplug] at hx'
  rw [hplug]
  refine ⟨m', p', ?_, hroot, htop, ?_, ?_⟩
  · rw [avlDel, Store.read_of hx, ok_bind]
    simp only [cell, root_nil, above, h₁, ok_bind, h₂, h', pure_ok]
  · have hxf : x ≠ f.label := fun h => hxfs (by simp [around, h])
    rw [ho' x hx', Store.write_of_ne _ _ hxf, ho x hxl]
  · intro q hq
    have hq' := hq
    rw [hmem, not_or, not_or, around, List.mem_cons, not_or] at hq'
    rw [ho' q fun h => hq (hsub.subset h), Store.write_of_ne _ _ hq'.2.1, ho q hq'.1.1]

/-- The successor of a node with a right subtree, in focus: it has no left child. -/
theorem exists_successor (fs : List (Frame Ptr)) (x b : Ptr) (l l' r' : PTree) :
    ∃ gs rr, plug fs (node x l (node b l' r')) = plug gs (node (Trees.leftmost b l') nil rr) ∧
      plug fs (node x l (removeMin (node b l' r'))) = plug gs (removeRoot nil rr) ∧
      rr.height < (node b l' r').height ∧ x ∈ gs.map Frame.label ∧
      ∀ f ∈ fs, f.label ∈ gs.map Frame.label := by
  obtain ⟨gs, rr, h₁, h₂⟩ := exists_leftmost b l' r'
  refine ⟨gs ++ .right x l :: fs, rr, ?_, ?_, ?_, by simp [Frame.label], ?_⟩
  · rw [plug_append, ← h₁]
    rfl
  · rw [plug_append, ← h₂]
    rfl
  · have := length_le_height_plug gs (node (Trees.leftmost b l') nil rr)
    rw [← h₁] at this
    simp only [height] at this ⊢
    omega
  · intro f hf
    simp only [List.map_append, List.map_cons, List.mem_append, List.mem_cons, List.mem_map]
    exact .inr (.inr ⟨f, hf, rfl⟩)

/-- A node with a right subtree: `avl_del` of the successor, which then takes its place. -/
theorem avlDel_node {b : Ptr} {l' r' : PTree} {fuel : Nat}
    (h : Rep m none (plug fs (node x l (node b l' r')))) (hf : l'.height < fuel) :
    avlDel (fuel + 1) m x = (avlDel fuel m (Trees.leftmost b l') >>= fun p =>
      swapIn p.1 x (Trees.leftmost b l') p.2) := by
  obtain ⟨⟨hx, -, hr⟩, -⟩ := h.focus (E := True)
  rw [avlDel, Store.read_of hx, ok_bind]
  simp only [cell, root_node, leftmost_spec hr hf, ok_bind]

/-- **`avl_del`** on a tree that needs no rotation below its root. -/
theorem avlDel_spec : ∀ {fuel : Nat} {fs : List (Frame Ptr)} {l r : PTree} {x : Ptr} {m : Links},
    Rep m none (plug fs (node x l r)) → (inorder (plug fs (node x l r))).Nodup →
    Balanced (plug fs (node x l r)) → CalmBelow (plug fs (removeRoot l r)) →
    (plug fs (node x l r)).height + r.height + 1 < fuel →
    ∃ m' n, avlDel fuel m x = .ok (m', root (rebalance (plug fs (removeRoot l r)))) ∧
      Rep m' none (rebalance (plug fs (removeRoot l r))) ∧ m' x = some n ∧
      ∀ q, q ∉ inorder (plug fs (node x l r)) → m' q = m q
  | 0, _, _, _, _, _, _, _, _, _, hf => absurd hf (Nat.not_lt_zero _)
  | fuel + 1, fs, l, nil, x, m, h, hnd, hb, hc, hf => by
    have hlen := length_le_height_plug fs (node x l nil)
    simp only [height] at hlen hf
    cases fs with
    | nil =>
      -- the left subtree becomes the tree
      have hbl : Balanced l := hb.2.2.1
      obtain ⟨hx, hl, -⟩ := h
      obtain ⟨hndl, -, hxl, -⟩ := nodup_children hnd
      obtain ⟨m₁, h₁, hl₁, ho₁⟩ := setParent_spec (E := True) hl.hung hndl none
      have hx₁ : m₁ x = some (cell l nil none) := (ho₁ x fun h => hxl (root_mem h)).trans hx
      rw [plug_nil, removeRoot, rebalance_of_balanced hbl]
      refine ⟨m₁, _, ?_, hl₁.rep trivial, hx₁, fun q hq => ho₁ q fun h => hq ?_⟩
      · rw [avlDel, Store.read_of hx, ok_bind]
        simp only [cell, root_nil, h₁, ok_bind, pure_ok]
      · exact List.mem_append_left _ (root_mem h)
    | cons f fs =>
      rw [removeRoot] at hc ⊢
      have hbl : Balanced l := (CalmBelow.focus hb.calmBelow : Balanced (node x l nil)).2.2.1
      simp only [List.length_cons] at hlen
      obtain ⟨m', p', h', hroot, htop, hx', ho⟩ :=
        avlDel_leafward (E := True) h hnd (fun _ => hc) (show fs.length < fuel by omega)
      have hset : settle fs (f.plug l) = rebalance (plug (f :: fs) l) := settle_of_calm hc
      rw [hset] at hroot htop
      obtain ⟨⟨hx, -, -⟩, -⟩ := h.focus (E := True)
      exact ⟨m', _, by rw [h', hroot], htop.hung.rep trivial, hx'.trans hx, ho⟩
  | fuel + 1, fs, l, node b l' r', x, m, h, hnd, hb, hc, hf => by
    obtain ⟨gs, rr, h₁, h₂, hrr, -, -⟩ := exists_successor fs x b l l' r'
    simp only [height] at hf hrr
    have hnode := avlDel_node h (show l'.height < fuel by omega)
    rw [removeRoot] at hc ⊢
    generalize Trees.leftmost b l' = v at h₁ hc hnode ⊢
    -- the tree without the successor `v`
    have hc₁ : CalmBelow (plug gs (removeRoot nil rr)) := by
      rw [← h₂]
      exact (calmBelow_plug_label v x).mp hc
    rw [h₁] at hf
    obtain ⟨m₁, nv, hdel, hrep₁, hv₁, ho₁⟩ := avlDel_spec (h₁ ▸ h) (h₁ ▸ hnd) (h₁ ▸ hb) hc₁
      (show _ < fuel by omega)
    have hsub : (inorder (plug gs (removeRoot nil rr))).Sublist (inorder (plug gs (node v nil rr))) :=
      inorder_plug_sublist gs (by rw [inorder_removeRoot]; exact List.sublist_append_right [v] _)
    have hnd₁ := (h₁ ▸ hnd).sublist hsub
    have hvT : v ∉ inorder (plug gs (removeRoot nil rr)) :=
      notMem_without (h₁ ▸ hnd) fun q hq => .inr (by rwa [inorder_removeRoot] at hq)
    -- `v` takes the place of `x`
    rw [← h₂] at hdel hrep₁ hnd₁ hvT hsub
    have hxT : x ∈ inorder (rebalance (plug fs (node x l (removeMin (node b l' r'))))) := by
      rw [inorder_rebalance, mem_plug]
      exact .inl (by simp)
    obtain ⟨hs, l₁, r₁, hT⟩ := exists_focus hxT
    have hin := inorder_rebalance (plug fs (node x l (removeMin (node b l' r'))))
    rw [hT] at hdel hrep₁ hin
    obtain ⟨m', hswap, hrep', hx', ho'⟩ :=
      swapIn_spec hrep₁ (hin.symm ▸ hnd₁) (hin.symm ▸ hvT) hv₁
    have hres : plug hs (node v l₁ r₁) =
        rebalance (plug fs (node v l (removeMin (node b l' r')))) := by
      rw [← map_relabel_focus v (hin.symm ▸ hnd₁), ← hT, map_rebalance, map_relabel_focus v hnd₁]
    obtain ⟨⟨hx₁, -, -⟩, -⟩ := hrep₁.focus (E := True)
    rw [← hres]
    refine ⟨m', _, ?_, hrep', hx'.trans hx₁, ?_⟩
    · rw [hnode, hdel, ok_bind, hswap]
    · intro q hq
      have hqv : q ≠ v := fun hqv => hq (by rw [h₁, hqv, mem_plug]; exact .inl (by simp))
      rw [ho' q (fun hm => hq (by rw [h₁]; exact hsub.subset (hin ▸ hm))) hqv,
        ho₁ q (fun hm => hq (by rw [h₁]; exact hm))]

/-! ## What a rotation below the root loses -/

/-- The child links of the nodes of `S` stay in `S`. -/
def Closed (m : Links) (S : List Ptr) : Prop :=
  ∀ p ∈ S, ∀ n, m p = some n → ∀ q, n.left = some q ∨ n.right = some q → q ∈ S

variable {S : List Ptr}

theorem Hung.closed {m : Links} : ∀ {t : PTree} {parent : Option Ptr}, Hung E m parent t →
    Closed m (inorder t)
  | nil, _, _ => fun _ hp => by cases hp
  | node a l r, _, ⟨⟨up, ha, _⟩, hl, hr⟩ => by
    intro p hp n hn q hq
    simp only [inorder_node, List.mem_append, List.mem_cons] at hp ⊢
    rcases hp with hp | rfl | hp
    · exact .inl (hl.closed p hp n hn q hq)
    · cases ha.symm.trans hn
      rcases hq with hq | hq
      · exact .inl (root_mem hq)
      · exact .inr (.inr (root_mem hq))
    · exact .inr (.inr (hr.closed p hp n hn q hq))

/-- A tree that hangs from a node of a closed set lies in it. -/
theorem Closed.subset {m : Links} (hS : Closed m S) : ∀ {t : PTree} {parent : Option Ptr},
    Hung E m parent t → (∀ p, root t = some p → p ∈ S) → ∀ q ∈ inorder t, q ∈ S
  | nil, _, _, _, q, hq => by cases hq
  | node a l r, _, ⟨⟨up, ha, _⟩, hl, hr⟩, hroot, q, hq => by
    have haS : a ∈ S := hroot a rfl
    simp only [inorder_node, List.mem_append, List.mem_cons] at hq
    rcases hq with hq | rfl | hq
    · exact hS.subset hl (fun p hp => hS a haS _ ha p (.inl hp)) q hq
    · exact haS
    · exact hS.subset hr (fun p hp => hS a haS _ ha p (.inr hp)) q hq

/-- Closed sets survive a change of one node that links only into the set. -/
theorem Closed.modify {f : AVLNode → AVLNode} (hS : Closed m S) (h : m.modify p f = .ok m')
    (hf : ∀ n, m p = some n → p ∈ S → ∀ q, (f n).left = some q ∨ (f n).right = some q → q ∈ S) :
    Closed m' S := by
  obtain ⟨n, hn, rfl⟩ := Store.modify_ok.mp h
  intro q hq n' hn' c hc
  by_cases hqp : q = p
  · subst hqp
    rw [Store.write_self] at hn'
    cases hn'
    exact hf n hn hq c hc
  · rw [Store.write_of_ne _ _ hqp] at hn'
    exact hS q hq n' hn' c hc

theorem Closed.setParent {child parent : Option Ptr} (hS : Closed m S)
    (h : setParent m child parent = .ok m') : Closed m' S := by
  cases child with
  | none => cases h; exact hS
  | some c => exact hS.modify h fun n hn hc q hq => hS c hc n hn q hq

theorem Closed.replaceChild {parent : Ptr} (hS : Closed m S) (hv : v ∈ S)
    (h : replaceChild m parent x (some v) = .ok m') : Closed m' S := by
  apply hS.modify h
  intro n hn hp q hq
  have hold := hS parent hp n hn q
  split at hq
  · rcases hq with hq | hq
    · cases hq; exact hv
    · exact hold (.inr hq)
  · rcases hq with hq | hq
    · exact hold (.inl hq)
    · cases hq; exact hv

/-- Taking the place of a node adds one node to a closed set. -/
theorem Closed.swapIn {root₀ root' : Option Ptr} (hS : Closed m S) (hx : x ∈ S)
    (hroot : ∀ q, root₀ = some q → q ∈ S) (h : swapIn m x v root₀ = .ok (m', root')) :
    Closed m' (v :: S) ∧ ∀ q, root' = some q → q ∈ v :: S := by
  rw [RedisServer.swapIn] at h
  obtain ⟨n, hn, h⟩ := bind_ok.mp h
  obtain ⟨m₁, h₁, h⟩ := bind_ok.mp h
  obtain ⟨m₂, h₂, h⟩ := bind_ok.mp h
  obtain ⟨m₃, h₃, h⟩ := bind_ok.mp h
  obtain ⟨n₃, -, h⟩ := bind_ok.mp h
  have hn := Store.read_ok.mp hn
  have hcl₁ : Closed m₁ (v :: S) := by
    obtain ⟨nv, -, rfl⟩ := Store.modify_ok.mp h₁
    intro p hp n' hn' q hq
    by_cases hpv : p = v
    · subst hpv
      rw [Store.write_self] at hn'
      cases hn'
      exact List.mem_cons_of_mem _ (hS x hx n hn q hq)
    · rw [Store.write_of_ne _ _ hpv] at hn'
      exact List.mem_cons_of_mem _
        (hS p ((List.mem_cons.mp hp).resolve_left hpv) n' hn' q hq)
  have hcl₃ := (hcl₁.setParent h₂).setParent h₃
  cases hup : n₃.parent with
  | none =>
    rw [hup] at h
    cases h
    exact ⟨hcl₃, fun q hq => by cases hq; exact List.mem_cons_self⟩
  | some parent =>
    rw [hup] at h
    obtain ⟨m₄, h₄, h⟩ := bind_ok.mp h
    cases h
    exact ⟨hcl₃.replaceChild List.mem_cons_self h₄,
      fun q hq => List.mem_cons_of_mem _ (hroot q hq)⟩

/-- **After a rotation below the root** some member is in no subtree of the root any more. -/
theorem avlDel_loses : ∀ {fuel : Nat} {fs : List (Frame Ptr)} {l r : PTree} {x : Ptr}
    {m m' : Links} {root' : Option Ptr},
    Rep m none (plug fs (node x l r)) → (inorder (plug fs (node x l r))).Nodup →
    Balanced (plug fs (node x l r)) → ¬CalmBelow (plug fs (removeRoot l r)) →
    (plug fs (node x l r)).height + r.height + 1 < fuel →
    avlDel fuel m x = .ok (m', root') →
    ∃ S b, Closed m' S ∧ (∀ q, root' = some q → q ∈ S) ∧ (∀ f ∈ fs, f.label ∈ S) ∧
      b ∈ inorder (plug fs (node x l r)) ∧ b ≠ x ∧ b ∉ S
  | 0, _, _, _, _, _, _, _, _, _, _, _, hf, _ => absurd hf (Nat.not_lt_zero _)
  | fuel + 1, [], l, nil, x, m, m', root', _, _, hb, hc, _, _ =>
    absurd (show CalmBelow l from hb.2.2.1.calmBelow) hc
  | fuel + 1, f :: fs, l, nil, x, m, m', root', h, hnd, hb, hc, hf, hdel => by
    have hlen := length_le_height_plug (f :: fs) (node x l nil)
    simp only [height, List.length_cons] at hlen hf
    obtain ⟨m₁, p', h₁, hroot, htop, -, -⟩ :=
      avlDel_leafward (E := False) h hnd (fun e => e.elim) (show fs.length < fuel by omega)
    cases hdel.symm.trans h₁
    have hbf : Balanced (plug fs (f.plug (node x l nil))) := hb
    have hbl : Balanced l := (CalmBelow.focus hb.calmBelow : Balanced (node x l nil)).2.2.1
    have hshrink : l.height ≤ (node x l nil).height := by simp
    -- a member is lost
    have hlost : (settle (f :: fs) l).numNodes < (plug (f :: fs) l).numNodes :=
      (calm_or_lost hb hbl (by simp only [height]; omega) (by simp)).resolve_left hc
    have hsub : (inorder (plug (f :: fs) l)).Sublist (inorder (plug (f :: fs) (node x l nil))) :=
      inorder_plug_sublist (f :: fs) (List.sublist_append_left _ _)
    obtain ⟨b, hbm, hbS⟩ := exists_lost (hnd.sublist hsub) hlost
    have hset : settle (f :: fs) l = settle fs (f.plug l) := by rw [settle, kept_of_balanced hbl]
    rw [hset] at hbS
    -- the path is kept
    have hkept := mem_settle (a := f.label) hbf (kept_plug hbf.of_plug hshrink).2
    have hxT : x ∉ inorder (plug (f :: fs) l) := notMem_without hnd fun _ => .inl
    refine ⟨_, b, htop.hung.closed, ?_, ?_, hsub.subset hbm, fun hbx => hxT (hbx ▸ hbm), hbS⟩
    · intro q hq
      cases hq
      exact root_mem hroot
    · intro g hg
      rcases List.mem_cons.mp hg with rfl | hg
      · exact hkept (.inl (root_mem (by rw [root_kept, root_frame])))
      · exact mem_settle hbf (kept_plug hbf.of_plug hshrink).2 (.inr (List.mem_map_of_mem hg))
  | fuel + 1, fs, l, node b l' r', x, m, m', root', h, hnd, hb, hc, hf, hdel => by
    obtain ⟨gs, rr, h₁, h₂, hrr, hxgs, hfsgs⟩ := exists_successor fs x b l l' r'
    simp only [height] at hf hrr
    rw [avlDel_node h (show l'.height < fuel by omega)] at hdel
    rw [removeRoot] at hc
    generalize Trees.leftmost b l' = v at h₁ hc hdel
    have hc₁ : ¬CalmBelow (plug gs (removeRoot nil rr)) := by
      rw [← h₂]
      exact fun h => hc ((calmBelow_plug_label v x).mpr h)
    rw [h₁] at hf
    -- the successor first, then its move to the place of `x`
    obtain ⟨⟨m₁, root₁⟩, hdel₁, hswap⟩ := bind_ok.mp hdel
    obtain ⟨S, c, hS, hroot, hlabels, hcm, hcv, hcS⟩ := avlDel_loses (h₁ ▸ h) (h₁ ▸ hnd) (h₁ ▸ hb)
      hc₁ (show _ < fuel by omega) hdel₁
    have hlab : ∀ {q : Ptr}, q ∈ gs.map Frame.label → q ∈ S := by
      intro q hq
      obtain ⟨g, hg, rfl⟩ := List.mem_map.mp hq
      exact hlabels g hg
    have hxS : x ∈ S := hlab hxgs
    obtain ⟨hS', hroot'⟩ := hS.swapIn hxS hroot hswap
    refine ⟨v :: S, c, hS', hroot', fun g hg => List.mem_cons_of_mem _ (hlab (hfsgs g hg)),
      h₁ ▸ hcm, fun hcx => hcS (hcx ▸ hxS), ?_⟩
    intro hm
    rcases List.mem_cons.mp hm with hm | hm
    · exact hcv hm
    · exact hcS hm

/-! ## When the tree stays valid -/

/-- `t` is an AVL tree in memory. -/
structure AvlTree (m : Links) (t : PTree) : Prop where
  rep : Rep m none t
  nodup : (inorder t).Nodup
  balanced : Balanced t

/-- `avl_del` works: it returns the root of a valid tree with exactly `x` removed, and no link to
`x` is left. -/
def RemovesValidly (fuel : Nat) (m : Links) (t : PTree) (x : Ptr) : Prop :=
  ∃ m' t' l₁ l₂, avlDel fuel m x = .ok (m', root t') ∧ AvlTree m' t' ∧
    inorder t = l₁ ++ x :: l₂ ∧ inorder t' = l₁ ++ l₂ ∧
    ∀ p ∈ inorder t', ∀ n, m' p = some n → n.left ≠ some x ∧ n.right ≠ some x ∧ n.parent ≠ some x

/-- The links of a stored tree lead into the tree. -/
theorem Rep.link_mem {m : Links} : ∀ {t : PTree} {parent : Option Ptr} {n : AVLNode},
    Rep m parent t → p ∈ inorder t → m p = some n → ∀ q,
    n.left = some q ∨ n.right = some q ∨ n.parent = some q → q ∈ inorder t ∨ parent = some q
  | nil, _, _, _, hp, _, _, _ => by cases hp
  | node a l r, parent, n, ⟨ha, hl, hr⟩, hp, hn, q, hq => by
    simp only [inorder_node, List.mem_append, List.mem_cons] at hp ⊢
    rcases hp with hp | rfl | hp
    · rcases hl.link_mem hp hn q hq with h | h
      · exact .inl (.inl h)
      · exact .inl (.inr (.inl (Option.some.inj h).symm))
    · cases ha.symm.trans hn
      rcases hq with hq | hq | hq
      · exact .inl (.inl (root_mem hq))
      · exact .inl (.inr (.inr (root_mem hq)))
      · exact .inr hq
    · rcases hr.link_mem hp hn q hq with h | h
      · exact .inl (.inr (.inr h))
      · exact .inl (.inr (.inl (Option.some.inj h).symm))

/-- After a rotation below the root the outcome is not valid. -/
theorem RemovesValidly.calm {fuel : Nat} (h : AvlTree m t) (hx : x ∈ inorder t)
    (hfuel : 2 * t.height + 1 < fuel) (hrem : RemovesValidly fuel m t x) :
    CalmBelow (remove x t) := by
  by_contra hc
  obtain ⟨fs, l, r, rfl⟩ := exists_focus hx
  rw [remove_plug h.nodup] at hc
  have hheight := length_le_height_plug fs (node x l r)
  simp only [height] at hheight
  obtain ⟨m', t', l₁, l₂, hdel, hvalid, ht, ht', -⟩ := hrem
  obtain ⟨S, b, hS, hroot, -, hb, hbx, hbS⟩ :=
    avlDel_loses h.rep h.nodup h.balanced hc (by omega) hdel
  refine hbS (hS.subset (hvalid.rep.hung (E := False)) hroot b ?_)
  rw [ht, List.mem_append, List.mem_cons] at hb
  rw [ht', List.mem_append]
  rcases hb with hb | hb | hb
  · exact .inl hb
  · exact absurd hb hbx
  · exact .inr hb

/-- **`avl_del` on a calm tree** stores the rebalanced tree without the node. -/
theorem avlDel_calm {fuel : Nat} (h : AvlTree m t) (hx : x ∈ inorder t)
    (hfuel : 2 * t.height + 1 < fuel) (hc : CalmBelow (remove x t)) :
    ∃ m' n, avlDel fuel m x = .ok (m', root (rebalance (remove x t))) ∧
      AvlTree m' (rebalance (remove x t)) ∧ x ∉ inorder (rebalance (remove x t)) ∧
      m' x = some n ∧ ∀ q, q ∉ inorder t → m' q = m q := by
  have hbal := balanced_remove h.balanced h.nodup hc
  obtain ⟨l₁, l₂, h₁, h₂⟩ := inorder_remove hx h.nodup
  have hnd := h.nodup
  rw [h₁] at hnd
  obtain ⟨hxm, hnd⟩ := List.nodup_cons.mp (List.nodup_middle.mp hnd)
  rw [← h₂, ← inorder_rebalance] at hnd hxm
  obtain ⟨fs, l, r, rfl⟩ := exists_focus hx
  have hheight := length_le_height_plug fs (node x l r)
  simp only [height] at hheight
  rw [remove_plug h.nodup] at hc hbal hnd hxm ⊢
  have hfuel' : (plug fs (node x l r)).height + r.height + 1 < fuel := by omega
  obtain ⟨m', n, hdel, hrep, hx', ho⟩ := avlDel_spec h.rep h.nodup h.balanced hc hfuel'
  exact ⟨m', n, hdel, ⟨hrep, hnd, hbal⟩, hxm, hx', ho⟩

theorem removesValidly_of_calm {fuel : Nat} (h : AvlTree m t) (hx : x ∈ inorder t)
    (hfuel : 2 * t.height + 1 < fuel) (hc : CalmBelow (remove x t)) :
    RemovesValidly fuel m t x := by
  obtain ⟨m', n, hdel, htree, hxm, -⟩ := avlDel_calm h hx hfuel hc
  obtain ⟨l₁, l₂, h₁, h₂⟩ := inorder_remove hx h.nodup
  refine ⟨m', _, l₁, l₂, hdel, htree, h₁, by rw [inorder_rebalance, h₂], ?_⟩
  intro p hp n hn
  have hlink := htree.rep.link_mem hp hn x
  have hnot : ¬(x ∈ inorder (rebalance (remove x t)) ∨ (none : Option Ptr) = some x) := fun h =>
    h.elim hxm fun h => by cases h
  exact ⟨fun h => hnot (hlink (.inl h)), fun h => hnot (hlink (.inr (.inl h))),
    fun h => hnot (hlink (.inr (.inr h)))⟩

/-- **AVL deletion**: for a valid tree and a node in it, `avl_del` returns a valid tree with exactly
that node removed if and only if the tree without the node, its successor in its place, is balanced
below its root. -/
theorem avlDel_valid_iff {fuel : Nat} (h : AvlTree m t) (hx : x ∈ inorder t)
    (hfuel : 2 * t.height + 1 < fuel) :
    RemovesValidly fuel m t x ↔ CalmBelow (remove x t) := by
  constructor
  · intro hrem
    exact hrem.calm h hx hfuel
  · intro hc
    exact removesValidly_of_calm h hx hfuel hc

theorem layout_avlTree (hnd : (inorder t).Nodup) (hb : Balanced t) : AvlTree (layout none t) t :=
  ⟨rep_layout none hnd, hnd, hb⟩

theorem avlDel_valid_root :
    RemovesValidly 6 (layout none (node 1 (node 0 nil nil) (node 2 nil nil)))
      (node 1 (node 0 nil nil) (node 2 nil nil)) 1 :=
  (avlDel_valid_iff (layout_avlTree (by decide) (by decide)) (by decide) (by decide)).mpr
    (by decide)

/-- Deleting the leaf 0 rotates at 1, below the root 5: the outcome is not a valid tree. -/
theorem avlDel_below_root :
    ∃ m t x, AvlTree m t ∧ x ∈ inorder t ∧
      ∀ fuel, 2 * t.height + 1 < fuel → ¬RemovesValidly fuel m t x := by
  have hvalid := layout_avlTree (t := node 5 (node 1 (node 0 nil nil) (node 2 nil (node 3 nil nil)))
    (node 6 nil (node 7 nil nil))) (by decide) (by decide)
  refine ⟨_, _, 0, hvalid, by decide, ?_⟩
  intro fuel hfuel hrem
  have hcalm := hrem.calm hvalid (by decide) hfuel
  exact absurd hcalm (by decide)

end RedisServer
