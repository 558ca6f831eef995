import RedisServer.AvlRep
import RedisServer.MemberOrder

/-!
# Insertion into the tree of a sorted set

`tree_add` goes down to an empty link, hangs the node there and calls `avl_fix`.  The leaf takes the
place of `Trees.insertLeaf`; what `avl_fix` makes of the tree is `Trees.settle`.

Results:
* `treeAdd_spec` — the tree that hangs from `zset->tree` after `tree_add`, for every valid tree;
* `treeAdd_valid_iff` — it is valid, with the node at its place, exactly when the node is comparable
  with every member, the tree with the new leaf needs no rotation below its root, and `count` can
  hold the number of nodes.
-/

set_option autoImplicit false

namespace RedisServer

open Runs Trees BinaryTree

/-- `t` is the tree of the sorted set: linked both ways, with its depths and counts, balanced and
strictly sorted by `zless`. -/
structure ValidTree (zset : ZSet) (t : PTree) : Prop where
  rep : Rep zset.links none t
  tree : zset.tree = root t
  balanced : Balanced t
  sorted : (inorder t).Pairwise fun p q => memberLess zset.nodes p q = true
  stored : ∀ p ∈ inorder t, ∃ z, zset.nodes p = some z

/-- All counts of the tree are exact: none has wrapped around. -/
structure ExactTree (zset : ZSet) (t : PTree) : Prop extends ValidTree zset t where
  size : t.numNodes < 2 ^ 32

/-- Either member is less than the other. -/
def Comparable (nodes : Store ZNode) (p q : Ptr) : Prop :=
  memberLess nodes p q = true ∨ memberLess nodes q p = true

instance (nodes : Store ZNode) (p q : Ptr) : Decidable (Comparable nodes p q) :=
  inferInstanceAs (Decidable (_ ∨ _))

variable {zset : ZSet} {t : PTree} {x : Ptr} {lim : Limits}

theorem ValidTree.nodup (h : ValidTree zset t) : (inorder t).Nodup := nodup_of_sorted h.sorted

/-! ## The descent -/

/-- The link in which the focus hangs. -/
def hole : List (Frame Ptr) → Option (Ptr × Side)
  | [] => none
  | .left a _ :: _ => some (a, .left)
  | .right a _ :: _ => some (a, .right)

theorem hole_fst (fs : List (Frame Ptr)) : (hole fs).map Prod.fst = above fs := by
  match fs with
  | [] | .left _ _ :: _ | .right _ _ :: _ => rfl

/-- The link of a focus holds its root. -/
theorem link_hole {fs : List (Frame Ptr)} (h : Rep zset.links none (plug fs t))
    (ht : zset.tree = root (plug fs t)) : zset.link (hole fs) = .ok (root t) := by
  obtain ⟨-, hp⟩ := h.focus (E := True)
  match fs, hp with
  | [], _ => exact congrArg Except.ok ht
  | .left a r :: fs, ⟨⟨n, hn, hlink⟩, _⟩ =>
    have hn : zset.links a = some n := hn
    rw [hole, ZSet.link, Store.read_of hn, ok_bind, hlink.1, pure_ok]
  | .right a l :: fs, ⟨⟨n, hn, hlink⟩, _⟩ =>
    have hn : zset.links a = some n := hn
    rw [hole, ZSet.link, Store.read_of hn, ok_bind, hlink.2.1, pure_ok]

/-- **The descent** of `tree_add` follows `Trees.descent`. -/
theorem treeDescend_spec {zx : ZNode} (hx : zset.nodes x = some zx) :
    ∀ (t : PTree) (fs : List (Frame Ptr)) {fuel : Nat}, Rep zset.links none (plug fs t) →
      zset.tree = root (plug fs t) → (∀ p ∈ inorder t, ∃ z, zset.nodes p = some z) →
      t.height < fuel →
      treeDescend fuel zset x (hole fs) = .ok (hole (descent (memberLess zset.nodes) x t fs))
  | _, _, 0, _, _, _, hf => absurd hf (Nat.not_lt_zero _)
  | nil, fs, fuel + 1, h, ht, _, _ => by
    rw [treeDescend, link_hole h ht, ok_bind]
    rfl
  | node a l r, fs, fuel + 1, h, ht, hs, hf => by
    obtain ⟨za, ha⟩ := hs a (by simp)
    simp only [height] at hf
    rw [treeDescend, link_hole h ht, ok_bind]
    simp only [root_node, Store.read_of hx, Store.read_of ha, ok_bind]
    rw [← memberLess_of hx ha, descent]
    by_cases hless : memberLess zset.nodes x a = true
    · rw [if_pos hless, if_pos hless]
      exact treeDescend_spec hx l (.left a r :: fs) h ht
        (fun p hp => hs p (List.mem_append_left _ hp)) (by omega)
    · rw [if_neg hless, if_neg hless]
      exact treeDescend_spec hx r (.right a l :: fs) h ht
        (fun p hp => hs p (List.mem_append_right _ (List.mem_cons_of_mem _ hp))) (by omega)

/-! ## Hanging the node -/

/-- Storing the node into the link of an empty focus. -/
theorem linkNode_spec {E : Prop} {m : Links} {fs : List (Frame Ptr)} (h : Path E m none fs)
    (hnd : (around fs).Nodup) :
    ∃ m', linkNode m (hole fs) x = .ok m' ∧ Path E m' (some x) fs ∧
      ∀ q, q ∉ around fs → m' q = m q := by
  match fs, h with
  | [], _ => exact ⟨m, rfl, trivial, fun _ _ => rfl⟩
  | f :: fs, ⟨⟨n, hn, hlink⟩, hs, hp⟩ =>
    obtain ⟨hf, -⟩ := List.nodup_cons.mp hnd
    rw [List.mem_append, not_or] at hf
    have hpath : ∀ n', FrameLinks n' (some x) (above fs) f →
        Path E (m.write f.label n') (some x) (f :: fs) := fun n' hl =>
      ⟨⟨n', Store.write_self _ _ _, hl⟩, hs.write hf.1 _, hp.congr fun q hq =>
        Store.write_of_ne _ _ fun h => hf.2 (h ▸ hq)⟩
    have hout : ∀ n' q, q ∉ around (f :: fs) → m.write f.label n' q = m q := fun n' q hq =>
      Store.write_of_ne _ _ fun h => hq (h ▸ List.mem_cons_self)
    cases f with
    | left a r =>
      exact ⟨_, Store.modify_of _ hn, hpath _ ⟨rfl, hlink.2.1, hlink.2.2⟩, hout _⟩
    | right a l =>
      exact ⟨_, Store.modify_of _ hn, hpath _ ⟨hlink.1, rfl, hlink.2.2⟩, hout _⟩

/-- The path on which `tree_add` goes down. -/
def addPath (nodes : Store ZNode) (x : Ptr) (t : PTree) : List (Frame Ptr) :=
  descent (memberLess nodes) x t []

/-- The tree with the new leaf, before `avl_fix`. -/
def withLeaf (nodes : Store ZNode) (x : Ptr) (t : PTree) : PTree :=
  insertLeaf (memberLess nodes) x t

theorem plug_addPath (nodes : Store ZNode) (x : Ptr) (t : PTree) :
    plug (addPath nodes x t) nil = t ∧
      plug (addPath nodes x t) (node x nil nil) = withLeaf nodes x t :=
  plug_descent (memberLess nodes) x t []

theorem nodup_withLeaf (nodes : Store ZNode) (hnd : (inorder t).Nodup) (hx : x ∉ inorder t) :
    (inorder (withLeaf nodes x t)).Nodup :=
  (perm_insertLeaf _ _ _).nodup_iff.mpr (List.nodup_cons.mpr ⟨hx, hnd⟩)

/-- What `tree_add` needs: a stored tree, and a node outside it fresh from `avl_init`. -/
structure ReadyToAdd (zset : ZSet) (t : PTree) (x : Ptr) : Prop where
  rep : Rep zset.links none t
  tree : zset.tree = root t
  nodup : (inorder t).Nodup
  stored : ∀ p ∈ inorder t, ∃ z, zset.nodes p = some z
  fresh : x ∉ inorder t
  node : ∃ z, zset.nodes x = some z
  init : zset.links x = some avlInit

theorem ValidTree.ready {z : ZNode} (h : ValidTree zset t) (hx : x ∉ inorder t)
    (hz : zset.nodes x = some z) (hinit : zset.links x = some avlInit) : ReadyToAdd zset t x :=
  ⟨h.rep, h.tree, h.nodup, h.stored, hx, ⟨z, hz⟩, hinit⟩

/-- **`tree_add`** leaves the tree that `Trees.settle` makes of the path and the new leaf; its
parent links are right if nothing was rotated below the root. -/
theorem treeAdd_spec {E : Prop} (h : ReadyToAdd zset t x)
    (hE : E → CalmBelow (withLeaf zset.nodes x t)) (hfuel : t.height < lim.steps) :
    ∃ m' root', treeAdd lim zset x = .ok { zset with tree := some root', links := m' } ∧
      root (settle (addPath zset.nodes x t) (node x nil nil)) = some root' ∧
      Top E m' none (settle (addPath zset.nodes x t) (node x nil nil)) ∧
      ∀ q, q ∉ inorder t → q ≠ x → m' q = zset.links q := by
  obtain ⟨zx, hzx⟩ := h.node
  obtain ⟨hpt, hpl⟩ := plug_addPath zset.nodes x t
  have hdesc : treeDescend lim.steps zset x none = .ok (hole (addPath zset.nodes x t)) :=
    treeDescend_spec hzx t [] h.rep h.tree h.stored hfuel
  have hrep : Rep zset.links none (plug (addPath zset.nodes x t) nil) := by rw [hpt]; exact h.rep
  have hpath := (hrep.focus (E := E)).2
  have hmem : ∀ q, q ∈ around (addPath zset.nodes x t) ↔ q ∈ inorder t := by
    intro q
    have hq : q ∈ inorder (plug (addPath zset.nodes x t) nil) ↔ _ := mem_plug
    rw [hpt] at hq
    simp [hq]
  obtain ⟨-, hnd, -⟩ := nodup_focus (hpt.symm ▸ h.nodup)
  -- hang the node into the link, and set its parent
  obtain ⟨m₁, h₁, hpath₁, ho₁⟩ := linkNode_spec (x := x) hpath hnd
  have hx₁ : m₁ x = some avlInit := (ho₁ x fun hx => h.fresh ((hmem x).mp hx)).trans h.init
  obtain ⟨M, hM⟩ : ∃ M : Links, M = m₁.write x
      { avlInit with parent := above (addPath zset.nodes x t) } := ⟨_, rfl⟩
  have hMo : ∀ q, q ≠ x → M q = m₁ q := fun q hq => by rw [hM, Store.write_of_ne _ _ hq]
  have hpath₂ := hpath₁.congr fun q hq => hMo q fun hqx => h.fresh ((hmem x).mp (hqx ▸ hq))
  have hst : Stale E M (above (addPath zset.nodes x t)) x nil nil :=
    ⟨⟨{ avlInit with parent := above (addPath zset.nodes x t) },
      by rw [hM, Store.write_self], rfl, rfl, rfl⟩, trivial, trivial⟩
  have hlen : (addPath zset.nodes x t).length < lim.steps := by
    have := length_descent (memberLess zset.nodes) x t []
    rw [List.length_nil, Nat.zero_add] at this
    exact Nat.lt_of_le_of_lt this hfuel
  obtain ⟨m', p', hfix, hroot, htop, ho⟩ := avlFix_spec _ hst hpath₂
    (hpl ▸ nodup_withLeaf zset.nodes h.nodup h.fresh) (hpl ▸ hE) hlen
  refine ⟨m', p', ?_, hroot, htop, ?_⟩
  · rw [treeAdd, hdesc, ok_bind, h₁, ok_bind, Store.modify_of _ hx₁, ok_bind, hole_fst, ← hM, hfix]
    rfl
  · intro q hq hqx
    have hq' : q ∉ inorder (plug (addPath zset.nodes x t) (node x nil nil)) := by
      intro hm
      rcases mem_plug.mp hm with hm | hm
      · exact hqx (by simpa using hm)
      · exact hq ((hmem q).mp hm)
    rw [ho q hq', hMo q hqx, ho₁ q fun hm => hq ((hmem q).mp hm)]

/-! ## When the tree stays valid -/

/-- The new leaf stands at its place. -/
theorem inorder_withLeaf {nodes : Store ZNode}
    (hsort : (inorder t).Pairwise fun p q => memberLess nodes p q = true)
    (hcmp : ∀ p ∈ inorder t, Comparable nodes x p) :
    ∃ l₁ l₂, inorder t = l₁ ++ l₂ ∧ inorder (withLeaf nodes x t) = l₁ ++ x :: l₂ ∧
      (inorder (withLeaf nodes x t)).Pairwise fun p q => memberLess nodes p q = true := by
  obtain ⟨l₁, l₂, h₁, h₂, hlt, hgt⟩ := inorder_insertLeaf (memberLess nodes) x hsort hcmp
    (fun p _ q _ hxp hpq => memberLess_trans hxp hpq)
    (fun p _ q _ hpq hqx => memberLess_trans hpq hqx)
  refine ⟨l₁, l₂, h₁, h₂, ?_⟩
  rw [h₁] at hsort
  obtain ⟨hs₁, hs₂, hs⟩ := List.pairwise_append.mp hsort
  rw [show inorder (withLeaf nodes x t) = _ from h₂]
  refine List.pairwise_append.mpr ⟨hs₁, List.pairwise_cons.mpr ⟨hgt, hs₂⟩, ?_⟩
  intro p hp q hq
  rcases List.mem_cons.mp hq with rfl | hq
  · exact hlt p hp
  · exact hs p hp q hq

theorem numNodes_withLeaf (nodes : Store ZNode) (x : Ptr) (t : PTree) :
    (withLeaf nodes x t).numNodes = t.numNodes + 1 := by
  have := (perm_insertLeaf (memberLess nodes) x t).length_eq
  rwa [length_inorder, List.length_cons, length_inorder] at this

/-- `tree_add` works: it returns, and leaves a valid tree with the node at its place. -/
def InsertsValidly (lim : Limits) (zset : ZSet) (t : PTree) (x : Ptr) : Prop :=
  ∃ zset' t' l₁ l₂, treeAdd lim zset x = .ok zset' ∧ zset'.nodes = zset.nodes ∧
    ExactTree zset' t' ∧ inorder t = l₁ ++ l₂ ∧ inorder t' = l₁ ++ x :: l₂

/-- The new node is counted. -/
theorem InsertsValidly.size (hins : InsertsValidly lim zset t x) : t.numNodes + 1 < 2 ^ 32 := by
  obtain ⟨zset', t', l₁, l₂, -, -, hexact, ht, ht'⟩ := hins
  have hsize := hexact.size
  rw [← length_inorder, ht'] at hsize
  rw [← length_inorder, ht]
  simp only [List.length_append, List.length_cons] at hsize ⊢
  omega

/-- After a rotation below the root a member is missing. -/
theorem InsertsValidly.calm (h : ValidTree zset t) (hready : ReadyToAdd zset t x)
    (hfuel : t.height < lim.steps) (hins : InsertsValidly lim zset t x) :
    CalmBelow (withLeaf zset.nodes x t) := by
  obtain ⟨zset', t', l₁, l₂, hadd, -, hvalid, ht, ht'⟩ := hins
  obtain ⟨m', p', hadd', hroot, htop, -⟩ := treeAdd_spec hready (E := False) (fun e => e.elim) hfuel
  cases hadd.symm.trans hadd'
  obtain ⟨hpt, hpl⟩ := plug_addPath zset.nodes x t
  have hb : Balanced (plug (addPath zset.nodes x t) nil) := by rw [hpt]; exact h.balanced
  have hcl := calm_or_lost hb (t := node x nil nil) ⟨by simp, by simp, trivial, trivial⟩
    (by simp) (by simp)
  rw [hpl] at hcl
  apply hcl.resolve_right
  intro hlost
  have htree : t' = settle (addPath zset.nodes x t) (node x nil nil) :=
    (hvalid.rep.hung (E := False)).unique htop.hung (hvalid.tree.symm.trans hroot.symm)
  rw [← htree, numNodes_withLeaf, ← length_inorder, ← length_inorder, ht, ht'] at hlost
  simp at hlost

/-- The place of the node is between members it is comparable with. -/
theorem InsertsValidly.comparable (hins : InsertsValidly lim zset t x) :
    ∀ p ∈ inorder t, Comparable zset.nodes x p := by
  obtain ⟨zset', t', l₁, l₂, -, hnodes, hvalid, ht, ht'⟩ := hins
  intro p hp
  have hs := hvalid.sorted
  rw [ht', hnodes] at hs
  obtain ⟨-, hs₂, hs₁⟩ := List.pairwise_append.mp hs
  rw [ht] at hp
  rcases List.mem_append.mp hp with hp | hp
  · exact .inr (hs₁ p hp x List.mem_cons_self)
  · exact .inl ((List.pairwise_cons.mp hs₂).1 p hp)

/-- **`tree_add` on a calm tree** stores the rebalanced tree with the new leaf. -/
theorem treeAdd_calm (h : ValidTree zset t) (hready : ReadyToAdd zset t x)
    (hfuel : t.height < lim.steps) (hcmp : ∀ p ∈ inorder t, Comparable zset.nodes x p)
    (hcalm : CalmBelow (withLeaf zset.nodes x t)) :
    ∃ m' root', treeAdd lim zset x = .ok { zset with tree := some root', links := m' } ∧
      ValidTree { zset with tree := some root', links := m' }
        (rebalance (withLeaf zset.nodes x t)) := by
  obtain ⟨-, hpl⟩ := plug_addPath zset.nodes x t
  obtain ⟨m', p', hadd, hroot, htop, -⟩ := treeAdd_spec hready (E := True) (fun _ => hcalm) hfuel
  rw [settle_of_calm (hpl ▸ hcalm), hpl] at hroot htop
  obtain ⟨l₁, l₂, h₁, h₂, hs⟩ := inorder_withLeaf h.sorted hcmp
  refine ⟨m', p', hadd, htop.hung.rep trivial, hroot.symm, balanced_insertLeaf h.balanced hcalm,
    ?_, ?_⟩
  · rw [inorder_rebalance]
    exact hs
  · intro p hp
    rw [inorder_rebalance] at hp
    rcases List.mem_cons.mp ((perm_insertLeaf _ _ _).mem_iff.mp hp) with rfl | hp
    · exact hready.node
    · exact h.stored p hp

theorem insertsValidly_of_calm (h : ValidTree zset t) (hready : ReadyToAdd zset t x)
    (hfuel : t.height < lim.steps) (hcmp : ∀ p ∈ inorder t, Comparable zset.nodes x p)
    (hcalm : CalmBelow (withLeaf zset.nodes x t)) (hsize : t.numNodes + 1 < 2 ^ 32) :
    InsertsValidly lim zset t x := by
  obtain ⟨m', p', hadd, hvalid⟩ := treeAdd_calm h hready hfuel hcmp hcalm
  obtain ⟨l₁, l₂, h₁, h₂, -⟩ := inorder_withLeaf h.sorted hcmp
  have hcount : (rebalance (withLeaf zset.nodes x t)).numNodes < 2 ^ 32 := by
    rw [← length_inorder, inorder_rebalance, length_inorder, numNodes_withLeaf]
    exact hsize
  exact ⟨_, _, l₁, l₂, hadd, rfl, ⟨hvalid, hcount⟩, h₁, by rw [inorder_rebalance, h₂]⟩

/-- **AVL insertion**: for a valid tree and a node that is not in it, `tree_add` leaves a valid
tree with the node at its place if and only if the node is comparable with every member, the
tree with the new leaf is balanced below its root, and `count` can hold the number of its nodes. -/
theorem treeAdd_valid_iff {z : ZNode} (h : ExactTree zset t) (hx : x ∉ inorder t)
    (hz : zset.nodes x = some z) (hinit : zset.links x = some avlInit)
    (hfuel : t.height < lim.steps) :
    InsertsValidly lim zset t x ↔
      (∀ p ∈ inorder t, Comparable zset.nodes x p) ∧ CalmBelow (withLeaf zset.nodes x t) ∧
        t.numNodes + 1 < 2 ^ 32 := by
  have hready := h.ready hx hz hinit
  constructor
  · intro hins
    exact ⟨hins.comparable, hins.calm h.toValidTree hready hfuel, hins.size⟩
  · rintro ⟨hcmp, hcalm, hsize⟩
    exact insertsValidly_of_calm h.toValidTree hready hfuel hcmp hcalm hsize

/-- The sorted set of a tree whose addresses ascend: the score of a member is its address. -/
def ladder (t : PTree) (x : Ptr) : ZSet where
  tree := root t
  links := (layout none t).write x avlInit
  nodes := fun p => some (znodeNew [UInt8.ofNat p] ⟨UInt64.ofNat p⟩)
  next := x + 1

theorem ladder_exact (hb : Balanced t) (hx : x ∉ inorder t) (hsize : t.numNodes < 2 ^ 32)
    (hs : (inorder t).Pairwise fun p q => memberLess (ladder t x).nodes p q = true) :
    ExactTree (ladder t x) t :=
  ⟨⟨(rep_layout none (nodup_of_sorted hs)).congr fun _ hq =>
    Store.write_of_ne _ _ fun h => hx (h ▸ hq), rfl, hb, hs, fun _ _ => ⟨_, rfl⟩⟩, hsize⟩

/-- The sixth member hangs below the right grandchild, and the root is rotated. -/
theorem treeAdd_valid_sixth : InsertsValidly ⟨4, 0⟩
    (ladder (node 1 (node 0 nil nil) (node 3 (node 2 nil nil) (node 4 nil nil))) 5)
    (node 1 (node 0 nil nil) (node 3 (node 2 nil nil) (node 4 nil nil))) 5 :=
  (treeAdd_valid_iff (ladder_exact (by decide) (by decide) (by decide) (by decide +kernel))
    (by decide) rfl rfl (by decide)).mpr ⟨by decide +kernel, by decide +kernel, by decide⟩

/-- Adding the fifth of five ascending members rotates below the root: the tree is not valid. -/
theorem treeAdd_fifth_ascending :
    ∃ zset t x z, ExactTree zset t ∧ x ∉ inorder t ∧ zset.nodes x = some z ∧
      zset.links x = some avlInit ∧ (∀ p ∈ inorder t, Comparable zset.nodes x p) ∧
      ∀ lim, t.height < lim.steps → ¬InsertsValidly lim zset t x := by
  have hexact := ladder_exact (t := node 1 (node 0 nil nil) (node 2 nil (node 3 nil nil)))
    (x := 4) (by decide) (by decide) (by decide) (by decide +kernel)
  refine ⟨_, _, 4, _, hexact, by decide, rfl, rfl, by decide +kernel, ?_⟩
  intro lim hlim hins
  have hcalm := hins.calm hexact.toValidTree (hexact.ready (by decide) rfl rfl) hlim
  exact absurd hcalm (by decide +kernel)

end RedisServer
