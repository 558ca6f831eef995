import RedisServer.SortedSetIndex
import RedisServer.TreeAdd
import RedisServer.TreeDelete

/-!
# A sorted set refines a map

`lastScores ops` is the map that a history of `zset_add` and `zset_pop` stands for.  While the tree
needs no rotation below its root and no member is popped (`ZSet.calm`), both indexes of the set hold
the members of this map: `ZSet.Sound` ties them to one tree, `ZSet.Holds` to the scores.

Results:
* `Sound.zsetLookup` — `zset_lookup` returns the member of that name;
* `treeAdd_sound` — the tree half of an insertion and of an update;
* `zsetStep_sound` — every calm call;
* `zset_refines_map` — so every calm history.
-/

set_option autoImplicit false

namespace RedisServer

open Runs Trees BinaryTree

/-! ## The map -/

def ZOp.apply (scores : Bytes → Option Dbl) : ZOp → Bytes → Option Dbl
  | .add name score => Function.update scores name (some score)
  | .pop name => Function.update scores name none

/-- The score of the last `zset_add` of a name, if it was not popped since. -/
def lastScores (ops : List ZOp) : Bytes → Option Dbl := ops.foldl ZOp.apply fun _ => none

/-- The score is a number. -/
def ZOp.Numeric : ZOp → Prop
  | .add _ score => score.isNaN = false
  | .pop _ => True

instance : ∀ op : ZOp, Decidable op.Numeric
  | .add _ score => inferInstanceAs (Decidable (score.isNaN = false))
  | .pop _ => inferInstanceAs (Decidable True)

/-! ## The tree in the links -/

/-- The tree below a link, as far down as `fuel` goes. -/
def treeOf (m : Links) : Nat → Option Ptr → PTree
  | 0, _ => nil
  | _ + 1, none => nil
  | fuel + 1, some p =>
    match m p with
    | none => nil
    | some n => node p (treeOf m fuel n.left) (treeOf m fuel n.right)

theorem treeOf_root {m : Links} : ∀ {t : PTree} {parent : Option Ptr} {fuel : Nat},
    Linked m parent t → t.height ≤ fuel → treeOf m fuel (root t) = t
  | nil, _, 0, _, _ => rfl
  | nil, _, _ + 1, _, _ => rfl
  | node _ _ _, _, 0, _, hf => by simp at hf
  | node a l r, _, fuel + 1, ⟨⟨n, hn, hlink⟩, hl, hr⟩, hf => by
    simp only [height] at hf
    rw [root_node, treeOf, hn]
    dsimp only
    rw [hlink.left, hlink.right, treeOf_root hl (by omega), treeOf_root hr (by omega)]

/-- The tree of a set; no path in it is longer than the number of members. -/
def ZSet.storedTree (zset : ZSet) : PTree :=
  treeOf zset.links zset.hmap.order.length zset.tree

/-- The member of a name. -/
def ZSet.find (zset : ZSet) (name : Bytes) : Option Ptr :=
  (zset.hmap.order.find? (hasName zset.nodes name)).map HNode.ptr

/-! ## Calm calls -/

/-- No rotation below the root is needed to insert the node at `p`. -/
def calmInsert (nodes : Store ZNode) (p : Ptr) (t : PTree) : Bool :=
  decide (CalmBelow (withLeaf nodes p t))

/-- The call rotates at the root only, and removes no member. -/
def ZSet.calm (zset : ZSet) : ZOp → Bool
  | .add name score =>
    match zset.find name with
    | none => calmInsert (zset.nodes.write zset.next (znodeNew name score)) zset.next zset.storedTree
    | some p =>
      match zset.nodes p with
      | none => false
      | some z => z.score.eq score ||
        (decide (CalmBelow (remove p zset.storedTree)) &&
          calmInsert (zset.nodes.write p { z with score := score }) p
            (rebalance (remove p zset.storedTree)))
  | .pop name => (zset.find name).isNone

/-! ## The invariant -/

variable {lim : Limits} {zset zset' : ZSet} {nodes nodes' : Store ZNode} {t t' : PTree} {p x : Ptr}
  {name : Bytes} {score : Dbl} {scores : Bytes → Option Dbl} {ps : List Ptr}

/-- The members at these addresses have different names, and numbers as scores. -/
structure Members (nodes : Store ZNode) (ps : List Ptr) : Prop where
  named : ∀ p ∈ ps, ∀ q ∈ ps, ∀ a b, nodes p = some a → nodes q = some b → a.name = b.name → p = q
  numeric : ∀ p ∈ ps, ∀ a, nodes p = some a → a.score.isNaN = false

/-- The two indexes of the set hold the same members. -/
structure ZSet.Sound (zset : ZSet) (t : PTree) : Prop extends ZSet.Indexed zset, ValidTree zset t where
  exact : zset.hmap.Exact
  perm : (inorder t).Perm (zset.hmap.order.map HNode.ptr)
  members : Members zset.nodes (inorder t)

/-- The member at `p` has this name and this score. -/
def ZSet.Carries (zset : ZSet) (name : Bytes) (p : Ptr) (score : Dbl) : Prop :=
  ∃ z, zset.nodes p = some z ∧ z.name = name ∧ z.score.eq score = true

/-- The nodes reachable from `zset->tree` are those of the hash map, each once, in the order of
`zless`, with the parent links that belong to the child links. -/
structure ZSet.TreeIndexes (zset : ZSet) (t : PTree) : Prop where
  linked : Linked zset.links none t
  tree : zset.tree = root t
  nodup : (inorder t).Nodup
  perm : (inorder t).Perm (zset.hmap.order.map HNode.ptr)
  sorted : (inorder t).Pairwise fun p q => memberLess zset.nodes p q = true

/-- The map of the set, read by name. -/
def ZSet.Holds (zset : ZSet) (scores : Bytes → Option Dbl) : Prop :=
  ∀ name, Option.Rel (zset.Carries name) (zset.find name) (scores name)

theorem Members.subset {qs : List Ptr} (h : Members nodes ps) (hsub : qs ⊆ ps) : Members nodes qs where
  named p hp q hq := h.named p (hsub hp) q (hsub hq)
  numeric p hp := h.numeric p (hsub hp)

theorem Members.congr (h : Members nodes ps) (heq : ∀ p ∈ ps, nodes' p = nodes p) :
    Members nodes' ps where
  named p hp q hq a b ha hb :=
    h.named p hp q hq a b ((heq p hp).symm.trans ha) ((heq q hq).symm.trans hb)
  numeric p hp a ha := h.numeric p hp a ((heq p hp).symm.trans ha)

/-- One more member. -/
theorem Members.cons {z : ZNode} (h : Members nodes ps) (hx : nodes x = some z)
    (hz : z.score.isNaN = false) (hnew : ∀ p ∈ ps, ∀ a, nodes p = some a → a.name ≠ z.name) :
    Members nodes (x :: ps) where
  named p hp q hq a b ha hb hname := by
    rcases List.mem_cons.mp hp with rfl | hps <;> rcases List.mem_cons.mp hq with rfl | hqs
    · rfl
    · cases hx.symm.trans ha
      exact absurd hname.symm (hnew q hqs b hb)
    · cases hx.symm.trans hb
      exact absurd hname (hnew p hps a ha)
    · exact h.named p hps q hqs a b ha hb hname
  numeric p hp a ha := by
    rcases List.mem_cons.mp hp with rfl | hp
    · cases hx.symm.trans ha
      exact hz
    · exact h.numeric p hp a ha

theorem Members.comparable (h : Members nodes (x :: ps)) (hx : x ∉ ps)
    (hstored : ∀ p ∈ x :: ps, ∃ z, nodes p = some z) : ∀ p ∈ ps, Comparable nodes x p := by
  intro p hp
  have hp' := List.mem_cons_of_mem x hp
  obtain ⟨a, ha⟩ := hstored x List.mem_cons_self
  obtain ⟨b, hb⟩ := hstored p hp'
  have hname : a.name ≠ b.name := fun heq =>
    hx (h.named x List.mem_cons_self p hp' a b ha hb heq ▸ hp)
  rw [Comparable, memberLess_of ha hb, memberLess_of hb ha]
  exact zless_total (h.numeric x List.mem_cons_self a ha) (h.numeric p hp' b hb) hname

theorem ValidTree.congr (h : ValidTree zset t) (ht : zset'.tree = zset.tree)
    (hl : ∀ q ∈ inorder t, zset'.links q = zset.links q)
    (hn : ∀ q ∈ inorder t, zset'.nodes q = zset.nodes q) : ValidTree zset' t where
  rep := h.rep.congr hl
  tree := ht.trans h.tree
  balanced := h.balanced
  sorted := h.sorted.imp_of_mem fun {a b} ha hb hab => by
    rw [memberLess_congr (hn a ha) (hn b hb)]
    exact hab
  stored q hq := by
    rw [hn q hq]
    exact h.stored q hq

theorem ZSet.Sound.empty : ZSet.Sound {} nil where
  toIndexed := .empty
  rep := trivial
  tree := rfl
  balanced := trivial
  sorted := .nil
  stored := nofun
  exact := rfl
  perm := .nil
  members := ⟨nofun, nofun⟩

theorem ZSet.Sound.mem (h : zset.Sound t) : p ∈ inorder t ↔ ∃ n ∈ zset.hmap.order, n.ptr = p := by
  rw [h.perm.mem_iff, List.mem_map]

theorem ZSet.TreeIndexes.height_le (h : zset.TreeIndexes t) :
    t.height ≤ zset.hmap.order.length := by
  have hlen := h.perm.length_eq
  rw [length_inorder, List.length_map] at hlen
  exact hlen ▸ t.height_le_numNodes

/-- There is no other tree. -/
theorem ZSet.TreeIndexes.storedTree (h : zset.TreeIndexes t) : zset.storedTree = t := by
  unfold ZSet.storedTree
  rw [h.tree]
  exact treeOf_root h.linked h.height_le

theorem ZSet.Sound.treeIndexes (h : zset.Sound t) : zset.TreeIndexes t :=
  ⟨h.rep.linked, h.tree, h.nodup, h.perm, h.sorted⟩

/-- The addresses of members with a name. -/
theorem ZSet.Sound.find_eq_some (h : zset.Sound t) :
    zset.find name = some p ↔ p ∈ inorder t ∧ ∃ z, zset.nodes p = some z ∧ z.name = name := by
  unfold ZSet.find
  rw [Option.map_eq_some_iff]
  constructor
  · rintro ⟨n, hn, rfl⟩
    obtain ⟨z, hz, -⟩ := h.node n (List.mem_of_find?_eq_some hn)
    exact ⟨h.mem.mpr ⟨n, List.mem_of_find?_eq_some hn, rfl⟩, z, hz,
      (hasName_of hz).mp (List.find?_some hn)⟩
  · rintro ⟨hp, z, hz, hname⟩
    obtain ⟨n, hn, rfl⟩ := h.mem.mp hp
    cases hf : zset.hmap.order.find? (hasName zset.nodes name) with
    | none => exact absurd ((hasName_of hz).mpr hname) (List.find?_eq_none.mp hf n hn)
    | some n' =>
      have hn' := List.mem_of_find?_eq_some hf
      obtain ⟨z', hz', -⟩ := h.node n' hn'
      refine ⟨n', rfl, h.members.named _ (h.mem.mpr ⟨n', hn', rfl⟩) _ hp z' z hz' hz ?_⟩
      exact ((hasName_of hz').mp (List.find?_some hf)).trans hname.symm

theorem ZSet.Sound.find_eq_none (h : zset.Sound t) :
    zset.find name = none ↔ ∀ p ∈ inorder t, ∀ z, zset.nodes p = some z → z.name ≠ name := by
  rw [Option.eq_none_iff_forall_ne_some]
  constructor
  · intro hno p hp z hz hname
    exact hno p (h.find_eq_some.mpr ⟨hp, z, hz, hname⟩)
  · intro hno p hp
    obtain ⟨hp, z, hz, hname⟩ := h.find_eq_some.mp hp
    exact hno p hp z hz hname

/-! ## Lookups -/

/-- A lookup may migrate nodes of the hash map, and changes nothing else. -/
theorem ZSet.Sound.rehash {hmap : HMap} (h : zset.Sound t) (hs : hmap.Shape) (hx : hmap.Exact)
    (hp : hmap.order.Perm zset.hmap.order) : ZSet.Sound { zset with hmap := hmap } t where
  shape := hs
  node n hn := h.node n (hp.mem_iff.mp hn)
  fresh n hn := h.fresh n (hp.mem_iff.mp hn)
  toValidTree := h.toValidTree.congr rfl (fun _ _ => rfl) fun _ _ => rfl
  exact := hx
  perm := h.perm.trans (hp.map _).symm
  members := h.members

/-- **`zset_lookup`** returns the member of that name. -/
theorem ZSet.Sound.zsetLookup (h : zset.Sound t) (name : Bytes) :
    ∃ hmap, zsetLookup zset name = .ok ({ zset with hmap := hmap }, zset.find name) ∧
      hmap.order.Perm zset.hmap.order ∧ ZSet.Sound { zset with hmap := hmap } t := by
  obtain ⟨⟨zset', r⟩, hl⟩ := zsetLookup_total h.toIndexed h.exact name
  have hlu := zsetLookup_spec h.toIndexed hl
  have hr : r = zset.find name := by
    cases r with
    | none =>
      refine (h.find_eq_none.mpr ?_).symm
      intro p hp z hz hname
      obtain ⟨n, hn, rfl⟩ := h.mem.mp hp
      rcases hlu.missing rfl with htree | hno
      · rw [h.tree, root_eq_none] at htree
        rw [htree] at hp
        cases hp
      · have := hno n hn
        rw [(hasName_of hz).mpr hname] at this
        cases this
    | some p =>
      obtain ⟨n, hn, rfl, hname⟩ := hlu.found p rfl
      obtain ⟨z, hz, -⟩ := h.node n hn
      exact (h.find_eq_some.mpr ⟨h.mem.mpr ⟨n, hn, rfl⟩, z, hz, (hasName_of hz).mp hname⟩).symm
  rw [hlu.eq, hr] at hl
  exact ⟨_, hl, hlu.perm, h.rehash hlu.shape (hlu.exact h.exact) hlu.perm⟩

theorem ZSet.Sound.find_congr (h : zset.Sound t) (h' : zset'.Sound t') (name : Bytes)
    (hmem : ∀ q, (q ∈ inorder t' ∧ ∃ z, zset'.nodes q = some z ∧ z.name = name) ↔
      q ∈ inorder t ∧ ∃ z, zset.nodes q = some z ∧ z.name = name) :
    zset'.find name = zset.find name := by
  apply Option.ext
  intro q
  rw [h.find_eq_some, h'.find_eq_some]
  exact hmem q

/-- The scores after the member at `p` was added or updated. -/
theorem ZSet.Holds.set {z : ZNode} (hh : zset.Holds scores) (h : zset.Sound t) (h' : zset'.Sound t')
    (hmem : ∀ q, q ∈ inorder t' ↔ q = p ∨ q ∈ inorder t) (hz : zset'.nodes p = some z)
    (hscore : z.score.eq score = true) (hother : ∀ q, q ≠ p → zset'.nodes q = zset.nodes q)
    (hold : p ∈ inorder t → ∀ a, zset.nodes p = some a → a.name = z.name) :
    zset'.Holds (Function.update scores z.name (some score)) := by
  intro name
  by_cases hname : name = z.name
  · subst hname
    rw [Function.update_self, h'.find_eq_some.mpr ⟨(hmem p).mpr (.inl rfl), z, hz, rfl⟩]
    exact .some ⟨z, hz, rfl, hscore⟩
  · have hfind : zset'.find name = zset.find name := h.find_congr h' name fun q => by
      rw [hmem]
      by_cases hq : q = p
      · subst hq
        rw [hz]
        refine iff_of_false ?_ ?_
        · rintro ⟨-, a, ha, rfl⟩
          cases ha
          exact hname rfl
        · rintro ⟨hq, a, ha, rfl⟩
          exact hname (hold hq a ha)
      · rw [hother q hq]
        simp [hq]
    rw [Function.update_of_ne hname, hfind]
    have hr := hh name
    generalize hf : zset.find name = o at hr ⊢
    generalize scores name = s at hr ⊢
    cases hr with
    | none => exact .none
    | @some q s hc =>
      obtain ⟨a, ha, haname, hascore⟩ := hc
      have hq : q ≠ p := by
        rintro rfl
        exact hname (haname ▸ hold (h.find_eq_some.mp hf).1 a ha)
      exact .some ⟨a, (hother q hq).trans ha, haname, hascore⟩

/-! ## Adding -/

theorem perm_settled (nodes : Store ZNode) (x : Ptr) (t : PTree) :
    (inorder (rebalance (withLeaf nodes x t))).Perm (x :: inorder t) := by
  rw [inorder_rebalance]
  exact perm_insertLeaf _ _ _

/-- **The tree half** of an insertion and of an update: `tree_add` of a node that only the hash map
holds. -/
theorem treeAdd_sound (hi : zset.Indexed) (hv : ValidTree zset t) (hx : zset.hmap.Exact)
    (hxt : x ∉ inorder t) (hinit : zset.links x = some avlInit)
    (hperm : (x :: inorder t).Perm (zset.hmap.order.map HNode.ptr))
    (hmem : Members zset.nodes (x :: inorder t)) (hcalm : calmInsert zset.nodes x t = true)
    (hfuel : t.height < lim.steps) :
    ∃ m root', treeAdd lim zset x = .ok { zset with tree := some root', links := m } ∧
      ZSet.Sound { zset with tree := some root', links := m }
        (rebalance (withLeaf zset.nodes x t)) := by
  have hstored : ∀ p ∈ x :: inorder t, ∃ z, zset.nodes p = some z := by
    intro p hp
    obtain ⟨n, hn, rfl⟩ := List.mem_map.mp (hperm.mem_iff.mp hp)
    obtain ⟨z, hz, -⟩ := hi.node n hn
    exact ⟨z, hz⟩
  obtain ⟨z, hz⟩ := hstored x List.mem_cons_self
  obtain ⟨m, root', hadd, hvalid⟩ := treeAdd_calm hv (hv.ready hxt hz hinit) hfuel
    (hmem.comparable hxt hstored) (of_decide_eq_true hcalm)
  have hin := perm_settled zset.nodes x t
  exact ⟨m, root', hadd,
    { toIndexed := hi.congr rfl rfl fun p a ha => ⟨a, ha, rfl, rfl⟩
      toValidTree := hvalid
      exact := hx
      perm := hin.trans hperm
      members := hmem.subset hin.subset }⟩

theorem ZSet.Sound.next_notMem (h : zset.Sound t) : zset.next ∉ inorder t := by
  intro hm
  obtain ⟨n, hn, heq⟩ := h.mem.mp hm
  exact Nat.lt_irrefl _ (heq ▸ h.fresh n hn)

/-- A new node leaves the tree as it is. -/
theorem ZSet.Sound.allocated (h : zset.Sound t) (hmap : HMap) (z : ZNode) :
    ValidTree
      { zset with
        hmap := hmap
        links := zset.links.write zset.next avlInit
        nodes := zset.nodes.write zset.next z
        next := zset.next + 1 } t := by
  have hne : ∀ q ∈ inorder t, q ≠ zset.next := fun q hq heq => h.next_notMem (heq ▸ hq)
  exact h.toValidTree.congr rfl (fun q hq => Store.write_of_ne _ _ (hne q hq))
    fun q hq => Store.write_of_ne _ _ (hne q hq)

/-- `zset_add` of a new name. -/
theorem ZSet.Sound.add_new (h : zset.Sound t) (hh : zset.Holds scores)
    (hfind : zset.find name = none) (hscore : score.isNaN = false)
    (hcalm : calmInsert (zset.nodes.write zset.next (znodeNew name score)) zset.next t = true)
    (hfuel : t.height < lim.steps) :
    ∃ zset' t', zsetAdd lim zset name score = .ok (zset', true) ∧ zset'.Sound t' ∧
      zset'.Holds (Function.update scores name (some score)) ∧
      zset'.hmap.order.length = zset.hmap.order.length + 1 := by
  obtain ⟨hmap, hl, hperm, h₁⟩ := h.zsetLookup name
  obtain ⟨hmap', hins, hs, hx⟩ := hmInsert_total (n := ⟨zset.next, (znodeNew name score).hcode⟩)
    h₁.shape h₁.exact h₁.notMem_next
  obtain ⟨m₁, k, -, hlink, hk⟩ := hmInsert_spec h₁.shape h₁.notMem_next hins
  have hord : hmap'.order.Perm (⟨zset.next, (znodeNew name score).hcode⟩ :: hmap.order) :=
    hk.perm.trans hlink.perm
  have hnext := h.next_notMem
  have hne : ∀ q ∈ inorder t, q ≠ zset.next := fun q hq heq => hnext (heq ▸ hq)
  let zset₂ : ZSet := { zset with
    hmap := hmap'
    links := zset.links.write zset.next avlInit
    nodes := zset.nodes.write zset.next (znodeNew name score)
    next := zset.next + 1 }
  have hself : zset₂.nodes zset.next = some (znodeNew name score) := Store.write_self _ _ _
  have hnodes : ∀ q, q ≠ zset.next → zset₂.nodes q = zset.nodes q := fun q hq =>
    Store.write_of_ne _ _ hq
  have hmembers : Members zset₂.nodes (zset.next :: inorder t) := by
    apply (h.members.congr fun q hq => hnodes q (hne q hq)).cons hself hscore
    intro q hq a ha
    exact h.find_eq_none.mp hfind q hq a ((hnodes q (hne q hq)).symm.trans ha)
  have hperm₂ : (zset.next :: inorder t).Perm (hmap'.order.map HNode.ptr) :=
    ((h₁.perm.cons zset.next).trans (hord.map HNode.ptr).symm :)
  have hi₂ : zset₂.Indexed := h₁.toIndexed.insert rfl hord hs _
  have hv₂ : ValidTree zset₂ t := h.allocated hmap' (znodeNew name score)
  obtain ⟨m, root', hadd, h'⟩ :=
    treeAdd_sound hi₂ hv₂ hx hnext (Store.write_self _ _ _) hperm₂ hmembers hcalm hfuel
  refine ⟨_, _, ?_, h', ?_, ?_⟩
  · unfold zsetAdd
    rw [hl, ok_bind]
    simp only [hfind]
    rw [hins, ok_bind, hadd]
    rfl
  · refine hh.set (p := zset.next) (z := znodeNew name score) h h' ?_ hself ?_ hnodes
      fun hm => absurd hm hnext
    · intro q
      exact (perm_settled zset₂.nodes zset.next t).mem_iff.trans List.mem_cons
    · exact (Dbl.eq_iff hscore hscore).mpr rfl
  · rw [show _ = hmap'.order.length from rfl, hord.length_eq, List.length_cons, hperm.length_eq]

/-- **The first half of an update**: `avl_del` takes the member out of the tree, and its node, which
is initialised again, may hold whatever it likes. -/
theorem ZSet.Sound.taken_out (h : zset.Sound t) (hp : p ∈ inorder t) (hrem : CalmBelow (remove p t))
    (hfuel : 2 * zset.hmap.order.length + 1 < lim.steps) (z : ZNode) :
    ∃ m, avlDel lim.steps zset.links p = .ok (m, root (rebalance (remove p t))) ∧
      ValidTree
        { zset with
          tree := root (rebalance (remove p t))
          links := m.write p avlInit
          nodes := zset.nodes.write p z } (rebalance (remove p t)) ∧
      p ∉ inorder (rebalance (remove p t)) ∧
      (p :: inorder (rebalance (remove p t))).Perm (inorder t) ∧
      (rebalance (remove p t)).height < lim.steps := by
  have hheight := h.treeIndexes.height_le
  obtain ⟨m, n, hdel, htree, hpt, -, -⟩ := avlDel_calm ⟨h.rep, h.nodup, h.balanced⟩ hp
    (show 2 * t.height + 1 < lim.steps by omega) hrem
  obtain ⟨l₁, l₂, h₁, h₂⟩ := inorder_remove hp h.nodup
  have hin : inorder (rebalance (remove p t)) = l₁ ++ l₂ := by rw [inorder_rebalance, h₂]
  have hsub : (inorder (rebalance (remove p t))).Sublist (inorder t) := by
    rw [hin, h₁]
    exact (List.sublist_cons_self p l₂).append_left l₁
  have hne : ∀ q ∈ inorder (rebalance (remove p t)), q ≠ p := fun q hq heq => hpt (heq ▸ hq)
  have hnodes : ∀ q ∈ inorder (rebalance (remove p t)), zset.nodes.write p z q = zset.nodes q :=
    fun q hq => Store.write_of_ne _ _ (hne q hq)
  have hperm : (p :: inorder (rebalance (remove p t))).Perm (inorder t) := by
    rw [hin, h₁]
    exact List.perm_middle.symm
  refine ⟨m, hdel, ?_, hpt, hperm, ?_⟩
  · exact
      { rep := htree.rep.congr fun q hq => Store.write_of_ne _ _ (hne q hq)
        tree := rfl
        balanced := htree.balanced
        sorted := (h.sorted.sublist hsub).imp_of_mem fun {a b} ha hb hab => by
          rw [memberLess_congr (hnodes a ha) (hnodes b hb)]
          exact hab
        stored := by
          intro q hq
          obtain ⟨a, ha⟩ := h.stored q (hsub.subset hq)
          exact ⟨a, (hnodes q hq).trans ha⟩ }
  · have hlen := (hperm.trans h.perm).length_eq
    rw [List.length_cons, length_inorder, List.length_map] at hlen
    have := (rebalance (remove p t)).height_le_numNodes
    omega

/-- `zset_update`, when it moves the node. -/
theorem zsetUpdate_sound {z : ZNode} (h : zset.Sound t) (hp : p ∈ inorder t)
    (hz : zset.nodes p = some z) (hne : z.score.eq score = false) (hscore : score.isNaN = false)
    (hrem : CalmBelow (remove p t))
    (hins : calmInsert (zset.nodes.write p { z with score := score }) p
      (rebalance (remove p t)) = true) (hfuel : 2 * zset.hmap.order.length + 1 < lim.steps) :
    ∃ zset', zsetUpdate lim zset p score = .ok zset' ∧
      zset'.Sound (rebalance (withLeaf (zset.nodes.write p { z with score := score }) p
        (rebalance (remove p t)))) ∧
      zset'.nodes = zset.nodes.write p { z with score := score } ∧ zset'.hmap = zset.hmap := by
  obtain ⟨m', hdel, hv₂, hpt, hperm, hheight⟩ :=
    h.taken_out hp hrem hfuel { z with score := score }
  have hnodes : ∀ q, q ≠ p → zset.nodes.write p { z with score := score } q = zset.nodes q :=
    fun q hq => Store.write_of_ne _ _ hq
  have hsub : inorder (rebalance (remove p t)) ⊆ inorder t := fun q hq =>
    hperm.subset (List.mem_cons_of_mem p hq)
  have hne' : ∀ q ∈ inorder (rebalance (remove p t)), q ≠ p := fun q hq heq => hpt (heq ▸ hq)
  -- the set between the two halves of the update
  let zset₂ : ZSet := { zset with
    tree := root (rebalance (remove p t))
    links := m'.write p avlInit
    nodes := zset.nodes.write p { z with score := score } }
  have hi₂ : zset₂.Indexed := h.toIndexed.congr rfl rfl fun q a ha => by
    by_cases hq : q = p
    · subst hq
      cases hz.symm.trans ha
      exact ⟨_, Store.write_self _ _ _, rfl, rfl⟩
    · exact ⟨a, (hnodes q hq).trans ha, rfl, rfl⟩
  have hmembers : Members zset₂.nodes (p :: inorder (rebalance (remove p t))) := by
    refine ((h.members.subset hsub).congr fun q hq => hnodes q (hne' q hq)).cons
      (Store.write_self _ _ _) hscore fun q hq a ha hname => hne' q hq ?_
    have ha : zset.nodes q = some a := (hnodes q (hne' q hq)).symm.trans ha
    exact h.members.named q (hsub hq) p hp a z ha hz hname
  obtain ⟨m, root', hadd, h'⟩ := treeAdd_sound hi₂ hv₂ h.exact hpt (Store.write_self _ _ _)
    (hperm.trans h.perm) hmembers hins hheight
  refine ⟨_, ?_, h', rfl, rfl⟩
  unfold zsetUpdate
  rw [Store.read_of hz, ok_bind, if_neg (by simp [hne]), hdel, ok_bind]
  exact hadd

/-- `zset_add` of a member's name. -/
theorem ZSet.Sound.add_old {z : ZNode} (h : zset.Sound t) (hh : zset.Holds scores)
    (hfind : zset.find name = some p) (hz : zset.nodes p = some z) (hscore : score.isNaN = false)
    (hcalm : z.score.eq score = true ∨ CalmBelow (remove p t) ∧
      calmInsert (zset.nodes.write p { z with score := score }) p (rebalance (remove p t)) = true)
    (hfuel : 2 * zset.hmap.order.length + 1 < lim.steps) :
    ∃ zset' t', zsetAdd lim zset name score = .ok (zset', false) ∧ zset'.Sound t' ∧
      zset'.Holds (Function.update scores name (some score)) ∧
      zset'.hmap.order.length = zset.hmap.order.length := by
  obtain ⟨hmap, hl, hperm, h₁⟩ := h.zsetLookup name
  obtain ⟨hp, z', hz', rfl⟩ := h.find_eq_some.mp hfind
  cases hz.symm.trans hz'
  have hadd : ∀ r, zsetUpdate lim { zset with hmap := hmap } p score = .ok r →
      zsetAdd lim zset z.name score = .ok (r, false) := by
    intro r hu
    unfold zsetAdd
    rw [hl, ok_bind]
    simp only [hfind]
    rw [hu]
    rfl
  by_cases heq : z.score.eq score = true
  · refine ⟨_, t, hadd { zset with hmap := hmap } ?_, h₁, ?_, hperm.length_eq⟩
    · unfold zsetUpdate
      rw [Store.read_of hz, ok_bind, if_pos heq]
      rfl
    · exact hh.set h h₁ (fun q => ⟨.inr, fun hq => hq.elim (fun hq => hq ▸ hp) id⟩) hz heq
        (fun _ _ => rfl) fun _ a ha => by cases hz.symm.trans ha; rfl
  · obtain ⟨hrem, hins⟩ := hcalm.resolve_left heq
    obtain ⟨zset', hu, h', hnodes, hmap'⟩ := zsetUpdate_sound h₁ hp hz
      (Bool.eq_false_iff.mpr heq) hscore hrem hins
      (show 2 * hmap.order.length + 1 < lim.steps by rw [hperm.length_eq]; exact hfuel)
    refine ⟨zset', _, hadd zset' hu, h', ?_, by rw [hmap']; exact hperm.length_eq⟩
    obtain ⟨l₁, l₂, hl₁, hl₂⟩ := inorder_remove hp h.nodup
    refine hh.set (z := { z with score := score }) h h' ?_
      (hnodes ▸ Store.write_self _ _ _) ((Dbl.eq_iff hscore hscore).mpr rfl)
      (fun q hq => hnodes ▸ Store.write_of_ne _ _ hq) fun _ a ha => by cases hz.symm.trans ha; rfl
    intro q
    refine (perm_settled _ p (rebalance (remove p t))).mem_iff.trans ?_
    rw [List.mem_cons, inorder_rebalance, hl₁, hl₂]
    simp only [List.mem_append, List.mem_cons]
    tauto

/-- `zset_pop` of a name that is missing. -/
theorem ZSet.Sound.pop_missing (lim : Limits) (h : zset.Sound t) (hh : zset.Holds scores)
    (hfind : zset.find name = none) :
    ∃ zset', zsetPop lim zset name = .ok (zset', none) ∧ zset'.Sound t ∧
      zset'.Holds (Function.update scores name none) ∧
      zset'.hmap.order.length = zset.hmap.order.length := by
  obtain ⟨hmap, hl, hperm, h₁⟩ := h.zsetLookup name
  have hsame : ∀ other, ({ zset with hmap := hmap } : ZSet).find other = zset.find other :=
    fun other => h.find_congr h₁ other fun _ => Iff.rfl
  refine ⟨_, ?_, h₁, ?_, hperm.length_eq⟩
  · unfold zsetPop
    rw [hl, ok_bind]
    simp only [hfind]
    rfl
  · intro other
    rw [hsame]
    by_cases hother : other = name
    · subst hother
      rw [hfind, Function.update_self]
      exact .none
    · rw [Function.update_of_ne hother]
      exact hh other

/-- **One calm call** keeps the indexes together and does to the map what it stands for. -/
theorem zsetStep_sound (op : ZOp) (h : zset.Sound t) (hh : zset.Holds scores) (hnum : op.Numeric)
    (hcalm : zset.calm op = true) (hfuel : 2 * zset.hmap.order.length + 1 < lim.steps) :
    ∃ zset' t', zsetStep lim zset op = .ok zset' ∧ zset'.Sound t' ∧ zset'.Holds (op.apply scores) ∧
      zset'.hmap.order.length ≤ zset.hmap.order.length + 1 := by
  cases op with
  | add name score =>
    cases hfind : zset.find name with
    | none =>
      simp only [ZSet.calm, hfind, h.treeIndexes.storedTree] at hcalm
      have hheight := h.treeIndexes.height_le
      obtain ⟨zset', t', hadd, h', hh', hlen⟩ := h.add_new hh hfind hnum hcalm
        (show t.height < lim.steps by omega)
      exact ⟨zset', t', by rw [zsetStep, hadd]; rfl, h', hh', hlen.le⟩
    | some p =>
      obtain ⟨-, z, hz, -⟩ := h.find_eq_some.mp hfind
      simp only [ZSet.calm, hfind, hz, h.treeIndexes.storedTree, Bool.or_eq_true, Bool.and_eq_true,
        decide_eq_true_eq] at hcalm
      obtain ⟨zset', t', hadd, h', hh', hlen⟩ := h.add_old hh hfind hz hnum hcalm hfuel
      exact ⟨zset', t', by rw [zsetStep, hadd]; rfl, h', hh', by omega⟩
  | pop name =>
    have hfind := Option.isNone_iff_eq_none.mp hcalm
    obtain ⟨zset', hpop, h', hh', hlen⟩ := h.pop_missing lim hh hfind
    exact ⟨zset', t, by rw [zsetStep, hpop]; rfl, h', hh', by omega⟩

/-- `zset_add` answers whether the name is new. -/
theorem ZSet.Sound.add_answer {b : Bool} (h : zset.Sound t)
    (ha : zsetAdd lim zset name score = .ok (zset', b)) : b = true ↔ zset.find name = none := by
  obtain ⟨hmap, hl, -⟩ := h.zsetLookup name
  unfold zsetAdd at ha
  rw [hl, ok_bind] at ha
  cases hfind : zset.find name with
  | none =>
    simp only [hfind] at ha
    obtain ⟨hmap', -, ha⟩ := bind_ok.mp ha
    obtain ⟨zset₁, -, ha⟩ := bind_ok.mp ha
    cases ha
    simp
  | some p =>
    simp only [hfind] at ha
    obtain ⟨zset₁, -, ha⟩ := bind_ok.mp ha
    cases ha
    simp

/-! ## Histories -/

theorem zsetRun_sound : ∀ {ops : List ZOp} {zset : ZSet} {t : PTree} {scores : Bytes → Option Dbl},
    zset.Sound t → zset.Holds scores → (∀ op ∈ ops, op.Numeric) →
    AllSteps (zsetStep lim) (fun z op => z.calm op = true) zset ops →
    2 * (zset.hmap.order.length + ops.length) + 1 < lim.steps →
    ∃ zset' t', run (zsetStep lim) zset ops = .ok zset' ∧ zset'.Sound t' ∧
      zset'.Holds (ops.foldl ZOp.apply scores)
  | [], zset, t, _, h, hh, _, _, _ => ⟨zset, t, rfl, h, hh⟩
  | op :: ops, zset, t, scores, h, hh, hnum, hcalm, hfuel => by
    obtain ⟨hc, hcs⟩ := allSteps_cons.mp hcalm
    simp only [List.length_cons] at hfuel
    have hstep : 2 * zset.hmap.order.length + 1 < lim.steps := by omega
    obtain ⟨z, t', hz, h', hh', hlen⟩ :=
      zsetStep_sound op h hh (hnum op List.mem_cons_self) hc hstep
    obtain ⟨zset', t'', hrun, h'', hh''⟩ := zsetRun_sound h' hh'
      (fun o ho => hnum o (List.mem_cons_of_mem _ ho)) (hcs z hz) (by omega)
    exact ⟨zset', t'', run_cons_ok.mpr ⟨z, hz, hrun⟩, h'', hh''⟩

/-- **A sorted set refines a map** from names to scores, in both of its indexes, over every calm
history. -/
theorem zset_refines_map (lim : Limits) (ops : List ZOp) (hnum : ∀ op ∈ ops, op.Numeric)
    (hcalm : AllSteps (zsetStep lim) (fun z op => z.calm op = true) {} ops)
    (hfuel : 2 * ops.length + 1 < lim.steps) :
    ∃ zset, run (zsetStep lim) {} ops = .ok zset ∧ (∃ t, zset.TreeIndexes t) ∧
      (∀ name, ∃ zset' r, zsetLookup zset name = .ok (zset', r) ∧
        Option.Rel (zset.Carries name) r (lastScores ops name)) ∧
      ∀ name score zset' b, zsetAdd lim zset name score = .ok (zset', b) →
        (b = true ↔ lastScores ops name = none) := by
  obtain ⟨zset, t, hrun, h, hh⟩ := zsetRun_sound ZSet.Sound.empty (fun _ => .none) hnum hcalm
    (show 2 * (0 + ops.length) + 1 < lim.steps by omega)
  refine ⟨zset, hrun, ⟨t, h.treeIndexes⟩, ?_, ?_⟩
  · intro name
    obtain ⟨hmap, hl, -⟩ := h.zsetLookup name
    exact ⟨_, _, hl, hh name⟩
  · intro name score zset' b ha
    rw [h.add_answer ha]
    have hr : Option.Rel _ (zset.find name) (lastScores ops name) := hh name
    generalize zset.find name = o at hr ⊢
    generalize lastScores ops name = s at hr ⊢
    cases hr <;> simp

/-- Two members, and an update that moves one past the other. -/
theorem zset_refines_map_update : ∃ zset, run (zsetStep ⟨9, 0⟩) {}
      [.add (ascii "a") ⟨0⟩, .add (ascii "b") ⟨1⟩, .add (ascii "a") ⟨2⟩] = .ok zset ∧
    (∃ t, zset.TreeIndexes t) ∧ ∃ zset' r, zsetLookup zset (ascii "a") = .ok (zset', r) ∧
      Option.Rel (zset.Carries (ascii "a")) r (some ⟨2⟩) := by
  obtain ⟨zset, hrun, ht, hl, -⟩ := zset_refines_map ⟨9, 0⟩
    [.add (ascii "a") ⟨0⟩, .add (ascii "b") ⟨1⟩, .add (ascii "a") ⟨2⟩]
    (by decide +kernel) (by decide +kernel) (by decide)
  exact ⟨zset, hrun, ht, hl (ascii "a")⟩

/-- The fifth of five ascending members rotates below the root: two members stay in the hash map
and are out of reach of `zset->tree`. -/
theorem fifth_member_drops_two : ∃ zset, run (zsetStep ⟨64, 0⟩) {}
      [.add (ascii "a") ⟨0⟩, .add (ascii "b") ⟨1⟩, .add (ascii "c") ⟨2⟩, .add (ascii "d") ⟨3⟩,
        .add (ascii "e") ⟨4⟩] = .ok zset ∧ ¬∃ t, zset.TreeIndexes t := by
  have hsizes : (run (zsetStep ⟨64, 0⟩) {}
      [.add (ascii "a") ⟨0⟩, .add (ascii "b") ⟨1⟩, .add (ascii "c") ⟨2⟩, .add (ascii "d") ⟨3⟩,
        .add (ascii "e") ⟨4⟩]).toOption.map
      (fun z => ((inorder z.storedTree).length, (z.hmap.order.map HNode.ptr).length)) =
      some (3, 5) := by decide +kernel
  obtain ⟨zset, hrun, hsizes⟩ := ok_of_map hsizes
  obtain ⟨htree, hmap⟩ := Prod.mk.inj hsizes
  refine ⟨zset, hrun, ?_⟩
  rintro ⟨t, h⟩
  rw [h.storedTree, h.perm.length_eq, hmap] at htree
  cases htree

end RedisServer
