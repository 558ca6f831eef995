import RedisServer.SortedSetRuns

/-!
# zset.cpp — the destructor

`ZSet::~ZSet` frees the nodes that `free_avl_nodes` reaches from `tree` by child links.  The tables
of `hmap` are never freed, and the model leaves them in place.

Results:
* `destroy_ok_iff` — the destructor frees no node twice if and only if the child links from the
  root are those of a tree of live nodes, and then it frees exactly the nodes of this tree;
* `destroy_leaks` — over every history of a set: the nodes it leaks are the members that the tree
  has lost.
-/

set_option autoImplicit false

namespace RedisServer

open Runs

/-! ## The model -/

/-- `free(znode)`; a node that is not allocated any more would be freed twice. -/
def freeNode (zset : ZSet) (node : Ptr) : Res ZSet := do
  let _ ← zset.links.read node
  return znodeDel zset node

def freeAvlNodes : Nat → ZSet → Option Ptr → Res ZSet
  | _, zset, none => .ok zset
  | 0, _, some _ => .error .outOfFuel
  | fuel + 1, zset, some node => do
    let zset ← freeAvlNodes fuel zset (← zset.links.read node).left
    let zset ← freeAvlNodes fuel zset (← zset.links.read node).right
    freeNode zset node

/-- `ZSet::~ZSet` -/
def ZSet.destroy (lim : Limits) (zset : ZSet) : Res ZSet := do
  let zset ← freeAvlNodes lim.steps zset zset.tree
  return { zset with tree := none }

/-! ## What is freed -/

open Trees BinaryTree

/-- The nodes of the tree are live, and their child links are those of the tree. -/
def Branches (m : Links) : PTree → Prop
  | nil => True
  | node p l r =>
    (∃ n, m p = some n ∧ n.left = root l ∧ n.right = root r) ∧ Branches m l ∧ Branches m r

/-- The set without the nodes at these addresses. -/
def ZSet.without (zset : ZSet) (ps : List Ptr) : ZSet :=
  { zset with
    links := fun q => if q ∈ ps then none else zset.links q
    nodes := fun q => if q ∈ ps then none else zset.nodes q }

/-- What the destructor needs: the child links from the root are those of a tree. -/
def ZSet.TreeShaped (zset : ZSet) (t : PTree) : Prop :=
  zset.tree = root t ∧ Branches zset.links t ∧ (inorder t).Nodup

variable {m m' : Links} {zset zset' : ZSet} {t l r : PTree} {p q : Ptr} {ps qs : List Ptr}
  {lim : Limits} {parent : Option Ptr}

theorem Branches.congr : ∀ {t : PTree}, Branches m t → (∀ q ∈ inorder t, m' q = m q) →
    Branches m' t
  | nil, _, _ => trivial
  | node p l r, ⟨⟨n, hn, hlink⟩, hl, hr⟩, ha => by
    simp only [inorder_node, List.mem_append, List.mem_cons] at ha
    exact ⟨⟨n, (ha p (.inr (.inl rfl))).trans hn, hlink⟩, hl.congr fun q hq => ha q (.inl hq),
      hr.congr fun q hq => ha q (.inr (.inr hq))⟩

theorem Branches.live : ∀ {t : PTree}, Branches m t → ∀ q ∈ inorder t, ∃ n, m q = some n
  | nil, _, _, hq => by cases hq
  | node p l r, ⟨⟨n, hn, _⟩, hl, hr⟩, q, hq => by
    simp only [inorder_node, List.mem_append, List.mem_cons] at hq
    rcases hq with hq | rfl | hq
    · exact hl.live q hq
    · exact ⟨n, hn⟩
    · exact hr.live q hq

theorem Linked.branches {m : Links} : ∀ {t : PTree} {parent : Option Ptr}, Linked m parent t →
    Branches m t
  | nil, _, _ => trivial
  | node _ _ _, _, ⟨⟨n, hn, hlink⟩, hl, hr⟩ =>
    ⟨⟨n, hn, hlink.left, hlink.right⟩, hl.branches, hr.branches⟩

theorem without_links (h : q ∉ ps) : (zset.without ps).links q = zset.links q := if_neg h

theorem without_live {n : AVLNode} (h : (zset.without ps).links q = some n) :
    q ∉ ps ∧ zset.links q = some n := by
  by_cases hq : q ∈ ps
  · have hnone : (zset.without ps).links q = none := if_pos hq
    rw [hnone] at h
    cases h
  · exact ⟨hq, (without_links hq).symm.trans h⟩

theorem without_nil (zset : ZSet) : zset.without [] = zset := by simp [ZSet.without]

theorem without_without (zset : ZSet) (ps qs : List Ptr) :
    (zset.without ps).without qs = zset.without (ps ++ qs) := by
  unfold ZSet.without
  congr 1 <;>
  · funext q
    simp only [List.mem_append]
    by_cases hp : q ∈ ps <;> by_cases hq : q ∈ qs <;> simp [hp, hq]

theorem without_perm (zset : ZSet) (h : ps.Perm qs) : zset.without ps = zset.without qs := by
  unfold ZSet.without
  simp only [h.mem_iff]

theorem znodeDel_eq (zset : ZSet) (p : Ptr) : znodeDel zset p = zset.without [p] := by
  unfold znodeDel ZSet.without Store.free
  simp only [List.mem_singleton]

/-- The three parts of a node's turn, put together. -/
theorem without_node (zset : ZSet) (p : Ptr) (l r : PTree) :
    ((zset.without (inorder l)).without (inorder r)).without [p] =
      zset.without (inorder (node p l r)) := by
  rw [without_without, without_without]
  apply without_perm
  rw [inorder_node]
  exact (List.perm_append_singleton p (inorder r)).append_left _

/-- **`free_avl_nodes` that returns** has found a tree of live nodes, and freed exactly these. -/
theorem freeAvlNodes_ok : ∀ {fuel : Nat} {zset zset' : ZSet} {link : Option Ptr},
    freeAvlNodes fuel zset link = .ok zset' →
    ∃ t, root t = link ∧ Branches zset.links t ∧ (inorder t).Nodup ∧ t.height ≤ fuel ∧
      zset' = zset.without (inorder t)
  | fuel, zset, zset', none, h => by
    unfold freeAvlNodes at h
    cases h
    exact ⟨nil, rfl, trivial, .nil, Nat.zero_le _, (without_nil zset).symm⟩
  | 0, zset, zset', some p, h => by cases h
  | fuel + 1, zset, zset', some p, h => by
    rw [freeAvlNodes] at h
    obtain ⟨n, hn, h⟩ := bind_ok.mp h
    obtain ⟨z₁, h₁, h⟩ := bind_ok.mp h
    obtain ⟨n', hn', h⟩ := bind_ok.mp h
    obtain ⟨z₂, h₂, h⟩ := bind_ok.mp h
    obtain ⟨n'', hn'', h⟩ := bind_ok.mp h
    cases h
    obtain ⟨l, hl, hbl, hndl, hfl, rfl⟩ := freeAvlNodes_ok h₁
    obtain ⟨hpl, hp⟩ := without_live (Store.read_ok.mp hn')
    cases hp.symm.trans (Store.read_ok.mp hn)
    obtain ⟨r, hr, hbr, hndr, hfr, rfl⟩ := freeAvlNodes_ok h₂
    obtain ⟨hpr, -⟩ := without_live (Store.read_ok.mp hn'')
    -- what is left of the right subtree was not in the left one
    have hdisjoint : ∀ q ∈ inorder r, q ∉ inorder l := fun q hq =>
      (without_live (hbr.live q hq).choose_spec).1
    have hbr' : Branches zset.links r :=
      hbr.congr fun q hq => (without_links (hdisjoint q hq)).symm
    refine ⟨node p l r, rfl, ⟨⟨n, hp, hl.symm, hr.symm⟩, hbl, hbr'⟩, ?_, ?_, ?_⟩
    · rw [inorder_node, List.nodup_append, List.nodup_cons]
      refine ⟨hndl, ⟨hpr, hndr⟩, ?_⟩
      intro a ha b hb hab
      subst hab
      rcases List.mem_cons.mp hb with rfl | hb
      · exact hpl ha
      · exact hdisjoint a hb ha
    · simp only [height]
      omega
    · rw [znodeDel_eq, without_node]

theorem freeAvlNodes_of : ∀ {t : PTree} {fuel : Nat} {zset : ZSet}, Branches zset.links t →
    (inorder t).Nodup → t.height ≤ fuel →
    freeAvlNodes fuel zset (root t) = .ok (zset.without (inorder t))
  | nil, fuel, zset, _, _, _ => by
    rw [inorder_nil, without_nil]
    unfold freeAvlNodes
    rfl
  | node p l r, 0, _, _, _, hf => by simp at hf
  | node p l r, fuel + 1, zset, ⟨⟨n, hn, hleft, hright⟩, hl, hr⟩, hnd, hf => by
    simp only [height] at hf
    rw [inorder_node, List.nodup_append, List.nodup_cons] at hnd
    obtain ⟨hndl, ⟨hpr, hndr⟩, hdis⟩ := hnd
    have hpl : p ∉ inorder l := fun hp => hdis p hp p List.mem_cons_self rfl
    have hdisjoint : ∀ q ∈ inorder r, q ∉ inorder l := fun q hq hql =>
      hdis q hql q (List.mem_cons_of_mem _ hq) rfl
    have h₁ : freeAvlNodes fuel zset n.left = .ok (zset.without (inorder l)) :=
      hleft ▸ freeAvlNodes_of hl hndl (by omega)
    have hn₁ : (zset.without (inorder l)).links p = some n := (without_links hpl).trans hn
    have hr₁ : Branches (zset.without (inorder l)).links r :=
      hr.congr fun q hq => without_links (hdisjoint q hq)
    have h₂ : freeAvlNodes fuel (zset.without (inorder l)) n.right =
        .ok ((zset.without (inorder l)).without (inorder r)) :=
      hright ▸ freeAvlNodes_of hr₁ hndr (by omega)
    have hn₂ : ((zset.without (inorder l)).without (inorder r)).links p = some n :=
      (without_links hpr).trans hn₁
    rw [root_node, freeAvlNodes, Store.read_of hn, ok_bind, h₁, ok_bind, Store.read_of hn₁, ok_bind,
      h₂, ok_bind, freeNode, Store.read_of hn₂, ok_bind, znodeDel_eq, without_node]
    rfl

/-- **When the destructor returns.** -/
theorem destroy_ok_iff : zset.destroy lim = .ok zset' ↔ ∃ t, zset.TreeShaped t ∧
    t.height ≤ lim.steps ∧ zset' = { zset.without (inorder t) with tree := none } := by
  constructor
  · intro h
    obtain ⟨z, hz, h⟩ := bind_ok.mp h
    cases h
    obtain ⟨t, hroot, hb, hnd, hf, rfl⟩ := freeAvlNodes_ok hz
    exact ⟨t, ⟨hroot.symm, hb, hnd⟩, hf, rfl⟩
  · rintro ⟨t, ⟨hroot, hb, hnd⟩, hf, rfl⟩
    exact bind_ok.mpr ⟨_, hroot ▸ freeAvlNodes_of hb hnd hf, rfl⟩

/-! ## What is leaked -/

/-- Every node of the set is linked by its hash map. -/
def ZSet.Accounted (zset : ZSet) : Prop :=
  ∀ p z, zset.nodes p = some z → ∃ n ∈ zset.hmap.order, n.ptr = p

variable {name : Bytes} {score : Dbl}

theorem ZSet.Accounted.congr (h : zset.Accounted) (hperm : zset'.hmap.order.Perm zset.hmap.order)
    (hnodes : ∀ p z, zset'.nodes p = some z → ∃ z₀, zset.nodes p = some z₀) : zset'.Accounted := by
  intro p z hz
  obtain ⟨z₀, hz₀⟩ := hnodes p z hz
  obtain ⟨n, hn, hp⟩ := h p z₀ hz₀
  exact ⟨n, hperm.mem_iff.mpr hn, hp⟩

theorem ZSet.Accounted.looked {r : Option Ptr} (h : zset.Accounted)
    (hl : zset.LooksUp name zset' r) : zset'.Accounted := by
  refine h.congr hl.perm ?_
  intro q z hz
  rw [hl.eq] at hz
  exact ⟨z, hz⟩

theorem zsetUpdate_accounted (h : zset.Accounted) (hu : zsetUpdate lim zset p score = .ok zset') :
    zset'.Accounted := by
  obtain ⟨z, hz, hu⟩ := bind_ok.mp hu
  have hz := Store.read_ok.mp hz
  split at hu
  · cases hu
    exact h
  · obtain ⟨⟨m, tree⟩, -, hu⟩ := bind_ok.mp hu
    obtain ⟨m', root, rfl⟩ := treeAdd_frame hu
    refine h.congr (.refl _) fun q zq hq => ?_
    by_cases hqp : q = p
    · exact ⟨z, hqp ▸ hz⟩
    · exact ⟨zq, (Store.write_of_ne _ _ hqp).symm.trans hq⟩

theorem zsetAdd_accounted {b : Bool} (hi : zset.Indexed) (h : zset.Accounted)
    (ha : zsetAdd lim zset name score = .ok (zset', b)) : zset'.Accounted := by
  obtain ⟨⟨zset₁, found⟩, hl, ha⟩ := bind_ok.mp ha
  have hl := zsetLookup_spec hi hl
  have h₁ := h.looked hl
  have hi₁ := hl.indexed hi
  cases found with
  | some p =>
    obtain ⟨zset₂, hu, ha⟩ := bind_ok.mp ha
    cases ha
    exact zsetUpdate_accounted h₁ hu
  | none =>
    obtain ⟨hmap, hins, ha⟩ := bind_ok.mp ha
    obtain ⟨m₁, k, -, hlink, hk⟩ := hmInsert_spec hi₁.shape hi₁.notMem_next hins
    obtain ⟨zset₂, hadd, ha⟩ := bind_ok.mp ha
    cases ha
    obtain ⟨m, root, rfl⟩ := treeAdd_frame hadd
    have hperm := hk.perm.trans hlink.perm
    intro q z hz
    by_cases hq : q = zset₁.next
    · exact ⟨_, hperm.mem_iff.mpr List.mem_cons_self, hq.symm⟩
    · obtain ⟨n, hn, hp⟩ := h₁ q z ((Store.write_of_ne _ _ hq).symm.trans hz)
      exact ⟨n, hperm.mem_iff.mpr (List.mem_cons_of_mem _ hn), hp⟩

theorem zsetStep_accounted (zset : ZSet) (op : ZOp) (zset' : ZSet)
    (h : zset.Indexed ∧ zset.Accounted) (hs : zsetStep lim zset op = .ok zset') :
    zset'.Indexed ∧ zset'.Accounted := by
  refine ⟨zsetStep_indexed op h.1 hs, ?_⟩
  cases op with
  | add name score =>
    obtain ⟨⟨z, b⟩, ha, hs⟩ := bind_ok.mp hs
    cases hs
    exact zsetAdd_accounted h.1 h.2 ha
  | pop name =>
    obtain ⟨⟨z, r⟩, hp, hs⟩ := bind_ok.mp hs
    cases hs
    obtain ⟨-, hl⟩ := zsetPop_ok h.1 hp
    exact h.2.looked (zsetLookup_spec h.1 hl)

/-- A call adds at most one member. -/
theorem zsetStep_length {op : ZOp} (h : zset.Indexed) (hs : zsetStep lim zset op = .ok zset') :
    zset'.hmap.order.length ≤ zset.hmap.order.length + 1 := by
  cases op with
  | add name score =>
    obtain ⟨⟨z, b⟩, ha, hs⟩ := bind_ok.mp hs
    cases hs
    obtain ⟨⟨zset₁, found⟩, hl, ha⟩ := bind_ok.mp ha
    have hl := zsetLookup_spec h hl
    have hi₁ := hl.indexed h
    have hlen := hl.perm.length_eq
    cases found with
    | some p =>
      obtain ⟨zset₂, hu, ha⟩ := bind_ok.mp ha
      cases ha
      rw [zsetUpdate_hmap hu]
      omega
    | none =>
      obtain ⟨hmap, hins, ha⟩ := bind_ok.mp ha
      obtain ⟨m₁, k, -, hlink, hk⟩ := hmInsert_spec hi₁.shape hi₁.notMem_next hins
      obtain ⟨zset₂, hadd, ha⟩ := bind_ok.mp ha
      cases ha
      obtain ⟨m, root, rfl⟩ := treeAdd_frame hadd
      have hnew := (hk.perm.trans hlink.perm).length_eq
      rw [List.length_cons] at hnew
      exact Nat.le_of_eq (hnew.trans (congrArg (· + 1) hlen))
  | pop name =>
    obtain ⟨⟨z, r⟩, hp, hs⟩ := bind_ok.mp hs
    cases hs
    obtain ⟨-, hl⟩ := zsetPop_ok h hp
    exact Nat.le_succ_of_le (Nat.le_of_eq (zsetLookup_spec h hl).perm.length_eq)

theorem zsetRun_length : ∀ {ops : List ZOp} {zset zset' : ZSet}, zset.Indexed →
    run (zsetStep lim) zset ops = .ok zset' →
    zset'.hmap.order.length ≤ zset.hmap.order.length + ops.length
  | [], _, _, _, h => by
    cases h
    exact Nat.le_refl _
  | op :: ops, zset, zset', hi, h => by
    obtain ⟨zset₁, hs, h⟩ := run_cons_ok.mp h
    have hstep := zsetStep_length hi hs
    have hrest := zsetRun_length (zsetStep_indexed op hi hs) h
    rw [List.length_cons]
    omega

/-- **What the destructor leaks**, after any history of calls: it returns if and only if the child
links are those of a tree, and the nodes that are left are the members this tree has lost.  After a
history that keeps the tree whole it frees them all. -/
theorem destroy_leaks (lim : Limits) (ops : List ZOp) (zset : ZSet)
    (h : run (zsetStep lim) {} ops = .ok zset) :
    ((∃ zset', zset.destroy lim = .ok zset') ↔
      ∃ t, zset.TreeShaped t ∧ t.height ≤ lim.steps) ∧
    (∀ zset', zset.destroy lim = .ok zset' → ∃ t, zset.TreeShaped t ∧
      ∀ p, (∃ z, zset'.nodes p = some z) ↔
        p ∈ zset.hmap.order.map HNode.ptr ∧ p ∉ inorder t) ∧
    ((∀ op ∈ ops, op.Numeric) → AllSteps (zsetStep lim) (fun z op => z.calm op = true) {} ops →
      2 * ops.length + 1 < lim.steps →
      ∃ zset', zset.destroy lim = .ok zset' ∧ zset'.nodes = Store.empty) := by
  have hi : zset.Indexed ∧ zset.Accounted :=
    run_invariant_all zsetStep_accounted ⟨.empty, nofun⟩ h
  have hleft : ∀ zset', zset.destroy lim = .ok zset' → ∃ t, zset.TreeShaped t ∧
      ∀ p, (∃ z, zset'.nodes p = some z) ↔
        p ∈ zset.hmap.order.map HNode.ptr ∧ p ∉ inorder t := by
    intro zset' hd
    obtain ⟨t, ht, -, rfl⟩ := destroy_ok_iff.mp hd
    refine ⟨t, ht, fun p => ?_⟩
    show (∃ z, (if p ∈ inorder t then none else zset.nodes p) = some z) ↔ _
    by_cases hp : p ∈ inorder t
    · simp [hp]
    · rw [if_neg hp, List.mem_map]
      constructor
      · rintro ⟨z, hz⟩
        exact ⟨hi.2 p z hz, hp⟩
      · rintro ⟨⟨n, hn, rfl⟩, -⟩
        obtain ⟨z, hz, -⟩ := hi.1.node n hn
        exact ⟨z, hz⟩
  refine ⟨⟨?_, ?_⟩, hleft, ?_⟩
  · rintro ⟨zset', hd⟩
    obtain ⟨t, ht, hf, -⟩ := destroy_ok_iff.mp hd
    exact ⟨t, ht, hf⟩
  · rintro ⟨t, ht, hf⟩
    exact ⟨_, destroy_ok_iff.mpr ⟨t, ht, hf, rfl⟩⟩
  · intro hnum hcalm hsteps
    obtain ⟨zset₁, t, hrun, hsound, -⟩ := zsetRun_sound ZSet.Sound.empty (fun _ => .none) hnum hcalm
      (show 2 * (0 + ops.length) + 1 < lim.steps by omega)
    cases hrun.symm.trans h
    have hti := hsound.treeIndexes
    have hlen : zset.hmap.order.length ≤ 0 + ops.length := zsetRun_length .empty h
    have hheight := hti.height_le
    have hd := destroy_ok_iff.mpr ⟨t, ⟨hti.tree, hti.linked.branches, hti.nodup⟩,
      show t.height ≤ lim.steps by omega, rfl⟩
    refine ⟨_, hd, ?_⟩
    funext p
    show (if p ∈ inorder t then none else zset.nodes p) = none
    split
    · rfl
    · rename_i hp
      by_contra hsome
      obtain ⟨z, hz⟩ := Option.ne_none_iff_exists'.mp hsome
      obtain ⟨n, hn, hnp⟩ := hi.2 p z hz
      exact hp (hsound.mem.mpr ⟨n, hn, hnp⟩)

/-- Five ascending members: the last two, which the tree has lost, are left. -/
theorem destroy_leaks_ascending : ∃ zset zset' t, run (zsetStep ⟨64, 0⟩) {}
      [.add (ascii "a") ⟨0⟩, .add (ascii "b") ⟨1⟩, .add (ascii "c") ⟨2⟩, .add (ascii "d") ⟨3⟩,
        .add (ascii "e") ⟨4⟩] = .ok zset ∧
    zset.destroy ⟨64, 0⟩ = .ok zset' ∧ zset.TreeShaped t ∧
    (∀ p, (∃ z, zset'.nodes p = some z) ↔
      p ∈ zset.hmap.order.map HNode.ptr ∧ p ∉ inorder t) ∧
    (List.range 5).map (fun p => (zset'.nodes p).isSome) = [false, false, false, true, true] := by
  have hfacts : (run (zsetStep ⟨64, 0⟩) {}
      [.add (ascii "a") ⟨0⟩, .add (ascii "b") ⟨1⟩, .add (ascii "c") ⟨2⟩, .add (ascii "d") ⟨3⟩,
        .add (ascii "e") ⟨4⟩]).toOption.map (fun zset =>
        (zset.destroy ⟨64, 0⟩).toOption.map fun zset' =>
          (List.range 5).map fun p => (zset'.nodes p).isSome) =
      some (some [false, false, false, true, true]) := by decide +kernel
  obtain ⟨zset, hrun, hfacts⟩ := ok_of_map hfacts
  obtain ⟨zset', hd, hleft⟩ := ok_of_map hfacts
  obtain ⟨-, hleaks, -⟩ := destroy_leaks ⟨64, 0⟩ _ zset hrun
  obtain ⟨t, ht, hiff⟩ := hleaks zset' hd
  exact ⟨zset, zset', t, hrun, hd, ht, hiff, hleft⟩

end RedisServer
