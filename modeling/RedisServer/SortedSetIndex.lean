import RedisServer.MemberOrder
import RedisServer.HashTableInv

/-!
# The name index of a sorted set

`ZOp` is a call of `zset_add` or `zset_pop`.  Every sorted set such calls lead to has an index in
order, whatever has become of its tree: `ZSet.Indexed` ties the hash map to the members and their
hash values.

`zset_pop` hands the index to `hm_delete`, which compares with `entry_eq`: of a `ZNode`, that reads
the `key` of an `Entry` that is not there.

Results:
* `zsetStep_indexed` — every call keeps `Indexed`;
* `hmDelete_on_members` — `hm_delete` of a linked member always runs into `entry_eq`;
* `zsetPop_ok` — so `zset_pop` never returns a member.
-/

set_option autoImplicit false

namespace RedisServer

open Runs

/-- A call of `zset_add` or `zset_pop`. -/
inductive ZOp where
  | add (name : Bytes) (score : Dbl)
  | pop (name : Bytes)

def zsetStep (lim : Limits) (zset : ZSet) : ZOp → Res ZSet
  | .add name score => do return (← zsetAdd lim zset name score).1
  | .pop name => do return (← zsetPop lim zset name).1

/-- The member around the node has this name. -/
def hasName (nodes : Store ZNode) (name : Bytes) (n : HNode) : Bool :=
  match nodes n.ptr with
  | some z => decide (z.name = name)
  | none => false

/-- The hash map and the members belong together. -/
structure ZSet.Indexed (zset : ZSet) : Prop where
  shape : zset.hmap.Shape
  node : ∀ n ∈ zset.hmap.order, ∃ z, zset.nodes n.ptr = some z ∧ z.hcode = n.hcode ∧
    z.hcode = strHash z.name
  fresh : ∀ n ∈ zset.hmap.order, n.ptr < zset.next

variable {lim : Limits} {zset zset' : ZSet} {name : Bytes} {nodes : Store ZNode} {n : HNode}

theorem ZSet.Indexed.empty : ZSet.Indexed {} where
  shape := .empty
  node n hn := by cases hn
  fresh n hn := by cases hn

theorem hasName_of {z : ZNode} (h : nodes n.ptr = some z) :
    hasName nodes name n = true ↔ z.name = name := by simp [hasName, h]

theorem hcmp_eq {z : ZNode} (h : nodes n.ptr = some z) :
    hcmp nodes name n = .ok (hasName nodes name n) := by
  simp only [hcmp, Store.read_of h, ok_bind, hasName, h]
  by_cases hlen : z.name.length = name.length
  · simp [hlen, memcmp_eq_zero hlen]
  · have hne : z.name ≠ name := fun he => hlen (congrArg List.length he)
    simp [hlen, hne]

/-! ## Lookups -/

/-- What a lookup of `name` returns, and leaves. -/
structure ZSet.LooksUp (zset : ZSet) (name : Bytes) (zset' : ZSet) (r : Option Ptr) : Prop where
  eq : zset' = { zset with hmap := zset'.hmap }
  perm : zset'.hmap.order.Perm zset.hmap.order
  shape : zset'.hmap.Shape
  exact : zset.hmap.Exact → zset'.hmap.Exact
  missing : r = none → zset.tree = none ∨ ∀ n ∈ zset.hmap.order, hasName zset.nodes name n = false
  found : ∀ p, r = some p → ∃ n ∈ zset.hmap.order, n.ptr = p ∧ hasName zset.nodes name n = true

theorem ZSet.Indexed.hcmp_ok (h : zset.Indexed) (name : Bytes) :
    ∀ n ∈ zset.hmap.order, n.hcode = strHash name →
      hcmp zset.nodes name n = .ok (hasName zset.nodes name n) := by
  intro n hn _
  obtain ⟨z, hz, -⟩ := h.node n hn
  exact hcmp_eq hz

/-- A member of this name has its hash value. -/
theorem ZSet.Indexed.hits (h : zset.Indexed) (hn : n ∈ zset.hmap.order)
    (hname : hasName zset.nodes name n = true) :
    RedisServer.hits (strHash name) (hasName zset.nodes name) n = true := by
  obtain ⟨z, hz, hcode, hhash⟩ := h.node n hn
  have := (hasName_of hz).mp hname
  simp [RedisServer.hits, cls, hname, ← hcode, hhash, this]

theorem zsetLookup_spec (h : zset.Indexed) {r : Option Ptr}
    (hl : zsetLookup zset name = .ok (zset', r)) : zset.LooksUp name zset' r := by
  unfold zsetLookup at hl
  cases ht : zset.tree with
  | none =>
    rw [ht] at hl
    cases hl
    exact ⟨rfl, .refl _, h.shape, id, fun _ => .inl ht, fun p hp => by cases hp⟩
  | some root =>
    simp only [ht] at hl
    obtain ⟨⟨hmap, found⟩, hfound, hl⟩ := bind_ok.mp hl
    obtain ⟨rfl, rfl⟩ := Prod.mk.inj (Except.ok.inj hl)
    obtain ⟨-, ⟨k, hk⟩, hr⟩ := hmLookup_spec h.shape (h.hcmp_ok name) hfound
    refine ⟨by rw [ht], hk.perm, hk.shape, hk.exact.mpr, fun hnone => .inr ?_, ?_⟩
    · intro n hn
      have hnone : hmap.found (strHash name) (hasName zset.nodes name) = none := by
        rw [← hr]
        exact Option.map_eq_none_iff.mp hnone
      have hno := List.find?_eq_none.mp hnone n (hk.mem.mpr hn)
      rw [Bool.eq_false_iff]
      exact fun hname => hno (h.hits hn hname)
    · intro p hp
      obtain ⟨n, hn, rfl⟩ := Option.map_eq_some_iff.mp hp
      rw [hr] at hn
      have hhit := List.find?_some hn
      simp only [RedisServer.hits, Bool.and_eq_true] at hhit
      exact ⟨n, hk.mem.mp (List.mem_of_find?_eq_some hn), rfl, hhit.2⟩

theorem ZSet.LooksUp.indexed {r : Option Ptr} (hl : zset.LooksUp name zset' r)
    (h : zset.Indexed) : zset'.Indexed := by
  obtain ⟨heq, hperm, hshape, -⟩ := hl
  rw [heq]
  exact ⟨hshape, fun n hn => h.node n (hperm.mem_iff.mp hn),
    fun n hn => h.fresh n (hperm.mem_iff.mp hn)⟩

/-! ## Deletion through entry_eq -/

/-- A chain with a node of the hash value asked for is never walked to its end. -/
theorem chainFind_on_members {h : UInt64} {r : Option Nat} : ∀ {c : Chain},
    chainFind h entryEqOnZNode c = .ok r → ∀ n ∈ c, n.hcode ≠ h
  | [], _, _, hn => by cases hn
  | a :: c, hc, n, hn => by
    rw [chainFind] at hc
    split at hc
    · cases hc
    · rename_i ha
      obtain ⟨r', hr', -⟩ := bind_ok.mp hc
      rcases List.mem_cons.mp hn with rfl | hn
      · exact ha
      · exact chainFind_on_members hr' n hn

theorem hlookup_on_members {t : HTab} (ok : t.Ok) {h : UInt64} {r : Option Link}
    (hl : hlookup t h entryEqOnZNode = .ok r) : ∀ n ∈ t.nodes, n.hcode ≠ h := by
  intro n hn hcode
  unfold hlookup at hl
  cases htab : t.tab with
  | none =>
    rw [HTab.nodes_none htab] at hn
    cases hn
  | some tab =>
    have hsome : t.tab.isSome := by rw [htab]; rfl
    obtain ⟨c, hc⟩ := ok.slot_bucket hsome h
    rw [if_neg (by simp [htab])] at hl
    obtain ⟨c', hc', hl⟩ := bind_ok.mp hl
    cases hc.symm.trans (HTab.bucket_ok.mp hc')
    obtain ⟨r', hr', -⟩ := bind_ok.mp hl
    have hmem : n ∈ t.nodes.filter (cls h) := List.mem_filter.mpr ⟨hn, cls_iff.mpr hcode⟩
    rw [ok.filter_cls (fun _ => cls_iff.mp) hc] at hmem
    exact chainFind_on_members hr' n (List.mem_filter.mp hmem).1 hcode

/-- **`hm_delete` of a linked member** applies `entry_eq` to a `ZNode`. -/
theorem hmDelete_on_members {m : HMap} (hs : m.Shape) (hn : n ∈ m.order)
    (r : HMap × Option HNode) : hmDelete m n.hcode entryEqOnZNode ≠ .ok r := by
  intro hd
  obtain ⟨m₁, h₁, hd⟩ := bind_ok.mp hd
  obtain ⟨k, hk⟩ := hmHelpResizing_spec hs h₁
  obtain ⟨r₁, hr₁, hd⟩ := bind_ok.mp hd
  have hno₁ := hlookup_on_members hk.shape.ok1 hr₁
  rcases List.mem_append.mp (hk.mem.mpr hn) with hm | hm
  · exact hno₁ n hm rfl
  · cases r₁ with
    | some frm =>
      -- nothing in ht1 has this hash value, so nothing is found there
      rcases hlookup_spec (p := fun _ => true) hk.shape.ok1
        (fun a ha hah => absurd hah (hno₁ a ha)) with ⟨hnone, -⟩ | ⟨_, _, _, a, -, -, -, hf⟩
      · cases hr₁.symm.trans hnone
      · exact hno₁ a (List.mem_of_find?_eq_some hf) (hits_cls (List.find?_some hf))
    | none =>
      obtain ⟨r₂, hr₂, -⟩ := bind_ok.mp hd
      exact hlookup_on_members hk.shape.ok2 hr₂ n hm rfl

/-! ## The calls -/

theorem treeAdd_frame {x : Ptr} (h : treeAdd lim zset x = .ok zset') :
    ∃ m root, zset' = { zset with tree := some root, links := m } := by
  obtain ⟨frm, -, h⟩ := bind_ok.mp h
  obtain ⟨m₁, -, h⟩ := bind_ok.mp h
  obtain ⟨m₂, -, h⟩ := bind_ok.mp h
  obtain ⟨⟨m, root⟩, -, h⟩ := bind_ok.mp h
  cases h
  exact ⟨m, root, rfl⟩

/-- Index and names do not depend on the tree, its links and the scores. -/
theorem ZSet.Indexed.congr (h : zset.Indexed) (hm : zset'.hmap = zset.hmap)
    (hn : zset'.next = zset.next)
    (hz : ∀ p z, zset.nodes p = some z → ∃ z', zset'.nodes p = some z' ∧ z'.hcode = z.hcode ∧
      z'.name = z.name) : zset'.Indexed := by
  refine ⟨hm ▸ h.shape, ?_, ?_⟩
  · intro n hmem
    rw [hm] at hmem
    obtain ⟨z, hzn, hcode, hhash⟩ := h.node n hmem
    obtain ⟨z', hz', hc', hname⟩ := hz n.ptr z hzn
    exact ⟨z', hz', hc'.trans hcode, by rw [hc', hname, hhash]⟩
  · intro n hmem
    rw [hm] at hmem
    rw [hn]
    exact h.fresh n hmem

theorem zsetUpdate_indexed {p : Ptr} {score : Dbl} (h : zset.Indexed)
    (hu : zsetUpdate lim zset p score = .ok zset') : zset'.Indexed := by
  obtain ⟨z, hz, hu⟩ := bind_ok.mp hu
  have hz := Store.read_ok.mp hz
  split at hu
  · cases hu
    exact h
  · obtain ⟨⟨m, tree⟩, -, hu⟩ := bind_ok.mp hu
    obtain ⟨m', root, rfl⟩ := treeAdd_frame hu
    refine h.congr rfl rfl fun q zq hq => ?_
    by_cases hqp : q = p
    · subst hqp
      cases hz.symm.trans hq
      exact ⟨_, Store.write_self _ _ _, rfl, rfl⟩
    · exact ⟨zq, (Store.write_of_ne _ _ hqp).trans hq, rfl, rfl⟩

theorem ZSet.Indexed.notMem_next (h : zset.Indexed) :
    zset.next ∉ zset.hmap.order.map HNode.ptr := by
  intro hm
  obtain ⟨n, hn, hp⟩ := List.mem_map.mp hm
  exact Nat.lt_irrefl _ (hp ▸ h.fresh n hn)

/-- Linking a new member. -/
theorem ZSet.Indexed.insert (h : zset.Indexed) {hmap : HMap} {z : ZNode}
    (hz : z.hcode = strHash z.name)
    (hperm : hmap.order.Perm (⟨zset.next, z.hcode⟩ :: zset.hmap.order)) (hs : hmap.Shape)
    (links : Links) :
    ZSet.Indexed { zset with
      hmap := hmap, links := links, nodes := zset.nodes.write zset.next z, next := zset.next + 1 }
    where
  shape := hs
  node n hn := by
    rcases List.mem_cons.mp (hperm.mem_iff.mp hn) with rfl | hn
    · exact ⟨z, Store.write_self _ _ _, rfl, hz⟩
    · obtain ⟨zn, hzn, hrest⟩ := h.node n hn
      exact ⟨zn, (Store.write_of_ne _ _ (Nat.ne_of_lt (h.fresh n hn))).trans hzn, hrest⟩
  fresh n hn := by
    rcases List.mem_cons.mp (hperm.mem_iff.mp hn) with rfl | hn
    · exact Nat.lt_succ_self _
    · exact Nat.lt_succ_of_lt (h.fresh n hn)

theorem zsetAdd_indexed {score : Dbl} {b : Bool} (h : zset.Indexed)
    (ha : zsetAdd lim zset name score = .ok (zset', b)) : zset'.Indexed := by
  obtain ⟨⟨zset₁, found⟩, hl, ha⟩ := bind_ok.mp ha
  have h₁ := (zsetLookup_spec h hl).indexed h
  cases found with
  | some p =>
    obtain ⟨zset₂, hu, ha⟩ := bind_ok.mp ha
    cases ha
    exact zsetUpdate_indexed h₁ hu
  | none =>
    obtain ⟨hmap, hins, ha⟩ := bind_ok.mp ha
    obtain ⟨m₁, k, -, hlink, hk⟩ := hmInsert_spec h₁.shape h₁.notMem_next hins
    obtain ⟨zset₂, hadd, ha⟩ := bind_ok.mp ha
    cases ha
    obtain ⟨m, root, rfl⟩ := treeAdd_frame hadd
    have h₂ := h₁.insert (z := znodeNew name score) rfl (hk.perm.trans hlink.perm) hk.shape m
    exact h₂.congr rfl rfl fun p z hz => ⟨z, hz, rfl, rfl⟩

/-- `zset_pop` returns for names only that are missing. -/
theorem zsetPop_ok (h : zset.Indexed) {r : Option Ptr}
    (hp : zsetPop lim zset name = .ok (zset', r)) :
    r = none ∧ zsetLookup zset name = .ok (zset', none) := by
  obtain ⟨⟨zset₁, found⟩, hl, hp⟩ := bind_ok.mp hp
  cases found with
  | none =>
    cases hp
    exact ⟨rfl, hl⟩
  | some p =>
    have hlu := zsetLookup_spec h hl
    obtain ⟨n, hn, rfl, -⟩ := hlu.found p rfl
    have h₁ := hlu.indexed h
    obtain ⟨z, hz, hp⟩ := bind_ok.mp hp
    obtain ⟨⟨m, tree⟩, -, hp⟩ := bind_ok.mp hp
    obtain ⟨r', hd, -⟩ := bind_ok.mp hp
    have hn₁ := hlu.perm.mem_iff.mpr hn
    obtain ⟨z', hz', hcode, -⟩ := h₁.node n hn₁
    cases (Store.read_ok.mp hz).symm.trans hz'
    rw [hcode] at hd
    exact absurd hd (hmDelete_on_members h₁.shape hn₁ r')

theorem zsetStep_indexed (op : ZOp) (h : zset.Indexed) (hs : zsetStep lim zset op = .ok zset') :
    zset'.Indexed := by
  cases op with
  | add name score =>
    obtain ⟨⟨z, b⟩, ha, hs⟩ := bind_ok.mp hs
    cases hs
    exact zsetAdd_indexed h ha
  | pop name =>
    obtain ⟨⟨z, r⟩, hp, hs⟩ := bind_ok.mp hs
    cases hs
    obtain ⟨-, hl⟩ := zsetPop_ok h hp
    exact (zsetLookup_spec h hl).indexed h

/-- The index of an updated set is the old one. -/
theorem zsetUpdate_hmap {p : Ptr} {score : Dbl} (hu : zsetUpdate lim zset p score = .ok zset') :
    zset'.hmap = zset.hmap := by
  obtain ⟨z, -, hu⟩ := bind_ok.mp hu
  split at hu
  · cases hu
    rfl
  · obtain ⟨⟨m, tree⟩, -, hu⟩ := bind_ok.mp hu
    obtain ⟨m', root, rfl⟩ := treeAdd_frame hu
    rfl

/-- The sizes of the index stay exact: no call that returns has deleted from it. -/
theorem zsetStep_exact (op : ZOp) (h : zset.Indexed) (hx : zset.hmap.Exact)
    (hs : zsetStep lim zset op = .ok zset') : zset'.hmap.Exact := by
  cases op with
  | add name score =>
    obtain ⟨⟨z, b⟩, ha, hs⟩ := bind_ok.mp hs
    cases hs
    obtain ⟨⟨zset₁, found⟩, hl, ha⟩ := bind_ok.mp ha
    have hl := zsetLookup_spec h hl
    have h₁ := hl.indexed h
    have hx₁ := hl.exact hx
    cases found with
    | some p =>
      obtain ⟨zset₂, hu, ha⟩ := bind_ok.mp ha
      cases ha
      rw [zsetUpdate_hmap hu]
      exact hx₁
    | none =>
      obtain ⟨hmap, hins, ha⟩ := bind_ok.mp ha
      obtain ⟨m₁, k, -, hlink, hk⟩ := hmInsert_spec h₁.shape h₁.notMem_next hins
      obtain ⟨zset₂, hadd, ha⟩ := bind_ok.mp ha
      cases ha
      obtain ⟨m, root, rfl⟩ := treeAdd_frame hadd
      exact hk.exact.mpr (hlink.exact hx₁)
  | pop name =>
    obtain ⟨⟨z, r⟩, hp, hs⟩ := bind_ok.mp hs
    cases hs
    obtain ⟨-, hl⟩ := zsetPop_ok h hp
    exact (zsetLookup_spec h hl).exact hx

theorem zsetLookup_total (h : zset.Indexed) (hx : zset.hmap.Exact) (name : Bytes) :
    ∃ r, zsetLookup zset name = .ok r := by
  unfold zsetLookup
  cases zset.tree with
  | none => exact ⟨_, rfl⟩
  | some root =>
    obtain ⟨m, r, hm⟩ := hmLookup_total h.shape hx (h.hcmp_ok name)
    apply ok_of_isSome
    rw [hm]
    rfl

end RedisServer
