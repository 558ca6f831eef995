import RedisServer.Commands

/-!
# Where exceptions and NULL sorted sets come from

Only `std::stod` and `std::stoll` throw, and only `zsetOf` meets a NULL `ZSet *`.  Everything below
the handlers is `Quiet`: it may fault, but in neither of these two ways.
-/

set_option autoImplicit false

namespace RedisServer

open Runs

/-- Neither an exception nor a NULL sorted set. -/
def Quiet {α : Type} (x : Res α) : Prop := x ≠ .error .exception ∧ x ≠ .error .nullZSet

variable {α β : Type}

@[simp] theorem quiet_ok (a : α) : Quiet (.ok a : Res α) := by simp [Quiet]

@[simp] theorem quiet_error {f : Fault} :
    Quiet (.error f : Res α) ↔ f ≠ .exception ∧ f ≠ .nullZSet := by simp [Quiet]

@[simp] theorem quiet_bind {x : Res α} {f : α → Res β} :
    Quiet (x >>= f) ↔ Quiet x ∧ ∀ a, x = .ok a → Quiet (f a) := by
  cases x <;> simp [Quiet]

@[simp] theorem quiet_ite {c : Prop} [Decidable c] {x y : Res α} :
    Quiet (if c then x else y) ↔ (c → Quiet x) ∧ (¬c → Quiet y) := by
  split <;> simp [*]

@[simp] theorem quiet_assert (b : Bool) : Quiet (assert b) := by cases b <;> simp

@[simp] theorem quiet_deref (o : Option Ptr) : Quiet (deref o) := by cases o <;> simp

@[simp] theorem quiet_read (s : Store α) (p : Ptr) : Quiet (s.read p) := by
  unfold Store.read; cases s p <;> simp

@[simp] theorem quiet_modify (s : Store α) (p : Ptr) (f : α → α) : Quiet (s.modify p f) := by
  simp [Store.modify]

@[simp] theorem quiet_arg (cmd : List Bytes) (i : Nat) : Quiet (arg cmd i) := by
  unfold arg; cases cmd[i]? <;> simp

theorem quiet_mapM {f : α → Res β} : ∀ (l : List α), (∀ a, Quiet (f a)) → Quiet (l.mapM f)
  | [], _ => quiet_ok _
  | a :: l, h => by
    rw [List.mapM_cons]
    simp [h, quiet_mapM l h]

/-! ## The hash map -/

@[simp] theorem quiet_bucket (t : HTab) (i : Nat) : Quiet (t.bucket i) := by
  unfold HTab.bucket
  split
  · simp
  · split <;> simp

@[simp] theorem quiet_unlink (t : HTab) (frm : Link) : Quiet (t.unlink frm) := by
  unfold HTab.unlink
  rw [quiet_bind]
  refine ⟨quiet_bucket _ _, ?_⟩
  intro chain _
  split <;> simp

@[simp] theorem quiet_hinit (size : Nat) : Quiet (hinit size) := by simp [hinit]

@[simp] theorem quiet_hinsert (ht : HTab) (node : HNode) : Quiet (hinsert ht node) := by
  simp [hinsert]

@[simp] theorem quiet_chainFind {hcode : UInt64} {eq : HNode → Res Bool} (he : ∀ n, Quiet (eq n)) :
    ∀ chain, Quiet (chainFind hcode eq chain)
  | [] => quiet_ok _
  | cur :: rest => by simp [chainFind, he, quiet_chainFind he rest]

@[simp] theorem quiet_hlookup {htab : HTab} {hcode : UInt64} {eq : HNode → Res Bool}
    (he : ∀ n, Quiet (eq n)) : Quiet (hlookup htab hcode eq) := by
  simp [hlookup, he]

@[simp] theorem quiet_hDetach (htab : HTab) (frm : Link) : Quiet (hDetach htab frm) := by
  simp [hDetach]

theorem quiet_hmHelpLoop : ∀ fuel nwork hmap, Quiet (hmHelpLoop fuel nwork hmap)
  | 0, _, _ => by simp [hmHelpLoop]
  | fuel + 1, nwork, hmap => by
    rw [hmHelpLoop, quiet_ite, quiet_bind]
    refine ⟨fun _ => ⟨quiet_bucket _ _, ?_⟩, fun _ => quiet_ok _⟩
    intro chain _
    cases chain with
    | nil => exact quiet_hmHelpLoop fuel _ _
    | cons => simp [quiet_hmHelpLoop fuel]

@[simp] theorem quiet_hmHelpResizing (hmap : HMap) : Quiet (hmHelpResizing hmap) := by
  simp [hmHelpResizing, quiet_hmHelpLoop]

@[simp] theorem quiet_hmLink (hmap : HMap) (node : HNode) : Quiet (hmLink hmap node) := by
  simp [hmLink, HTab.orInit, hmStartResizing]

@[simp] theorem quiet_hmInsert (hmap : HMap) (node : HNode) : Quiet (hmInsert hmap node) := by
  simp [hmInsert]

@[simp] theorem quiet_hmLookup {hmap : HMap} {hcode : UInt64} {eq : HNode → Res Bool}
    (he : ∀ n, Quiet (eq n)) : Quiet (hmLookup hmap hcode eq) := by
  unfold hmLookup
  rw [quiet_bind]
  refine ⟨quiet_hmHelpResizing _, ?_⟩
  intro m _
  rw [quiet_bind]
  refine ⟨quiet_hlookup he, ?_⟩
  intro r _
  cases r with
  | some frm => simp [HTab.at]
  | none =>
    rw [quiet_bind]
    refine ⟨quiet_hlookup he, ?_⟩
    intro r _
    cases r <;> simp [HTab.at]

@[simp] theorem quiet_hmDelete {hmap : HMap} {hcode : UInt64} {eq : HNode → Res Bool}
    (he : ∀ n, Quiet (eq n)) : Quiet (hmDelete hmap hcode eq) := by
  unfold hmDelete
  rw [quiet_bind]
  refine ⟨quiet_hmHelpResizing _, ?_⟩
  intro m _
  rw [quiet_bind]
  refine ⟨quiet_hlookup he, ?_⟩
  intro r _
  cases r with
  | some frm => simp
  | none =>
    rw [quiet_bind]
    refine ⟨quiet_hlookup he, ?_⟩
    intro r _
    cases r <;> simp

@[simp] theorem quiet_hScan (tab : HTab) : Quiet (hScan tab) := by
  simp [hScan, quiet_mapM]

/-! ## The AVL tree -/

@[simp] theorem quiet_avlDepth (m : Links) (o : Option Ptr) : Quiet (avlDepth m o) := by
  cases o <;> simp [avlDepth]

@[simp] theorem quiet_avlCount (m : Links) (o : Option Ptr) : Quiet (avlCount m o) := by
  cases o <;> simp [avlCount]

@[simp] theorem quiet_avlUpdate (m : Links) (node : Ptr) : Quiet (avlUpdate m node) := by
  simp [avlUpdate]

@[simp] theorem quiet_setParent (m : Links) (child parent : Option Ptr) :
    Quiet (setParent m child parent) := by
  cases child <;> simp [setParent]

@[simp] theorem quiet_rotLeft (m : Links) (node : Ptr) : Quiet (rotLeft m node) := by
  simp [rotLeft]

@[simp] theorem quiet_rotRight (m : Links) (node : Ptr) : Quiet (rotRight m node) := by
  simp [rotRight]

@[simp] theorem quiet_avlFixLeft (m : Links) (root : Ptr) : Quiet (avlFixLeft m root) := by
  simp [avlFixLeft, fixInnerLeft]

@[simp] theorem quiet_avlFixRight (m : Links) (root : Ptr) : Quiet (avlFixRight m root) := by
  simp [avlFixRight, fixInnerRight]

@[simp] theorem quiet_avlFixNode (m : Links) (node : Ptr) : Quiet (avlFixNode m node) := by
  simp [avlFixNode]

@[simp] theorem quiet_avlFix : ∀ fuel m node, Quiet (avlFix fuel m node)
  | 0, _, _ => by simp [avlFix]
  | fuel + 1, m, node => by
    unfold avlFix
    simp only [quiet_bind, quiet_read, quiet_avlFixNode, true_and]
    intro n _ r _
    cases n.parent <;> simp [quiet_avlFix fuel]

@[simp] theorem quiet_replaceChild (m : Links) (parent node : Ptr) (child : Option Ptr) :
    Quiet (replaceChild m parent node child) := by simp [replaceChild]

@[simp] theorem quiet_leftmost : ∀ fuel m victim, Quiet (leftmost fuel m victim)
  | 0, _, _ => by simp [leftmost]
  | fuel + 1, m, victim => by
    unfold leftmost
    rw [quiet_bind]
    refine ⟨quiet_read _ _, ?_⟩
    intro n _
    cases n.left <;> simp [quiet_leftmost fuel]

@[simp] theorem quiet_swapIn (m : Links) (node victim : Ptr) (root : Option Ptr) :
    Quiet (swapIn m node victim root) := by
  unfold swapIn
  simp only [quiet_bind, quiet_read, quiet_modify, quiet_setParent, true_and]
  intro n _ m₁ _ m₂ _ m₃ _ n' _
  cases n'.parent <;> simp

@[simp] theorem quiet_avlDel : ∀ fuel m node, Quiet (avlDel fuel m node)
  | 0, _, _ => by simp [avlDel]
  | fuel + 1, m, node => by
    unfold avlDel
    rw [quiet_bind]
    refine ⟨quiet_read _ _, ?_⟩
    intro n _
    cases n.right with
    | none =>
      dsimp only
      rw [quiet_bind]
      refine ⟨quiet_setParent _ _ _, ?_⟩
      intro m₁ _
      cases n.parent <;> simp
    | some right => simp [quiet_avlDel fuel]

/-! ## Sorted sets -/

@[simp] theorem quiet_hcmp (nodes : Store ZNode) (name : Bytes) (node : HNode) :
    Quiet (hcmp nodes name node) := by
  unfold hcmp
  rw [quiet_bind]
  exact ⟨quiet_read _ _, fun n _ => by split <;> simp⟩

@[simp] theorem quiet_entryEqOnZNode (node : HNode) : Quiet (entryEqOnZNode node) := by
  simp [entryEqOnZNode]

@[simp] theorem quiet_zsetLookup (zset : ZSet) (name : Bytes) : Quiet (zsetLookup zset name) := by
  unfold zsetLookup
  split <;> simp

@[simp] theorem quiet_link (zset : ZSet) : ∀ frm, Quiet (zset.link frm)
  | none => quiet_ok _
  | some (_, .left) => by simp [ZSet.link]
  | some (_, .right) => by simp [ZSet.link]

@[simp] theorem quiet_treeDescend : ∀ fuel zset node frm, Quiet (treeDescend fuel zset node frm)
  | 0, _, _, _ => by simp [treeDescend]
  | fuel + 1, zset, node, frm => by
    unfold treeDescend
    rw [quiet_bind]
    refine ⟨quiet_link _ _, ?_⟩
    intro r _
    cases r <;> simp [quiet_treeDescend fuel]

@[simp] theorem quiet_linkNode (m : Links) (node : Ptr) : ∀ frm, Quiet (linkNode m frm node)
  | none => quiet_ok _
  | some (_, .left) => by simp [linkNode]
  | some (_, .right) => by simp [linkNode]

@[simp] theorem quiet_treeAdd (lim : Limits) (zset : ZSet) (node : Ptr) :
    Quiet (treeAdd lim zset node) := by simp [treeAdd]

@[simp] theorem quiet_zsetUpdate (lim : Limits) (zset : ZSet) (node : Ptr) (score : Dbl) :
    Quiet (zsetUpdate lim zset node score) := by
  unfold zsetUpdate
  rw [quiet_bind]
  exact ⟨quiet_read _ _, fun n _ => by split <;> simp⟩

@[simp] theorem quiet_zsetAdd (lim : Limits) (zset : ZSet) (name : Bytes) (score : Dbl) :
    Quiet (zsetAdd lim zset name score) := by
  unfold zsetAdd
  rw [quiet_bind]
  refine ⟨quiet_zsetLookup _ _, ?_⟩
  intro r _
  obtain ⟨z, found⟩ := r
  cases found <;> simp

@[simp] theorem quiet_zsetPop (lim : Limits) (zset : ZSet) (name : Bytes) :
    Quiet (zsetPop lim zset name) := by
  unfold zsetPop
  rw [quiet_bind]
  refine ⟨quiet_zsetLookup _ _, ?_⟩
  intro r _
  obtain ⟨z, found⟩ := r
  cases found <;> simp

@[simp] theorem quiet_queryDescend : ∀ fuel zset temp cur found,
    Quiet (queryDescend fuel zset temp cur found)
  | 0, _, _, _, _ => by simp [queryDescend]
  | _ + 1, _, _, none, _ => by simp [queryDescend]
  | fuel + 1, zset, temp, some cur, found => by simp [queryDescend, quiet_queryDescend fuel]

@[simp] theorem quiet_zsetQuery (lim : Limits) (zset : ZSet) (score : Dbl) (name : Bytes) :
    Quiet (zsetQuery lim zset score name) := by simp [zsetQuery]

@[simp] theorem quiet_avlOffset : ∀ fuel m node offset pos, Quiet (avlOffset fuel m node offset pos)
  | 0, _, _, _, _ => by simp [avlOffset]
  | fuel + 1, m, node, offset, pos => by
    unfold avlOffset
    simp only [quiet_ite, quiet_ok, quiet_bind, quiet_read, quiet_avlCount, quiet_deref, true_and,
      implies_true, quiet_avlOffset fuel, and_self]
    intro _ n _ rc _ lc _ _ _
    cases n.parent <;> simp [quiet_avlOffset fuel]

@[simp] theorem quiet_znodeOffset (lim : Limits) (zset : ZSet) (offset : Int) :
    ∀ node, Quiet (znodeOffset lim zset node offset)
  | none => quiet_ok _
  | some _ => by simp [znodeOffset]

@[simp] theorem quiet_queryLoop (lim : Limits) (zset : ZSet) (limit : Nat) :
    ∀ fuel node n out, Quiet (queryLoop lim zset limit fuel node n out)
  | 0, _, _, _ => by simp [queryLoop]
  | _ + 1, none, _, _ => by simp [queryLoop]
  | fuel + 1, some z, n, out => by simp [queryLoop, quiet_queryLoop lim zset limit fuel]

/-! ## The TTL heap -/

@[simp] theorem quiet_itemAt (a : Heap) (i : Nat) : Quiet (itemAt a i) := by
  unfold itemAt; split <;> simp

@[simp] theorem quiet_place (entries : Store Entry) (a : Heap) (pos : Nat) (t : HeapItem) :
    Quiet (place entries a pos t) := by simp [place, setItem, setRef]

@[simp] theorem quiet_heapUpLoop : ∀ fuel entries a t pos,
    Quiet (heapUpLoop fuel entries a t pos)
  | 0, _, _, _, _ => by simp [heapUpLoop]
  | fuel + 1, entries, a, t, pos => by simp [heapUpLoop, quiet_heapUpLoop fuel]

@[simp] theorem quiet_smaller (a : Heap) (len pos : Nat) (min : Nat × UInt64) :
    Quiet (smaller a len pos min) := by
  unfold smaller
  rw [quiet_ite, quiet_bind]
  exact ⟨fun _ => ⟨quiet_itemAt _ _, fun x _ => by split <;> simp⟩, fun _ => quiet_ok _⟩

@[simp] theorem quiet_heapDownLoop : ∀ fuel entries a t pos len,
    Quiet (heapDownLoop fuel entries a t pos len)
  | 0, _, _, _, _, _ => by simp [heapDownLoop]
  | fuel + 1, entries, a, t, pos, len => by simp [heapDownLoop, quiet_heapDownLoop fuel]

@[simp] theorem quiet_heapUpdate (entries : Store Entry) (a : Heap) (pos len : Nat) :
    Quiet (heapUpdate entries a pos len) := by simp [heapUpdate, heapUp, heapDown]

@[simp] theorem quiet_heapRemove (entries : Store Entry) (heap : Heap) (pos : Nat) :
    Quiet (heapRemove entries heap pos) := by simp [heapRemove, fillHole]

/-! ## What the handlers share -/

@[simp] theorem quiet_entryEq (entries : Store Entry) (key : Bytes) (node : HNode) :
    Quiet (entryEq entries key node) := by simp [entryEq]

@[simp] theorem quiet_entrySetTtl (g : GlobalData) (ent : Ptr) (ttlMs : Int) (now : UInt64) :
    Quiet (entrySetTtl g ent ttlMs now) := by
  unfold entrySetTtl
  rw [quiet_bind]
  refine ⟨quiet_read _ _, ?_⟩
  intro e _
  split
  · split <;> simp
  · dsimp only
    split <;> simp [setRef, setItem]

@[simp] theorem quiet_entryDel (g : GlobalData) (ent : Ptr) : Quiet (entryDel g ent) := by
  simp [entryDel]

@[simp] theorem quiet_lookupEntry (g : GlobalData) (key : Bytes) : Quiet (lookupEntry g key) := by
  simp [lookupEntry]

@[simp] theorem quiet_insertEntry (g : GlobalData) (key val : Bytes) (type : Nat)
    (zset : Option ZSet) : Quiet (insertEntry g key val type zset) := by simp [insertEntry]

@[simp] theorem quiet_zaddEntry (g : GlobalData) (key : Bytes) (found : Option Ptr) :
    Quiet (zaddEntry g key found) := by cases found <;> simp [zaddEntry]

@[simp] theorem quiet_cbScan (entries : Store Entry) : ∀ out nodes, Quiet (cbScan entries out nodes)
  | _, [] => by simp [cbScan]
  | out, node :: nodes => by simp [cbScan, quiet_cbScan entries]

end RedisServer
