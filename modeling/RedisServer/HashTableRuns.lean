import RedisServer.HashTableInv

/-!
# Runs of hash-map calls

`HOp` is a call of `hm_insert`, `hm_lookup` or `hm_delete` with any hash value and any comparator
that does not fault.  `HMap.RepInv` is the representation invariant the two tables are meant to
have between calls.

`hm_delete` breaks it when the only matching nodes lie in ht2 behind the 128 nodes the call itself
migrates: the node leaves ht2 and ht1's size is decremented (`hmDelete_charges_ht1`).  The next
migration then runs off ht2's bucket array.  `hmap_runs_keep_repInv` is the converse: runs without
such a delete keep the invariant and never fault.
-/

set_option autoImplicit false

namespace RedisServer

open Buckets Runs

inductive HOp where
  | insert (node : HNode)
  | lookup (hcode : UInt64) (eq : HNode → Bool)
  | delete (hcode : UInt64) (eq : HNode → Bool)

def hmStep (m : HMap) : HOp → Res HMap
  | .insert node => hmInsert m node
  | .lookup h eq => do return (← hmLookup m h (fun n => .ok (eq n))).1
  | .delete h eq => do return (← hmDelete m h (fun n => .ok (eq n))).1

/-- What holds of the two tables between calls. -/
structure HMap.RepInv (m : HMap) : Prop where
  size1 : m.ht1.size = m.ht1.nodes.length
  size2 : m.ht2.size = m.ht2.nodes.length
  placed1 : ∀ i c, m.ht1.buckets[i]? = some c → ∀ n ∈ c, n.hcode.toNat &&& m.ht1.mask = i
  placed2 : ∀ i c, m.ht2.buckets[i]? = some c → ∀ n ∈ c, n.hcode.toNat &&& m.ht2.mask = i
  once : (m.order.map HNode.ptr).Nodup
  cleared : m.ht2.tab.isSome → ∀ i c, i < m.resizingPos → m.ht2.buckets[i]? = some c → c = []
  null2 : m.ht2.tab = none → m.ht2.size = 0
  released : m.ht2.tab.isSome → m.ht2.nodes ≠ []

/-- A delete finds its node, if any, in ht1 or among the nodes it migrates there first. -/
def HMap.DeletesFromHt1 (m : HMap) (h : UInt64) (eq : HNode → Bool) : Prop :=
  (∃ n ∈ m.ht1.nodes ++ m.ht2.nodes.take resizingWork, hits h eq n = true) ∨
    ∀ n ∈ m.ht2.nodes.drop resizingWork, hits h eq n = false

/-- The callers' promise: only nodes that are not linked are inserted. -/
def HOp.Fresh (m : HMap) : HOp → Prop
  | .insert node => node.ptr ∉ m.order.map HNode.ptr
  | _ => True

/-- No delete reaches the branch that charges a node of ht2 to ht1. -/
def HOp.Charged (m : HMap) : HOp → Prop
  | .delete h eq => m.DeletesFromHt1 h eq
  | _ => True

instance (m : HMap) (h : UInt64) (eq : HNode → Bool) : Decidable (m.DeletesFromHt1 h eq) :=
  inferInstanceAs (Decidable (_ ∨ _))

instance (m : HMap) : (op : HOp) → Decidable (op.Fresh m)
  | .insert node => inferInstanceAs (Decidable (node.ptr ∉ m.order.map HNode.ptr))
  | .lookup _ _ => .isTrue trivial
  | .delete _ _ => .isTrue trivial

instance (m : HMap) : (op : HOp) → Decidable (op.Charged m)
  | .insert _ => .isTrue trivial
  | .lookup _ _ => .isTrue trivial
  | .delete h eq => inferInstanceAs (Decidable (m.DeletesFromHt1 h eq))

/-- Invariant of the runs: well formed, exact, and ht2 released when it has no node. -/
structure HMap.Good (m : HMap) : Prop where
  shape : m.Shape
  exact : m.Exact
  released : m.ht2.tab.isSome → m.ht2.nodes ≠ []

theorem HMap.Good.repInv {m : HMap} (g : m.Good) : m.RepInv where
  size1 := by
    have := g.shape.total
    have : m.ht2.size = m.ht2.nodes.length := g.exact
    omega
  size2 := g.exact
  placed1 := g.shape.ok1.placed
  placed2 := g.shape.ok2.placed
  once := g.shape.nodup
  cleared _ i c := g.shape.cleared i c
  null2 := g.shape.ok2.null
  released := g.released

theorem HMap.Good.empty : HMap.Good {} := ⟨.empty, exact_empty, fun h => by cases h⟩

theorem HMap.Helped.good {k : Nat} {m m' : HMap} (h : HMap.Helped k m m') (hx : m'.Exact) :
    m'.Good := by
  refine ⟨h.shape, hx, ?_⟩
  intro hs hn
  have := h.freed hs
  unfold HMap.Exact at hx
  rw [hn] at hx
  simp at hx
  omega

/-- With the delete condition the node found is one of ht1's. -/
theorem found_not_in_ht2 {k : Nat} {m m₁ : HMap} (hk : HMap.Helped k m m₁) {h : UInt64}
    {eq : HNode → Bool} (hd : m.DeletesFromHt1 h eq) {n : HNode} (hf : m₁.found h eq = some n) :
    n ∉ m₁.ht2.nodes := by
  intro hn2
  obtain ⟨hnd1, -, hdisj⟩ := List.nodup_append'.mp hk.shape.nodup_order
  unfold HMap.found HMap.order at hf
  rw [List.find?_append] at hf
  cases hf1 : m₁.ht1.nodes.find? (hits h eq) with
  | some x =>
    rw [hf1] at hf
    simp only [Option.some_or, Option.some.injEq] at hf
    subst hf
    exact hdisj (List.mem_of_find?_eq_some hf1) hn2
  | none =>
    have hno : ∀ x ∈ m₁.ht1.nodes, hits h eq x = false := by
      intro x hx
      simpa using List.find?_eq_none.mp hf1 x hx
    have hnh : hits h eq n = true := by
      rw [hf1, Option.none_or] at hf
      exact List.find?_some hf
    -- ht2 still holds nodes, so the full quota was migrated
    have hk128 : k = resizingWork := hk.work.resolve_right fun hnull => by
      rw [HTab.nodes_none hnull] at hn2; cases hn2
    rcases hd with ⟨x, hx, hxh⟩ | hnone
    · have hx1 : x ∈ m₁.ht1.nodes := by
        rcases List.mem_append.mp hx with hx | hx
        · have := (hk.cls1 x.hcode).symm ▸ List.mem_append_right _
            (List.mem_filter.mpr ⟨hx, cls_iff.mpr rfl⟩)
          exact (List.mem_filter.mp this).1
        · have := (hk.cls1 x.hcode).symm ▸ List.mem_append_left _
            (List.mem_reverse.mpr (List.mem_filter.mpr ⟨hk128 ▸ hx, cls_iff.mpr rfl⟩))
          exact (List.mem_filter.mp this).1
      rw [hno x hx1] at hxh; cases hxh
    · rw [hk.nodes2, hk128] at hn2
      rw [hnone n hn2] at hnh; cases hnh

theorem hmStep_good {m : HMap} (g : m.Good) {op : HOp} (hc : op.Fresh m ∧ op.Charged m) :
    ∃ m', hmStep m op = .ok m' ∧ m'.Good := by
  cases op with
  | insert n =>
    obtain ⟨m₁, h₁, hl⟩ := hmLink_spec g.shape hc.1
    obtain ⟨m', k, h', hk, hx⟩ := hmHelpResizing_total hl.shape (hl.exact g.exact)
    exact ⟨m', by simp [hmStep, hmInsert, h₁, h'], hk.good hx⟩
  | lookup h eq =>
    have he : ∀ n ∈ m.order, n.hcode = h → (fun n => (.ok (eq n) : Res Bool)) n = .ok (eq n) :=
      fun _ _ _ => rfl
    obtain ⟨m', r, hl⟩ := hmLookup_total g.shape g.exact he
    obtain ⟨-, ⟨k, hk⟩, -⟩ := hmLookup_spec g.shape he hl
    exact ⟨m', by simp [hmStep, hl], hk.good (hk.exact.mpr g.exact)⟩
  | delete h eq =>
    have he : ∀ n ∈ m.order, n.hcode = h → (fun n => (.ok (eq n) : Res Bool)) n = .ok (eq n) :=
      fun _ _ _ => rfl
    obtain ⟨m', r, hl⟩ := hmDelete_total g.shape g.exact he
    obtain ⟨m₁, k, -, hk, hr, hrem⟩ := hmDelete_spec g.shape he hl
    have g₁ := hk.good (hk.exact.mpr g.exact)
    refine ⟨m', by simp [hmStep, hl], ?_⟩
    cases r with
    | none => rw [show m' = m₁ from hrem]; exact g₁
    | some n =>
      have hrem : HMap.Removed n m₁ m' := hrem
      have hn2 : n ∉ m₁.ht2.nodes := found_not_in_ht2 hk hc.2 hr.symm
      refine ⟨hrem.shape, hrem.exact.mpr ⟨g₁.exact, hn2⟩, ?_⟩
      intro hs
      rw [hrem.nodes2, filter_bne_of_notMem hn2]
      exact g₁.released (by rw [← hrem.tab2]; exact hs)

/-- **The representation invariant.** A run from the empty map that inserts only unlinked nodes
and in which no delete is charged to the wrong table does not fault, and ends in a map that has
the invariant. -/
theorem hmap_runs_keep_repInv (ops : List HOp)
    (h : AllSteps hmStep (fun m op => op.Fresh m ∧ op.Charged m) {} ops) :
    ∃ m, run hmStep {} ops = .ok m ∧ m.RepInv := by
  obtain ⟨m, hm, g⟩ := run_total (fun _ _ g hc => hmStep_good g hc) HMap.Good.empty h
  exact ⟨m, hm, g.repInv⟩

/-- `n` inserts of nodes with hash values `0 … n - 1`. -/
def insertUpTo (n : Nat) : List HOp :=
  (List.range n).map fun i => .insert ⟨i, UInt64.ofNat i⟩

/-- The hypothesis is met by a run that deletes in the middle of a resize. -/
theorem hmap_runs_keep_repInv_resizing :
    ∃ m, run hmStep {} (insertUpTo 144 ++ [.delete 40 (·.ptr == 40), .lookup 1 (·.ptr == 1)]) =
      .ok m ∧ m.RepInv :=
  hmap_runs_keep_repInv _ (by decide +kernel)

theorem insertUpTo_succ (n : Nat) :
    insertUpTo (n + 1) = insertUpTo n ++ [.insert ⟨n, UInt64.ofNat n⟩] := by
  simp [insertUpTo, List.range_succ]

theorem insertUpTo_fresh (n : Nat) :
    AllSteps hmStep (fun m op => op.Fresh m) {} (insertUpTo n) ∧
      ∃ m, run hmStep {} (insertUpTo n) = .ok m ∧ m.Good ∧ ∀ x ∈ m.order, x.ptr < n := by
  induction n with
  | zero => exact ⟨trivial, {}, rfl, .empty, fun x hx => by cases hx⟩
  | succ n ih =>
    obtain ⟨hall, m, hm, g, hlt⟩ := ih
    have hfresh : (⟨n, UInt64.ofNat n⟩ : HNode).ptr ∉ m.order.map HNode.ptr := by
      intro hn
      obtain ⟨x, hx, hxn⟩ := List.mem_map.mp hn
      exact absurd (hlt x hx) (Nat.not_lt.mpr (Nat.le_of_eq (Eq.symm hxn)))
    obtain ⟨m₁, h₁, hl⟩ := hmLink_spec g.shape hfresh
    obtain ⟨m', k, h', hk, hx'⟩ := hmHelpResizing_total hl.shape (hl.exact g.exact)
    have hstep : hmStep m (.insert ⟨n, UInt64.ofNat n⟩) = .ok m' := by
      simp [hmStep, hmInsert, h₁, h']
    rw [insertUpTo_succ]
    refine ⟨allSteps_append.mpr ⟨hall, ?_⟩, m', ?_, hk.good hx', ?_⟩
    · intro t ht
      rw [hm] at ht; cases ht
      exact allSteps_cons.mpr ⟨hfresh, fun _ _ => trivial⟩
    · exact run_append_ok.mpr ⟨m, hm, run_cons_ok.mpr ⟨m', hstep, rfl⟩⟩
    · intro x hx
      rcases List.mem_cons.mp (hl.perm.mem_iff.mp (hk.mem.mp hx)) with rfl | hx
      · exact Nat.lt_succ_self n
      · exact Nat.lt_succ_of_lt (hlt x hx)

/-- 288 inserts start a resize that leaves 160 nodes in ht2; the delete migrates 128 of them and
takes a node from the other 32.  The counts of both tables are then wrong, and the next lookup
reads past ht2's last bucket. -/
theorem hmDelete_charges_ht1 :
    AllSteps hmStep (fun m op => op.Fresh m) {} (insertUpTo 288 ++ [.delete 31 (·.ptr == 31)]) ∧
    (∃ m, run hmStep {} (insertUpTo 288 ++ [.delete 31 (·.ptr == 31)]) = .ok m ∧ ¬ m.RepInv ∧
      hmStep m (.lookup 0 (·.ptr == 0)) = .error .outOfBounds) := by
  have hafter : (run hmStep {} (insertUpTo 288 ++ [.delete 31 (·.ptr == 31)])).toOption.map
      (fun m => (m.ht2.size, m.ht2.nodes.length,
        decide (hmStep m (.lookup 0 (·.ptr == 0)) = .error .outOfBounds))) =
      some (32, 31, true) := by decide +kernel
  obtain ⟨m, hm, hafter⟩ := ok_of_map hafter
  simp only [Prod.mk.injEq, decide_eq_true_eq] at hafter
  obtain ⟨hsize, hlen, hnext⟩ := hafter
  refine ⟨allSteps_append.mpr ⟨(insertUpTo_fresh 288).1, ?_⟩, m, hm, ?_, hnext⟩
  · intro t _
    exact allSteps_cons.mpr ⟨trivial, fun _ _ => trivial⟩
  · intro hr
    have := hr.size2
    omega

end RedisServer
