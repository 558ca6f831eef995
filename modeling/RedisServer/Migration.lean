import RedisServer.HashTableRuns

/-!
# A resize seen from outside

`helpRound` is the body of the loop of `hm_help_resizing`; `Migrating m m₁` says that `m₁` is met on
the way from `m`, inside a call or after any number of calls.

Results:
* `migrating_spec` — every such state is well formed, holds the same nodes, has its cursor inside
  ht2, and answers each lookup as `m` does, if no two nodes match the key;
* `hmHelpResizing_transparent` — and one call gets 128 nodes further, or to the end.
-/

set_option autoImplicit false

namespace RedisServer

open Buckets Runs

/-- The representation invariant. -/
structure HMap.WellFormed (m : HMap) : Prop where
  table1 : m.ht1.Ok
  table2 : m.ht2.Ok
  size1 : m.ht1.size = m.ht1.nodes.length
  size2 : m.ht2.size = m.ht2.nodes.length
  cleared : ClearedBelow m.ht2.buckets m.resizingPos
  older : m.ht1.tab = none → m.ht2.tab = none
  once : (m.order.map HNode.ptr).Nodup

theorem HMap.wellFormed_iff {m : HMap} : m.WellFormed ↔ m.Shape ∧ m.Exact := by
  constructor
  · intro w
    exact ⟨⟨w.table1, w.table2, w.older, w.cleared, by rw [w.size1, w.size2],
      Nat.le_of_eq w.size2.symm, w.once⟩, w.size2⟩
  · rintro ⟨hs, hx⟩
    have htotal := hs.total
    have hx2 : m.ht2.size = m.ht2.nodes.length := hx
    exact ⟨hs.ok1, hs.ok2, by omega, hx, hs.cleared, hs.older, hs.nodup⟩

/-- The body of the loop: the map, and what is added to `nwork`. -/
def helpRound (hmap : HMap) : Res (HMap × Nat) := do
  match ← hmap.ht2.bucket hmap.resizingPos with
  | [] => return ({ hmap with resizingPos := hmap.resizingPos + 1 }, 0)
  | _ :: _ =>
    let (node, ht2) ← hDetach hmap.ht2 ⟨hmap.resizingPos, 0⟩
    let ht1 ← hinsert hmap.ht1 node
    return ({ hmap with ht1 := ht1, ht2 := ht2 }, 1)

theorem hmHelpLoop_succ (fuel nwork : Nat) (m : HMap) : hmHelpLoop (fuel + 1) nwork m =
    if nwork < resizingWork ∧ 0 < m.ht2.size then do
      let (m', moved) ← helpRound m
      hmHelpLoop fuel (nwork + moved) m'
    else .ok m := by
  rw [hmHelpLoop, helpRound]
  split
  · cases m.ht2.bucket m.resizingPos with
    | error f => rfl
    | ok c =>
      rw [ok_bind, ok_bind]
      cases c with
      | nil => rfl
      | cons a c =>
        dsimp only
        cases hDetach m.ht2 ⟨m.resizingPos, 0⟩ with
        | error f => rfl
        | ok r =>
          rw [ok_bind, ok_bind]
          cases hinsert m.ht1 r.1 <;> rfl
  · rfl

/-- `m₁` is met in the course of a migration that begins with `m`. -/
inductive Migrating (m : HMap) : HMap → Prop
  | start : Migrating m m
  | round {m₁ m₂ : HMap} {moved : Nat} : Migrating m m₁ → 0 < m₁.ht2.size →
    helpRound m₁ = .ok (m₂, moved) → Migrating m m₂
  | release {m₁ : HMap} : Migrating m m₁ → m₁.ht2.size = 0 → m₁.ht2.tab.isSome →
    Migrating m { m₁ with ht2 := {} }

theorem Migrating.loop {m m₁ m' : HMap} (h : Migrating m m₁) : ∀ {fuel nwork : Nat},
    hmHelpLoop fuel nwork m₁ = .ok m' → Migrating m m' := by
  intro fuel
  induction fuel generalizing m₁ with
  | zero =>
    intro nwork hl
    cases hl
  | succ fuel ih =>
    intro nwork hl
    rw [hmHelpLoop_succ] at hl
    split at hl
    · rename_i hgo
      obtain ⟨⟨m₂, moved⟩, hround, hl⟩ := bind_ok.mp hl
      exact ih (h.round hgo.2 hround) hl
    · cases hl
      exact h

/-- A call of `hm_help_resizing` is a part of a migration. -/
theorem Migrating.help {m m₁ m' : HMap} (h : Migrating m m₁) (hh : hmHelpResizing m₁ = .ok m') :
    Migrating m m' := by
  obtain ⟨m₂, hloop, hh⟩ := bind_ok.mp hh
  split at hh
  · rename_i hfree
    cases hh
    exact (h.loop hloop).release hfree.1 hfree.2
  · cases hh
    exact h.loop hloop

/-! ## Every state on the way -/

theorem helpRound_spec {m m' : HMap} {moved : Nat} (hs : m.Shape)
    (h : helpRound m = .ok (m', moved)) :
    HMap.Moved moved m m' ∧ m'.Shape ∧ m'.ht2.buckets.length = m.ht2.buckets.length := by
  obtain ⟨c, hc, h⟩ := bind_ok.mp h
  rw [HTab.bucket_ok] at hc
  cases c with
  | nil =>
    cases h
    exact ⟨.refl rfl rfl, shape_cursor hs hc, rfl⟩
  | cons a c =>
    obtain ⟨ht1, ht2, hdet, hins, hmoved, hs', hlen⟩ := move_spec hs hc
    dsimp only at h
    rw [hdet, ok_bind] at h
    dsimp only at h
    rw [hins] at h
    cases h
    exact ⟨hmoved, hs', hlen⟩

/-- The state after the old table is freed. -/
theorem release_spec {m : HMap} (w : m.WellFormed) (hz : m.ht2.size = 0) :
    HMap.WellFormed { m with ht2 := {} } ∧ HMap.order { m with ht2 := {} } = m.order := by
  have hnil : m.ht2.nodes = [] := List.eq_nil_of_length_eq_zero (w.size2.symm.trans hz)
  have horder : HMap.order { m with ht2 := {} } = m.order := by
    unfold HMap.order
    rw [hnil]
    rfl
  have hcleared : ClearedBelow ({} : HTab).buckets m.resizingPos := by
    intro i c _ hc
    simp [HTab.buckets] at hc
  exact ⟨⟨w.table1, HMap.Shape.empty.ok2, w.size1, rfl, hcleared, fun _ => rfl, horder ▸ w.once⟩,
    horder⟩

/-- No two nodes of the map match a key with hash value `h` under the comparator `p`. -/
def HMap.AtMostOne (m : HMap) (h : UInt64) (p : HNode → Bool) : Prop :=
  ∀ a ∈ m.order, ∀ b ∈ m.order, hits h p a = true → hits h p b = true → a = b

/-- What `m₁` has in common with the map `m` the migration began with. -/
structure HMap.Midway (m m₁ : HMap) : Prop where
  wellFormed : m₁.WellFormed
  perm : m₁.order.Perm m.order
  size : hmSize m₁ = hmSize m
  cursor : 0 < m₁.ht2.size → m₁.resizingPos ≤ m.ht2.mask
  lookup : ∀ (h : UInt64) (eq : HNode → Res Bool) (p : HNode → Bool),
    (∀ n ∈ m.order, n.hcode = h → eq n = .ok (p n)) → m.AtMostOne h p →
    ∃ m', hmLookup m₁ h eq = .ok (m', m.found h p)

theorem hmSize_wellFormed {m : HMap} (w : m.WellFormed) : hmSize m = m.order.length := by
  rw [hmSize, w.size1, w.size2, HMap.order, List.length_append]

/-- What every step of a migration keeps. -/
theorem Migrating.kept {m m₁ : HMap} (w : m.WellFormed) (h : Migrating m m₁) :
    m₁.WellFormed ∧ m₁.order.Perm m.order ∧
      (0 < m₁.ht2.size → m₁.ht2.buckets.length = m.ht2.buckets.length) := by
  induction h with
  | start => exact ⟨w, .refl _, fun _ => rfl⟩
  | round _ hsize hround ih =>
    obtain ⟨w₁, hp, hlen⟩ := ih
    obtain ⟨hs₁, hx₁⟩ := HMap.wellFormed_iff.mp w₁
    obtain ⟨hmoved, hs₂, hlen₂⟩ := helpRound_spec hs₁ hround
    exact ⟨HMap.wellFormed_iff.mpr ⟨hs₂, hmoved.exact.mpr hx₁⟩, hmoved.perm.trans hp,
      fun _ => hlen₂.trans (hlen hsize)⟩
  | release _ hz _ ih =>
    obtain ⟨w₁, hp, -⟩ := ih
    obtain ⟨w₂, horder⟩ := release_spec w₁ hz
    exact ⟨w₂, horder ▸ hp, fun h => absurd h (Nat.lt_irrefl 0)⟩

/-- **Every state of a migration** is well formed, holds the same nodes and answers lookups alike. -/
theorem migrating_spec {m m₁ : HMap} (w : m.WellFormed) (h : Migrating m m₁) : m.Midway m₁ := by
  obtain ⟨w₁, hp, hlen⟩ := h.kept w
  obtain ⟨hs₁, hx₁⟩ := HMap.wellFormed_iff.mp w₁
  refine ⟨w₁, hp, ?_, ?_, ?_⟩
  · rw [hmSize_wellFormed w₁, hmSize_wellFormed w, hp.length_eq]
  · intro hsize
    have hne : m₁.ht2.nodes ≠ [] := by
      intro hn
      have := w₁.size2
      rw [hn] at this
      simp at this
      omega
    obtain ⟨c, hc⟩ := cursor_in_range hs₁ hne
    have hlt := (List.getElem?_eq_some_iff.mp hc).1
    rw [hlen hsize] at hlt
    have hsome : m.ht2.tab.isSome := by
      rw [Option.isSome_iff_ne_none]
      intro hn
      simp [HTab.buckets, hn] at hlt
    have := w.table2.length hsome
    omega
  · intro key eq p he hu
    have he₁ : ∀ n ∈ m₁.order, n.hcode = key → eq n = .ok (p n) := fun n hn =>
      he n (hp.mem_iff.mp hn)
    obtain ⟨m', r, hl⟩ := hmLookup_total hs₁ hx₁ he₁
    obtain ⟨hh, -, hr⟩ := hmLookup_spec hs₁ he₁ hl
    have hp' : m'.order.Perm m.order := ((h.help hh).kept w).2.1
    have hfind : m'.found key p = m.found key p :=
      (List.find?_eq_find?_of_perm hp'.symm fun a ha b hb => hu a ha.1 b hb.1 ha.2 hb.2).symm
    exact ⟨m', by rw [hl, hr, hfind]⟩

/-! ## One call -/

/-- **A migration is transparent.** `hm_help_resizing` ends, with `min(128, ht2.size)` nodes moved
from ht2 to ht1 and ht2 released exactly when it has no node left; it and every other state of the
migration is as `migrating_spec` says. -/
theorem hmHelpResizing_transparent {m : HMap} (w : m.WellFormed) :
    ∃ m', hmHelpResizing m = .ok m' ∧
      m'.ht2.nodes = m.ht2.nodes.drop (min resizingWork m.ht2.size) ∧
      m'.ht1.nodes.Perm (m.ht2.nodes.take (min resizingWork m.ht2.size) ++ m.ht1.nodes) ∧
      (m'.ht2.tab = none ↔ m'.ht2.nodes = []) ∧
      Migrating m m' ∧ ∀ m₁, Migrating m m₁ → m.Midway m₁ := by
  obtain ⟨hs, hx⟩ := HMap.wellFormed_iff.mp w
  obtain ⟨m', k, h, hk, hx'⟩ := hmHelpResizing_total hs hx
  have hcount : k = min resizingWork m.ht2.size := by
    have hsize2 := hk.size2
    have hquota := hk.quota
    rcases hk.work with hwork | hnone
    · omega
    · have := hk.shape.ok2.null hnone
      omega
  subst hcount
  refine ⟨m', h, hk.nodes2, ?_, ⟨HTab.nodes_none, ?_⟩, Migrating.start.help h,
    fun m₁ => migrating_spec w⟩
  · have hsplit : m.order.Perm ((m.ht2.nodes.take (min resizingWork m.ht2.size) ++ m.ht1.nodes) ++
        m.ht2.nodes.drop (min resizingWork m.ht2.size)) := by
      rw [HMap.order]
      conv_lhs => rw [← List.take_append_drop (min resizingWork m.ht2.size) m.ht2.nodes]
      rw [← List.append_assoc]
      exact List.perm_append_comm.append_right _
    have := hk.perm.trans hsplit
    rw [HMap.order, hk.nodes2] at this
    exact (List.perm_append_right_iff _).mp this
  · intro hnil
    have hx' : m'.ht2.size = m'.ht2.nodes.length := hx'
    by_contra hne
    have := hk.freed (Option.isSome_iff_ne_none.mpr hne)
    rw [hx', hnil] at this
    exact absurd this (Nat.lt_irrefl 0)

/-- A map with 160 nodes in ht2. -/
theorem hmHelpResizing_transparent_resizing : ∃ m m', run hmStep {} (insertUpTo 288) = .ok m ∧
    hmHelpResizing m = .ok m' ∧ m.Midway m' := by
  obtain ⟨m, hm, g, -⟩ := (insertUpTo_fresh 288).2
  obtain ⟨m', h, -, -, -, hmid, hall⟩ :=
    hmHelpResizing_transparent (HMap.wellFormed_iff.mpr ⟨g.shape, g.exact⟩)
  exact ⟨m, m', hm, h, hall m' hmid⟩

end RedisServer
