import RedisServer.HashTableRuns

/-!
# The load of the hash map during incremental resizes

A resize is considered only while ht2 is empty, so a resize that comes due during a migration
would be skipped.  It never comes due: a migration starts with `9 * N` nodes and doubles the
buckets, every call moves 128 of them and inserts at most one.

`HMap.Loaded c` states the balance of this account, in units of 1/128 call: what is left in ht2
and 128 for every node fit into 128 times the nodes ht1 may have.  The `c` is 1 between calls,
when there is room for the node of the next insert, and 0 before the help of a call.

`HMap.Tally` is the part of the invariant that every call keeps, whatever is inserted and
whichever table a deleted node is charged to; with it the only possible fault is a migration that
runs off the buckets of ht2.
-/

set_option autoImplicit false

namespace RedisServer

open Buckets Runs

/-- Both tables are well formed and the counts of the two add up. -/
structure HMap.Tally (m : HMap) : Prop where
  ok1 : m.ht1.Ok
  ok2 : m.ht2.Ok
  older : m.ht1.tab = none → m.ht2.tab = none
  total : m.ht1.size + m.ht2.size = m.ht1.nodes.length + m.ht2.nodes.length
  drift : m.ht2.nodes.length ≤ m.ht2.size

/-- The load, with room for `c` more nodes. -/
structure HMap.Loaded (c : Nat) (m : HMap) : Prop where
  idle : m.ht2.tab = none → hmSize m < (maxLoadFactor + 1) * (m.ht1.mask + 1)
  busy : m.ht2.tab.isSome → 0 < m.ht2.size ∧
    resizingWork * (hmSize m + c) + m.ht2.size ≤
      resizingWork * ((maxLoadFactor + 1) * (m.ht1.mask + 1))

theorem HMap.Tally.empty : HMap.Tally {} :=
  ⟨HMap.Shape.empty.ok1, HMap.Shape.empty.ok2, fun _ => rfl, rfl, Nat.le_refl _⟩

theorem HMap.Tally.some1 {m : HMap} (ht : m.Tally) (h : m.ht2.tab.isSome) : m.ht1.tab.isSome := by
  rw [Option.isSome_iff_ne_none] at h ⊢
  exact fun hn => h (ht.older hn)

theorem HMap.Loaded.empty : HMap.Loaded 1 {} := ⟨fun _ => by decide, fun h => by cases h⟩

theorem HMap.Loaded.spend {m : HMap} (h : m.Loaded 1) : m.Loaded 0 := by
  constructor
  · exact h.idle
  · intro hs
    obtain ⟨hpos, hle⟩ := h.busy hs
    exact ⟨hpos, by simp only [resizingWork] at hle ⊢; omega⟩

/-- The load bound in every phase. -/
theorem HMap.Loaded.bound {m : HMap} (h : m.Loaded 0) :
    hmSize m < (maxLoadFactor + 1) * (m.ht1.mask + 1) := by
  cases ht : m.ht2.tab with
  | none => exact h.idle ht
  | some tab =>
    obtain ⟨hpos, hle⟩ := h.busy (by rw [ht]; rfl)
    simp only [resizingWork] at hle
    omega

/-- Between calls of a migration the node of the next insert does not make a resize due. -/
theorem HMap.Loaded.not_due {m : HMap} (h : m.Loaded 1) (hs : m.ht2.tab.isSome) :
    (m.ht1.size + 1) / (m.ht1.mask + 1) ≤ maxLoadFactor := by
  obtain ⟨hpos, hle⟩ := h.busy hs
  have hlt : m.ht1.size + 1 < (maxLoadFactor + 1) * (m.ht1.mask + 1) := by
    simp only [resizingWork, hmSize] at hle
    omega
  exact Nat.le_of_lt_succ ((Nat.div_lt_iff_lt_mul (Nat.succ_pos _)).mpr hlt)

/-! ## Migration -/

/-- A link that is found can be unlinked; this takes one node out of the table. -/
theorem unlink_counts {t : HTab} (ok : t.Ok) {pos d : Nat} {ch : Chain} {n : HNode}
    (hc : t.buckets[pos]? = some ch) (hn : ch[d]? = some n) :
    ∃ t', t.unlink ⟨pos, d⟩ = .ok (n, t') ∧ t'.Ok ∧ t'.tab.isSome = t.tab.isSome ∧
      t'.mask = t.mask ∧ t'.size = t.size ∧ t'.buckets.length = t.buckets.length ∧
      t'.nodes.length + 1 = t.nodes.length := by
  obtain ⟨t', hun, ok', hsome, hmask, hsize, hbuckets⟩ := unlink_of ok hc hn
  refine ⟨t', hun, ok', hsome, hmask, hsize, by rw [hbuckets, List.length_set], ?_⟩
  have hp := (flatten_set_eraseIdx hc hn).length_eq
  rw [List.length_cons] at hp
  rw [HTab.nodes, HTab.nodes, hbuckets]
  exact hp.symm

/-- A bucket outside the array is the only one that cannot be read. -/
theorem bucket_unless {t : HTab} (hs : t.tab.isSome) (i : Nat) :
    Unless .outOfBounds (fun c => t.buckets[i]? = some c) (t.bucket i) := by
  cases hb : t.bucket i with
  | ok c => exact HTab.bucket_ok.mp hb
  | error e =>
    obtain ⟨tab, ht⟩ := Option.isSome_iff_exists.mp hs
    simp only [HTab.bucket, ht] at hb
    split at hb
    · cases hb; rfl
    · cases hb

/-- From `m` to `m'` the migration moved `k` nodes. -/
structure HMap.Paid (k : Nat) (m m' : HMap) : Prop where
  tally : m'.Tally
  size1 : m'.ht1.size = m.ht1.size + k
  size2 : m'.ht2.size + k = m.ht2.size
  mask1 : m'.ht1.mask = m.ht1.mask

theorem HMap.Paid.trans {j k : Nat} {m m₁ m₂ : HMap} (h : HMap.Paid j m m₁)
    (h' : HMap.Paid k m₁ m₂) : HMap.Paid (j + k) m m₂ where
  tally := h'.tally
  size1 := by rw [h'.size1, h.size1, Nat.add_assoc]
  size2 := by have := h.size2; have := h'.size2; omega
  mask1 := h'.mask1.trans h.mask1

/-- The round of the loop that finds a node. -/
theorem move_paid {m : HMap} (ht : m.Tally) (hpos : 0 < m.ht2.size) {a : HNode} {c : Chain}
    (hb : m.ht2.buckets[m.resizingPos]? = some (a :: c)) :
    ∃ ht1 ht2, hDetach m.ht2 ⟨m.resizingPos, 0⟩ = .ok (a, ht2) ∧ hinsert m.ht1 a = .ok ht1 ∧
      HMap.Paid 1 m { m with ht1 := ht1, ht2 := ht2 } ∧
      ht2.buckets.length = m.ht2.buckets.length := by
  have hs2 := HMap.some_of_bucket hb
  obtain ⟨ht1, hins, ok1, hsome, hmask, hsize, hperm, -⟩ := hinsert_spec ht.ok1 (ht.some1 hs2) a
  obtain ⟨t2, hun, ok2, hsome2, -, hsize2, hlen2, hnodes2⟩ := unlink_counts (d := 0) ht.ok2 hb rfl
  have hnodes1 := hperm.length_eq
  rw [List.length_cons] at hnodes1
  have hdec : sizeDec t2.size + 1 = m.ht2.size := by rw [hsize2]; exact sizeDec_pos hpos
  have htot := ht.total
  have hdrift := ht.drift
  refine ⟨ht1, t2.charge, by simp [hDetach, hun], hins, ?_, hlen2⟩
  constructor
  · exact
      { ok1 := ok1
        ok2 := ok2.resize (by rw [hsome2, hs2])
        older := fun hn => by rw [show ht1.tab = none from hn] at hsome; cases hsome
        total := by
          show ht1.size + sizeDec t2.size = ht1.nodes.length + t2.nodes.length
          omega
        drift := by show t2.nodes.length ≤ sizeDec t2.size; omega }
  · exact hsize
  · exact hdec
  · exact hmask

/-- **The loop moves its quota or empties ht2**, unless it leaves the bucket array. -/
theorem hmHelpLoop_paid : ∀ (fuel nwork : Nat) (m : HMap), m.Tally → nwork ≤ resizingWork →
    (resizingWork - nwork) + (m.ht2.buckets.length - m.resizingPos) < fuel →
    Unless .outOfBounds (fun m' => ∃ k, HMap.Paid k m m' ∧
      (nwork + k = resizingWork ∨ m'.ht2.size = 0)) (hmHelpLoop fuel nwork m)
  | 0, _, _, _, _, hf => absurd hf (Nat.not_lt_zero _)
  | fuel + 1, nwork, m, ht, hw, hf => by
    rw [hmHelpLoop]
    split
    · rename_i hgo
      apply (bucket_unless (ht.ok2.isSome_of_size hgo.2) m.resizingPos).bind
      intro c hc
      have hlt : m.resizingPos < m.ht2.buckets.length := (List.getElem?_eq_some_iff.mp hc).1
      cases c with
      | nil =>
        have htc : HMap.Tally { m with resizingPos := m.resizingPos + 1 } :=
          ⟨ht.ok1, ht.ok2, ht.older, ht.total, ht.drift⟩
        apply (hmHelpLoop_paid fuel nwork _ htc hw (by simp only; omega)).mono
        rintro m' ⟨k, hp, hstop⟩
        exact ⟨k, ⟨hp.tally, hp.size1, hp.size2, hp.mask1⟩, hstop⟩
      | cons a c =>
        obtain ⟨ht1, ht2, hdet, hins, hp, hlen⟩ := move_paid ht hgo.2 hc
        simp only [hdet, hins, ok_bind]
        apply (hmHelpLoop_paid fuel (nwork + 1) _ hp.tally hgo.1 (by simp only [hlen]; omega)).mono
        rintro m' ⟨k, hp', hstop⟩
        exact ⟨1 + k, hp.trans hp', by omega⟩
    · rename_i hstop
      refine ⟨0, ⟨ht, rfl, rfl, rfl⟩, ?_⟩
      omega

/-- What a call finds after its help of the resize. -/
structure HMap.AfterHelp (m : HMap) : Prop where
  tally : m.Tally
  loaded : m.Loaded 1
  work : resizingWork ≤ m.ht1.size ∨ m.ht2.tab = none

theorem hmHelpResizing_load {m : HMap} (ht : m.Tally) (hl : m.Loaded 0) :
    Unless .outOfBounds HMap.AfterHelp (hmHelpResizing m) := by
  apply (hmHelpLoop_paid (resizingWork + m.ht2.buckets.length + 1) 0 m ht (Nat.zero_le _)
    (by omega)).bind
  rintro m₁ ⟨k, hp, hstop⟩
  have hb := hl.bound
  have hsize : hmSize m₁ = hmSize m := by
    have := hp.size1
    have := hp.size2
    simp only [hmSize]
    omega
  have hmask := hp.mask1
  split
  · rename_i hfree
    -- ht2 is released: all that it had was moved
    have hnil : m₁.ht2.nodes.length = 0 := Nat.le_zero.mp (hfree.1 ▸ hp.tally.drift)
    have htot := hp.tally.total
    rw [hfree.1, hnil] at htot
    constructor
    · exact ⟨hp.tally.ok1, HMap.Shape.empty.ok2, fun _ => rfl, htot, Nat.le_refl _⟩
    · constructor
      · intro _
        simp only [hmSize, hmask] at hsize hb ⊢
        omega
      · intro hs; cases hs
    · exact .inr rfl
  · rename_i hkeep
    constructor
    · exact hp.tally
    · constructor
      · intro _
        rw [hsize, hmask]
        exact hb
      · intro hs
        have hpos : 0 < m₁.ht2.size := Nat.pos_of_ne_zero fun hz => hkeep ⟨hz, hs⟩
        -- the whole quota was moved, which pays for one node
        have hk : k = resizingWork := by omega
        have h2 := hp.size2
        obtain ⟨-, hle⟩ := hl.busy (ht.ok2.isSome_of_size (by omega))
        refine ⟨hpos, ?_⟩
        rw [hsize, hmask]
        simp only [resizingWork] at hk hle ⊢
        omega
    · by_cases hz : m₁.ht2.size = 0
      · exact .inr (by simpa using fun hs => hkeep ⟨hz, hs⟩)
      · exact .inl (by have := hp.size1; omega)

/-! ## Inserting -/

/-- A fresh table for the nodes of a map without ht1. -/
theorem orInit_load {m : HMap} (ht : m.Tally) (hl : m.Loaded 1) :
    ∃ t, m.ht1.orInit = .ok t ∧ t.tab.isSome ∧ HMap.Tally { m with ht1 := t } ∧
      HMap.Loaded 1 { m with ht1 := t } := by
  cases h1 : m.ht1.tab with
  | some tab =>
    refine ⟨m.ht1, ?_, by rw [h1]; rfl, ht, hl⟩
    rw [HTab.orInit, h1]
    rfl
  | none =>
    have h2 : m.ht2.tab = none := ht.older h1
    have hz1 := ht.ok1.null h1
    have hz2 := ht.ok2.null h2
    have hn2 : m.ht2.nodes = [] := HTab.nodes_none h2
    refine ⟨{ tab := some (List.replicate 4 []), size := 0, mask := 4 - 1 }, ?_, rfl, ?_, ?_⟩
    · rw [HTab.orInit, h1]
      exact hinit_pow (k := 2) rfl
    · exact
        { ok1 := replicate_ok (k := 2) rfl
          ok2 := ht.ok2
          older := fun h => by cases h
          total := by
            show 0 + m.ht2.size = (List.replicate 4 ([] : Chain)).flatten.length + _
            rw [hz2, hn2, flatten_replicate_nil]
            rfl
          drift := ht.drift }
    · constructor
      · intro _
        show 0 + m.ht2.size < (maxLoadFactor + 1) * (4 - 1 + 1)
        rw [hz2]
        decide
      · intro hs
        rw [h2] at hs
        cases hs

/-- The resize that is due starts with twice the buckets. -/
theorem hmStartResizing_load {m : HMap} (ht : m.Tally) (h1 : m.ht1.tab.isSome)
    (h2 : m.ht2.tab = none) (hpos : 0 < m.ht1.size)
    (hle : m.ht1.size ≤ (maxLoadFactor + 1) * (m.ht1.mask + 1)) :
    ∃ m', hmStartResizing m = .ok m' ∧ m'.Tally ∧ m'.Loaded 0 := by
  obtain ⟨e, he⟩ := ht.ok1.pow h1
  have hsize : (m.ht1.mask + 1) * 2 = 2 ^ (e + 1) := by rw [he, Nat.pow_succ]
  have htot := ht.total
  rw [HTab.nodes_none h2, ht.ok2.null h2, List.length_nil, Nat.add_zero, Nat.add_zero] at htot
  refine ⟨_, by simp only [hmStartResizing, h2, hinit_pow hsize]; rfl, ?_, ?_⟩
  · exact
      { ok1 := replicate_ok hsize
        ok2 := ht.ok1
        older := fun h => by cases h
        total := by
          show 0 + m.ht1.size = (List.replicate _ ([] : Chain)).flatten.length + _
          rw [flatten_replicate_nil, htot]
          rfl
        drift := Nat.le_of_eq htot.symm }
  · constructor
    · intro hn
      rw [show m.ht1.tab = none from hn] at h1
      cases h1
    · intro _
      refine ⟨hpos, ?_⟩
      -- 129 * 9 * N on the left, 128 * 9 * 2 * N on the right
      show resizingWork * (0 + m.ht1.size + 0) + m.ht1.size ≤
        resizingWork * ((maxLoadFactor + 1) * ((m.ht1.mask + 1) * 2 - 1 + 1))
      simp only [resizingWork, maxLoadFactor] at hle ⊢
      omega

/-- **Linking** a node uses up the room for it, and starts the resize as soon as one is due. -/
theorem hmLink_load {m : HMap} (ht : m.Tally) (hl : m.Loaded 1) (node : HNode) :
    ∃ m', hmLink m node = .ok m' ∧ m'.Tally ∧ m'.Loaded 0 := by
  obtain ⟨t, hinit, hsome, ht₀, hl₀⟩ := orInit_load ht hl
  obtain ⟨ht1, hins, ok1, hsome1, hmask, hsize, hperm, -⟩ := hinsert_spec ht₀.ok1 hsome node
  dsimp only at hins hmask hsize hperm
  have hnodes := hperm.length_eq
  rw [List.length_cons] at hnodes
  have htot : t.size + m.ht2.size = t.nodes.length + m.ht2.nodes.length := ht₀.total
  have ht₁ : HMap.Tally { m with ht1 := ht1 } :=
    { ok1 := ok1
      ok2 := ht.ok2
      older := fun hn => by rw [show ht1.tab = none from hn] at hsome1; cases hsome1
      total := by simp only; omega
      drift := ht.drift }
  have hstep : hmSize { m with ht1 := ht1 } = hmSize { m with ht1 := t } + 1 := by
    simp only [hmSize]
    omega
  unfold hmLink
  rw [hinit, ok_bind, hins, ok_bind]
  dsimp only
  split
  · rename_i hdue
    have h2 : m.ht2.tab = none := Option.isNone_iff_eq_none.mp hdue.1
    have hidle : t.size + m.ht2.size < (maxLoadFactor + 1) * (t.mask + 1) := hl₀.idle h2
    exact hmStartResizing_load ht₁ hsome1 h2 (by simp only; omega) (by simp only [hmask]; omega)
  · rename_i hnot
    refine ⟨_, rfl, ht₁, ?_⟩
    constructor
    · intro hn
      have h2 : m.ht2.tab = none := hn
      have hload : ht1.size / (ht1.mask + 1) < maxLoadFactor + 1 := by
        have : ¬ ht1.size / (ht1.mask + 1) > maxLoadFactor := fun h =>
          hnot ⟨Option.isNone_iff_eq_none.mpr h2, h⟩
        omega
      show ht1.size + m.ht2.size < (maxLoadFactor + 1) * (ht1.mask + 1)
      rw [ht.ok2.null h2, Nat.add_zero]
      exact (Nat.div_lt_iff_lt_mul (Nat.succ_pos _)).mp hload
    · intro hs
      obtain ⟨hpos, hle⟩ := hl₀.busy hs
      refine ⟨hpos, ?_⟩
      rw [hstep]
      simp only [hmask]
      exact hle

/-! ## Deleting -/

/-- From `m` to `m'` one node was taken from either table, and charged to ht1. -/
structure HMap.Taken (m m' : HMap) : Prop where
  ok1 : m'.ht1.Ok
  ok2 : m'.ht2.Ok
  some1 : m'.ht1.tab.isSome = m.ht1.tab.isSome
  some2 : m'.ht2.tab.isSome = m.ht2.tab.isSome
  mask1 : m'.ht1.mask = m.ht1.mask
  size1 : m'.ht1.size + 1 = m.ht1.size
  size2 : m'.ht2.size = m.ht2.size
  nodes : m'.ht1.nodes.length + m'.ht2.nodes.length + 1 =
    m.ht1.nodes.length + m.ht2.nodes.length
  nodes2 : m'.ht2.nodes.length ≤ m.ht2.nodes.length

theorem HMap.Taken.load {m m' : HMap} (h : HMap.Taken m m') (ht : m.Tally) (hl : m.Loaded 1) :
    m'.Tally ∧ m'.Loaded 1 := by
  have hnone1 : m'.ht1.tab = none ↔ m.ht1.tab = none := by
    rw [← Option.isNone_iff_eq_none, ← Option.isNone_iff_eq_none, ← Option.not_isSome,
      ← Option.not_isSome, h.some1]
  have hnone2 : m'.ht2.tab = none ↔ m.ht2.tab = none := by
    rw [← Option.isNone_iff_eq_none, ← Option.isNone_iff_eq_none, ← Option.not_isSome,
      ← Option.not_isSome, h.some2]
  have hsize : hmSize m' + 1 = hmSize m := by
    have := h.size1
    have := h.size2
    simp only [hmSize]
    omega
  constructor
  · exact
      { ok1 := h.ok1
        ok2 := h.ok2
        older := fun hn => hnone2.mpr (ht.older (hnone1.mp hn))
        total := by have := ht.total; have := h.size1; have := h.size2; have := h.nodes; omega
        drift := by have := ht.drift; have := h.size2; have := h.nodes2; omega }
  · constructor
    · intro hn
      have hidle := hl.idle (hnone2.mp hn)
      rw [h.mask1]
      omega
    · intro hs
      obtain ⟨hpos, hle⟩ := hl.busy (h.some2 ▸ hs)
      rw [h.mask1, h.size2]
      refine ⟨hpos, ?_⟩
      simp only [resizingWork] at hle ⊢
      omega

/-- After the help of a call that finds a node `ht1.size` is positive. -/
theorem HMap.AfterHelp.size1_pos {m : HMap} (h : m.AfterHelp)
    (hn : 0 < m.ht1.nodes.length + m.ht2.nodes.length) : 0 < m.ht1.size := by
  rcases h.work with hquota | h2
  · simp only [resizingWork] at hquota
    omega
  · have htot := h.tally.total
    have hz := h.tally.ok2.null h2
    omega

/-- Unlinking from ht1. -/
theorem taken_ht1 {m : HMap} (h : m.AfterHelp) {pos d : Nat} {ch : Chain} {n : HNode}
    (hc : m.ht1.buckets[pos]? = some ch) (hn : ch[d]? = some n) :
    ∃ t, hDetach m.ht1 ⟨pos, d⟩ = .ok (n, t) ∧ HMap.Taken m { m with ht1 := t } := by
  have hs := HMap.some_of_bucket hc
  obtain ⟨t, hun, ok, hsome, hmask, hsize, -, hnodes⟩ := unlink_counts h.tally.ok1 hc hn
  have hpos := h.size1_pos (by omega)
  refine ⟨t.charge, by simp [hDetach, hun], ?_⟩
  exact
    { ok1 := ok.resize (by rw [hsome, hs])
      ok2 := h.tally.ok2
      some1 := hsome
      some2 := rfl
      mask1 := hmask
      size1 := by show sizeDec t.size + 1 = _; rw [hsize]; exact sizeDec_pos hpos
      size2 := rfl
      nodes := by show t.nodes.length + m.ht2.nodes.length + 1 = _; omega
      nodes2 := Nat.le_refl _ }

/-- Unlinking from ht2 while ht1's size is decremented. -/
theorem taken_ht2 {m : HMap} (h : m.AfterHelp) {pos d : Nat} {ch : Chain} {n : HNode}
    (hc : m.ht2.buckets[pos]? = some ch) (hn : ch[d]? = some n) :
    ∃ t, m.ht2.unlink ⟨pos, d⟩ = .ok (n, t) ∧
      HMap.Taken m { m with ht1 := m.ht1.charge, ht2 := t } := by
  have hs := HMap.some_of_bucket hc
  obtain ⟨t, hun, ok, hsome, -, hsize, -, hnodes⟩ := unlink_counts h.tally.ok2 hc hn
  have hpos := h.size1_pos (by omega)
  refine ⟨t, hun, ?_⟩
  exact
    { ok1 := h.tally.ok1.resize (h.tally.some1 hs)
      ok2 := ok
      some1 := rfl
      some2 := hsome
      mask1 := rfl
      size1 := sizeDec_pos hpos
      size2 := hsize
      nodes := by show m.ht1.nodes.length + t.nodes.length + 1 = _; omega
      nodes2 := by show t.nodes.length ≤ _; omega }

/-! ## Calls -/

/-- Between calls. -/
def HMap.Steady (m : HMap) : Prop := m.Tally ∧ m.Loaded 1

variable {m : HMap} {hcode : UInt64} {eq : HNode → Bool}

/-- With a comparator that does not fault a lookup ends with nothing or at a node. -/
theorem hlookup_link {t : HTab} (ok : t.Ok) (hcode : UInt64) (eq : HNode → Bool) :
    hlookup t hcode (fun n => .ok (eq n)) = .ok none ∨
      ∃ pos d ch n, hlookup t hcode (fun n => .ok (eq n)) = .ok (some ⟨pos, d⟩) ∧
        t.buckets[pos]? = some ch ∧ ch[d]? = some n := by
  have he : ∀ n ∈ t.nodes, n.hcode = hcode →
      (fun n => .ok (eq n) : HNode → Res Bool) n = .ok (eq n) := fun _ _ _ => rfl
  rcases hlookup_spec ok he with ⟨hnone, -⟩ | ⟨pos, d, ch, n, hsome, hch, hn, -⟩
  · exact .inl hnone
  · exact .inr ⟨pos, d, ch, n, hsome, hch, hn⟩

theorem hmInsert_load (h : m.Steady) (node : HNode) :
    Unless .outOfBounds HMap.Steady (hmInsert m node) := by
  obtain ⟨m₁, hlink, ht, hl⟩ := hmLink_load h.1 h.2 node
  unfold hmInsert
  rw [hlink, ok_bind]
  exact (hmHelpResizing_load ht hl).mono fun _ ha => ⟨ha.tally, ha.loaded⟩

theorem hmLookup_load (h : m.Steady) :
    Unless .outOfBounds (fun r => r.1.Steady) (hmLookup m hcode fun n => .ok (eq n)) := by
  apply (hmHelpResizing_load h.1 h.2.spend).bind
  intro m₁ ha
  have hsteady : m₁.Steady := ⟨ha.tally, ha.loaded⟩
  rcases hlookup_link ha.tally.ok1 hcode eq with hnone | ⟨pos, d, ch, n, hsome, hch, hn⟩
  · rcases hlookup_link ha.tally.ok2 hcode eq with hnone2 | ⟨pos, d, ch, n, hsome2, hch, hn⟩
    · simp only [hnone, hnone2, ok_bind]
      exact hsteady
    · obtain ⟨t, hun, -⟩ := unlink_counts ha.tally.ok2 hch hn
      simp only [hnone, hsome2, HTab.at, hun, ok_bind]
      exact hsteady
  · obtain ⟨t, hun, -⟩ := unlink_counts ha.tally.ok1 hch hn
    simp only [hsome, HTab.at, hun, ok_bind]
    exact hsteady

theorem hmDelete_load (h : m.Steady) :
    Unless .outOfBounds (fun r => r.1.Steady) (hmDelete m hcode fun n => .ok (eq n)) := by
  apply (hmHelpResizing_load h.1 h.2.spend).bind
  intro m₁ ha
  rcases hlookup_link ha.tally.ok1 hcode eq with hnone | ⟨pos, d, ch, n, hsome, hch, hn⟩
  · rcases hlookup_link ha.tally.ok2 hcode eq with hnone2 | ⟨pos, d, ch, n, hsome2, hch, hn⟩
    · simp only [hnone, hnone2, ok_bind]
      exact ⟨ha.tally, ha.loaded⟩
    · obtain ⟨t, hun, htaken⟩ := taken_ht2 ha hch hn
      simp only [hnone, hsome2, hun, ok_bind]
      exact htaken.load ha.tally ha.loaded
  · obtain ⟨t, hdet, htaken⟩ := taken_ht1 ha hch hn
    simp only [hsome, hdet, ok_bind]
    exact htaken.load ha.tally ha.loaded

/-- **One call** keeps the account balanced, or reads past the buckets of ht2. -/
theorem hmStep_load (h : m.Steady) (op : HOp) :
    Unless .outOfBounds HMap.Steady (hmStep m op) := by
  cases op with
  | insert node => exact hmInsert_load h node
  | lookup hcode eq => exact (hmLookup_load h).bind fun _ hr => hr
  | delete hcode eq => exact (hmDelete_load h).bind fun _ hr => hr

/-- **The load is bounded.** A run of calls on the empty map either makes an out-of-range bucket
access, or returns, with fewer than 9 nodes for each bucket of ht1.  While a migration is going on
even the next insert does not bring ht1 to the load at which a resize is due. -/
theorem load_stays_bounded (ops : List HOp) (h : run hmStep {} ops ≠ .error .outOfBounds) :
    ∃ m, run hmStep {} ops = .ok m ∧ hmSize m < (maxLoadFactor + 1) * (m.ht1.mask + 1) ∧
      (m.ht2.tab.isSome → (m.ht1.size + 1) / (m.ht1.mask + 1) ≤ maxLoadFactor) := by
  have hempty : HMap.Steady {} := ⟨.empty, .empty⟩
  have hrun : Unless .outOfBounds HMap.Steady (run hmStep {} ops) :=
    run_unless (fun _ op hs => hmStep_load hs op) hempty
  obtain ⟨m, hm, -, hl⟩ := hrun.ok_of_ne h
  exact ⟨m, hm, hl.spend.bound, hl.not_due⟩

/-- A run that ends in the middle of a migration. -/
theorem load_stays_bounded_resizing :
    ∃ m, run hmStep {} (insertUpTo 144) = .ok m ∧
      hmSize m < (maxLoadFactor + 1) * (m.ht1.mask + 1) ∧
      (m.ht2.tab.isSome → (m.ht1.size + 1) / (m.ht1.mask + 1) ≤ maxLoadFactor) :=
  load_stays_bounded _ (by decide +kernel)

end RedisServer
