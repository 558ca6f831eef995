import RedisServer.TtlRuns
import RedisServer.UniqueKeys

/-!
# process_timers

`expireTop_total` is one iteration of the TTL loop, `expireLoop_spec` the loop: it does not fail,
removes in each iteration the entry that owns `heap[0]` and nothing else, and has removed the due
entries, and only those, when there are no more than `k_max_works + 1` of them.

An iteration deletes by key and asserts that the node deleted is the one that is due.  So the entry
has to be the one a lookup of its key finds (`GlobalData.TopResolves`).  It is as long as no stored
key is `set` (`GlobalData.UniqueKeys.topResolves`), and it is not once `set` has linked a newer entry
under the key (`timers_find_newer_entry`).

* `processTimers_expires_due` — so after every history in which no stored key is `set`, no entry
  with a TTL is deleted by `del`, and no deletion takes a node of ht2.
-/

set_option autoImplicit false

namespace RedisServer

open Runs HeapOrder GlobalData

variable {g g' : GlobalData} {key : Bytes} {now : UInt64}

/-- A lookup of the due entry's key finds the due entry. -/
def GlobalData.TopResolves (g : GlobalData) : Prop :=
  ∀ top ∈ g.heap.head?, ∀ e ∈ g.entries top.ref, ∀ e' ∈ g.resolve e.key, e'.node = e.node

instance (g : GlobalData) : Decidable g.TopResolves :=
  inferInstanceAs (Decidable (∀ top ∈ _, _))

/-- A `del` takes no entry with a TTL and no node of ht2. -/
def CleanDel (g : GlobalData) (cmd : List Bytes) : Prop :=
  NoTtlDel g cmd ∧ ChargedDel g cmd

/-- The TTL loop is about to delete the entry that is due, from ht1. -/
def CleanExpiry (g : GlobalData) : Prop := g.TopResolves ∧ ChargedExpiry g

instance (g : GlobalData) (cmd : List Bytes) : Decidable (CleanDel g cmd) :=
  inferInstanceAs (Decidable (_ ∧ _))

instance (g : GlobalData) : Decidable (CleanExpiry g) := inferInstanceAs (Decidable (_ ∧ _))

/-- What the TTL loop works on. -/
structure GlobalData.Timed (g : GlobalData) : Prop where
  wf : g.Wf
  ttl : g.TtlOk
  exact : g.db.Exact

theorem GlobalData.Timed.empty : GlobalData.Timed {} := ⟨.empty, .empty, HMap.exact_empty⟩

/-- From `g` to `g'` the entry that owns `heap[0]` left the database, its slot the heap, and nothing
else happened but that other entries were moved in the heap. -/
structure GlobalData.Expired (g g' : GlobalData) (top : HeapItem) (e : Entry) : Prop where
  head : g.heap.head? = some top
  owner : g.entries top.ref = some e ∧ e.node.ptr = top.ref ∧ e.heapIdx = some 0
  node : (e.node :: g'.db.order).Perm g.db.order
  slot : (top :: g'.heap).Perm g.heap
  gone : g'.entries top.ref = none
  others : ∀ p, p ≠ top.ref → (g'.entries p).map Entry.body = (g.entries p).map Entry.body

theorem HMap.Removed.perm {n : HNode} {m m' : HMap} (h : HMap.Removed n m m') (hnd : m.order.Nodup) :
    (n :: m'.order).Perm m.order := by
  rw [h.order, ← hnd.erase_eq_filter]
  exact (List.perm_cons_erase h.mem).symm

theorem hmDelete_found (w : g.Wf) (hx : g.db.Exact) {e : Entry} {p : Ptr}
    (he : g.entries p = some e) :
    ∃ db n, hmDelete g.db (strHash e.key) (entryEq g.entries e.key) = .ok (db, some n) := by
  obtain ⟨db, r, hd⟩ := hmDelete_total w.shape hx (w.eq_ok e.key)
  cases r with
  | some n => exact ⟨db, n, hd⟩
  | none =>
    obtain ⟨m, k, -, hk, hf, -⟩ := delete_spec w hd
    have hm := ((w.helped hk).mem_copies he).1
    rw [List.head?_eq_none_iff.mp hf.symm] at hm
    cases hm

/-- **An iteration of the TTL loop** removes the entry that owns `heap[0]`. -/
theorem expireTop_total (t : g.Timed) {top : HeapItem} {rest : Heap} (hg : g.heap = top :: rest)
    (hc : CleanExpiry g) :
    ∃ g' e, expireTop g = .ok g' ∧ Expired g g' top e ∧ g'.Timed := by
  have htop : g.heap[0]? = some top := by rw [hg]; rfl
  have hhead : g.heap.head? = some top := by rw [hg]; rfl
  obtain ⟨e, he⟩ := t.ttl.backed.live top (List.mem_of_getElem? htop)
  have hidx := t.ttl.backed.index 0 top e htop not_false he
  obtain ⟨-, hptr, hhash⟩ := t.wf.stored _ e he
  obtain ⟨db, n, hd⟩ := hmDelete_found t.wf t.exact he
  obtain ⟨m, k, hhelp, hk, hf, hrem⟩ := delete_spec t.wf hd
  -- the node deleted is the one that is due
  obtain ⟨e', hres, -, hn', -⟩ := resolve_of_help t.wf hhelp hf
  have hn : n = e.node := hn'.symm.trans (hc.1 top hhead e he e' hres)
  obtain ⟨E, a, hr, hok, hperm⟩ := heapRemove_spec t.ttl htop
  obtain ⟨e₁, he₁, -⟩ := (heapRemove_retimed hr).after he
  have hstep : ∃ tp, expireTop g = .ok { g with
      db := db, entries := E.free top.ref, heap := a, tp := tp } := by
    have hdel : ∀ gd : GlobalData, gd.entries top.ref = some { e₁ with heapIdx := none } →
        ∃ tp, entryDel gd top.ref = .ok { gd with entries := gd.entries.free top.ref, tp := tp } := by
      intro gd hgd
      unfold entryDel
      simp only [Store.read_of hgd, ok_bind]
      split <;> exact ⟨_, rfl⟩
    obtain ⟨tp, htp⟩ := hdel { g with
      db := db, entries := E.write top.ref { e₁ with heapIdx := none }, heap := a } (by simp)
    refine ⟨tp, ?_⟩
    unfold expireTop
    simp only [itemAt_of htop, Store.read_of he, hhash, hd, hn, hptr, hidx, hr,
      Store.modify_of _ he₁, htp, ok_bind, Option.map_some, decide_true, assert_true,
      Store.free_write]
  obtain ⟨tp, hstep⟩ := hstep
  have hchange := expireTop_change t.wf hstep
  have hnd := (t.wf.helped hk).shape.nodup_order
  refine ⟨_, e, hstep, ⟨hhead, ⟨he, hptr, hidx⟩, ?_, hperm, Store.free_self _ _, ?_⟩,
    hchange.wf t.wf, (expireTop_ttlOk t.ttl hstep).1, hchange.exact t.wf hc.2 t.exact⟩
  · rw [← hn]
    exact (hrem.perm hnd).trans hk.perm
  · intro p hp
    show (E.free top.ref p).map _ = _
    rw [Store.free_of_ne _ hp]
    exact heapRemove_retimed hr p

/-- What has become of the entries when the loop has had `n` iterations at its disposal. -/
structure GlobalData.Swept (now : UInt64) (n : Nat) (g g' : GlobalData) : Prop where
  timed : g'.Timed
  survivor : ∀ p e, g.entries p = some e → (∀ x ∈ g.heap, x.ref = p → ¬ x.val < now) →
    ∃ e', g'.entries p = some e' ∧ e'.body = e.body
  gone : ∀ p, g.entries p = none → g'.entries p = none
  due : (g.heap.filter (·.val < now)).length ≤ n →
    ∀ x ∈ g.heap, x.val < now → g'.entries x.ref = none

theorem GlobalData.Swept.refl (t : g.Timed) {n : Nat}
    (h : (g.heap.filter (·.val < now)).length ≤ n → ∀ x ∈ g.heap, ¬ x.val < now) :
    Swept now n g g where
  timed := t
  survivor _ e he _ := ⟨e, he, rfl⟩
  gone _ h := h
  due hn x hx hlt := absurd hlt (h hn x hx)

/-- One more iteration in front. -/
theorem GlobalData.Swept.cons {n : Nat} {g₁ : GlobalData} {top : HeapItem} {e : Entry}
    (hlt : top.val < now) (hx : Expired g g₁ top e) (h : Swept now n g₁ g') :
    Swept now (n + 1) g g' where
  timed := h.timed
  survivor p e' he hlate := by
    have hp : p ≠ top.ref := fun hp =>
      hlate top (List.mem_of_mem_head? hx.head) hp.symm hlt
    have hsame := hx.others p hp
    rw [he] at hsame
    obtain ⟨e₁, he₁, hb₁⟩ := Option.map_eq_some_iff.mp hsame
    obtain ⟨e₂, he₂, hb₂⟩ := h.survivor p e₁ he₁ fun x hxm =>
      hlate x (hx.slot.mem_iff.mp (List.mem_cons_of_mem _ hxm))
    exact ⟨e₂, he₂, hb₂.trans hb₁⟩
  gone p hp := by
    apply h.gone p
    by_cases hpt : p = top.ref
    · rw [hpt]; exact hx.gone
    · have := hx.others p hpt
      rw [hp] at this
      exact Option.map_eq_none_iff.mp this
  due hn x hxm hxl := by
    rcases List.mem_cons.mp (hx.slot.mem_iff.mpr hxm) with rfl | hxm
    · exact h.gone _ hx.gone
    · refine h.due ?_ x hxm hxl
      have := (hx.slot.filter fun x => decide (x.val < now)).length_eq
      rw [List.filter_cons_of_pos (by simpa using hlt), List.length_cons] at this
      omega

/-- **The TTL loop** does not fail, and each of its iterations removes what it should. -/
theorem expireLoop_spec : ∀ (n : Nat) (g : GlobalData), g.Timed → EachExpiry now CleanExpiry n g →
    ∃ g', expireLoop now n g = .ok g' ∧ Swept now n g g' ∧
      EachExpiry now (fun g => ∃ g' top e, expireTop g = .ok g' ∧ Expired g g' top e) n g
  | 0, g, t, _ => by
    refine ⟨g, rfl, .refl t ?_, trivial⟩
    intro hn x hx hlt
    have := List.eq_nil_of_length_eq_zero (Nat.le_zero.mp hn)
    have hmem : x ∈ g.heap.filter (·.val < now) := List.mem_filter.mpr ⟨hx, by simpa using hlt⟩
    rw [this] at hmem; cases hmem
  | n + 1, g, t, hc => by
    rw [eachExpiry_succ] at hc
    unfold expireLoop
    cases hg : g.heap with
    | nil =>
      refine ⟨g, rfl, .refl t ?_, eachExpiry_succ.mpr ?_⟩
      · intro _ x hx
        rw [hg] at hx; cases hx
      · intro top rest h
        rw [hg] at h; cases h
    | cons top rest =>
      by_cases hlt : top.val < now
      · obtain ⟨hcg, hcs⟩ := hc top rest hg hlt
        obtain ⟨g₁, e, h₁, hx, t₁⟩ := expireTop_total t hg hcg
        obtain ⟨g', h', hs, heach⟩ := expireLoop_spec n g₁ t₁ (hcs g₁ h₁)
        refine ⟨g', by simp [hlt, h₁, h'], hs.cons hlt hx, eachExpiry_succ.mpr ?_⟩
        exact fun _ _ _ _ => ⟨⟨g₁, top, e, h₁, hx⟩, fun g₂ h₂ => by rw [h₁] at h₂; cases h₂; exact heach⟩
      · -- the first slot has the smallest deadline
        refine ⟨g, by simp [hlt], .refl t ?_, eachExpiry_succ.mpr ?_⟩
        · intro _ x hx hxl
          obtain ⟨i, hi⟩ := List.mem_iff_getElem?.mp hx
          have hle := t.ttl.ordered.root_le i (List.getElem?_eq_some_iff.mp hi).1
          have h0 : g.heap[0]? = some top := by rw [hg]; rfl
          rw [vals_of h0, vals_of hi] at hle
          exact hlt (UInt64.lt_iff_toNat_lt.mpr
            (Nat.lt_of_le_of_lt hle (UInt64.lt_iff_toNat_lt.mp hxl)))
        · intro top' rest' h hd
          rw [hg] at h; cases h; exact absurd hd hlt

/-! ## Histories -/

theorem serve_timed {lim : Limits} {ev : Event} (t : g.Timed)
    (hc : ev.Meets CleanDel CleanExpiry g) (h : serve lim g ev = .ok g') : g'.Timed :=
  serve_invariant
    (fun _ _ _ _ t hc he => ⟨(he.change t.wf).wf t.wf, he.ttlOk t.wf t.ttl hc.1,
      (he.change t.wf).exact t.wf hc.2 t.exact⟩)
    (fun _ _ t hc he => ⟨(expireTop_change t.wf he).wf t.wf, (expireTop_ttlOk t.ttl he).1,
      (expireTop_change t.wf he).exact t.wf hc.2 t.exact⟩) t hc h

/-- The deadline of an entry: `heap[heap_idx].val`, if it has a TTL. -/
def GlobalData.deadline (g : GlobalData) (e : Entry) : Option UInt64 :=
  e.heapIdx.bind fun i => g.heap[i]?.map HeapItem.val

theorem deadline_slot (ok : g.TtlOk) {p : Ptr} {e : Entry} (he : g.entries p = some e)
    {x : HeapItem} (hx : x ∈ g.heap) (hp : x.ref = p) : g.deadline e = some x.val := by
  obtain ⟨i, hi⟩ := List.mem_iff_getElem?.mp hx
  have := ok.backed.index i x e hi not_false (hp ▸ he)
  simp [GlobalData.deadline, this, hi]

theorem deadline_eq_some (ok : g.TtlOk) {p : Ptr} {e : Entry} (he : g.entries p = some e)
    {d : UInt64} (hd : g.deadline e = some d) : ∃ x ∈ g.heap, x.ref = p ∧ x.val = d := by
  obtain ⟨i, hi, hval⟩ := Option.bind_eq_some_iff.mp hd
  obtain ⟨x, hx, rfl⟩ := Option.map_eq_some_iff.mp hval
  obtain ⟨y, hy, hyp⟩ := ok.backed.slot p e i not_false he hi
  rw [hx] at hy; cases hy
  exact ⟨x, List.mem_of_getElem? hx, hyp, rfl⟩

/-- The entry at `p` has a slot with deadline `d`. -/
theorem deadline_eq_iff (ok : g.TtlOk) {p : Ptr} {e : Entry} (he : g.entries p = some e)
    {d : UInt64} : g.deadline e = some d ↔ ⟨d, p⟩ ∈ g.heap := by
  constructor
  · intro hd
    obtain ⟨x, hx, rfl, rfl⟩ := deadline_eq_some ok he hd
    exact hx
  · intro hx
    exact deadline_slot ok he hx rfl

/-- With unique keys a lookup of the due entry's key finds the due entry. -/
theorem GlobalData.UniqueKeys.topResolves (w : g.Wf) (hu : g.UniqueKeys) : g.TopResolves := by
  intro top _ e he e' he'
  have hres : g.resolve e.key = some e' := he'
  unfold GlobalData.resolve at hres
  split at hres
  · rename_i g₁ p hl
    have hlooked := lookupEntry_spec w hl
    obtain ⟨n, e₁, -, rfl, he₁, -, hkey⟩ := hlooked.some
    cases hres.symm.trans he₁
    rw [hlooked.entries] at he₁
    have hp := hu top.ref n.ptr e e' he he₁ hkey.symm
    cases (congrArg g.entries hp).symm.trans (he : g.entries top.ref = some e) |>.symm.trans he₁
    rfl
  · cases hres

/-- No stored key is `set`, and a `del` takes no entry with a TTL and no node of ht2. -/
def OrdinaryRequest (g : GlobalData) (cmd : List Bytes) : Prop :=
  SetsNewKey g cmd ∧ CleanDel g cmd

instance (g : GlobalData) (cmd : List Bytes) : Decidable (OrdinaryRequest g cmd) :=
  inferInstanceAs (Decidable (_ ∧ _))

/-- With unique keys the TTL loop finds the due entry in each of its iterations. -/
theorem cleanMeets {ev : Event} (t : g.Timed) (hu : g.UniqueKeys)
    (hc : ev.Meets OrdinaryRequest ChargedExpiry g) : ev.Meets CleanDel CleanExpiry g := by
  cases ev with
  | request now cmd => exact hc.2
  | timers now =>
    have hresolves : EachExpiry now GlobalData.TopResolves (maxWorks + 1) g :=
      eachExpiry_of (I := fun g => g.Wf ∧ g.UniqueKeys) (fun g hi => hi.2.topResolves hi.1)
        (fun g g' hi h => ⟨(expireTop_change hi.1 h).wf hi.1,
          (expireTop_change hi.1 h).unique (fun _ hk => by cases hk) hi.2⟩) ⟨t.wf, hu⟩
    exact hresolves.and hc

/-- What has become of the entry at `p`: it is still stored and linked, or it is not. -/
theorem GlobalData.Swept.entry {n : Nat} (t : g.Timed) (hs : Swept now n g g')
    (hn : (g.heap.filter (·.val < now)).length ≤ n) {p : Ptr} {e : Entry}
    (he : g.entries p = some e) :
    ((∃ e', g'.entries p = some e' ∧ e'.body = e.body ∧ e.node ∈ g'.db.order) ↔
      ∀ d, g.deadline e = some d → now ≤ d) ∧
    ((g'.entries p = none ∧ e.node ∉ g'.db.order) ↔ ∃ d, g.deadline e = some d ∧ d < now) := by
  have hkeep : (∀ d, g.deadline e = some d → now ≤ d) →
      ∃ e', g'.entries p = some e' ∧ e'.body = e.body ∧ e.node ∈ g'.db.order := by
    intro hd
    obtain ⟨e', he', hb⟩ := hs.survivor p e he fun x hx hxp hlt =>
      absurd (hd _ (deadline_slot t.ttl he hx hxp)) (UInt64.not_le.mpr hlt)
    have hnode : e'.node = e.node := by simpa [Entry.body] using congrArg Entry.node hb
    exact ⟨e', he', hb, hnode ▸ (hs.timed.wf.stored p e' he').1⟩
  have hgone : (∃ d, g.deadline e = some d ∧ d < now) →
      g'.entries p = none ∧ e.node ∉ g'.db.order := fun ⟨d, hd, hlt⟩ => by
    obtain ⟨x, hx, hxp, rfl⟩ := deadline_eq_some t.ttl he hd
    have hnone := hxp ▸ hs.due hn x hx hlt
    refine ⟨hnone, ?_⟩
    intro hmem
    obtain ⟨e', he', -⟩ := hs.timed.wf.linked _ hmem
    rw [(t.wf.stored p e he).2.1, hnone] at he'; cases he'
  refine ⟨⟨?_, hkeep⟩, ⟨?_, hgone⟩⟩
  · rintro ⟨e', he', _⟩ d hd
    by_contra hlt
    have := (hgone ⟨d, hd, UInt64.not_le.mp hlt⟩).1
    rw [he'] at this; cases this
  · rintro ⟨hnone, _⟩
    by_contra hno
    obtain ⟨e', he', -⟩ := hkeep fun d hd => by
      by_contra hlt
      exact hno ⟨d, hd, UInt64.not_le.mp hlt⟩
    rw [hnone] at he'; cases he'

/-- **`process_timers` expires the due entries.** After a history in which no stored key is `set`,
no `del` takes an entry with a TTL, and no deletion takes a node of ht2, the pass does not fail; each
iteration removes exactly the owner of `heap[0]`; and if at most 2001 deadlines lie before `now`, the
entries stored afterwards are those without a TTL and those with a deadline from `now` on. -/
theorem processTimers_expires_due (lim : Limits) (evs : List Event) (now : UInt64) (g : GlobalData)
    (hc : AllSteps (serve lim) (fun g ev => ev.Meets OrdinaryRequest ChargedExpiry g) {}
      (evs ++ [.timers now]))
    (hr : run (serve lim) {} evs = .ok g) :
    ∃ g', processTimers g now = .ok g' ∧
      EachExpiry now (fun g => ∃ g' top e, expireTop g = .ok g' ∧ Expired g g' top e)
        (maxWorks + 1) g ∧
      ((g.heap.filter (·.val < now)).length ≤ 2001 → ∀ p e, g.entries p = some e →
        ((∃ e', g'.entries p = some e' ∧ e'.body = e.body ∧ e.node ∈ g'.db.order) ↔
          ∀ d, g.deadline e = some d → now ≤ d) ∧
        ((g'.entries p = none ∧ e.node ∉ g'.db.order) ↔ ∃ d, g.deadline e = some d ∧ d < now)) := by
  obtain ⟨hevs, hlast⟩ := allSteps_append.mp hc
  obtain ⟨t, hu⟩ : g.Timed ∧ g.UniqueKeys := by
    refine run_invariant (I := fun g => g.Timed ∧ g.UniqueKeys) ?_
      ⟨.empty, fun p q e e' he => by cases he⟩ hevs hr
    intro g ev g' hi hc h
    have hset : ev.Meets SetsNewKey (fun _ => True) g :=
      hc.mono (fun _ _ hc => hc.1) fun _ _ => trivial
    exact ⟨serve_timed hi.1 (cleanMeets hi.1 hi.2 hc) h, (serve_unique ⟨hi.1.wf, hi.2⟩ hset h).2⟩
  have hcg := cleanMeets t hu (allSteps_cons.mp (hlast g hr)).1
  obtain ⟨g', h', hs, heach⟩ := expireLoop_spec (maxWorks + 1) g t hcg
  exact ⟨g', h', heach, fun hn p e he => hs.entry t hn he⟩

theorem processTimers_expires_first : ∃ g g', run (serve ⟨64, 0⟩) {} ttlHistory = .ok g ∧
    processTimers g 8000 = .ok g' := by
  obtain ⟨g, hg⟩ := ok_of_isSome (x := run (serve ⟨64, 0⟩) {} ttlHistory) (by decide +kernel)
  obtain ⟨g', h', -⟩ :=
    processTimers_expires_due ⟨64, 0⟩ ttlHistory 8000 g (by decide +kernel) hg
  exact ⟨g, g', hg, h'⟩

/-- Setting a key that has a TTL again makes the assertion fail when the TTL fires. -/
theorem timers_find_newer_entry : ∃ g, run (serve ⟨64, 0⟩) {}
    [ask 0 ["set", "k", "v"], ask 1 ["expire", "k", "5"], ask 2 ["set", "k", "w"]] = .ok g ∧
      processTimers g 8000 = .error .assertFailed := by
  obtain ⟨g, hg⟩ := ok_of_isSome (x := run (serve ⟨64, 0⟩) {}
    [ask 0 ["set", "k", "v"], ask 1 ["expire", "k", "5"], ask 2 ["set", "k", "w"]])
    (by decide +kernel)
  have hafter : (match run (serve ⟨64, 0⟩) {}
      [ask 0 ["set", "k", "v"], ask 1 ["expire", "k", "5"], ask 2 ["set", "k", "w"]] with
      | .ok g => match processTimers g 8000 with | .error f => some f | .ok _ => none
      | .error _ => none) = some .assertFailed := by decide +kernel
  rw [hg] at hafter
  refine ⟨g, hg, ?_⟩
  dsimp only at hafter
  split at hafter
  · rename_i f hf; rw [hf]; cases hafter; rfl
  · cases hafter

end RedisServer
