import RedisServer.Expiry

/-!
# Slots of deleted entries

`del` leaves the slot of an entry with a TTL in the heap.  `Backfill g F` says what remains true:
`F` has the entries of `g` and, where a slot refers to a deleted one, an entry put back in its
place; with `F` heap and entries belong together.

What the heap operations do on fewer entries, if they return, they do on more (`Extends`), so the
results about `TtlOk` carry over through `F`.  Every reachable state has such an `F`
(`Reachable.backfill`).
-/

set_option autoImplicit false

namespace RedisServer

open Runs GlobalData

/-! ## The heap operations on more entries -/

/-- `F` has the entries of `E`, and maybe others. -/
def Extends (E F : Store Entry) : Prop := ∀ p e, E p = some e → F p = some e

variable {E E' F : Store Entry} {a a' : Heap} {p : Ptr} {pos : Nat} {t : HeapItem}

theorem Extends.refl (E : Store Entry) : Extends E E := fun _ _ he => he

theorem Extends.write (h : Extends E F) (p : Ptr) (e : Entry) :
    Extends (E.write p e) (F.write p e) := by
  intro q e' he'
  by_cases hq : q = p
  · rw [hq, Store.write_self] at he' ⊢
    exact he'
  · rw [Store.write_of_ne _ _ hq] at he' ⊢
    exact h q e' he'

theorem Extends.free (h : Extends E F) (p : Ptr) : Extends (E.free p) (F.free p) := by
  intro q e he
  obtain ⟨hq, he⟩ := Store.free_eq_some.mp he
  exact Store.free_eq_some.mpr ⟨hq, h q e he⟩

theorem Extends.freed (h : Extends E F) (p : Ptr) : Extends (E.free p) F := fun q e he =>
  h q e (Store.free_eq_some.mp he).2

theorem modify_extends (h : Extends E F) {f : Entry → Entry} (hm : E.modify p f = .ok E') :
    ∃ F', F.modify p f = .ok F' ∧ Extends E' F' := by
  obtain ⟨e, he, rfl⟩ := Store.modify_ok.mp hm
  exact ⟨_, Store.modify_of f (h p e he), h.write p (f e)⟩

theorem place_extends (h : Extends E F) (hp : place E a pos t = .ok (E', a')) :
    ∃ F', place F a pos t = .ok (F', a') ∧ Extends E' F' := by
  obtain ⟨a₁, ha, hp⟩ := bind_ok.mp hp
  obtain ⟨E₁, hE, hp⟩ := bind_ok.mp hp
  cases hp
  obtain ⟨F', hF, h'⟩ := modify_extends h hE
  exact ⟨F', by rw [place, ha, ok_bind, setRef, hF]; rfl, h'⟩

theorem extends_inStep : InStep fun E a F b => b = a ∧ Extends E F := by
  constructor
  · rintro E F a b i t ⟨rfl, -⟩ hx
    exact hx
  · rintro E F E' a b a' pos t ⟨rfl, h⟩ hp
    obtain ⟨F', hp', h'⟩ := place_extends h hp
    exact ⟨F', a', hp', rfl, h'⟩

theorem heapUpdate_extends {len : Nat} (h : Extends E F)
    (hu : heapUpdate E a pos len = .ok (E', a')) :
    ∃ F', heapUpdate F a pos len = .ok (F', a') ∧ Extends E' F' := by
  obtain ⟨F', b', hu', rfl, h'⟩ := extends_inStep.update ⟨rfl, h⟩ hu
  exact ⟨F', hu', h'⟩

theorem heapRemove_extends (h : Extends E F) (hr : heapRemove E a pos = .ok (E', a')) :
    ∃ F', heapRemove F a pos = .ok (F', a') ∧ Extends E' F' := by
  unfold heapRemove at hr ⊢
  by_cases ha : a = []
  · rw [if_pos ha] at hr
    cases hr
  rw [if_neg ha] at hr ⊢
  obtain ⟨⟨E₁, a₁⟩, hfill, hr⟩ := bind_ok.mp hr
  obtain ⟨F₁, hF, h₁⟩ : ∃ F₁, fillHole F a pos = .ok (F₁, a₁) ∧ Extends E₁ F₁ := by
    unfold fillHole at hfill ⊢
    dsimp only at hfill ⊢
    by_cases hlast : pos = a.length - 1
    · rw [if_pos hlast] at hfill ⊢
      cases hfill
      exact ⟨F, rfl, h⟩
    · rw [if_neg hlast] at hfill ⊢
      obtain ⟨x, hx, hfill⟩ := bind_ok.mp hfill
      rw [hx, ok_bind]
      exact place_extends h hfill
  rw [hF, ok_bind]
  dsimp only at hr ⊢
  by_cases hpos : pos < a₁.dropLast.length
  · rw [if_pos hpos] at hr ⊢
    exact heapUpdate_extends h₁ hr
  · rw [if_neg hpos] at hr ⊢
    cases hr
    exact ⟨F₁, rfl, h₁⟩

/-! ## entry_set_ttl on more entries -/

variable {g g' : GlobalData} {now : UInt64}

/-- The state with other entries. -/
def GlobalData.withEntries (g : GlobalData) (F : Store Entry) : GlobalData := { g with entries := F }

theorem entrySetTtl_extends {ttlMs : Int} (h : Extends g.entries F)
    (hs : entrySetTtl g p ttlMs now = .ok g') :
    ∃ F', entrySetTtl (g.withEntries F) p ttlMs now = .ok (g'.withEntries F') ∧
      Extends g'.entries F' := by
  obtain ⟨e, he, hs⟩ := bind_ok.mp hs
  have hread : (g.withEntries F).entries.read p = .ok e :=
    Store.read_of (h p e (Store.read_ok.mp he))
  rw [entrySetTtl, hread, ok_bind]
  by_cases hneg : ttlMs < 0
  · rw [if_pos hneg] at hs ⊢
    cases hi : e.heapIdx with
    | none =>
      rw [hi] at hs
      cases hs
      exact ⟨F, rfl, h⟩
    | some pos =>
      rw [hi] at hs
      obtain ⟨⟨E₁, a₁⟩, hr, hs⟩ := bind_ok.mp hs
      obtain ⟨E₂, hm, hs⟩ := bind_ok.mp hs
      cases hs
      obtain ⟨F₁, hF₁, h₁⟩ := heapRemove_extends h hr
      obtain ⟨F₂, hF₂, h₂⟩ := modify_extends h₁ hm
      refine ⟨F₂, ?_, h₂⟩
      dsimp only [withEntries]
      rw [hF₁, ok_bind, hF₂]
      rfl
  · rw [if_neg hneg] at hs ⊢
    dsimp only at hs ⊢
    cases hi : e.heapIdx with
    | none =>
      rw [hi] at hs
      obtain ⟨E₁, hr, hs⟩ := bind_ok.mp hs
      obtain ⟨⟨E₂, a₂⟩, hu, hs⟩ := bind_ok.mp hs
      cases hs
      obtain ⟨F₁, hF₁, h₁⟩ := modify_extends h hr
      obtain ⟨F₂, hF₂, h₂⟩ := heapUpdate_extends h₁ hu
      refine ⟨F₂, ?_, h₂⟩
      dsimp only [withEntries]
      rw [setRef, hF₁, ok_bind, hF₂]
      rfl
    | some pos =>
      rw [hi] at hs
      obtain ⟨x, hx, hs⟩ := bind_ok.mp hs
      obtain ⟨a₁, ha, hs⟩ := bind_ok.mp hs
      obtain ⟨⟨E₂, a₂⟩, hu, hs⟩ := bind_ok.mp hs
      cases hs
      obtain ⟨F₂, hF₂, h₂⟩ := heapUpdate_extends h hu
      refine ⟨F₂, ?_, h₂⟩
      dsimp only [withEntries]
      rw [hx, ok_bind, ha, ok_bind, hF₂]
      rfl

/-! ## Entries put back -/

/-- `F` are the entries of `g`, with an entry put back for each slot of a deleted one. -/
structure GlobalData.Backfill (g : GlobalData) (F : Store Entry) : Prop where
  more : Extends g.entries F
  ok : (g.withEntries F).TtlOk
  fresh : ∀ p, g.next ≤ p → F p = none

theorem GlobalData.Backfill.empty : Backfill {} Store.empty where
  more := .refl _
  ok := .empty
  fresh _ _ := rfl

theorem GlobalData.Backfill.congr (b : g.Backfill F) (hE : g'.entries = g.entries)
    (ha : g'.heap = g.heap) (hn : g'.next = g.next) : g'.Backfill F where
  more := hE ▸ b.more
  ok := by
    have := b.ok
    rw [TtlOk, withEntries] at this ⊢
    rwa [ha]
  fresh := hn ▸ b.fresh

theorem GlobalData.Backfill.write (b : g.Backfill F) {e e' : Entry} (he : g.entries p = some e)
    (hi : e'.heapIdx = e.heapIdx) :
    Backfill { g with entries := g.entries.write p e' } (F.write p e') where
  more := b.more.write p e'
  ok := ⟨b.ok.ordered, b.ok.backed.write (b.more p e he) hi⟩
  fresh q hq := by
    have hqp : q ≠ p := by
      intro hqp
      have hF := b.more p e he
      rw [hqp.symm, b.fresh q hq] at hF
      cases hF
    rw [Store.write_of_ne _ _ hqp]
    exact b.fresh q hq

theorem GlobalData.Backfill.created (b : g.Backfill F) {e : Entry} {m : HMap}
    (hc : Created g e m g') (hi : e.heapIdx = none) : g'.Backfill (F.write g.next e) := by
  rw [hc.data]
  refine ⟨b.more.write _ e, ⟨b.ok.ordered, b.ok.backed.create (b.fresh _ (Nat.le_refl _)) hi⟩, ?_⟩
  intro q hq
  have hq : g.next + 1 ≤ q := hq
  rw [Store.write_of_ne _ _ (Nat.ne_of_gt hq)]
  exact b.fresh q (Nat.le_of_succ_le hq)

theorem GlobalData.Backfill.timed {ttlMs : Int} (b : g.Backfill F) {e : Entry}
    (he : g.entries p = some e) (hs : entrySetTtl g p ttlMs now = .ok g') :
    ∃ F', g'.Backfill F' ∧
      entrySetTtl (g.withEntries F) p ttlMs now = .ok (g'.withEntries F') := by
  obtain ⟨F', hF, h'⟩ := entrySetTtl_extends b.more hs
  obtain ⟨g₁, h₁, ok₁, -⟩ := @entrySetTtl_spec _ now b.ok p e (b.more p e he) ttlMs
  cases hF.symm.trans h₁
  have hnext : g'.next = g.next := by rw [(entrySetTtl_ok hs).2]
  exact ⟨F', ⟨h', ok₁, fun q hq => (entrySetTtl_ok hF).1.gone (b.fresh q (hnext ▸ hq))⟩, hF⟩

/-! ## Steps -/

theorem Effect.backfill {cmd : List Bytes} (w : g.Wf) (b : g.Backfill F)
    (h : Effect now g cmd g') : ∃ F', g'.Backfill F' := by
  cases h with
  | idle => exact ⟨F, b⟩
  | looked _ hl =>
    have hl := lookupEntry_spec w hl
    exact ⟨F, b.congr hl.entries (by rw [hl.data]) (by rw [hl.data])⟩
  | ranked z _ hl he _ =>
    have hl := lookupEntry_spec w hl
    have b₁ := b.congr hl.entries (by rw [hl.data]) (by rw [hl.data])
    exact ⟨_, b₁.write he rfl⟩
  | timed _ hl ht =>
    have hl := lookupEntry_spec w hl
    have b₁ := b.congr hl.entries (by rw [hl.data]) (by rw [hl.data])
    obtain ⟨n, e, -, -, he, -⟩ := hl.some
    obtain ⟨F', b', -⟩ := b₁.timed he ht
    exact ⟨F', b'⟩
  | stored hi =>
    obtain ⟨-, m, hc⟩ := insertEntry_spec w hi
    exact ⟨_, b.created hc rfl⟩
  | added z _ hl hi he =>
    have hl := lookupEntry_spec w hl
    obtain ⟨-, m, hc⟩ := insertEntry_spec hl.wf hi
    have b₁ := b.congr hl.entries (by rw [hl.data]) (by rw [hl.data])
    exact ⟨_, (b₁.created hc rfl).write he rfl⟩
  | missed _ => exact ⟨F, b.congr rfl rfl rfl⟩
  | deleted hd he =>
    obtain ⟨her, hheap, hent⟩ := deleted_spec w hd he
    refine ⟨F, ?_, ?_, fun q hq => b.fresh q (her.next ▸ hq)⟩
    · rw [hent]
      exact b.more.freed _
    · have := b.ok
      rw [TtlOk, withEntries] at this ⊢
      rwa [hheap]

/-- An iteration of the TTL loop removes the first slot. -/
theorem GlobalData.Backfill.expireTop (b : g.Backfill F) (h : expireTop g = .ok g') :
    ∃ top F', g.heap[0]? = some top ∧ g'.Backfill F' ∧ (top :: g'.heap).Perm g.heap ∧
      ∀ q e, q ≠ top.ref → g.entries q = some e →
        ∃ e', g'.entries q = some e' ∧ e'.body = e.body := by
  obtain ⟨top, e, db, n, pos, E, a, tp, htop, he, -, -, hpos, hr, rfl⟩ := expireTop_ok h
  have h0 := b.ok.backed.index 0 top e htop not_false (b.more _ e he)
  rw [hpos, Option.some.injEq] at h0
  subst h0
  obtain ⟨F', hF, h'⟩ := heapRemove_extends b.more hr
  obtain ⟨F₁, a₁, h₁, hok, hperm⟩ := heapRemove_spec b.ok htop
  cases hF.symm.trans h₁
  have hgone := ref_removed hperm b.ok.backed.nodup
  refine ⟨top, F'.free top.ref, htop, ⟨h'.free _, ⟨hok.ordered, hok.backed.free hgone⟩,
    ?_⟩, hperm, ?_⟩
  · intro q hq
    by_cases hqt : q = top.ref
    · rw [hqt]
      exact Store.free_self _ _
    · rw [Store.free_of_ne _ hqt]
      exact (heapRemove_retimed hF).gone (b.fresh q hq)
  · intro q e₀ hq he₀
    obtain ⟨e', he', hb⟩ := (heapRemove_retimed hr).after he₀
    exact ⟨e', (Store.free_of_ne _ hq).trans he', hb⟩

theorem serve_backfill {lim : Limits} (g : GlobalData) (ev : Event) (g' : GlobalData)
    (hi : g.Wf ∧ ∃ F, g.Backfill F) (h : serve lim g ev = .ok g') :
    g'.Wf ∧ ∃ F, g'.Backfill F := by
  refine serve_invariant (I := fun g => g.Wf ∧ ∃ F, g.Backfill F) ?_ ?_ hi (meets_true g ev) h
  · rintro now g cmd g' ⟨w, F, b⟩ - he
    exact ⟨(he.change w).wf w, he.backfill w b⟩
  · rintro g g' ⟨w, F, b⟩ - he
    obtain ⟨top, F', -, b', -⟩ := b.expireTop he
    exact ⟨(expireTop_change w he).wf w, F', b'⟩

/-- A history leads to this state. -/
def Reachable (g : GlobalData) : Prop := ∃ lim evs, run (serve lim) {} evs = .ok g

/-- **In every reachable state** the heap is in order but for the slots of deleted entries. -/
theorem Reachable.backfill (hr : Reachable g) : ∃ F, g.Backfill F := by
  obtain ⟨lim, evs, hr⟩ := hr
  exact (run_invariant_all (I := fun g => g.Wf ∧ ∃ F, g.Backfill F) serve_backfill
    ⟨.empty, _, .empty⟩ hr).2

/-- The slot of an entry holds its deadline, and no other slot refers to it. -/
theorem GlobalData.Backfill.deadline_iff (b : g.Backfill F) {e : Entry}
    (he : g.entries p = some e) {d : UInt64} : g.deadline e = some d ↔ ⟨d, p⟩ ∈ g.heap :=
  deadline_eq_iff b.ok (b.more p e he)

end RedisServer
