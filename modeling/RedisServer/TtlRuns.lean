import RedisServer.Keyspace

/-!
# The TTL heap over histories

Slots of the heap and entries with a TTL name each other (`GlobalData.TtlOk`).

* `entrySetTtl_spec` — `entry_set_ttl` keeps this, in each of its modes;
* `serve_ttlOk` — so does every step of a history, but for one: `do_del` frees an entry without
  looking at its heap slot, so a `del` of an entry with a TTL leaves a slot that refers to a freed
  entry (`del_leaves_slot`);
* `ttl_heap_bijection` — hence the states that are reached without such a `del`.
-/

set_option autoImplicit false

namespace RedisServer

open Runs HeapOrder GlobalData

/-- Heap and entries belong together. -/
def GlobalData.TtlOk (g : GlobalData) : Prop := HeapOk g.entries g.heap fun _ => False

/-! ## Stores with the same back references -/

theorem Backed.congr {E E' : Store Entry} {a : Heap} {S : Ptr → Prop} (h : Backed E a S)
    (hE : ∀ p, (E' p).map Entry.heapIdx = (E p).map Entry.heapIdx) : Backed E' a S where
  live x hx := by
    obtain ⟨e, he⟩ := h.live x hx
    have := hE x.ref
    rw [he] at this
    obtain ⟨e', he', -⟩ := Option.map_eq_some_iff.mp this
    exact ⟨e', he'⟩
  index i x e' hx hn he' := by
    have := hE x.ref
    rw [he'] at this
    obtain ⟨e, he, hi⟩ := Option.map_eq_some_iff.mp this.symm
    rw [← hi]; exact h.index i x e hx hn he
  slot p e' i hn he' hi := by
    have := hE p
    rw [he'] at this
    obtain ⟨e, he, hi'⟩ := Option.map_eq_some_iff.mp this.symm
    exact h.slot p e i hn he (hi'.trans hi)
  nodup := h.nodup

theorem Backed.write {E : Store Entry} {a : Heap} {S : Ptr → Prop} {p : Ptr} {e e' : Entry}
    (h : Backed E a S) (he : E p = some e) (hi : e'.heapIdx = e.heapIdx) :
    Backed (E.write p e') a S := by
  apply h.congr
  intro q
  by_cases hq : q = p
  · subst hq; simp [he, hi]
  · rw [Store.write_of_ne _ _ hq]

/-- A new object has no TTL, and no slot refers to it. -/
theorem Backed.create {E : Store Entry} {a : Heap} {S : Ptr → Prop} {p : Ptr} {e : Entry}
    (h : Backed E a S) (hp : E p = none) (hi : e.heapIdx = none) : Backed (E.write p e) a S := by
  have hne : ∀ x ∈ a, x.ref ≠ p := by
    intro x hx hxp
    obtain ⟨e', he'⟩ := h.live x hx
    rw [hxp, hp] at he'; cases he'
  refine ⟨?_, ?_, ?_, h.nodup⟩
  · intro x hx
    rw [Store.write_of_ne _ _ (hne x hx)]; exact h.live x hx
  · intro i x e' hx hn he'
    rw [Store.write_of_ne _ _ (hne x (List.mem_of_getElem? hx))] at he'
    exact h.index i x e' hx hn he'
  · intro q e' i hn he' hq
    by_cases hqp : q = p
    · subst hqp; rw [Store.write_self] at he'; cases he'; rw [hi] at hq; cases hq
    · rw [Store.write_of_ne _ _ hqp] at he'; exact h.slot q e' i hn he' hq

/-- An object no slot refers to can be freed. -/
theorem Backed.free {E : Store Entry} {a : Heap} {S : Ptr → Prop} {p : Ptr}
    (h : Backed E a fun q => S q ∨ q = p) (hp : ∀ x ∈ a, x.ref ≠ p) : Backed (E.free p) a S where
  live x hx := by rw [Store.free_of_ne _ (hp x hx)]; exact h.live x hx
  index i x e hx hn he := by
    have hne := hp x (List.mem_of_getElem? hx)
    rw [Store.free_of_ne _ hne] at he
    exact h.index i x e hx (fun hs => hs.elim hn hne) he
  slot q e i hn he hi := by
    obtain ⟨hq, he⟩ := Store.free_eq_some.mp he
    exact h.slot q e i (fun hs => hs.elim hn hq) he hi
  nodup := h.nodup

/-- An object no slot refers to can have its `heap_idx` set to -1. -/
theorem Backed.clear {E : Store Entry} {a : Heap} {S : Ptr → Prop} {p : Ptr} {e : Entry}
    (h : Backed E a fun q => S q ∨ q = p) (hp : ∀ x ∈ a, x.ref ≠ p) (hi : e.heapIdx = none) :
    Backed (E.write p e) a S := by
  have := (h.free hp).create (Store.free_self E p) hi
  have hw : (E.free p).write p e = E.write p e := by
    funext q
    by_cases hq : q = p
    · subst hq; simp
    · simp [Store.write_of_ne _ _ hq, Store.free_of_ne _ hq]
  rwa [hw] at this

/-- A slot of a removed item is not in the heap any more. -/
theorem ref_removed {a a' : Heap} {x : HeapItem} (hp : (x :: a').Perm a)
    (hnd : (a.map HeapItem.ref).Nodup) : ∀ y ∈ a', y.ref ≠ x.ref := by
  have := (hp.map HeapItem.ref).nodup_iff.mpr hnd
  rw [List.map_cons, List.nodup_cons] at this
  exact fun y hy he => this.1 (he ▸ List.mem_map_of_mem hy)

/-- `push_back` of an item and `ent->heap_idx = pos`, for an entry without a TTL. -/
theorem Backed.push {E : Store Entry} {a : Heap} {p : Ptr} {e : Entry}
    (h : Backed E a fun _ => False) (he : E p = some e) (hi : e.heapIdx = none) (val : UInt64) :
    Backed (E.write p { e with heapIdx := some a.length }) (a ++ [⟨val, p⟩])
      fun q => False ∨ q = p := by
  have hnp : ∀ x ∈ a, x.ref ≠ p := by
    intro x hx hxp
    obtain ⟨i, hxi⟩ := List.mem_iff_getElem?.mp hx
    have := h.index i x e hxi not_false (hxp ▸ he)
    rw [hi] at this; cases this
  refine ⟨?_, ?_, ?_, ?_⟩
  · intro x hx
    by_cases hxp : x.ref = p
    · rw [hxp]; exact ⟨_, Store.write_self _ _ _⟩
    · rw [Store.write_of_ne _ _ hxp]
      refine h.live x ((List.mem_append.mp hx).resolve_right fun hx => hxp ?_)
      rw [List.mem_singleton.mp hx]
  · intro i x e' hx hn he'
    have hxp : x.ref ≠ p := fun hx => hn (.inr hx)
    rw [Store.write_of_ne _ _ hxp] at he'
    rw [List.getElem?_append] at hx
    split at hx
    · exact h.index i x e' hx not_false he'
    · have := List.mem_of_getElem? hx
      rw [List.mem_singleton] at this
      exact absurd (by rw [this]) hxp
  · intro q e' i hn he' hq
    have hqp : q ≠ p := fun hq => hn (.inr hq)
    rw [Store.write_of_ne _ _ hqp] at he'
    obtain ⟨x, hx, hxq⟩ := h.slot q e' i not_false he' hq
    exact ⟨x, by rw [List.getElem?_append_left (List.getElem?_eq_some_iff.mp hx).1]; exact hx, hxq⟩
  · rw [List.map_append, List.nodup_append']
    refine ⟨h.nodup, by simp, ?_⟩
    intro q hq hqp
    obtain ⟨x, hx, rfl⟩ := List.mem_map.mp hq
    exact hnp x hx (by simpa using hqp)

theorem vals_push (a : Heap) (x : HeapItem) :
    vals (a ++ [x]) = Function.update (vals a) a.length x.val.toNat := by
  funext i
  by_cases hin : i = a.length
  · subst hin; simp [vals]
  · rw [Function.update_of_ne hin]
    unfold vals
    rw [List.getElem?_append]
    split
    · rfl
    · rw [List.getElem?_eq_none (by simp; omega), List.getElem?_eq_none (by omega)]

/-- Only the references of the slots matter. -/
theorem Backed.refs {E : Store Entry} {a a' : Heap} {S : Ptr → Prop} (h : Backed E a S)
    (hr : a'.map HeapItem.ref = a.map HeapItem.ref) : Backed E a' S := by
  have hget : ∀ i : Nat, a'[i]?.map HeapItem.ref = a[i]?.map HeapItem.ref := by
    intro i
    rw [← List.getElem?_map, ← List.getElem?_map, hr]
  have hback : ∀ {i : Nat} {x : HeapItem}, a'[i]? = some x →
      ∃ y, a[i]? = some y ∧ y.ref = x.ref := fun {i x} hx => by
    have := hget i
    rw [hx] at this
    exact Option.map_eq_some_iff.mp this.symm
  refine ⟨?_, ?_, ?_, hr ▸ h.nodup⟩
  · intro x hx
    obtain ⟨i, hxi⟩ := List.mem_iff_getElem?.mp hx
    obtain ⟨y, hy, hyx⟩ := hback hxi
    rw [← hyx]; exact h.live y (List.mem_of_getElem? hy)
  · intro i x e hx hn he
    obtain ⟨y, hy, hyx⟩ := hback hx
    exact h.index i y e hy (hyx ▸ hn) (hyx ▸ he)
  · intro q e i hn he hq
    obtain ⟨y, hy, rfl⟩ := h.slot q e i hn he hq
    have := hget i
    rw [hy] at this
    exact Option.map_eq_some_iff.mp this

theorem map_ref_set {a : Heap} {pos : Nat} {x : HeapItem} (hx : a[pos]? = some x) (val : UInt64) :
    (a.set pos { x with val := val }).map HeapItem.ref = a.map HeapItem.ref := by
  obtain ⟨hpos, rfl⟩ := List.getElem?_eq_some_iff.mp hx
  rw [List.map_set]
  refine List.ext_getElem? ?_
  intro i
  by_cases hi : i = pos
  · subst hi; rw [List.getElem?_set_self (by simpa using hpos)]; simp [hpos]
  · rw [List.getElem?_set_ne (Ne.symm hi)]

/-! ## entry_set_ttl -/

variable {g g' : GlobalData} {key : Bytes} {now : UInt64}

/-- The slot `entry_set_ttl` leaves the entry. -/
def ttlSlot (ent : Ptr) (ttlMs : Int) (now : UInt64) : Heap :=
  if ttlMs < 0 then [] else [⟨now + UInt64.ofInt ttlMs * 1000, ent⟩]

/-- The slots of the other entries. -/
def otherSlots (heap : Heap) (ent : Ptr) : Heap := heap.filter fun x => decide (x.ref ≠ ent)

theorem otherSlots_self {a : Heap} {p : Ptr} (h : ∀ x ∈ a, x.ref ≠ p) : otherSlots a p = a :=
  List.filter_eq_self.mpr fun x hx => decide_eq_true (h x hx)

theorem otherSlots_perm {a a' : Heap} {x : HeapItem} (hp : (x :: a').Perm a)
    (hnd : (a.map HeapItem.ref).Nodup) : a'.Perm (otherSlots a x.ref) := by
  have hf : (otherSlots (x :: a') x.ref).Perm (otherSlots a x.ref) := hp.filter _
  rwa [otherSlots, List.filter_cons_of_neg (by simp), ← otherSlots,
    otherSlots_self (ref_removed hp hnd)] at hf

/-- **`entry_set_ttl` keeps the heap and the entries together**, in each of its modes, and touches
no slot but the entry's own. -/
theorem entrySetTtl_spec (ok : g.TtlOk) {p : Ptr} {e : Entry} (he : g.entries p = some e)
    (ttlMs : Int) : ∃ g', entrySetTtl g p ttlMs now = .ok g' ∧ g'.TtlOk ∧
      g'.heap.Perm (ttlSlot p ttlMs now ++ otherSlots g.heap p) := by
  -- an entry without a TTL has no slot
  have hnone : e.heapIdx = none → otherSlots g.heap p = g.heap := fun hi =>
    otherSlots_self fun x hx hxp => by
      obtain ⟨i, hxi⟩ := List.mem_iff_getElem?.mp hx
      have := ok.backed.index i x e hxi not_false (hxp ▸ he)
      rw [hi] at this
      cases this
  unfold entrySetTtl ttlSlot
  simp only [Store.read_of he, ok_bind]
  split
  · rw [List.nil_append]
    cases hi : e.heapIdx with
    | none => exact ⟨g, rfl, ok, by rw [hnone hi]⟩
    | some pos =>
      obtain ⟨x, hx, rfl⟩ := ok.backed.slot _ e pos not_false he hi
      obtain ⟨E, a, hr, hok, hperm⟩ := heapRemove_spec ok hx
      obtain ⟨e₁, he₁, -⟩ := (heapRemove_retimed hr).after he
      refine ⟨{ g with entries := E.write x.ref { e₁ with heapIdx := none }, heap := a }, ?_,
        ⟨hok.ordered, hok.backed.clear (ref_removed hperm ok.backed.nodup) rfl⟩,
        otherSlots_perm hperm ok.backed.nodup⟩
      simp [hr, Store.modify_of _ he₁]
  · generalize now + UInt64.ofInt ttlMs * 1000 = val
    cases hi : e.heapIdx with
    | none =>
      -- a new slot behind the last one
      have hhole : Hole (g.heap ++ [(⟨val, p⟩ : HeapItem)]).length
          (vals (g.heap ++ [⟨val, p⟩])) g.heap.length := by
        rw [List.length_append, vals_push]; exact ok.ordered.push
      obtain ⟨E', a', hu, hok, hperm⟩ := heapUpdate_spec (t := ⟨val, p⟩) (by simp) hhole
        (ok.backed.push he hi val)
      rw [List.length_append] at hu
      refine ⟨{ g with entries := E', heap := a' }, ?_, hok, ?_⟩
      · simp only [setRef, Store.modify_of _ he, ok_bind]
        exact (congrArg (· >>= _) hu).trans rfl
      · rw [hnone hi]
        exact hperm.trans List.perm_append_comm
    | some pos =>
      obtain ⟨x, hx, rfl⟩ := ok.backed.slot _ e pos not_false he hi
      obtain ⟨hpos, hget⟩ := List.getElem?_eq_some_iff.mp hx
      have hhole : Hole (g.heap.set pos { x with val := val }).length
          (vals (g.heap.set pos { x with val := val })) pos := by
        rw [List.length_set, vals_set hpos]; exact ok.ordered.replace
      obtain ⟨E', a', hu, hok, hperm⟩ := heapUpdate_spec (List.getElem?_set_self hpos) hhole
        ((ok.backed.refs (map_ref_set hx val)).mono fun _ => False.elim)
      refine ⟨{ g with entries := E', heap := a' }, ?_, hok, ?_⟩
      · rw [List.length_set] at hu
        simp [itemAt_of hx, setItem, hpos, hu]
      · have hrest : (x :: g.heap.eraseIdx pos).Perm g.heap :=
          hget ▸ List.getElem_cons_eraseIdx_perm hpos
        exact (hperm.trans (List.set_perm_cons_eraseIdx hpos _)).trans
          ((otherSlots_perm hrest ok.backed.nodup).cons _)

/-! ## The other effects -/

/-- A `del` of `key` finds no entry that has a TTL. -/
def GlobalData.NoTtl (g : GlobalData) (key : Bytes) : Prop :=
  ∀ e ∈ g.resolve key, e.heapIdx = none

instance (g : GlobalData) (key : Bytes) : Decidable (g.NoTtl key) :=
  inferInstanceAs (Decidable (∀ e ∈ _, _))

/-- No `del` of an entry with a TTL. -/
def NoTtlDel (g : GlobalData) (cmd : List Bytes) : Prop := ∀ key ∈ deletedKey cmd, g.NoTtl key

instance (g : GlobalData) (cmd : List Bytes) : Decidable (NoTtlDel g cmd) :=
  inferInstanceAs (Decidable (∀ key ∈ _, _))

theorem Effect.ttlOk {cmd : List Bytes} (w : g.Wf) (ok : g.TtlOk) (hc : NoTtlDel g cmd)
    (h : Effect now g cmd g') : g'.TtlOk := by
  cases h with
  | idle => exact ok
  | looked _ hl =>
    have hl := lookupEntry_spec w hl
    rw [hl.data]; exact ok
  | ranked z _ hl he _ =>
    have hl := lookupEntry_spec w hl
    rw [hl.data] at he ⊢
    exact ⟨ok.ordered, ok.backed.write he rfl⟩
  | @timed key s ttlMs g₁ g' p _ hl ht =>
    have hl := lookupEntry_spec w hl
    have ok₁ : g₁.TtlOk := by rw [hl.data]; exact ok
    obtain ⟨n, e, -, -, he, -⟩ := hl.some
    obtain ⟨g₂, h₂, ok₂, -⟩ := @entrySetTtl_spec g₁ now ok₁ p e he ttlMs
    rw [ht] at h₂; cases h₂
    exact ok₂
  | stored hi =>
    obtain ⟨-, m, hc⟩ := insertEntry_spec w hi
    rw [hc.data]
    exact ⟨ok.ordered, ok.backed.create (w.fresh _ (Nat.le_refl _)) rfl⟩
  | added z _ hl hi he =>
    have hl := lookupEntry_spec w hl
    obtain ⟨rfl, m, hc⟩ := insertEntry_spec hl.wf hi
    have hfresh := hl.wf.fresh _ (Nat.le_refl _)
    rw [hl.data] at hc hfresh
    rw [hc.data] at he ⊢
    exact ⟨ok.ordered, (ok.backed.create hfresh rfl).write he rfl⟩
  | missed _ => exact ok
  | @deleted key db n g' hd he =>
    obtain ⟨her, hheap, hent⟩ := deleted_spec w hd he
    obtain ⟨e, hres, hen, -⟩ := her.resolve w
    have hi : e.heapIdx = none := hc key (by simp) e hres
    have hne : ∀ x ∈ g.heap, x.ref ≠ n.ptr := by
      intro x hx hxn
      obtain ⟨i, hxi⟩ := List.mem_iff_getElem?.mp hx
      have := ok.backed.index i x e hxi not_false (hxn ▸ hen)
      rw [hi] at this; cases this
    rw [TtlOk, hheap, hent]
    exact ⟨ok.ordered, (ok.backed.mono fun _ => False.elim).free hne⟩

theorem expireTop_ttlOk (ok : g.TtlOk) (h : expireTop g = .ok g') :
    g'.TtlOk ∧ ∃ top, g.heap[0]? = some top ∧ (top :: g'.heap).Perm g.heap := by
  obtain ⟨top, e, db, n, pos, E, a, tp, htop, he, -, -, hpos, hr, rfl⟩ := expireTop_ok h
  have h0 := ok.backed.index 0 top e htop not_false he
  rw [hpos, Option.some.injEq] at h0
  subst h0
  obtain ⟨E', a', hr', hok, hperm⟩ := heapRemove_spec ok htop
  rw [hr] at hr'; cases hr'
  exact ⟨⟨hok.ordered, hok.backed.free (ref_removed hperm ok.backed.nodup)⟩, top, htop, hperm⟩

/-- **A step without a `del` of an entry with a TTL keeps the heap and the entries together.** -/
theorem serve_ttlOk {lim : Limits} {ev : Event} (hi : g.Wf ∧ g.TtlOk)
    (hc : ev.Meets NoTtlDel (fun _ => True) g) (h : serve lim g ev = .ok g') :
    g'.Wf ∧ g'.TtlOk :=
  serve_invariant (I := fun g => g.Wf ∧ g.TtlOk)
    (fun _ _ _ _ hi hc he => ⟨(he.change hi.1).wf hi.1, he.ttlOk hi.1 hi.2 hc⟩)
    (fun _ _ hi _ he => ⟨(expireTop_change hi.1 he).wf hi.1, (expireTop_ttlOk hi.2 he).1⟩)
    hi hc h

theorem GlobalData.TtlOk.empty : GlobalData.TtlOk {} where
  ordered i _ hi := by cases hi
  backed :=
    { live := fun x hx => by cases hx
      index := fun i x e hx => by cases hx
      slot := fun p e i _ he => by cases he
      nodup := List.nodup_nil }

/-- The heap is ordered, and its slots and the linked entries with a TTL are in bijection. -/
structure GlobalData.TtlBijection (g : GlobalData) : Prop where
  minHeap : ∀ i x y, 0 < i → g.heap[heapParent i]? = some x → g.heap[i]? = some y → x.val ≤ y.val
  slot : ∀ i x, g.heap[i]? = some x → ∃ e, g.entries x.ref = some e ∧ e.node ∈ g.db.order ∧
    e.node.ptr = x.ref ∧ e.heapIdx = some i
  entry : ∀ p e i, g.entries p = some e → e.heapIdx = some i → ∃ x, g.heap[i]? = some x ∧ x.ref = p
  linked : ∀ n, n ∈ g.db.order ↔ ∃ e, g.entries n.ptr = some e ∧ e.node = n

theorem GlobalData.TtlOk.bijection (w : g.Wf) (ok : g.TtlOk) : g.TtlBijection where
  minHeap i x y hi hx hy := by
    have := ok.ordered i hi (List.getElem?_eq_some_iff.mp hy).1
    rw [← heapParent_eq, vals_of hx, vals_of hy] at this
    exact UInt64.le_iff_toNat_le.mpr this
  slot i x hx := by
    obtain ⟨e, he⟩ := ok.backed.live x (List.mem_of_getElem? hx)
    obtain ⟨h₁, h₂, -⟩ := w.stored _ e he
    exact ⟨e, he, h₁, h₂, ok.backed.index i x e hx not_false he⟩
  entry p e i he hi := ok.backed.slot p e i not_false he hi
  linked n := by
    refine ⟨w.linked n, ?_⟩
    rintro ⟨e, he, hn⟩
    rw [← hn]; exact (w.stored _ e he).1

/-- So does a history of such steps. -/
theorem run_ttlOk {lim : Limits} {evs : List Event}
    (hc : AllSteps (serve lim) (fun g ev => ev.Meets NoTtlDel (fun _ => True) g) {} evs)
    (hr : run (serve lim) {} evs = .ok g) : g.Wf ∧ g.TtlOk :=
  run_invariant (I := fun g => g.Wf ∧ g.TtlOk) (fun _ _ _ hi hc h => serve_ttlOk hi hc h)
    ⟨.empty, .empty⟩ hc hr

/-- **Slots and entries with a TTL correspond** in every state that is reached without a `del` of
an entry that has a TTL. -/
theorem ttl_heap_bijection (lim : Limits) (evs : List Event) (g : GlobalData)
    (hc : AllSteps (serve lim) (fun g ev => ev.Meets NoTtlDel (fun _ => True) g) {} evs)
    (hr : run (serve lim) {} evs = .ok g) : g.TtlBijection := by
  obtain ⟨w, ok⟩ := run_ttlOk hc hr
  exact ok.bijection w

/-- Two TTLs, one of them changed. -/
def ttlHistory : List Event := [ask 0 ["set", "k", "v"], ask 1 ["expire", "k", "5"],
  ask 2 ["set", "j", "w"], ask 3 ["expire", "j", "9"], ask 4 ["expire", "k", "7"]]

theorem ttl_heap_bijection_fires :
    ∃ g, run (serve ⟨64, 0⟩) {} (ttlHistory ++ [.timers 8000]) = .ok g ∧ g.TtlBijection := by
  obtain ⟨g, hg⟩ := ok_of_isSome (x := run (serve ⟨64, 0⟩) {} (ttlHistory ++ [.timers 8000]))
    (by decide +kernel)
  exact ⟨g, hg, ttl_heap_bijection ⟨64, 0⟩ _ g (by decide +kernel) hg⟩

/-- `del` of a key with a TTL leaves a slot that refers to the freed entry. -/
theorem del_leaves_slot : ∃ g, run (serve ⟨64, 0⟩) {}
    [ask 0 ["set", "k", "v"], ask 1 ["expire", "k", "5"], ask 2 ["del", "k"]] = .ok g ∧
      ¬ g.TtlBijection ∧ serve ⟨64, 0⟩ g (.timers 8000) = .error .useAfterFree := by
  have hafter : (run (serve ⟨64, 0⟩) {}
      [ask 0 ["set", "k", "v"], ask 1 ["expire", "k", "5"], ask 2 ["del", "k"]]).toOption.map
      (fun g => (g.heap, (g.entries 0).isNone,
        match serve ⟨64, 0⟩ g (.timers 8000) with | .error f => some f | .ok _ => none)) =
      some ([⟨5001, 0⟩], true, some .useAfterFree) := by decide +kernel
  obtain ⟨g, hg, hafter⟩ := ok_of_map hafter
  simp only [Prod.mk.injEq, Option.isNone_iff_eq_none] at hafter
  obtain ⟨hheap, hnone, hfault⟩ := hafter
  refine ⟨g, hg, ?_, ?_⟩
  · intro hb
    obtain ⟨e, he, -⟩ := hb.slot 0 ⟨5001, 0⟩ (by rw [hheap]; rfl)
    rw [hnone] at he
    cases he
  · split at hfault
    · rename_i f hf
      rw [hf]
      cases hfault
      rfl
    · cases hfault

end RedisServer
