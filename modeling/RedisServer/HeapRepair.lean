import RedisServer.TtlHeapInv

/-!
# heap_update

`heap_update` repairs a heap in which one item has been replaced, whatever the back references were
before.  A sift takes the item out, moves others into the hole one after the other, and puts the
item back; `Tracked` says which back references have been written on the way.

Results:
* `heapUpdate_append` — slots from `len` on are neither read nor written;
* `heapUpLoop_reindexed`, `heapDownLoop_reindexed` — a sift writes the final index of every item
  that it moves, and of no other;
* `heapUpdate_repairs` — both, with the order of the heap.
-/

set_option autoImplicit false

namespace RedisServer

open Runs HeapOrder

variable {E E' E₀ : Store Entry} {a a' a₀ rest : Heap} {t y : HeapItem} {pos j len : Nat}

/-! ## Slots behind the heap -/

theorem itemAt_append {i : Nat} {x : HeapItem} (h : itemAt a i = .ok x) :
    itemAt (a ++ rest) i = .ok x := by
  have hx := itemAt_ok.mp h
  apply itemAt_of
  rw [List.getElem?_append_left (List.getElem?_eq_some_iff.mp hx).1]
  exact hx

theorem place_append (h : place E a pos t = .ok (E', a')) :
    place E (a ++ rest) pos t = .ok (E', a' ++ rest) := by
  obtain ⟨hlt, rfl, e, he, rfl⟩ := place_ok h
  rw [place_of (by rw [List.length_append]; omega) he, List.set_append_left _ _ hlt]

/-- **Only the first `len` slots count**: what is behind them is left as it is. -/
theorem heapUpdate_append (h : heapUpdate E a pos len = .ok (E', a')) :
    heapUpdate E (a ++ rest) pos len = .ok (E', a' ++ rest) := by
  have hS : InStep fun E a F b => F = E ∧ b = a ++ rest := by
    constructor
    · rintro E F a b i t ⟨rfl, rfl⟩ hx
      exact itemAt_append hx
    · rintro E F E' a b a' pos t ⟨rfl, rfl⟩ hp
      exact ⟨E', a' ++ rest, place_append hp, rfl, rfl⟩
  obtain ⟨F', b', hu, rfl, rfl⟩ := hS.update ⟨rfl, rfl⟩ h
  exact hu

/-! ## The back references that a sift writes -/

/-- `*ref = i` for the entry of a slot, if it is live. -/
def Entry.atSlot (i : Nat) (e : Entry) : Entry := { e with heapIdx := some i }

/-- From `E₀` and `a₀` to `E` and `a` the back references of `t` and of the items that have moved
were set to their slots, and no others were written. -/
structure Reindexed (E₀ : Store Entry) (a₀ : Heap) (t : HeapItem) (E : Store Entry) (a : Heap) :
    Prop where
  moved : ∀ (i : Nat) (x : HeapItem), a[i]? = some x → a₀[i]? ≠ some x ∨ x = t →
    E x.ref = (E₀ x.ref).map (Entry.atSlot i)
  kept : ∀ (i : Nat) (x : HeapItem), a[i]? = some x → a₀[i]? = some x → x ≠ t → E x.ref = E₀ x.ref
  other : ∀ p, p ∉ a₀.map HeapItem.ref → E p = E₀ p

/-- As `Reindexed`, while `t` is taken out of slot `pos`. -/
structure Tracked (E₀ : Store Entry) (a₀ : Heap) (t : HeapItem) (E : Store Entry) (a : Heap)
    (pos : Nat) : Prop where
  get : a[pos]? = some t
  perm : a.Perm a₀
  moved : ∀ (i : Nat) (x : HeapItem), i ≠ pos → a[i]? = some x → a₀[i]? ≠ some x →
    E x.ref = (E₀ x.ref).map (Entry.atSlot i)
  kept : ∀ (i : Nat) (x : HeapItem), i ≠ pos → a[i]? = some x → a₀[i]? = some x → E x.ref = E₀ x.ref
  held : E t.ref = E₀ t.ref
  other : ∀ p, p ∉ a₀.map HeapItem.ref → E p = E₀ p

theorem Tracked.start (ht : a[pos]? = some t) : Tracked E a t E a pos where
  get := ht
  perm := .refl a
  moved _ _ _ hx hne := absurd hx hne
  kept _ _ _ _ _ := rfl
  held := rfl
  other _ _ := rfl

section Sift

variable (hnd : (a₀.map HeapItem.ref).Nodup)

include hnd

/-- The references of a rearranged heap are distinct. -/
theorem ref_inj_of_perm {i k : Nat} {x z : HeapItem} (hp : a.Perm a₀) (hx : a[i]? = some x)
    (hz : a[k]? = some z) (h : x.ref = z.ref) : i = k :=
  ref_inj ((hp.map HeapItem.ref).nodup_iff.mpr hnd) hx hz h

/-- The item of slot `j`, where it has been from the start, goes to the hole. -/
theorem Tracked.move (h : Tracked E₀ a₀ t E (a.set pos t) pos) (hne : pos ≠ j)
    (hy : a[j]? = some y) (hy₀ : a₀[j]? = some y) (hp : place E a pos y = .ok (E', a')) :
    a' = a.set pos y ∧ Tracked E₀ a₀ t E' (a'.set j t) j := by
  obtain ⟨hlt, rfl, e, he, rfl⟩ := place_ok hp
  have hjlt := (List.getElem?_eq_some_iff.mp hy).1
  have hy' : (a.set pos t)[j]? = some y := by rw [List.getElem?_set_ne hne]; exact hy
  have hy₁ : E y.ref = E₀ y.ref := h.kept j y hne.symm hy' hy₀
  have hty : t.ref ≠ y.ref := fun heq => hne (ref_inj_of_perm hnd h.perm h.get hy' heq)
  -- slot `pos` holds `y` now, the slots other than `pos` and `j` what they held
  have hat : ((a.set pos y).set j t)[pos]? = some y := by
    rw [List.getElem?_set_ne hne.symm, List.getElem?_set_self hlt]
  have hrest : ∀ i, i ≠ pos → i ≠ j → ((a.set pos y).set j t)[i]? = (a.set pos t)[i]? := by
    intro i hip hij
    rw [List.getElem?_set_ne hij.symm, List.getElem?_set_ne hip.symm,
      List.getElem?_set_ne hip.symm]
  have hwrite : ∀ i x, i ≠ j → (a.set pos t)[i]? = some x →
      E.write y.ref { e with heapIdx := some pos } x.ref = E x.ref := by
    intro i x hij hx
    apply Store.write_of_ne
    intro heq
    exact hij (ref_inj_of_perm hnd h.perm hx hy' heq)
  refine ⟨rfl, ?_, ?_, ?_, ?_, ?_, ?_⟩
  · exact List.getElem?_set_self (by simpa using hjlt)
  · have hswap := exchange_perm h.get hy'
    rw [List.set_set] at hswap
    exact hswap.trans h.perm
  · intro i x hij hx hx₀
    by_cases hip : i = pos
    · subst hip
      cases hat.symm.trans hx
      rw [Store.write_self, ← hy₁, he]
      rfl
    · rw [hrest i hip hij] at hx
      rw [hwrite i x hij hx]
      exact h.moved i x hip hx hx₀
  · intro i x hij hx hx₀
    by_cases hip : i = pos
    · subst hip
      cases hat.symm.trans hx
      exact absurd (ref_inj hnd hx₀ hy₀ rfl) hij
    · rw [hrest i hip hij] at hx
      rw [hwrite i x hij hx]
      exact h.kept i x hip hx hx₀
  · rw [Store.write_of_ne _ _ hty]
    exact h.held
  · intro p hp
    have hpy : p ≠ y.ref := by
      rintro rfl
      exact hp (List.mem_map_of_mem (List.mem_of_getElem? hy₀))
    rw [Store.write_of_ne _ _ hpy]
    exact h.other p hp

/-- The item goes back into the hole. -/
theorem Tracked.finish (h : Tracked E₀ a₀ t E (a.set pos t) pos)
    (hp : place E a pos t = .ok (E', a')) : Reindexed E₀ a₀ t E' a' := by
  obtain ⟨hlt, rfl, e, he, rfl⟩ := place_ok hp
  have hother : ∀ i x, (a.set pos t)[i]? = some x → x ≠ t → i ≠ pos ∧ x.ref ≠ t.ref := by
    intro i x hx hxt
    have hip : i ≠ pos := by
      rintro rfl
      exact hxt (Option.some.inj (hx.symm.trans h.get))
    exact ⟨hip, fun heq => hip (ref_inj_of_perm hnd h.perm hx h.get heq)⟩
  refine ⟨?_, ?_, ?_⟩
  · intro i x hx hmoved
    by_cases hxt : x = t
    · subst hxt
      obtain rfl := ref_inj_of_perm hnd h.perm hx h.get rfl
      rw [Store.write_self, ← h.held, he]
      rfl
    · obtain ⟨hip, href⟩ := hother i x hx hxt
      rw [Store.write_of_ne _ _ href]
      exact h.moved i x hip hx (hmoved.resolve_right hxt)
  · intro i x hx hx₀ hxt
    obtain ⟨hip, href⟩ := hother i x hx hxt
    rw [Store.write_of_ne _ _ href]
    exact h.kept i x hip hx hx₀
  · intro p hp
    have hpt : p ≠ t.ref := by
      rintro rfl
      exact hp (List.mem_map_of_mem (h.perm.mem_iff.mp (List.mem_of_getElem? h.get)))
    rw [Store.write_of_ne _ _ hpt]
    exact h.other p hp

/-- A sift towards the root.  The slots in front of the hole are as they were. -/
theorem heapUpLoop_reindexed : ∀ {fuel : Nat} {E : Store Entry} {a : Heap} {pos : Nat},
    Tracked E₀ a₀ t E (a.set pos t) pos → (∀ k, k < pos → a[k]? = a₀[k]?) →
    heapUpLoop fuel E a t pos = .ok (E', a') → Reindexed E₀ a₀ t E' a'
  | 0, _, _, _, _, _, h => by cases h
  | fuel + 1, E, a, pos, ht, hsame, h => by
    rw [heapUpLoop] at h
    split at h
    · rename_i hpos
      have hup : heapParent pos < pos := heapParent_eq pos ▸ par_lt hpos
      obtain ⟨above, habove, h⟩ := bind_ok.mp h
      have habove := itemAt_ok.mp habove
      split at h
      · obtain ⟨⟨E₁, a₁⟩, hp, h⟩ := bind_ok.mp h
        obtain ⟨rfl, ht₁⟩ := ht.move hnd (Nat.ne_of_gt hup) habove (hsame _ hup ▸ habove) hp
        refine heapUpLoop_reindexed ht₁ ?_ h
        intro k hk
        rw [List.getElem?_set_ne (by omega)]
        exact hsame k (Nat.lt_trans hk hup)
      · exact ht.finish hnd h
    · exact ht.finish hnd h

omit hnd in
theorem smaller_index {c : Nat} {min m : Nat × UInt64} (h : smaller a len c min = .ok m) :
    m = min ∨ m.1 = c := by
  unfold smaller at h
  split at h
  · obtain ⟨x, -, h⟩ := bind_ok.mp h
    split at h
    · cases h
      exact .inr rfl
    · cases h
      exact .inl rfl
  · cases h
    exact .inl rfl

/-- A sift away from the root.  The slots behind the hole are as they were. -/
theorem heapDownLoop_reindexed : ∀ {fuel : Nat} {E : Store Entry} {a : Heap} {pos : Nat},
    Tracked E₀ a₀ t E (a.set pos t) pos → (∀ k, pos < k → a[k]? = a₀[k]?) →
    heapDownLoop fuel E a t pos len = .ok (E', a') → Reindexed E₀ a₀ t E' a'
  | 0, _, _, _, _, _, h => by cases h
  | fuel + 1, E, a, pos, ht, hsame, h => by
    rw [heapDownLoop] at h
    obtain ⟨m₁, hm₁, h⟩ := bind_ok.mp h
    obtain ⟨m, hm, h⟩ := bind_ok.mp h
    split at h
    · exact ht.finish hnd h
    · rename_i hne
      have hdown : pos < m.1 := by
        rcases smaller_index hm with rfl | hr
        · rcases smaller_index hm₁ with rfl | hl
          · exact absurd rfl hne
          · rw [hl]
            unfold heapLeft
            omega
        · rw [hr]
          unfold heapRight
          omega
      obtain ⟨child, hchild, h⟩ := bind_ok.mp h
      have hchild := itemAt_ok.mp hchild
      obtain ⟨⟨E₁, a₁⟩, hp, h⟩ := bind_ok.mp h
      obtain ⟨rfl, ht₁⟩ := ht.move hnd (Nat.ne_of_lt hdown) hchild (hsame _ hdown ▸ hchild) hp
      refine heapDownLoop_reindexed ht₁ ?_ h
      intro k hk
      rw [List.getElem?_set_ne (by omega)]
      exact hsame k (Nat.lt_trans hdown hk)

end Sift

theorem heapUpdate_reindexed (hnd : (a.map HeapItem.ref).Nodup) (ht : a[pos]? = some t)
    (h : heapUpdate E a pos len = .ok (E', a')) : Reindexed E a t E' a' := by
  obtain ⟨hlt, hget⟩ := List.getElem?_eq_some_iff.mp ht
  have hself : a.set pos t = a := by rw [← hget]; exact List.set_getElem_self hlt
  have hstart : Tracked E a t E (a.set pos t) pos := by rw [hself]; exact .start ht
  have hdown : heapDown E a pos len = .ok (E', a') → Reindexed E a t E' a' := by
    intro h
    rw [heapDown, itemAt_of ht, ok_bind] at h
    exact heapDownLoop_reindexed hnd hstart (fun _ _ => rfl) h
  rw [heapUpdate, itemAt_of ht, ok_bind] at h
  split at h
  · obtain ⟨above, -, h⟩ := bind_ok.mp h
    split at h
    · rw [heapUp, itemAt_of ht, ok_bind] at h
      exact heapUpLoop_reindexed hnd hstart (fun _ _ => rfl) h
    · exact hdown h
  · exact hdown h

/-! ## One changed item -/

/-- **`heap_update` repairs any single change.**  `b` is a heap, `t` the item that slot `pos` holds
now, and `rest` whatever is in memory behind the `b.length` items. -/
theorem heapUpdate_repairs {b : Heap} (hb : Ordered b.length (vals b)) (hpos : pos < b.length)
    (hnd : ((b.set pos t).map HeapItem.ref).Nodup)
    (hlive : ∀ x ∈ b.set pos t, ∃ e, E x.ref = some e) (rest : Heap) :
    ∃ E' a', heapUpdate E (b.set pos t ++ rest) pos b.length = .ok (E', a' ++ rest) ∧
      a'.Perm (b.set pos t) ∧ Ordered a'.length (vals a') ∧
      Reindexed E (b.set pos t) t E' a' := by
  have ht : (b.set pos t)[pos]? = some t := List.getElem?_set_self hpos
  have hhole : Hole (b.set pos t).length (vals (b.set pos t)) pos := by
    rw [vals_set hpos, List.length_set]
    exact hb.replace
  -- what the back references were does not matter
  have hback : Backed E (b.set pos t) fun p => True ∨ p = t.ref :=
    ⟨hlive, fun _ _ _ _ hn => absurd (.inl trivial) hn, fun _ _ _ hn => absurd (.inl trivial) hn, hnd⟩
  obtain ⟨E', a', h, hok, hperm⟩ := @heapUpdate_spec E _ pos t (fun _ => True) ht hhole hback
  have hre := heapUpdate_reindexed hnd ht h
  rw [List.length_set] at h
  exact ⟨E', a', heapUpdate_append h, hperm, hok.ordered, hre⟩

/-- The root becomes the largest item; no back reference was right before. -/
theorem heapUpdate_repairs_root :
    let E : Store Entry := fun p => if p < 3 then some { node := ⟨p, 0⟩, key := [], val := [] } else none
    ∃ E' a', heapUpdate E ([⟨40, 0⟩, ⟨20, 1⟩, ⟨30, 2⟩] ++ [⟨1, 7⟩]) 0 3 = .ok (E', a' ++ [⟨1, 7⟩]) ∧
      a'.Perm [⟨40, 0⟩, ⟨20, 1⟩, ⟨30, 2⟩] ∧ Ordered a'.length (vals a') ∧
      Reindexed E [⟨40, 0⟩, ⟨20, 1⟩, ⟨30, 2⟩] ⟨40, 0⟩ E' a' := by
  intro E
  have hb : Ordered 3 (vals [⟨10, 0⟩, ⟨20, 1⟩, ⟨30, 2⟩]) := by
    intro i hi hlt
    have : i = 1 ∨ i = 2 := by omega
    rcases this with rfl | rfl <;> decide
  refine @heapUpdate_repairs E ⟨40, 0⟩ 0 [⟨10, 0⟩, ⟨20, 1⟩, ⟨30, 2⟩] hb (by decide) (by decide) ?_ _
  intro x hx
  simp only [List.set_cons_zero, List.mem_cons, List.not_mem_nil, or_false] at hx
  rcases hx with rfl | rfl | rfl <;> exact ⟨_, rfl⟩

end RedisServer
