import RedisServer.TtlHeap
import RedisServer.Lib.HeapOrder

/-!
# The TTL heap and the entries it refers to

`HeapOk E a S` is what the heap operations work for: `a` is a min-heap on `val`, and its slots and
the entries' `heap_idx` fields name each other.  `S` are entries left out of this; in the middle
of a sift it is the entry of the item that was taken out.

* `heapUpdate_spec` — from a heap with one slot of any value, `heap_update` restores `HeapOk`;
* `heapRemove_spec` — taking a slot out leaves the other items and their back references;
* `heapUpdate_retimed`, `heapRemove_retimed` — from any state, a call that returns has changed
  nothing of the entries but `heap_idx` fields;
* `InStep.update` — `heap_update` does the same in memories that agree on what it reads.
-/

set_option autoImplicit false

namespace RedisServer

open HeapOrder

/-! ## Sifts in step -/

/-- `S` relates two memories in which a sift runs in step: an item that is read in the first one is
read in the second one too, and where an item can be placed in the first one it can in the second
one, and they stay related. -/
structure InStep (S : Store Entry → Heap → Store Entry → Heap → Prop) : Prop where
  read : ∀ {E F : Store Entry} {a b : Heap} {i : Nat} {t : HeapItem}, S E a F b →
    itemAt a i = .ok t → itemAt b i = .ok t
  put : ∀ {E F E' : Store Entry} {a b a' : Heap} {pos : Nat} {t : HeapItem}, S E a F b →
    place E a pos t = .ok (E', a') → ∃ F' b', place F b pos t = .ok (F', b') ∧ S E' a' F' b'

section InStep

variable {S : Store Entry → Heap → Store Entry → Heap → Prop} {E F E' : Store Entry}
  {a b a' : Heap} {t : HeapItem} {pos len : Nat}

theorem InStep.least (hS : InStep S) (h : S E a F b) {c : Nat} {min m : Nat × UInt64}
    (hm : smaller a len c min = .ok m) : smaller b len c min = .ok m := by
  unfold smaller at hm ⊢
  by_cases hc : c < len
  · rw [if_pos hc] at hm ⊢
    obtain ⟨x, hx, hm⟩ := Runs.bind_ok.mp hm
    rw [hS.read h hx, Runs.ok_bind]
    exact hm
  · rw [if_neg hc] at hm ⊢
    exact hm

theorem InStep.up (hS : InStep S) : ∀ {fuel : Nat} {E F : Store Entry} {a b : Heap} {pos : Nat},
    S E a F b → heapUpLoop fuel E a t pos = .ok (E', a') →
      ∃ F' b', heapUpLoop fuel F b t pos = .ok (F', b') ∧ S E' a' F' b'
  | 0, _, _, _, _, _, _, hu => by cases hu
  | fuel + 1, E, F, a, b, pos, h, hu => by
    rw [heapUpLoop] at hu ⊢
    by_cases hpos : 0 < pos
    · rw [if_pos hpos] at hu ⊢
      obtain ⟨above, habove, hu⟩ := Runs.bind_ok.mp hu
      rw [hS.read h habove, Runs.ok_bind]
      by_cases hlt : above.val > t.val
      · rw [if_pos hlt] at hu ⊢
        obtain ⟨⟨E₁, a₁⟩, hp, hu⟩ := Runs.bind_ok.mp hu
        obtain ⟨F₁, b₁, hp', h₁⟩ := hS.put h hp
        rw [hp', Runs.ok_bind]
        exact hS.up h₁ hu
      · rw [if_neg hlt] at hu ⊢
        exact hS.put h hu
    · rw [if_neg hpos] at hu ⊢
      exact hS.put h hu

theorem InStep.down (hS : InStep S) :
    ∀ {fuel : Nat} {E F : Store Entry} {a b : Heap} {pos : Nat},
      S E a F b → heapDownLoop fuel E a t pos len = .ok (E', a') →
      ∃ F' b', heapDownLoop fuel F b t pos len = .ok (F', b') ∧ S E' a' F' b'
  | 0, _, _, _, _, _, _, hd => by cases hd
  | fuel + 1, E, F, a, b, pos, h, hd => by
    rw [heapDownLoop] at hd ⊢
    obtain ⟨m₁, hm₁, hd⟩ := Runs.bind_ok.mp hd
    obtain ⟨m, hm, hd⟩ := Runs.bind_ok.mp hd
    rw [hS.least h hm₁, Runs.ok_bind, hS.least h hm, Runs.ok_bind]
    by_cases heq : m.1 = pos
    · rw [if_pos heq] at hd ⊢
      exact hS.put h hd
    · rw [if_neg heq] at hd ⊢
      obtain ⟨child, hchild, hd⟩ := Runs.bind_ok.mp hd
      obtain ⟨⟨E₁, a₁⟩, hp, hd⟩ := Runs.bind_ok.mp hd
      obtain ⟨F₁, b₁, hp', h₁⟩ := hS.put h hp
      rw [hS.read h hchild, Runs.ok_bind, hp', Runs.ok_bind]
      exact hS.down h₁ hd

/-- **`heap_update` runs in step** in related memories. -/
theorem InStep.update (hS : InStep S) (h : S E a F b)
    (hu : heapUpdate E a pos len = .ok (E', a')) :
    ∃ F' b', heapUpdate F b pos len = .ok (F', b') ∧ S E' a' F' b' := by
  have hdown : heapDown E a pos len = .ok (E', a') →
      ∃ F' b', heapDown F b pos len = .ok (F', b') ∧ S E' a' F' b' := by
    intro hd
    obtain ⟨y, hy, hd⟩ := Runs.bind_ok.mp hd
    rw [heapDown, hS.read h hy, Runs.ok_bind]
    exact hS.down h hd
  obtain ⟨x, hx, hu⟩ := Runs.bind_ok.mp hu
  rw [heapUpdate, hS.read h hx, Runs.ok_bind]
  by_cases hpos : 0 < pos
  · rw [if_pos hpos] at hu ⊢
    obtain ⟨above, habove, hu⟩ := Runs.bind_ok.mp hu
    rw [hS.read h habove, Runs.ok_bind]
    by_cases hlt : above.val > x.val
    · rw [if_pos hlt] at hu ⊢
      obtain ⟨y, hy, hu⟩ := Runs.bind_ok.mp hu
      rw [heapUp, hS.read h hy, Runs.ok_bind]
      exact hS.up h hu
    · rw [if_neg hlt] at hu ⊢
      exact hdown hu
  · rw [if_neg hpos] at hu ⊢
    exact hdown hu

/-- What placing an item keeps, `heap_update` keeps. -/
theorem heapUpdate_keeps {I : Store Entry → Heap → Prop}
    (hI : ∀ (E : Store Entry) (a : Heap) (pos : Nat) (t : HeapItem) (E' : Store Entry) (a' : Heap),
      I E a → place E a pos t = .ok (E', a') → I E' a')
    (h : I E a) (hu : heapUpdate E a pos len = .ok (E', a')) : I E' a' := by
  have hS : InStep fun E a F b => F = E ∧ b = a ∧ I E a := by
    constructor
    · rintro E F a b i t ⟨rfl, rfl, -⟩ hx
      exact hx
    · rintro E F E' a b a' pos t ⟨rfl, rfl, hi⟩ hp
      exact ⟨E', a', hp, rfl, rfl, hI _ _ _ _ _ _ hi hp⟩
  obtain ⟨F', b', -, -, -, hi⟩ := hS.update ⟨rfl, rfl, h⟩ hu
  exact hi

end InStep

/-! ## What the heap operations do to the entries -/

/-- An entry without its `heap_idx`. -/
def Entry.body (e : Entry) : Entry := { e with heapIdx := none }

/-- Only `heap_idx` fields differ. -/
def Retimed (E E' : Store Entry) : Prop := ∀ p, (E' p).map Entry.body = (E p).map Entry.body

theorem Retimed.refl (E : Store Entry) : Retimed E E := fun _ => rfl

theorem Retimed.trans {E E₁ E₂ : Store Entry} (h : Retimed E E₁) (h' : Retimed E₁ E₂) :
    Retimed E E₂ := fun p => (h' p).trans (h p)

theorem Retimed.after {E E' : Store Entry} (h : Retimed E E') {p : Ptr} {e : Entry}
    (he : E p = some e) : ∃ e', E' p = some e' ∧ e'.body = e.body := by
  have := h p
  rw [he] at this
  simpa using this

theorem Retimed.before {E E' : Store Entry} (h : Retimed E E') {p : Ptr} {e' : Entry}
    (he : E' p = some e') : ∃ e, E p = some e ∧ e'.body = e.body := by
  have := h p
  rw [he] at this
  obtain ⟨e, he, hb⟩ := Option.map_eq_some_iff.mp this.symm
  exact ⟨e, he, hb.symm⟩

theorem Retimed.gone {E E' : Store Entry} (h : Retimed E E') {p : Ptr} (he : E p = none) :
    E' p = none := by
  have := h p
  rw [he] at this
  simpa using this

theorem Retimed.write {E : Store Entry} {p : Ptr} {e e' : Entry} (he : E p = some e)
    (hb : e'.body = e.body) : Retimed E (E.write p e') := by
  intro q
  by_cases hq : q = p
  · subst hq; simp [he, hb]
  · rw [Store.write_of_ne _ _ hq]

theorem setRef_retimed {E E' : Store Entry} {p : Ptr} {pos : Nat}
    (h : setRef E p pos = .ok E') : Retimed E E' := by
  obtain ⟨e, he, rfl⟩ := Store.modify_ok.mp h
  exact .write he rfl

theorem place_ok {E E' : Store Entry} {a a' : Heap} {pos : Nat} {t : HeapItem}
    (h : place E a pos t = .ok (E', a')) :
    pos < a.length ∧ a' = a.set pos t ∧
      ∃ e, E t.ref = some e ∧ E' = E.write t.ref { e with heapIdx := some pos } := by
  obtain ⟨a₁, hset, h⟩ := Runs.bind_ok.mp h
  obtain ⟨E₁, href, h⟩ := Runs.bind_ok.mp h
  cases h
  unfold setItem at hset
  split at hset
  · rename_i hlt
    cases hset
    exact ⟨hlt, rfl, Store.modify_ok.mp href⟩
  · cases hset

theorem place_retimed {E E' : Store Entry} {a a' : Heap} {pos : Nat} {t : HeapItem}
    (h : place E a pos t = .ok (E', a')) : Retimed E E' := by
  obtain ⟨-, -, e, he, rfl⟩ := place_ok h
  exact .write he rfl

theorem heapUpdate_retimed {E E' : Store Entry} {a a' : Heap} {pos len : Nat}
    (h : heapUpdate E a pos len = .ok (E', a')) : Retimed E E' := by
  refine heapUpdate_keeps (I := fun E₁ _ => Retimed E E₁) ?_ (.refl E) h
  intro E₁ a₁ pos t E₂ a₂ h₁ hp
  exact h₁.trans (place_retimed hp)

theorem heapRemove_retimed {E E' : Store Entry} {a a' : Heap} {pos : Nat}
    (h : heapRemove E a pos = .ok (E', a')) : Retimed E E' := by
  unfold heapRemove at h
  split at h
  · cases h
  · obtain ⟨⟨E₁, a₁⟩, hf, h⟩ := Runs.bind_ok.mp h
    have h₁ : Retimed E E₁ := by
      unfold fillHole at hf
      dsimp only at hf
      split at hf
      · cases hf; exact .refl E
      · obtain ⟨x, -, hf⟩ := Runs.bind_ok.mp hf
        exact place_retimed hf
    dsimp only at h
    split at h
    · exact h₁.trans (heapUpdate_retimed h)
    · cases h; exact h₁

/-! ## Slots and back references -/

/-- The keys of the heap order, `0` behind the last slot. -/
def vals (a : Heap) (i : Nat) : Nat := (a[i]?.map fun x => x.val.toNat).getD 0

theorem vals_of {a : Heap} {i : Nat} {x : HeapItem} (h : a[i]? = some x) :
    vals a i = x.val.toNat := by simp [vals, h]

theorem vals_set {a : Heap} {i : Nat} (h : i < a.length) (t : HeapItem) :
    vals (a.set i t) = Function.update (vals a) i t.val.toNat := by
  funext j
  by_cases hj : j = i
  · subst hj; simp [vals, h]
  · rw [Function.update_of_ne hj, vals, vals, List.getElem?_set_ne (Ne.symm hj)]

/-- Slots and `heap_idx` fields name each other, the entries in `S` left out. -/
structure Backed (E : Store Entry) (a : Heap) (S : Ptr → Prop) : Prop where
  live : ∀ x ∈ a, ∃ e, E x.ref = some e
  index : ∀ i x e, a[i]? = some x → ¬ S x.ref → E x.ref = some e → e.heapIdx = some i
  slot : ∀ p e i, ¬ S p → E p = some e → e.heapIdx = some i → ∃ x, a[i]? = some x ∧ x.ref = p
  nodup : (a.map HeapItem.ref).Nodup

theorem Backed.mono {E : Store Entry} {a : Heap} {S T : Ptr → Prop} (h : Backed E a S)
    (hS : ∀ p, S p → T p) : Backed E a T where
  live := h.live
  index i x e hx hn := h.index i x e hx fun hs => hn (hS _ hs)
  slot p e i hn := h.slot p e i fun hs => hn (hS _ hs)
  nodup := h.nodup

theorem ref_inj {a : Heap} (hnd : (a.map HeapItem.ref).Nodup) {i j : Nat} {x y : HeapItem}
    (hx : a[i]? = some x) (hy : a[j]? = some y) (h : x.ref = y.ref) : i = j := by
  obtain ⟨hi, rfl⟩ := List.getElem?_eq_some_iff.mp hx
  obtain ⟨hj, rfl⟩ := List.getElem?_eq_some_iff.mp hy
  have hi' : i < (a.map HeapItem.ref).length := by simpa using hi
  have hj' : j < (a.map HeapItem.ref).length := by simpa using hj
  have heq : (a.map HeapItem.ref)[i] = (a.map HeapItem.ref)[j] := by simpa using h
  exact hnd.getElem_inj_iff.mp heq

/-- `*a[pos].ref = pos` puts the entry of slot `pos` right. -/
theorem Backed.place {E : Store Entry} {a : Heap} {S : Ptr → Prop} {pos : Nat} {t : HeapItem}
    (h : Backed E a fun p => S p ∨ p = t.ref) (ht : a[pos]? = some t) (e : Entry) :
    Backed (E.write t.ref { e with heapIdx := some pos }) a S where
  live x hx := by
    by_cases hp : x.ref = t.ref
    · rw [hp]; exact ⟨_, Store.write_self _ _ _⟩
    · rw [Store.write_of_ne _ _ hp]; exact h.live x hx
  index i x e' hx hn he' := by
    by_cases hp : x.ref = t.ref
    · rw [hp, Store.write_self] at he'
      cases he'
      rw [ref_inj h.nodup hx ht hp]
    · rw [Store.write_of_ne _ _ hp] at he'
      exact h.index i x e' hx (fun hs => hs.elim hn hp) he'
  slot p e' i hn he' hi := by
    by_cases hp : p = t.ref
    · rw [hp, Store.write_self] at he'
      cases he'
      cases hi
      exact ⟨t, ht, hp.symm⟩
    · rw [Store.write_of_ne _ _ hp] at he'
      exact h.slot p e' i (fun hs => hs.elim hn hp) he' hi
  nodup := h.nodup

theorem exchange_perm {b : Heap} {i j : Nat} {x y : HeapItem} (hx : b[i]? = some x)
    (hy : b[j]? = some y) : ((b.set i y).set j x).Perm b := by
  obtain ⟨hi, rfl⟩ := List.getElem?_eq_some_iff.mp hx
  obtain ⟨hj, rfl⟩ := List.getElem?_eq_some_iff.mp hy
  exact List.set_set_perm hi hj

theorem vals_exchange {b : Heap} {i j : Nat} {x y : HeapItem} (hx : b[i]? = some x)
    (hy : b[j]? = some y) : vals ((b.set i y).set j x) = exchange (vals b) i j := by
  have hi := (List.getElem?_eq_some_iff.mp hx).1
  have hj := (List.getElem?_eq_some_iff.mp hy).1
  rw [vals_set (by simpa using hj), vals_set hi, exchange, vals_of hx, vals_of hy]

/-- Exchanging two items upsets the back references of their entries only. -/
theorem Backed.exchange {E : Store Entry} {b : Heap} {S : Ptr → Prop} {i j : Nat}
    {x y : HeapItem} (h : Backed E b S) (hij : i ≠ j) (hx : b[i]? = some x) (hy : b[j]? = some y) :
    Backed E ((b.set i y).set j x) fun p => (S p ∨ p = x.ref) ∨ p = y.ref := by
  have hperm := exchange_perm hx hy
  have hi := (List.getElem?_eq_some_iff.mp hx).1
  have hj := (List.getElem?_eq_some_iff.mp hy).1
  refine ⟨fun z hz => h.live z (hperm.mem_iff.mp hz), ?_, ?_, (hperm.map _).nodup_iff.mpr h.nodup⟩
  · intro k z e hz hn he
    have hki : k ≠ i := by
      rintro rfl
      rw [List.getElem?_set_ne hij.symm, List.getElem?_set_self hi] at hz
      cases hz
      exact hn (.inr rfl)
    have hkj : k ≠ j := by
      rintro rfl
      rw [List.getElem?_set_self (by simpa using hj)] at hz
      cases hz
      exact hn (.inl (.inr rfl))
    rw [List.getElem?_set_ne (Ne.symm hkj), List.getElem?_set_ne (Ne.symm hki)] at hz
    exact h.index k z e hz (fun hs => hn (.inl (.inl hs))) he
  · intro p e k hn he hk
    obtain ⟨z, hz, rfl⟩ := h.slot p e k (fun hs => hn (.inl (.inl hs))) he hk
    have hki : k ≠ i := by rintro rfl; rw [hx] at hz; cases hz; exact hn (.inl (.inr rfl))
    have hkj : k ≠ j := by rintro rfl; rw [hy] at hz; cases hz; exact hn (.inr rfl)
    exact ⟨z, by rw [List.getElem?_set_ne (Ne.symm hkj), List.getElem?_set_ne (Ne.symm hki)]; exact hz,
      rfl⟩

/-- The heap between operations. -/
structure HeapOk (E : Store Entry) (a : Heap) (S : Ptr → Prop) : Prop where
  ordered : Ordered a.length (vals a)
  backed : Backed E a S

theorem itemAt_of {a : Heap} {i : Nat} {x : HeapItem} (h : a[i]? = some x) :
    itemAt a i = .ok x := by simp [itemAt, h]

theorem itemAt_ok {a : Heap} {i : Nat} {x : HeapItem} : itemAt a i = .ok x ↔ a[i]? = some x := by
  unfold itemAt; cases a[i]? <;> simp

theorem place_of {E : Store Entry} {a : Heap} {pos : Nat} {t : HeapItem} {e : Entry}
    (hpos : pos < a.length) (he : E t.ref = some e) :
    place E a pos t = .ok (E.write t.ref { e with heapIdx := some pos }, a.set pos t) := by
  simp [place, setItem, hpos, setRef, Store.modify_of _ he]

/-! ## The sifts -/

/-- The hole of a sift: slot `pos` of `a` is to hold `t`. -/
structure Sifting (E : Store Entry) (a : Heap) (t : HeapItem) (pos : Nat) (S : Ptr → Prop) :
    Prop where
  lt : pos < a.length
  hole : Hole a.length (vals (a.set pos t)) pos
  backed : Backed E (a.set pos t) fun p => S p ∨ p = t.ref

theorem Sifting.get {E : Store Entry} {a : Heap} {t : HeapItem} {pos : Nat} {S : Ptr → Prop}
    (h : Sifting E a t pos S) : (a.set pos t)[pos]? = some t := List.getElem?_set_self h.lt

theorem Sifting.val {E : Store Entry} {a : Heap} {t : HeapItem} {pos : Nat} {S : Ptr → Prop}
    (h : Sifting E a t pos S) : vals (a.set pos t) pos = t.val.toNat := vals_of h.get

theorem Sifting.live {E : Store Entry} {a : Heap} {t : HeapItem} {pos : Nat} {S : Ptr → Prop}
    (h : Sifting E a t pos S) : ∃ e, E t.ref = some e :=
  h.backed.live t (List.mem_of_getElem? h.get)

/-- Where the item fits, the sift ends. -/
theorem Sifting.finish {E : Store Entry} {a : Heap} {t : HeapItem} {pos : Nat} {S : Ptr → Prop}
    (h : Sifting E a t pos S) (hb : FitsBelow a.length (vals (a.set pos t)) pos)
    (ha : FitsAbove (vals (a.set pos t)) pos) :
    ∃ E', place E a pos t = .ok (E', a.set pos t) ∧ HeapOk E' (a.set pos t) S := by
  obtain ⟨e, he⟩ := h.live
  refine ⟨_, place_of h.lt he, ?_, h.backed.place h.get e⟩
  rw [List.length_set]
  exact h.hole.ordered hb ha

/-- A round of either sift: the item of slot `j` goes to the hole, which goes to `j`. -/
theorem Sifting.move {E : Store Entry} {a : Heap} {t y : HeapItem} {pos j : Nat}
    {S : Ptr → Prop} (h : Sifting E a t pos S) (hne : pos ≠ j) (hy : a[j]? = some y)
    (hhole : Hole a.length (exchange (vals (a.set pos t)) pos j) j) :
    ∃ E', place E a pos y = .ok (E', a.set pos y) ∧ Sifting E' (a.set pos y) t j S ∧
      vals ((a.set pos y).set j t) = exchange (vals (a.set pos t)) pos j ∧
      ((a.set pos y).set j t).Perm (a.set pos t) := by
  have hy' : (a.set pos t)[j]? = some y := by rw [List.getElem?_set_ne hne]; exact hy
  have hset : ((a.set pos t).set pos y).set j t = (a.set pos y).set j t := by rw [List.set_set]
  have hvals := vals_exchange h.get hy'
  have hperm := exchange_perm h.get hy'
  have hback := h.backed.exchange hne h.get hy'
  rw [hset] at hvals hperm hback
  obtain ⟨e, he⟩ := h.backed.live y (List.mem_of_getElem? hy')
  have hj := (List.getElem?_eq_some_iff.mp hy).1
  refine ⟨_, place_of h.lt he, ⟨by simpa using hj, ?_, ?_⟩, hvals, hperm⟩
  · rw [hvals, List.length_set]; exact hhole
  · refine (hback.mono ?_).place (by rw [List.getElem?_set_ne hne.symm, List.getElem?_set_self h.lt])
      e
    rintro p (((hs | hs) | hs) | hs) <;> simp [hs]

theorem heapParent_eq (i : Nat) : heapParent i = par i := by unfold heapParent par; omega

theorem heapUpLoop_spec {S : Ptr → Prop} {t : HeapItem} : ∀ (fuel : Nat) (E : Store Entry)
    (a : Heap) (pos : Nat), pos < fuel → Sifting E a t pos S →
    FitsBelow a.length (vals (a.set pos t)) pos →
    ∃ E' a', heapUpLoop fuel E a t pos = .ok (E', a') ∧ HeapOk E' a' S ∧
      a'.Perm (a.set pos t)
  | 0, _, _, _, hf, _, _ => absurd hf (Nat.not_lt_zero _)
  | fuel + 1, E, a, pos, hf, h, hb => by
    rw [heapUpLoop]
    split
    · rename_i hpos
      have hp := par_lt hpos
      have hlt : par pos < a.length := Nat.lt_trans hp h.lt
      have hy : a[par pos]? = some (a.get ⟨par pos, hlt⟩) := List.getElem?_eq_getElem hlt
      generalize a.get ⟨par pos, hlt⟩ = above at hy
      have hval : vals (a.set pos t) (par pos) = above.val.toNat :=
        vals_of (by rw [List.getElem?_set_ne (by omega)]; exact hy)
      simp only [heapParent_eq, itemAt_of hy, Runs.ok_bind]
      split
      · rename_i hgt
        have hgt' : vals (a.set pos t) pos < vals (a.set pos t) (par pos) := by
          rw [h.val, hval]; exact UInt64.lt_iff_toNat_lt.mp hgt
        obtain ⟨hhole, hbelow⟩ := h.hole.up hpos h.lt hgt'
        obtain ⟨E₁, hpl, h₁, hvals, hperm⟩ := h.move (by omega) hy hhole
        rw [← hvals] at hbelow
        obtain ⟨E', a', hloop, hok, hperm'⟩ := heapUpLoop_spec fuel E₁ _ (par pos) (by omega) h₁
          (by rw [List.length_set]; exact hbelow)
        refine ⟨E', a', ?_, hok, hperm'.trans hperm⟩
        simp only [hpl, Runs.ok_bind]
        exact hloop
      · rename_i hle
        obtain ⟨E', hpl, hok⟩ := h.finish hb fun _ => by
          rw [h.val, hval]
          exact Nat.not_lt.mp fun hlt => hle (UInt64.lt_iff_toNat_lt.mpr hlt)
        exact ⟨E', _, hpl, hok, .refl _⟩
    · rename_i hpos
      obtain ⟨E', hpl, hok⟩ := h.finish hb fun h0 => absurd h0 hpos
      exact ⟨E', _, hpl, hok, .refl _⟩

/-- The smaller of the minimum so far and slot `c`, when there is a slot `c`. -/
theorem smaller_spec (a : Heap) (c : Nat) (min : Nat × UInt64) :
    (smaller a a.length c min = .ok min ∧ (c < a.length → min.2.toNat ≤ vals a c)) ∨
    (∃ x, a[c]? = some x ∧ smaller a a.length c min = .ok (c, x.val) ∧
      x.val.toNat < min.2.toNat) := by
  unfold smaller
  by_cases hc : c < a.length
  · obtain ⟨x, hx⟩ : ∃ x, a[c]? = some x := ⟨_, List.getElem?_eq_getElem hc⟩
    by_cases hlt : x.val < min.2
    · exact .inr ⟨x, hx, by simp [hc, itemAt_of hx, hlt], UInt64.lt_iff_toNat_lt.mp hlt⟩
    · refine .inl ⟨by simp [hc, itemAt_of hx, hlt], ?_⟩
      intro _
      rw [vals_of hx]
      exact Nat.not_lt.mp fun h => hlt (UInt64.lt_iff_toNat_lt.mpr h)
  · exact .inl ⟨by simp [hc], fun h => absurd h hc⟩

/-- What `heap_down` selects: the hole itself when the item fits, else a smallest slot below. -/
theorem select_spec (a : Heap) (t : HeapItem) (pos : Nat) :
    ∃ m₁ m, smaller a a.length (heapLeft pos) (pos, t.val) = .ok m₁ ∧
      smaller a a.length (heapRight pos) m₁ = .ok m ∧
      ((m.1 = pos ∧ ∀ i, 0 < i → i < a.length → par i = pos → t.val.toNat ≤ vals a i) ∨
        (m.1 ≠ pos ∧ par m.1 = pos ∧ 0 < m.1 ∧ m.1 < a.length ∧ vals a m.1 < t.val.toNat ∧
          ∀ i, 0 < i → i < a.length → par i = pos → vals a m.1 ≤ vals a i)) := by
  have hl : ∀ i, 0 < i → par i = pos → i = heapLeft pos ∨ i = heapRight pos := by
    intro i hi hp
    have := (par_eq_iff hi).mp hp; unfold heapLeft heapRight; omega
  have hpl : par (heapLeft pos) = pos := by unfold par heapLeft; omega
  have hpr : par (heapRight pos) = pos := by unfold par heapRight; omega
  have hl0 : 0 < heapLeft pos ∧ heapLeft pos ≠ pos := by unfold heapLeft; omega
  have hr0 : 0 < heapRight pos ∧ heapRight pos ≠ pos := by unfold heapRight; omega
  rcases smaller_spec a (heapLeft pos) (pos, t.val) with ⟨h₁, hle₁⟩ | ⟨x, hx, h₁, hlt₁⟩
  · refine ⟨(pos, t.val), ?_⟩
    rcases smaller_spec a (heapRight pos) (pos, t.val) with ⟨h₂, hle₂⟩ | ⟨y, hy, h₂, hlt₂⟩
    · refine ⟨_, h₁, h₂, .inl ⟨rfl, ?_⟩⟩
      intro i hi hn hp
      rcases hl i hi hp with rfl | rfl
      · exact hle₁ hn
      · exact hle₂ hn
    · have hv := vals_of hy
      refine ⟨_, h₁, h₂, .inr ⟨hr0.2, hpr, hr0.1, (List.getElem?_eq_some_iff.mp hy).1,
        by rw [hv]; exact hlt₂, fun i hi hn hp => ?_⟩⟩
      rcases hl i hi hp with rfl | rfl
      · have := hle₁ hn; simp only at this hlt₂ ⊢; omega
      · exact le_rfl
  · refine ⟨(heapLeft pos, x.val), ?_⟩
    have hv := vals_of hx
    rcases smaller_spec a (heapRight pos) (heapLeft pos, x.val) with ⟨h₂, hle₂⟩ | ⟨y, hy, h₂, hlt₂⟩
    · refine ⟨_, h₁, h₂, .inr ⟨hl0.2, hpl, hl0.1, (List.getElem?_eq_some_iff.mp hx).1,
        by rw [hv]; exact hlt₁, fun i hi hn hp => ?_⟩⟩
      rcases hl i hi hp with rfl | rfl
      · exact le_rfl
      · rw [hv]; exact hle₂ hn
    · have hw := vals_of hy
      refine ⟨_, h₁, h₂, .inr ⟨hr0.2, hpr, hr0.1, (List.getElem?_eq_some_iff.mp hy).1,
        by rw [hw]; exact hlt₂.trans hlt₁, fun i hi hn hp => ?_⟩⟩
      rcases hl i hi hp with rfl | rfl
      · simp only at hlt₂ ⊢; omega
      · exact le_rfl

theorem heapDownLoop_spec {S : Ptr → Prop} {t : HeapItem} : ∀ (fuel : Nat) (E : Store Entry)
    (a : Heap) (pos : Nat), a.length - pos < fuel → Sifting E a t pos S →
    FitsAbove (vals (a.set pos t)) pos →
    ∃ E' a', heapDownLoop fuel E a t pos a.length = .ok (E', a') ∧ HeapOk E' a' S ∧
      a'.Perm (a.set pos t)
  | 0, _, _, _, hf, _, _ => absurd hf (Nat.not_lt_zero _)
  | fuel + 1, E, a, pos, hf, h, ha => by
    obtain ⟨m₁, m, hm₁, hm, hsel⟩ := select_spec a t pos
    -- slots below the hole hold what they hold in `a`
    have hsame : ∀ i, 0 < i → par i = pos → vals (a.set pos t) i = vals a i := by
      intro i hi hp
      have := par_lt hi
      rw [vals_set h.lt, Function.update_of_ne (by omega)]
    rw [heapDownLoop]
    simp only [hm₁, hm, Runs.ok_bind]
    rcases hsel with ⟨heq, hfit⟩ | ⟨hne, hpar, hpos, hlt, hval, hmin⟩
    · rw [if_pos heq]
      obtain ⟨E', hpl, hok⟩ := h.finish (fun i hi hn hp => by
        rw [h.val, hsame i hi hp]; exact hfit i hi hn hp) ha
      exact ⟨E', _, hpl, hok, .refl _⟩
    · rw [if_neg hne]
      have hy : a[m.1]? = some (a.get ⟨m.1, hlt⟩) := List.getElem?_eq_getElem hlt
      generalize a.get ⟨m.1, hlt⟩ = child at hy
      obtain ⟨hhole, habove⟩ := h.hole.down ha hpos hlt hpar
        (by rw [h.val, hsame _ hpos hpar]; exact hval)
        (fun i hi hn hp => by rw [hsame _ hpos hpar, hsame i hi hp]; exact hmin i hi hn hp)
      obtain ⟨E₁, hpl, h₁, hvals, hperm⟩ := h.move (Ne.symm hne) hy hhole
      rw [← hvals] at habove
      have hdown := par_lt hpos
      obtain ⟨E', a', hloop, hok, hperm'⟩ := heapDownLoop_spec fuel E₁ _ m.1
        (by rw [List.length_set]; omega) h₁ habove
      rw [List.length_set] at hloop
      refine ⟨E', a', ?_, hok, hperm'.trans hperm⟩
      simp only [itemAt_of hy, hpl, Runs.ok_bind]
      exact hloop

/-- **`heap_update`** restores the heap when one slot holds any value. -/
theorem heapUpdate_spec {E : Store Entry} {a : Heap} {pos : Nat} {t : HeapItem}
    {S : Ptr → Prop} (ht : a[pos]? = some t) (hhole : Hole a.length (vals a) pos)
    (hb : Backed E a fun p => S p ∨ p = t.ref) :
    ∃ E' a', heapUpdate E a pos a.length = .ok (E', a') ∧ HeapOk E' a' S ∧ a'.Perm a := by
  obtain ⟨hlt, hget⟩ := List.getElem?_eq_some_iff.mp ht
  have hself : a.set pos t = a := by rw [← hget]; exact List.set_getElem_self hlt
  have h : Sifting E a t pos S := ⟨hlt, by rw [hself]; exact hhole, by rw [hself]; exact hb⟩
  have hdown : FitsAbove (vals a) pos →
      ∃ E' a', heapDown E a pos a.length = .ok (E', a') ∧ HeapOk E' a' S ∧ a'.Perm a := by
    intro ha
    obtain ⟨E', a', hloop, hok, hperm⟩ :=
      heapDownLoop_spec (a.length + 1) E a pos (by omega) h (by rw [hself]; exact ha)
    exact ⟨E', a', by simp [heapDown, itemAt_of ht, hloop], hok, hself ▸ hperm⟩
  unfold heapUpdate
  simp only [itemAt_of ht, Runs.ok_bind]
  split
  · rename_i hpos
    have hplt : par pos < a.length := Nat.lt_trans (par_lt hpos) hlt
    have hy : a[par pos]? = some (a.get ⟨par pos, hplt⟩) := List.getElem?_eq_getElem hplt
    generalize a.get ⟨par pos, hplt⟩ = above at hy
    simp only [heapParent_eq, itemAt_of hy, Runs.ok_bind]
    split
    · rename_i hgt
      have hgt' : vals a pos < vals a (par pos) := by
        rw [vals_of ht, vals_of hy]; exact UInt64.lt_iff_toNat_lt.mp hgt
      obtain ⟨E', a', hloop, hok, hperm⟩ := heapUpLoop_spec (pos + 1) E a pos (by omega) h
        (by rw [hself]; exact hhole.fitsBelow hpos hgt')
      exact ⟨E', a', by simp [heapUp, itemAt_of ht, hloop], hok, hself ▸ hperm⟩
    · rename_i hle
      apply hdown
      intro _
      rw [vals_of ht, vals_of hy]
      exact Nat.not_lt.mp fun hlt => hle (UInt64.lt_iff_toNat_lt.mpr hlt)
  · rename_i hpos
    exact hdown fun h0 => absurd h0 hpos

/-! ## Taking a slot out -/

theorem getElem?_dropLast {a : Heap} {i : Nat} :
    a.dropLast[i]? = if i < a.length - 1 then a[i]? else none := by
  rw [List.dropLast_eq_take, List.getElem?_take]

theorem vals_dropLast {a : Heap} {i : Nat} (h : i < a.length - 1) :
    vals a.dropLast i = vals a i := by
  unfold vals; rw [getElem?_dropLast, if_pos h]

/-- The last slot can go when the entry it refers to is left out anyway. -/
theorem Backed.dropLast {E : Store Entry} {a : Heap} {S : Ptr → Prop} {x : HeapItem}
    (h : Backed E a S) (hx : a[a.length - 1]? = some x) (hS : S x.ref) :
    Backed E a.dropLast S where
  live z hz := h.live z ((List.dropLast_sublist a).subset hz)
  index i z e hz := by
    rw [getElem?_dropLast] at hz
    split at hz
    · exact h.index i z e hz
    · cases hz
  slot p e i hn he hi := by
    obtain ⟨z, hz, rfl⟩ := h.slot p e i hn he hi
    refine ⟨z, ?_, rfl⟩
    have hlt := (List.getElem?_eq_some_iff.mp hz).1
    have hne : i ≠ a.length - 1 := by rintro rfl; rw [hx] at hz; cases hz; exact hn hS
    rw [getElem?_dropLast, if_pos (by omega)]; exact hz
  nodup := ((List.dropLast_sublist a).map _).nodup h.nodup

theorem perm_dropLast {a : Heap} {x : HeapItem} (hx : a[a.length - 1]? = some x) :
    (x :: a.dropLast).Perm a := by
  have hlast : a.getLast? = some x := by rw [List.getLast?_eq_getElem?]; exact hx
  obtain ⟨l, rfl⟩ : ∃ l, a = l ++ [x] := ⟨_, (List.dropLast_append_getLast? x hlast).symm⟩
  rw [List.dropLast_concat]
  exact (List.perm_append_singleton x l).symm

/-- **Slot `pos` is taken out**: the other items stay, with their back references. -/
theorem heapRemove_spec {E : Store Entry} {a : Heap} {pos : Nat} {x : HeapItem}
    {S : Ptr → Prop} (h : HeapOk E a S) (hx : a[pos]? = some x) :
    ∃ E' a', heapRemove E a pos = .ok (E', a') ∧ HeapOk E' a' (fun p => S p ∨ p = x.ref) ∧
      (x :: a').Perm a := by
  have hpos := (List.getElem?_eq_some_iff.mp hx).1
  have hne : a ≠ [] := List.ne_nil_of_length_pos (by omega)
  have hlen : a.dropLast.length = a.length - 1 := List.length_dropLast
  unfold heapRemove fillHole
  rw [if_neg hne]
  by_cases hlast : pos = a.length - 1
  · subst hlast
    have hb : Backed E a fun p => S p ∨ p = x.ref := h.backed.mono fun p hs => .inl hs
    refine ⟨E, a.dropLast, by simp, ⟨?_, hb.dropLast hx (.inr rfl)⟩, perm_dropLast hx⟩
    rw [hlen]
    exact (h.ordered.mono (Nat.sub_le _ _)).congr fun i hi => vals_dropLast hi
  · -- the last item `y` goes to the hole
    have hl : a.length - 1 < a.length := by omega
    obtain ⟨y, hy⟩ : ∃ y, a[a.length - 1]? = some y := ⟨_, List.getElem?_eq_getElem hl⟩
    obtain ⟨e, he⟩ := h.backed.live y (List.mem_of_getElem? hy)
    have hset : ((a.set pos y).set (a.length - 1) x).dropLast = (a.set pos y).dropLast := by
      rw [List.dropLast_eq_take, List.dropLast_eq_take]
      simp [List.take_set_of_le]
    have hend : ((a.set pos y).set (a.length - 1) x)[a.length - 1]? = some x :=
      List.getElem?_set_self (by simpa using hl)
    have hb := h.backed.exchange hlast hx hy
    have hperm := perm_dropLast (a := (a.set pos y).set (a.length - 1) x) (x := x) (by simpa using hend)
    have hb₂ := hb.dropLast (by simpa using hend) (.inl (.inr rfl))
    rw [hset] at hperm hb₂
    have hget : (a.set pos y).dropLast[pos]? = some y := by
      rw [getElem?_dropLast, List.length_set, if_pos (by omega), List.getElem?_set_self hpos]
    have hlen₂ : (a.set pos y).dropLast.length = a.length - 1 := by simp
    have hhole : Hole (a.set pos y).dropLast.length (vals (a.set pos y).dropLast) pos := by
      have hr : Hole a.length (vals (a.set pos y)) pos := by
        rw [vals_set hpos]; exact h.ordered.replace
      rw [hlen₂]
      refine (hr.mono (Nat.sub_le _ _)).congr (by omega) fun i hi => vals_dropLast ?_
      rwa [List.length_set]
    obtain ⟨E', a', hup, hok, hperm'⟩ := heapUpdate_spec hget hhole
      ((hb₂.place hget e).mono fun p hs => .inl hs)
    refine ⟨E', a', ?_, hok, (hperm'.cons x).trans (hperm.trans (exchange_perm hx hy))⟩
    simp only [if_neg hlast, itemAt_of hy, place_of hpos he, Runs.ok_bind, hlen₂]
    rw [if_pos (by omega), ← hlen₂]
    exact hup

end RedisServer
