import Mathlib

/-!
# Binary heaps with one slot out of order

The order of an array heap is a statement about the keys `f 0, …, f (n - 1)` and the parent of
each slot.  This file names nothing of any program.  A sift works on a heap in which one slot
holds a key that may be wrong (`Hole`): the slots around it are ordered among themselves.

* `Ordered.replace`, `Ordered.push` — writing any key into a slot of a heap, or behind its last
  slot, leaves a hole there;
* `Hole.up`, `Hole.down` — exchanging the hole's key with its parent's (its smaller child's) moves
  the hole there;
* `Hole.ordered` — a hole whose key fits both ways is none;
* `Ordered.root_le` — the first key is the smallest.
-/

set_option autoImplicit false

namespace HeapOrder

variable {β : Type*} [LinearOrder β] {n pos i j : Nat} {f : Nat → β} {x : β}

/-- The slot above slot `i`. -/
def par (i : Nat) : Nat := (i - 1) / 2

theorem par_lt (h : 0 < i) : par i < i := by unfold par; omega

/-- The two slots below slot `j`. -/
theorem par_eq_iff (h : 0 < i) : par i = j ↔ i = 2 * j + 1 ∨ i = 2 * j + 2 := by
  unfold par; omega

def Ordered (n : Nat) (f : Nat → β) : Prop := ∀ i, 0 < i → i < n → f (par i) ≤ f i

/-- Ordered, if the key in slot `pos` is left out. -/
structure Hole (n : Nat) (f : Nat → β) (pos : Nat) : Prop where
  away : ∀ i, 0 < i → i < n → i ≠ pos → par i ≠ pos → f (par i) ≤ f i
  bridge : ∀ i, 0 < i → i < n → par i = pos → 0 < pos → f (par pos) ≤ f i

/-- The key in slot `pos` is no larger than those below it. -/
def FitsBelow (n : Nat) (f : Nat → β) (pos : Nat) : Prop :=
  ∀ i, 0 < i → i < n → par i = pos → f pos ≤ f i

/-- The key in slot `pos` is no smaller than the one above it. -/
def FitsAbove (f : Nat → β) (pos : Nat) : Prop := 0 < pos → f (par pos) ≤ f pos

theorem Ordered.mono {m : Nat} (h : Ordered n f) (hm : m ≤ n) : Ordered m f :=
  fun i hi hlt => h i hi (Nat.lt_of_lt_of_le hlt hm)

theorem Ordered.congr {g : Nat → β} (h : Ordered n f) (hg : ∀ i, i < n → g i = f i) :
    Ordered n g := by
  intro i hi hlt
  rw [hg i hlt, hg _ (Nat.lt_trans (par_lt hi) hlt)]; exact h i hi hlt

theorem Ordered.root_le (h : Ordered n f) : ∀ i, i < n → f 0 ≤ f i := by
  intro i
  induction i using Nat.strongRecOn with
  | ind i ih =>
    intro hlt
    rcases Nat.eq_zero_or_pos i with rfl | hi
    · exact le_rfl
    · have hp := par_lt hi
      exact (ih _ hp (Nat.lt_trans hp hlt)).trans (h i hi hlt)

theorem Ordered.replace (h : Ordered n f) : Hole n (Function.update f pos x) pos where
  away i hi hlt hne hpar := by
    rw [Function.update_of_ne hne, Function.update_of_ne hpar]
    exact h i hi hlt
  bridge i hi hlt hpar hpos := by
    have hne : i ≠ pos := fun he => by have := par_lt hi; omega
    have hlt' : par pos < pos := par_lt hpos
    have hip := par_lt hi
    rw [Function.update_of_ne (by omega), Function.update_of_ne hne]
    have hup := h pos hpos (by omega)
    exact hup.trans (hpar ▸ h i hi hlt)

theorem Ordered.push (h : Ordered n f) : Hole (n + 1) (Function.update f n x) n where
  away i hi hlt hne hpar := by
    rw [Function.update_of_ne hne, Function.update_of_ne hpar]
    exact h i hi (by omega)
  bridge i hi hlt hpar _ := by have := par_lt hi; omega

theorem Hole.ordered (h : Hole n f pos) (hb : FitsBelow n f pos) (ha : FitsAbove f pos) :
    Ordered n f := by
  intro i hi hlt
  by_cases hp : par i = pos
  · rw [hp]; exact hb i hi hlt hp
  · by_cases hpos : i = pos
    · subst hpos; exact ha hi
    · exact h.away i hi hlt hpos hp

theorem Hole.mono {m : Nat} (h : Hole n f pos) (hm : m ≤ n) : Hole m f pos where
  away i hi hlt := h.away i hi (Nat.lt_of_lt_of_le hlt hm)
  bridge i hi hlt := h.bridge i hi (Nat.lt_of_lt_of_le hlt hm)

theorem Hole.congr {g : Nat → β} (h : Hole n f pos) (hpos : pos < n)
    (hg : ∀ i, i < n → g i = f i) : Hole n g pos where
  away i hi hlt hne hp := by
    rw [hg i hlt, hg _ (Nat.lt_trans (par_lt hi) hlt)]; exact h.away i hi hlt hne hp
  bridge i hi hlt hp h0 := by
    rw [hg i hlt, hg _ (Nat.lt_trans (par_lt h0) hpos)]; exact h.bridge i hi hlt hp h0

/-- A key too small for its parent fits the slots below. -/
theorem Hole.fitsBelow (h : Hole n f pos) (hpos : 0 < pos) (hlt : f pos < f (par pos)) :
    FitsBelow n f pos := fun i hi hin hp => hlt.le.trans (h.bridge i hi hin hp hpos)

/-- The keys of slots `i` and `j` exchanged. -/
def exchange (f : Nat → β) (i j : Nat) : Nat → β :=
  Function.update (Function.update f i (f j)) j (f i)

omit [LinearOrder β] in
theorem exchange_fst (hij : i ≠ j) : exchange f i j i = f j := by
  simp [exchange, hij]

omit [LinearOrder β] in
theorem exchange_snd : exchange f i j j = f i := by simp [exchange]

omit [LinearOrder β] in
theorem exchange_of_ne {k : Nat} (hi : k ≠ i) (hj : k ≠ j) : exchange f i j k = f k := by
  simp [exchange, hi, hj]

/-- **A round of a sift towards the root.** -/
theorem Hole.up (h : Hole n f pos) (hpos : 0 < pos) (hn : pos < n) (hlt : f pos < f (par pos)) :
    Hole n (exchange f pos (par pos)) (par pos) ∧
      FitsBelow n (exchange f pos (par pos)) (par pos) := by
  have hp := par_lt hpos
  have hne : pos ≠ par pos := by omega
  refine ⟨⟨?_, ?_⟩, ?_⟩
  · intro i hi hin hip hpp
    by_cases hi' : i = pos
    · exact absurd (by rw [hi']) hpp
    · rw [exchange_of_ne hi' hip]
      by_cases hpi : par i = pos
      · rw [hpi, exchange_fst hne]; exact h.bridge i hi hin hpi hpos
      · rw [exchange_of_ne hpi hpp]; exact h.away i hi hin hi' hpi
  · intro i hi hin hip h0
    have hpp := par_lt h0
    have hup : f (par (par pos)) ≤ f (par pos) :=
      h.away (par pos) h0 (by omega) hne.symm (by omega)
    rw [exchange_of_ne (by omega : par (par pos) ≠ pos) (by omega : par (par pos) ≠ par pos)]
    by_cases hi' : i = pos
    · rw [hi', exchange_fst hne]; exact hup
    · have := par_lt hi
      rw [exchange_of_ne hi' (by omega : i ≠ par pos)]
      exact hup.trans (hip ▸ h.away i hi hin hi' (by omega))
  · intro i hi hin hip
    rw [exchange_snd]
    have := par_lt hi
    by_cases hi' : i = pos
    · rw [hi', exchange_fst hne]; exact hlt.le
    · rw [exchange_of_ne hi' (by omega : i ≠ par pos)]
      exact hlt.le.trans (hip ▸ h.away i hi hin hi' (by omega))

/-- **A round of a sift away from the root**, towards the smaller of the keys below. -/
theorem Hole.down (h : Hole n f pos) (ha : FitsAbove f pos) (hj : 0 < j) (hjn : j < n)
    (hpar : par j = pos) (hlt : f j < f pos) (hmin : ∀ i, 0 < i → i < n → par i = pos → f j ≤ f i) :
    Hole n (exchange f pos j) j ∧ FitsAbove (exchange f pos j) j := by
  have hp := par_lt hj
  have hne : pos ≠ j := by omega
  refine ⟨⟨?_, ?_⟩, ?_⟩
  · intro i hi hin hij hpj
    by_cases hi' : i = pos
    · have hpp := par_lt hi
      subst hi'
      rw [exchange_fst hne, exchange_of_ne (by omega) (by omega)]
      exact h.bridge j hj hjn hpar hi
    · rw [exchange_of_ne hi' hij]
      by_cases hpi : par i = pos
      · rw [hpi, exchange_fst hne]; exact hmin i hi hin hpi
      · rw [exchange_of_ne hpi hpj]; exact h.away i hi hin hi' hpi
  · intro i hi hin hij _
    have := par_lt hi
    rw [hpar, exchange_fst hne, exchange_of_ne (by omega) (by omega)]
    exact hij ▸ h.away i hi hin (by omega) (by omega)
  · intro _
    rw [exchange_snd, hpar, exchange_fst hne]; exact hlt.le

end HeapOrder
