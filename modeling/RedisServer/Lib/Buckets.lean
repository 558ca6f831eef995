import Mathlib

/-!
# Lists of buckets

A chained hash table is, up to sizes and pointers, a list of buckets in which every element sits
in the bucket its index function names (`Placed`).  This file names nothing of any program.  It
relates the three views a table is looked at in:

* one bucket (`bs[i]?`), which is all that an operation touches;
* the elements in scan order (`bs.flatten`), which is what the table holds;
* the elements of one class that lives in one bucket (`bs.flatten.filter q`), which is what a
  lookup sees: `Placed.filter_flatten` says the scan restricted to it is the bucket's.
-/

set_option autoImplicit false

namespace Buckets

variable {α : Type} {idx : α → Nat} {bs : List (List α)} {i : Nat} {a : α} {b c : List α}

/-- Every element sits in the bucket `idx` names. -/
def Placed (idx : α → Nat) (bs : List (List α)) : Prop :=
  ∀ i c, bs[i]? = some c → ∀ a ∈ c, idx a = i

/-- All buckets below `pos` are empty. -/
def ClearedBelow (bs : List (List α)) (pos : Nat) : Prop :=
  ∀ i c, i < pos → bs[i]? = some c → c = []

theorem split (h : bs[i]? = some c) : bs = bs.take i ++ c :: bs.drop (i + 1) := by
  obtain ⟨hi, rfl⟩ := List.getElem?_eq_some_iff.mp h
  rw [List.cons_getElem_drop_succ, List.take_append_drop]

theorem set_split (h : bs[i]? = some c) : bs.set i b = bs.take i ++ b :: bs.drop (i + 1) := by
  obtain ⟨hi, _⟩ := List.getElem?_eq_some_iff.mp h
  exact List.set_eq_take_append_cons_drop.trans (if_pos hi)

theorem flatten_split (h : bs[i]? = some c) :
    bs.flatten = (bs.take i).flatten ++ (c ++ (bs.drop (i + 1)).flatten) := by
  conv_lhs => rw [split h]
  simp

theorem flatten_set (h : bs[i]? = some c) :
    (bs.set i b).flatten = (bs.take i).flatten ++ (b ++ (bs.drop (i + 1)).flatten) := by
  rw [set_split h]; simp

theorem mem_flatten (h : bs[i]? = some c) (ha : a ∈ c) : a ∈ bs.flatten :=
  List.mem_flatten.mpr ⟨c, List.mem_of_getElem? h, ha⟩

theorem flatten_set_cons (h : bs[i]? = some c) :
    (bs.set i (a :: c)).flatten.Perm (a :: bs.flatten) := by
  rw [flatten_set h, flatten_split h, List.cons_append]
  exact List.perm_middle

theorem flatten_set_eraseIdx {d : Nat} {l : List α} (h : bs[i]? = some l) (ha : l[d]? = some a) :
    bs.flatten.Perm (a :: (bs.set i (l.eraseIdx d)).flatten) := by
  have hl : l.Perm (a :: l.eraseIdx d) := by
    obtain ⟨hd, rfl⟩ := List.getElem?_eq_some_iff.mp ha
    exact (List.getElem_cons_eraseIdx_perm hd).symm
  rw [flatten_set h, flatten_split h]
  exact ((hl.append_right _).append_left _).trans List.perm_middle

theorem flatten_replicate_nil (n : Nat) : (List.replicate n ([] : List α)).flatten = [] := by
  induction n with
  | zero => rfl
  | succ n ih => simp [List.replicate_succ, ih]

/-! ## Placement -/

theorem placed_replicate_nil (n : Nat) : Placed idx (List.replicate n []) := by
  intro i c hc a ha
  rw [List.getElem?_replicate] at hc
  split at hc
  · cases hc; cases ha
  · cases hc

theorem Placed.set (h : Placed idx bs) (hb : ∀ a ∈ b, idx a = i) : Placed idx (bs.set i b) := by
  intro j c hc a ha
  rw [List.getElem?_set] at hc
  split at hc
  · rename_i hij
    split at hc
    · cases hc; rw [← hij]; exact hb a ha
    · cases hc
  · exact h j c hc a ha

theorem Placed.not_mem_of_lt (h : Placed idx bs) (ha : a ∈ (bs.take i).flatten) : idx a ≠ i := by
  obtain ⟨c, hc, hac⟩ := List.mem_flatten.mp ha
  obtain ⟨j, hj⟩ := List.mem_iff_getElem?.mp hc
  rw [List.getElem?_take] at hj
  split at hj
  · rename_i hlt
    have := h j c hj a hac
    omega
  · cases hj

theorem Placed.not_mem_of_gt (h : Placed idx bs) (ha : a ∈ (bs.drop (i + 1)).flatten) :
    idx a ≠ i := by
  obtain ⟨c, hc, hac⟩ := List.mem_flatten.mp ha
  obtain ⟨j, hj⟩ := List.mem_iff_getElem?.mp hc
  rw [List.getElem?_drop] at hj
  have := h _ c hj a hac
  omega

/-- **What a lookup sees.** A class that lives in bucket `i` is scanned in that bucket's order. -/
theorem Placed.filter_flatten {q : α → Bool} (h : Placed idx bs) (hq : ∀ a, q a = true → idx a = i)
    (hc : bs[i]? = some c) : bs.flatten.filter q = c.filter q := by
  have hlo : (bs.take i).flatten.filter q = [] :=
    List.filter_eq_nil_iff.mpr fun a ha hqa => h.not_mem_of_lt ha (hq a hqa)
  have hhi : (bs.drop (i + 1)).flatten.filter q = [] :=
    List.filter_eq_nil_iff.mpr fun a ha hqa => h.not_mem_of_gt ha (hq a hqa)
  rw [flatten_split hc, List.filter_append, List.filter_append, hlo, hhi]
  simp

theorem Placed.filter_set {q : α → Bool} (h : Placed idx bs) (hq : ∀ a, q a = true → idx a = i)
    (hc : bs[i]? = some c) : (bs.set i b).flatten.filter q = b.filter q := by
  have hlo : (bs.take i).flatten.filter q = [] :=
    List.filter_eq_nil_iff.mpr fun a ha hqa => h.not_mem_of_lt ha (hq a hqa)
  have hhi : (bs.drop (i + 1)).flatten.filter q = [] :=
    List.filter_eq_nil_iff.mpr fun a ha hqa => h.not_mem_of_gt ha (hq a hqa)
  rw [flatten_set hc, List.filter_append, List.filter_append, hlo, hhi]
  simp

/-- A class that lives in another bucket is not affected by a change of bucket `i`. -/
theorem filter_set_of_ne {q : α → Bool} (hc : bs[i]? = some c) (hb : b.filter q = c.filter q) :
    (bs.set i b).flatten.filter q = bs.flatten.filter q := by
  rw [flatten_set hc, flatten_split hc]
  simp [List.filter_append, hb]

/-! ## A cursor with empty buckets below it -/

theorem clearedBelow_zero : ClearedBelow bs 0 := fun _ _ h => absurd h (Nat.not_lt_zero _)

theorem ClearedBelow.flatten_take (h : ClearedBelow bs i) : (bs.take i).flatten = [] := by
  apply List.flatten_eq_nil_iff.mpr
  intro c hc
  obtain ⟨j, hj⟩ := List.mem_iff_getElem?.mp hc
  rw [List.getElem?_take] at hj
  split at hj
  · rename_i hlt; exact h j c hlt hj
  · cases hj

theorem ClearedBelow.succ (h : ClearedBelow bs i) (hi : bs[i]? = some []) :
    ClearedBelow bs (i + 1) := by
  intro j c hj hc
  rcases Nat.lt_succ_iff_lt_or_eq.mp hj with hlt | rfl
  · exact h j c hlt hc
  · rw [hi] at hc; cases hc; rfl

theorem ClearedBelow.set (h : ClearedBelow bs i) {j : Nat} (hb : j < i → b = []) :
    ClearedBelow (bs.set j b) i := by
  intro k c hk hc
  rw [List.getElem?_set] at hc
  split at hc
  · rename_i hjk
    split at hc
    · cases hc; exact hb (by omega)
    · cases hc
  · exact h k c hk hc

/-- Taking the first element of the cursor's bucket takes the first element of the scan. -/
theorem ClearedBelow.flatten_head (h : ClearedBelow bs i) (hc : bs[i]? = some (a :: c)) :
    bs.flatten = a :: (bs.set i c).flatten := by
  rw [flatten_split hc, flatten_set hc, h.flatten_take]
  simp

/-- Past the last bucket there is nothing left. -/
theorem ClearedBelow.flatten_eq_nil (h : ClearedBelow bs i) (hi : bs[i]? = none) :
    bs.flatten = [] := by
  have := h.flatten_take
  rwa [List.take_of_length_le (List.getElem?_eq_none_iff.mp hi)] at this

end Buckets
