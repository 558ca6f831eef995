import RedisServer.ZSet
import Mathlib

/-!
# The order of the members of a sorted set

`zless` compares scores first and names, by `memcmp` and length, second.  On scores that are
numbers it is the order of `sortKey`, a pair of an integer and a list of bytes under Mathlib's
lexicographic orders; next to a NaN score it holds in neither direction.

Results:
* `memcmp_lt_iff` — `memcmp` on the common length, then the lengths: the lexicographic order;
* `zless_iff` — when one member is less than another;
* `zless_irrefl`, `zless_trans`, `zless_total` — a strict order, total on members with different
  names and no NaN;
* `zless_strict_order` — the order is total, and decides where a member stands, without NaN only.
-/

set_option autoImplicit false

namespace RedisServer

/-- The bytes of a name as numbers. -/
def codes (s : Bytes) : List Nat := s.map UInt8.toNat

theorem codes_injective : Function.Injective codes :=
  List.map_injective_iff.mpr fun _ _ h => UInt8.toNat_inj.mp h

theorem memcmp_eq_zero {s t : Bytes} (h : s.length = t.length) : memcmp s t = 0 ↔ s = t := by
  induction s generalizing t with
  | nil =>
    cases t with
    | nil => simp [memcmp]
    | cons b t => simp at h
  | cons a s ih =>
    cases t with
    | nil => simp at h
    | cons b t =>
      rw [memcmp]
      by_cases hab : a = b
      · rw [if_pos hab, ih (Nat.succ.inj h), hab]
        simp
      · rw [if_neg hab]
        constructor
        · intro h
          split at h <;> cases h
        · rintro ⟨⟩
          exact absurd rfl hab

/-- **`memcmp` on the common length, then the lengths** is the lexicographic order. -/
theorem memcmp_lt_iff (s t : Bytes) :
    (if memcmp (s.take (min s.length t.length)) (t.take (min s.length t.length)) ≠ 0 then
      memcmp (s.take (min s.length t.length)) (t.take (min s.length t.length)) < 0
      else s.length < t.length) ↔ codes s < codes t := by
  induction s generalizing t with
  | nil =>
    cases t with
    | nil => simp [memcmp, codes]
    | cons b t => simp [memcmp, codes]
  | cons a s ih =>
    cases t with
    | nil => simp [memcmp, codes]
    | cons b t =>
      have hmin : min (a :: s).length (b :: t).length = min s.length t.length + 1 := by
        simp only [List.length_cons]
        omega
      simp only [hmin, List.take_succ_cons, memcmp]
      by_cases hab : a = b
      · subst hab
        simp only [if_true, List.length_cons, Nat.add_lt_add_iff_right]
        rw [ih]
        simp [codes]
      · have hne : a.toNat ≠ b.toNat := fun h => hab (UInt8.toNat_inj.mp h)
        rw [if_neg hab]
        by_cases hlt : a < b
        · have : a.toNat < b.toNat := UInt8.lt_iff_toNat_lt.mp hlt
          simp [hlt, codes, List.cons_lt_cons_iff, this]
        · have : ¬a.toNat < b.toNat := fun h => hlt (UInt8.lt_iff_toNat_lt.mpr h)
          simp [hlt, codes, List.cons_lt_cons_iff, this, hne]

/-- Score, then name. -/
def sortKey (z : ZNode) : ℤ ×ₗ List ℕ := toLex (z.score.key, codes z.name)

/-- **When a member is less than another.** -/
theorem zless_iff {a b : ZNode} : zless a b = true ↔
    a.score.isNaN = false ∧ b.score.isNaN = false ∧ sortKey a < sortKey b := by
  have hmin : (if a.name.length < b.name.length then a.name.length else b.name.length) =
      min a.name.length b.name.length := by
    split <;> omega
  by_cases ha : a.score.isNaN = true
  · simp [zless, Dbl.eq, Dbl.lt, ha]
  · by_cases hb : b.score.isNaN = true
    · simp [zless, Dbl.eq, Dbl.lt, hb]
    · rw [Bool.not_eq_true] at ha hb
      have hlex := memcmp_lt_iff a.name b.name
      simp only [zless, hmin, sortKey, Prod.Lex.toLex_lt_toLex, ha, hb, true_and]
      by_cases hk : a.score.key = b.score.key
      · rw [(Dbl.eq_iff ha hb).mpr hk, ← hlex]
        simp only [hk, lt_irrefl, false_or, true_and, Bool.not_true, Bool.false_eq_true, if_false]
        split <;> simp
      · have heq : a.score.eq b.score = false := by
          rw [← Bool.not_eq_true, Dbl.eq_iff ha hb]
          exact hk
        rw [heq]
        simp [Dbl.lt_iff ha hb, hk]

theorem zless_irrefl (a : ZNode) : zless a a = false := by
  rw [← Bool.not_eq_true, zless_iff]
  exact fun h => lt_irrefl _ h.2.2

theorem zless_trans {a b c : ZNode} (hab : zless a b = true) (hbc : zless b c = true) :
    zless a c = true := by
  obtain ⟨ha, -, h₁⟩ := zless_iff.mp hab
  obtain ⟨-, hc, h₂⟩ := zless_iff.mp hbc
  exact zless_iff.mpr ⟨ha, hc, h₁.trans h₂⟩

/-- Members with readable scores and different names are ordered. -/
theorem zless_total {a b : ZNode} (ha : a.score.isNaN = false) (hb : b.score.isNaN = false)
    (h : a.name ≠ b.name) : zless a b = true ∨ zless b a = true := by
  have hne : sortKey a ≠ sortKey b := fun hk =>
    h (codes_injective (congrArg (fun p => (ofLex p).2) hk))
  rcases lt_or_gt_of_ne hne with hlt | hlt
  · exact .inl (zless_iff.mpr ⟨ha, hb, hlt⟩)
  · exact .inr (zless_iff.mpr ⟨hb, ha, hlt⟩)

/-- **Members with different names are ordered, one way only, if and only if** neither score is
NaN. -/
theorem zless_xor_iff {a b : ZNode} (h : a.name ≠ b.name) :
    Xor (zless a b = true) (zless b a = true) ↔
      a.score.isNaN = false ∧ b.score.isNaN = false := by
  constructor
  · rintro (⟨hab, -⟩ | ⟨hba, -⟩)
    · exact ⟨(zless_iff.mp hab).1, (zless_iff.mp hab).2.1⟩
    · exact ⟨(zless_iff.mp hba).2.1, (zless_iff.mp hba).1⟩
  · rintro ⟨ha, hb⟩
    have hboth : ¬(zless a b = true ∧ zless b a = true) := fun ⟨hab, hba⟩ => by
      have := zless_trans hab hba
      rw [zless_irrefl] at this
      cases this
    rcases zless_total ha hb h with hab | hba
    · exact .inl ⟨hab, fun hba => hboth ⟨hab, hba⟩⟩
    · exact .inr ⟨hba, fun hab => hboth ⟨hab, hba⟩⟩

/-- Members in the order of a tree. -/
def InOrder (l : List ZNode) : Prop := l.Pairwise fun a b => zless a b = true

theorem InOrder.unique {l l' : List ZNode} (h : InOrder l) (h' : InOrder l') (hp : l.Perm l') :
    l = l' := by
  refine hp.eq_of_pairwise ?_ h h'
  intro a b _ _ hab hba
  have := zless_trans hab hba
  rw [zless_irrefl] at this
  cases this

/-- Members with different names and readable scores can be put in order. -/
theorem exists_inOrder {members : List ZNode} (hnames : (members.map ZNode.name).Nodup)
    (hnum : ∀ a ∈ members, a.score.isNaN = false) : ∃ l, l.Perm members ∧ InOrder l := by
  let le : ZNode → ZNode → Bool := fun a b => decide (sortKey a ≤ sortKey b)
  have hperm : (members.mergeSort le).Perm members := List.mergeSort_perm members le
  have hsorted : (members.mergeSort le).Pairwise fun a b => le a b = true :=
    List.pairwise_mergeSort
      (fun a b c hab hbc => decide_eq_true ((of_decide_eq_true hab).trans (of_decide_eq_true hbc)))
      (fun a b => by simpa [le] using le_total (sortKey a) (sortKey b)) members
  have hdiff : (members.mergeSort le).Pairwise fun a b => a.name ≠ b.name :=
    List.pairwise_map.mp ((hperm.map ZNode.name).nodup_iff.mpr hnames)
  refine ⟨_, hperm, (hsorted.and hdiff).imp_of_mem fun {a b} ha hb h => zless_iff.mpr
    ⟨hnum a (hperm.mem_iff.mp ha), hnum b (hperm.mem_iff.mp hb), ?_⟩⟩
  refine lt_of_le_of_ne (of_decide_eq_true h.1) fun hk => h.2 ?_
  exact codes_injective (congrArg (fun p => (ofLex p).2) hk)

/-- A member in order next to another has a readable score. -/
theorem InOrder.isNaN {l : List ZNode} (h : InOrder l) (hlen : 2 ≤ l.length) :
    ∀ a ∈ l, a.score.isNaN = false := by
  cases l with
  | nil => simp at hlen
  | cons b l =>
    obtain ⟨hb, -⟩ := List.pairwise_cons.mp h
    intro a ha
    rcases List.mem_cons.mp ha with rfl | ha
    · have hpos : 0 < l.length := Nat.lt_of_succ_le (Nat.le_of_succ_le_succ hlen)
      obtain ⟨c, hc⟩ := List.exists_mem_of_length_pos hpos
      exact (zless_iff.mp (hb c hc)).1
    · exact (zless_iff.mp (hb a ha)).2.1

/-- **`zless` is a strict order**; members with different names are ordered one way only, and a list
of such members has exactly one arrangement in order, if and only if no score that is compared is
NaN. -/
theorem zless_strict_order (a b c : ZNode) (members : List ZNode) :
    zless a a = false ∧
    (zless a b = true → zless b c = true → zless a c = true) ∧
    (a.name ≠ b.name → (Xor (zless a b = true) (zless b a = true) ↔
      a.score.isNaN = false ∧ b.score.isNaN = false)) ∧
    ((members.map ZNode.name).Nodup → ((∃! l, l.Perm members ∧ InOrder l) ↔
      members.length ≤ 1 ∨ ∀ z ∈ members, z.score.isNaN = false)) := by
  refine ⟨zless_irrefl a, zless_trans, zless_xor_iff, fun hnames => ⟨?_, ?_⟩⟩
  · rintro ⟨l, ⟨hp, hl⟩, -⟩
    rcases Nat.lt_or_ge 1 members.length with hlen | hlen
    · exact .inr fun z hz => hl.isNaN (hp.length_eq ▸ hlen) z (hp.mem_iff.mpr hz)
    · exact .inl hlen
  · intro h
    obtain ⟨l, hp, hl⟩ : ∃ l, l.Perm members ∧ InOrder l := by
      rcases h with hlen | hnum
      · refine ⟨members, .refl _, ?_⟩
        cases members with
        | nil => exact .nil
        | cons z l =>
          rw [List.eq_nil_of_length_eq_zero (Nat.le_zero.mp (Nat.le_of_succ_le_succ hlen))]
          exact List.pairwise_singleton _ z
      · exact exists_inOrder hnames hnum
    exact ⟨l, ⟨hp, hl⟩, fun l' h' => h'.2.unique hl (h'.1.trans hp.symm)⟩

/-- `zadd` admits the score "nan", and it is not ordered with any other. -/
theorem nan_is_unordered :
    let a := znodeNew (ascii "a") ⟨0x7FF8000000000000⟩
    let b := znodeNew (ascii "b") ⟨0⟩
    stod (ascii "nan") = .ok a.score ∧ stod (ascii "0") = .ok b.score ∧ a.name ≠ b.name ∧
      zless a b = false ∧ zless b a = false := by
  decide +kernel

/-! ## Addresses -/

/-- `zless` on the members at two addresses. -/
def memberLess (nodes : Store ZNode) (p q : Ptr) : Bool :=
  match nodes p, nodes q with
  | some a, some b => zless a b
  | _, _ => false

variable {nodes : Store ZNode} {p q r : Ptr}

theorem memberLess_of {a b : ZNode} (ha : nodes p = some a) (hb : nodes q = some b) :
    memberLess nodes p q = zless a b := by rw [memberLess, ha, hb]

theorem memberLess_irrefl (nodes : Store ZNode) (p : Ptr) : memberLess nodes p p = false := by
  unfold memberLess
  cases nodes p with
  | none => rfl
  | some a => exact zless_irrefl a

theorem memberLess_iff : memberLess nodes p q = true ↔
    ∃ a b, nodes p = some a ∧ nodes q = some b ∧ zless a b = true := by
  unfold memberLess
  cases nodes p <;> cases nodes q <;> simp

theorem memberLess_trans (hpq : memberLess nodes p q = true) (hqr : memberLess nodes q r = true) :
    memberLess nodes p r = true := by
  obtain ⟨a, b, ha, hb, hab⟩ := memberLess_iff.mp hpq
  obtain ⟨b', c, hb', hc, hbc⟩ := memberLess_iff.mp hqr
  cases hb.symm.trans hb'
  exact memberLess_iff.mpr ⟨a, c, ha, hc, zless_trans hab hbc⟩

/-- A sorted list of addresses has no repetition. -/
theorem nodup_of_sorted {ps : List Ptr}
    (h : ps.Pairwise fun p q => memberLess nodes p q = true) : ps.Nodup := by
  apply h.imp
  intro p q hpq
  rintro rfl
  rw [memberLess_irrefl] at hpq
  cases hpq

theorem memberLess_congr {nodes' : Store ZNode} (hp : nodes' p = nodes p)
    (hq : nodes' q = nodes q) : memberLess nodes' p q = memberLess nodes p q := by
  rw [memberLess, memberLess, hp, hq]

end RedisServer
