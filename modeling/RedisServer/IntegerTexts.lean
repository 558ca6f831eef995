import RedisServer.Numbers

/-!
# What str2int accepts

`str2int` lets a text through when `strtoll` sets no errno and stops at the end of the
`std::string`.  `IsIntText` is the grammar it is meant to check: white space, a sign, digits.

Results:
* `strtoll_intText` — `strtoll` reads an integer text as a whole;
* `str2int_eq_some` — `str2int` accepts the integer texts in range, and the empty string.
-/

set_option autoImplicit false

namespace RedisServer

/-- Optional white space, an optional sign and at least one digit, with value `v`. -/
def IsIntText (s : Bytes) (v : Int) : Prop :=
  ∃ ws sgn ds : Bytes, s = ws ++ (sgn ++ ds) ∧ (∀ b ∈ ws, isSpace b = true) ∧
    (sgn = [] ∨ sgn = [43] ∨ sgn = [45]) ∧ ds ≠ [] ∧ (∀ b ∈ ds, isDigit b = true) ∧
    v = if sgn = [45] then -(decimal ds : Int) else decimal ds

/-- Such a text of an `int64_t`. -/
def IsInt64Text (s : Bytes) (v : Int) : Prop := IsIntText s v ∧ -2 ^ 63 ≤ v ∧ v < 2 ^ 63

theorem takeWhile_append_stop {p : UInt8 → Bool} {s t : Bytes} (hs : ∀ b ∈ s, p b = true)
    (ht : ∀ b ∈ t.head?, p b = false) : (s ++ t).takeWhile p = s := by
  rw [List.takeWhile_append_of_pos hs]
  cases t with
  | nil => rw [List.takeWhile_nil, List.append_nil]
  | cons b t =>
    rw [List.takeWhile_cons_of_neg (by simp [ht b rfl]), List.append_nil]

theorem isDigit_iff {b : UInt8} : isDigit b = true ↔ 48 ≤ b.toNat ∧ b.toNat ≤ 57 := by
  simp [isDigit, UInt8.le_iff_toNat_le]

theorem isSpace_iff {b : UInt8} : isSpace b = true ↔ b.toNat = 32 ∨ 9 ≤ b.toNat ∧ b.toNat ≤ 13 := by
  simp [isSpace, UInt8.le_iff_toNat_le, ← UInt8.toNat_inj]

/-- The sign of a text that goes on with a digit. -/
theorem sign_append {sgn ds : Bytes} (hsgn : sgn = [] ∨ sgn = [43] ∨ sgn = [45]) (hne : ds ≠ [])
    (hds : ∀ b ∈ ds, isDigit b = true) :
    sign (sgn ++ ds) = (decide (sgn = [45]), sgn.length) := by
  cases ds with
  | nil => exact absurd rfl hne
  | cons d ds =>
    have hd := isDigit_iff.mp (hds d List.mem_cons_self)
    rcases hsgn with rfl | rfl | rfl
    · rw [List.nil_append]
      unfold sign
      split
      · rename_i h
        cases h
        exact absurd hd (by decide)
      · rename_i h
        cases h
        exact absurd hd (by decide)
      · rfl
    · rfl
    · rfl

/-- The sign in front of any text. -/
theorem sign_split (t : Bytes) : ∃ sgn rest : Bytes, t = sgn ++ rest ∧
    (sgn = [] ∨ sgn = [43] ∨ sgn = [45]) ∧ sign t = (decide (sgn = [45]), sgn.length) := by
  unfold sign
  split
  · exact ⟨[45], _, rfl, .inr (.inr rfl), rfl⟩
  · exact ⟨[43], _, rfl, .inr (.inl rfl), rfl⟩
  · exact ⟨[], t, rfl, .inl rfl, rfl⟩

/-- A text without NUL is its own C string. -/
theorem cStr_of_noNul {s : Bytes} (h : ∀ b ∈ s, b ≠ 0) : cStr s = s :=
  List.takeWhile_eq_self_iff.mpr fun b hb => decide_eq_true (h b hb)

theorem cStr_eq_of_length {s : Bytes} (h : s.length ≤ (cStr s).length) : cStr s = s :=
  (List.takeWhile_prefix _).eq_of_length_le h

/-- **`strtoll` reads an integer text as a whole.** -/
theorem strtoll_intText {s : Bytes} {v : Int} (h : IsIntText s v) :
    strtoll s = if v < -2 ^ 63 then ⟨-2 ^ 63, s.length, true⟩
      else if 2 ^ 63 ≤ v then ⟨2 ^ 63 - 1, s.length, true⟩ else ⟨v, s.length, false⟩ := by
  obtain ⟨ws, sgn, ds, rfl, hws, hsgn, hne, hds, rfl⟩ := h
  have hsgn0 : ∀ b ∈ sgn, b = 43 ∨ b = 45 := by
    rcases hsgn with rfl | rfl | rfl <;> simp
  have hnul : cStr (ws ++ (sgn ++ ds)) = ws ++ (sgn ++ ds) := by
    apply cStr_of_noNul
    intro b hb
    rintro rfl
    rcases List.mem_append.mp hb with hb | hb
    · exact absurd (hws 0 hb) (by decide)
    rcases List.mem_append.mp hb with hb | hb
    · exact absurd (hsgn0 0 hb) (by decide)
    · exact absurd (hds 0 hb) (by decide)
  have hhead : ∀ b ∈ (sgn ++ ds).head?, isSpace b = false := by
    intro b hb
    rcases List.mem_append.mp (List.mem_of_mem_head? hb) with hb | hb
    · rcases hsgn0 b hb with rfl | rfl <;> rfl
    · have hd := isDigit_iff.mp (hds b hb)
      rw [← Bool.not_eq_true, isSpace_iff]
      omega
  have hspace : (ws ++ (sgn ++ ds)).takeWhile isSpace = ws := takeWhile_append_stop hws hhead
  have hdigits : ds.takeWhile isDigit = ds := List.takeWhile_eq_self_iff.mpr hds
  have hdrop : (ws ++ (sgn ++ ds)).drop (ws.length + sgn.length) = ds := by
    rw [← List.append_assoc, ← List.length_append, List.drop_left]
  have hlen : (ws ++ (sgn ++ ds)).length = ws.length + sgn.length + ds.length := by
    rw [List.length_append, List.length_append, Nat.add_assoc]
  simp only [strtoll, hnul, hspace, List.drop_left, sign_append hsgn hne hds, hdrop, hdigits,
    if_neg hne, hlen, decide_eq_true_eq]

theorem clamped_stop (v : Int) (k : Nat) : (if v < -2 ^ 63 then (⟨-2 ^ 63, k, true⟩ : Strtoll)
    else if 2 ^ 63 ≤ v then ⟨2 ^ 63 - 1, k, true⟩ else ⟨v, k, false⟩).stop = k := by
  split
  · rfl
  · split <;> rfl

theorem takeWhile_append_drop (p : UInt8 → Bool) (s : Bytes) :
    s.takeWhile p ++ s.drop (s.takeWhile p).length = s :=
  List.prefix_iff_eq_append.mp (List.takeWhile_prefix p)

/-- A text that `strtoll` converts up to its end is an integer text. -/
theorem intText_of_strtoll {s : Bytes} (hs : s ≠ []) (h : (strtoll s).stop = s.length) :
    ∃ v, IsIntText s v := by
  have hpos : 0 < s.length := List.length_pos_iff.mpr hs
  obtain ⟨ws, hws⟩ : ∃ ws, ws = (cStr s).takeWhile isSpace := ⟨_, rfl⟩
  obtain ⟨sgn, rest, hrest, hsgn, hsign⟩ := sign_split ((cStr s).drop ws.length)
  obtain ⟨ds, hds⟩ : ∃ ds, ds = rest.takeWhile isDigit := ⟨_, rfl⟩
  have hc : cStr s = ws ++ (sgn ++ rest) := by
    rw [← hrest, hws, takeWhile_append_drop]
  have hdrop : (cStr s).drop (ws.length + sgn.length) = rest := by
    rw [hc, ← List.append_assoc, ← List.length_append, List.drop_left]
  have htail : rest = ds ++ rest.drop ds.length := by
    rw [hds, takeWhile_append_drop]
  simp only [strtoll, ← hws, hsign, hdrop, ← hds] at h
  by_cases hne : ds = []
  · rw [if_pos hne] at h
    exact absurd h hpos.ne
  rw [if_neg hne] at h
  have hstop : ws.length + sgn.length + ds.length = s.length := (clamped_stop _ _).symm.trans h
  have hlen := congrArg List.length hc
  rw [List.length_append, List.length_append] at hlen
  have htlen := congrArg List.length htail
  rw [List.length_append] at htlen
  -- nothing is left behind the digits, and no NUL was met
  have hself : cStr s = s := cStr_eq_of_length (by omega)
  have hnil : rest.drop ds.length = [] := by
    have := (List.takeWhile_prefix (l := s) (fun b => decide (b ≠ 0))).length_le
    have hle : (cStr s).length ≤ s.length := this
    exact List.eq_nil_of_length_eq_zero (by omega)
  rw [hnil, List.append_nil] at htail
  rw [hself, htail] at hc
  refine ⟨_, ws, sgn, ds, hc, ?_, hsgn, hne, ?_, rfl⟩
  · intro b hb
    rw [hws] at hb
    exact List.mem_takeWhile_imp hb
  · intro b hb
    rw [hds] at hb
    exact List.mem_takeWhile_imp hb

/-- **`str2int` accepts the integer texts in range**, with their value, and the empty string. -/
theorem str2int_eq_some {s : Bytes} {v : Int} :
    str2int s = some v ↔ IsInt64Text s v ∨ s = [] ∧ v = 0 := by
  constructor
  · intro h
    unfold str2int at h
    dsimp only at h
    split at h
    · cases h
    rename_i hcond
    rw [Bool.or_eq_true, not_or, decide_eq_true_eq, not_not] at hcond
    obtain ⟨hrange, hstop⟩ := hcond
    by_cases hs : s = []
    · subst hs
      exact .inr ⟨rfl, (Option.some.inj h).symm⟩
    obtain ⟨w, hw⟩ := intText_of_strtoll hs hstop
    have hread := strtoll_intText hw
    refine .inl ?_
    split at hread
    · rw [hread] at hrange
      exact absurd rfl hrange
    rename_i hmin
    split at hread
    · rw [hread] at hrange
      exact absurd rfl hrange
    rename_i hmax
    rw [hread] at h
    obtain rfl := Option.some.inj h
    exact ⟨hw, Int.not_lt.mp hmin, Int.not_le.mp hmax⟩
  · rintro (⟨htext, hmin, hmax⟩ | ⟨rfl, rfl⟩)
    · have hread := strtoll_intText htext
      rw [if_neg (by omega), if_neg (by omega)] at hread
      simp [str2int, hread]
    · rfl

theorem not_isInt64Text_nil {v : Int} : ¬IsInt64Text [] v := by
  rintro ⟨⟨ws, sgn, ds, h, -, -, hne, -, -⟩, -⟩
  have hnil := List.append_eq_nil_iff.mp (List.append_eq_nil_iff.mp h.symm).2
  exact hne hnil.2

end RedisServer
