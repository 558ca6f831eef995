import RedisServer.MemberOrder
import RedisServer.AvlRep

/-!
# zset_query

The descent of `zset_query` follows child links only.  It keeps the last member it passed that is
not below the probe; in a tree sorted by `zless` the members below any probe come first, so that
this is the first of the others.

Results:
* `zsetQuery_spec` — what is returned when `name` fits behind the stack object `temp`;
* `zsetQuery_lowerBound_iff` — so `zset_query` is a lower bound exactly for these names.
-/

set_option autoImplicit false

namespace RedisServer

open Runs Trees BinaryTree

/-! ## Trees that can be searched -/

/-- The tree hangs together by its child links. -/
def ChildLinked (m : Links) : PTree → Prop
  | nil => True
  | node p l r => (∃ n, m p = some n ∧ n.left = root l ∧ n.right = root r) ∧
      ChildLinked m l ∧ ChildLinked m r

/-- `t` is the tree of the sorted set, strictly sorted by `zless`. -/
structure ZSet.Searchable (zset : ZSet) (t : PTree) : Prop where
  tree : zset.tree = root t
  linked : ChildLinked zset.links t
  sorted : (inorder t).Pairwise fun p q => memberLess zset.nodes p q = true
  stored : ∀ p ∈ inorder t, ∃ z, zset.nodes p = some z

/-- The member at this address is below `temp`. -/
def Below (nodes : Store ZNode) (temp : ZNode) (p : Ptr) : Prop :=
  ∃ z, nodes p = some z ∧ zless z temp = true

/-- `found` is the first of the members `ps` that is not below `temp`. -/
structure IsLowerBound (nodes : Store ZNode) (temp : ZNode) (ps : List Ptr) (found : Option Ptr) :
    Prop where
  first : ∀ p, found = some p → ∃ before after, ps = before ++ p :: after ∧
    ¬Below nodes temp p ∧ ∀ q ∈ before, Below nodes temp q
  null : found = none ↔ ∀ p ∈ ps, Below nodes temp p

/-- The member at this address is not below `temp`. -/
def reached (nodes : Store ZNode) (temp : ZNode) (p : Ptr) : Bool :=
  (nodes p).any fun z => !zless z temp

variable {lim : Limits} {zset : ZSet} {t : PTree} {temp : ZNode}

theorem reached_of {p : Ptr} {z : ZNode} (hz : zset.nodes p = some z) :
    reached zset.nodes temp p = !zless z temp := by
  rw [reached, hz, Option.any_some]

theorem reached_eq_false {p : Ptr} (hp : ∃ z, zset.nodes p = some z) :
    reached zset.nodes temp p = false ↔ Below zset.nodes temp p := by
  obtain ⟨z, hz⟩ := hp
  rw [reached_of hz, Bool.not_eq_false', Below]
  constructor
  · intro h
    exact ⟨z, hz, h⟩
  · rintro ⟨z', hz', h⟩
    cases hz.symm.trans hz'
    exact h

/-! ## The descent -/

theorem queryDescend_spec : ∀ {t : PTree} {found : Option Ptr} {fuel : Nat},
    ChildLinked zset.links t → (∀ p ∈ inorder t, ∃ z, zset.nodes p = some z) →
    t.height < fuel → queryDescend fuel zset temp (root t) found =
      .ok (lowerBound (reached zset.nodes temp) t found)
  | _, _, 0, _, _, hf => absurd hf (Nat.not_lt_zero _)
  | nil, _, _ + 1, _, _, _ => rfl
  | node p l r, found, fuel + 1, ⟨⟨n, hn, hleft, hright⟩, hl, hr⟩, hstored, hf => by
    obtain ⟨z, hz⟩ := hstored p (by simp)
    have hstl : ∀ q ∈ inorder l, ∃ z, zset.nodes q = some z := fun q hq => hstored q (by simp [hq])
    have hstr : ∀ q ∈ inorder r, ∃ z, zset.nodes q = some z := fun q hq => hstored q (by simp [hq])
    have hf : max l.height r.height < fuel := Nat.lt_of_succ_lt_succ hf
    rw [root_node, queryDescend, Store.read_of hn, ok_bind, Store.read_of hz, ok_bind, hleft,
      hright, lowerBound, reached_of hz]
    cases zless z temp with
    | true => exact queryDescend_spec hr hstr (by omega)
    | false => exact queryDescend_spec hl hstl (by omega)

/-- Behind a member that is not below `temp` all are not. -/
theorem reached_mono {p q : Ptr} (hpq : memberLess zset.nodes p q = true)
    (hp : reached zset.nodes temp p = true) : reached zset.nodes temp q = true := by
  obtain ⟨a, b, ha, hb, hab⟩ := memberLess_iff.mp hpq
  rw [reached_of hb]
  rw [reached_of ha] at hp
  cases hbt : zless b temp with
  | false => rfl
  | true =>
    rw [zless_trans hab hbt] at hp
    cases hp

/-- **`zset_query`** returns the smallest member that is not below the probe. -/
theorem zsetQuery_spec (h : zset.Searchable t) {score : Dbl} {name : Bytes}
    (hname : name.length ≤ lim.slack) (hfuel : t.height < lim.steps) :
    zsetQuery lim zset score name =
      .ok ((inorder t).find? (reached zset.nodes ⟨0, score, name⟩)) := by
  rw [zsetQuery, if_neg (Nat.not_lt.mpr hname), h.tree, queryDescend_spec h.linked h.stored hfuel,
    lowerBound_eq none (h.sorted.imp reached_mono), Option.or_none]

theorem isLowerBound_find? {ps : List Ptr} (h : ∀ p ∈ ps, ∃ z, zset.nodes p = some z) :
    IsLowerBound zset.nodes temp ps (ps.find? (reached zset.nodes temp)) where
  first p hp := by
    obtain ⟨hreach, before, after, hsplit, hbefore⟩ := List.find?_eq_some_iff_append.mp hp
    have hmem : ∀ q ∈ before ++ [p], ∃ z, zset.nodes q = some z := by
      intro q hq
      apply h q
      rw [hsplit]
      simp only [List.mem_append, List.mem_singleton] at hq
      rcases hq with hq | rfl <;> simp [*]
    refine ⟨before, after, hsplit, ?_, ?_⟩
    · intro hbelow
      rw [(reached_eq_false (hmem p (by simp))).mpr hbelow] at hreach
      cases hreach
    · intro q hq
      apply (reached_eq_false (hmem q (by simp [hq]))).mp
      simpa using hbefore q hq
  null := by
    rw [List.find?_eq_none]
    constructor
    · intro hall p hp
      apply (reached_eq_false (h p hp)).mp
      simpa using hall p hp
    · intro hall p hp
      rw [(reached_eq_false (h p hp)).mpr (hall p hp)]
      exact Bool.false_ne_true

/-- **`zset_query` is a lower bound** if and only if `name` fits behind `temp`. -/
theorem zsetQuery_lowerBound_iff (h : zset.Searchable t) (hfuel : t.height < lim.steps)
    (score : Dbl) (name : Bytes) :
    (∃ found, zsetQuery lim zset score name = .ok found ∧
      IsLowerBound zset.nodes ⟨0, score, name⟩ (inorder t) found) ↔ name.length ≤ lim.slack := by
  constructor
  · rintro ⟨found, hq, -⟩
    apply Nat.not_lt.mp
    intro hlong
    rw [zsetQuery, if_pos hlong] at hq
    cases hq
  · intro hname
    exact ⟨_, zsetQuery_spec h hname hfuel, isLowerBound_find? h.stored⟩

/-- A sorted set with the member `a`. -/
theorem exists_searchable : ∃ zset,
    zsetAdd ⟨64, 64⟩ {} (ascii "a") ⟨0x3FF0000000000000⟩ = .ok (zset, true) ∧
      zset.Searchable (node 0 nil nil) := by
  have hadd : ((zsetAdd ⟨64, 64⟩ {} (ascii "a") ⟨0x3FF0000000000000⟩).toOption.map fun r =>
      (r.2, r.1.tree, r.1.links 0, (r.1.nodes 0).isSome)) =
      some (true, some 0, some (cell nil nil none), true) := by decide +kernel
  obtain ⟨⟨zset, added⟩, hz, hadd⟩ := ok_of_map hadd
  simp only [Prod.mk.injEq] at hadd
  obtain ⟨rfl, htree, hlinks, hstored⟩ := hadd
  refine ⟨zset, hz, htree, ⟨⟨_, hlinks, rfl, rfl⟩, trivial, trivial⟩,
    List.pairwise_singleton _ _, ?_⟩
  intro p hp
  obtain rfl := List.mem_singleton.mp hp
  exact Option.isSome_iff_exists.mp hstored

/-- A sorted set with the members `a`, `b` and `c`, the last two with one score. -/
theorem exists_three_searchable : ∃ zset,
    (zsetAdd ⟨64, 64⟩ {} (ascii "a") ⟨0x3FF0000000000000⟩ >>= fun r =>
      zsetAdd ⟨64, 64⟩ r.1 (ascii "b") ⟨0x4000000000000000⟩ >>= fun r =>
        zsetAdd ⟨64, 64⟩ r.1 (ascii "c") ⟨0x4000000000000000⟩) = .ok (zset, true) ∧
      zset.Searchable (node 1 (node 0 nil nil) (node 2 nil nil)) := by
  have hadd : (zsetAdd ⟨64, 64⟩ {} (ascii "a") ⟨0x3FF0000000000000⟩ >>= fun r =>
      zsetAdd ⟨64, 64⟩ r.1 (ascii "b") ⟨0x4000000000000000⟩ >>= fun r =>
        zsetAdd ⟨64, 64⟩ r.1 (ascii "c") ⟨0x4000000000000000⟩).toOption.map (fun r =>
      (r.2, r.1.tree, [0, 1, 2].map r.1.links, [0, 1, 2].all fun p => (r.1.nodes p).isSome,
        decide ([0, 1, 2].Pairwise fun p q => memberLess r.1.nodes p q = true))) =
      some (true, some 1, [some (cell nil nil (some 1)),
        some (cell (node 0 nil nil) (node 2 nil nil) none), some (cell nil nil (some 1))], true,
        true) := by decide +kernel
  obtain ⟨⟨zset, added⟩, hz, hadd⟩ := ok_of_map hadd
  simp only [Prod.mk.injEq, decide_eq_true_eq, List.map_cons, List.map_nil, List.cons.injEq,
    and_true] at hadd
  obtain ⟨rfl, htree, ⟨h₀, h₁, h₂⟩, hstored, hsorted⟩ := hadd
  refine ⟨zset, hz, htree, ⟨⟨_, h₁, rfl, rfl⟩, ⟨⟨_, h₀, rfl, rfl⟩, trivial, trivial⟩,
    ⟨_, h₂, rfl, rfl⟩, trivial, trivial⟩, hsorted, ?_⟩
  intro p hp
  exact Option.isSome_iff_exists.mp (List.all_eq_true.mp hstored p hp)

/-- A probe between two members of one score. -/
theorem zsetQuery_lowerBound_between : ∃ zset,
    zsetQuery ⟨64, 64⟩ zset ⟨0x4000000000000000⟩ (ascii "bb") = .ok (some 2) ∧
      IsLowerBound zset.nodes ⟨0, ⟨0x4000000000000000⟩, ascii "bb"⟩ [0, 1, 2] (some 2) := by
  obtain ⟨zset, hadd, hz⟩ := exists_three_searchable
  obtain ⟨found, hq, hfound⟩ := (@zsetQuery_lowerBound_iff ⟨64, 64⟩ zset _ hz (by decide)
    ⟨0x4000000000000000⟩ (ascii "bb")).mpr (by decide)
  have hanswer : (zsetAdd ⟨64, 64⟩ {} (ascii "a") ⟨0x3FF0000000000000⟩ >>= fun r =>
      zsetAdd ⟨64, 64⟩ r.1 (ascii "b") ⟨0x4000000000000000⟩ >>= fun r =>
        zsetAdd ⟨64, 64⟩ r.1 (ascii "c") ⟨0x4000000000000000⟩).toOption.map (fun r =>
      (zsetQuery ⟨64, 64⟩ r.1 ⟨0x4000000000000000⟩ (ascii "bb")).toOption) = some (some (some 2)) := by
    decide +kernel
  rw [hadd] at hanswer
  cases hq.symm.trans (ok_of_toOption (Option.some.inj hanswer))
  exact ⟨zset, hq, hfound⟩

/-- `memcpy` runs over the end of what is behind `temp`. -/
theorem long_name_overruns_temp : ∃ zset,
    zsetAdd ⟨64, 64⟩ {} (ascii "a") ⟨0x3FF0000000000000⟩ = .ok (zset, true) ∧
      zset.Searchable (node 0 nil nil) ∧
      zsetQuery ⟨64, 64⟩ zset ⟨0⟩ (List.replicate 4000 97) = .error .outOfBounds ∧
      ¬∃ found, zsetQuery ⟨64, 64⟩ zset ⟨0⟩ (List.replicate 4000 97) = .ok found ∧
        IsLowerBound zset.nodes ⟨0, ⟨0⟩, List.replicate 4000 97⟩ (inorder (node 0 nil nil)) found := by
  obtain ⟨zset, hadd, hz⟩ := exists_searchable
  have herr : zsetQuery ⟨64, 64⟩ zset ⟨0⟩ (List.replicate 4000 97) = .error .outOfBounds := by
    rw [zsetQuery, if_pos (by rw [List.length_replicate]; decide)]
  refine ⟨zset, hadd, hz, herr, ?_⟩
  rintro ⟨found, hq, -⟩
  rw [herr] at hq
  cases hq

end RedisServer
