import RedisServer.SortedSetRuns

/-!
# The scores of a sorted set

`zset_add`, `zset_lookup` and `zset_pop` find a member through the hash map alone, so what they
answer does not depend on the state of the tree.  `ZSet.scores` is the map from names to scores that
the hash map stands for, `ZSet.Keyed` what it rests on.  No calmness is needed here: the map stays
right when a rotation has cut members off the tree, and also when a score is not a number.

* `zsetLookup_scores` — a lookup finds the score of the name;
* `zsetAdd_scores` — an addition sets it, unless the new score is `==` the old one;
* `zsetPop_scores` — a pop that returns has found nothing;
* `zsetPop_exact_iff` — so `zset_pop` works for the names that are missing, and for no other.
-/

set_option autoImplicit false

namespace RedisServer

open Runs

/-- What a sorted set is for. -/
abbrev Scores := Bytes → Option Dbl

namespace Scores

def empty : Scores := fun _ => none

/-- A score that is equal as a `double` is not written: `-0` does not replace `0`. -/
def add (m : Scores) (name : Bytes) (score : Dbl) : Scores :=
  match m name with
  | none => Function.update m name (some score)
  | some old => if old.eq score then m else Function.update m name (some score)

end Scores

/-- The score that the member found by `name` has. -/
def ZSet.scores (zset : ZSet) : Scores := fun name =>
  ((zset.find name).bind zset.nodes).map ZNode.score

/-- Every name has at most one member, and without a root there is none. -/
structure ZSet.Keyed (zset : ZSet) : Prop extends ZSet.Indexed zset where
  named : ∀ n ∈ zset.hmap.order, ∀ n' ∈ zset.hmap.order, ∀ name,
    hasName zset.nodes name n = true → hasName zset.nodes name n' = true → n = n'
  rooted : zset.tree = none → zset.hmap.order = []

variable {lim : Limits} {zset zset' : ZSet} {name : Bytes} {score : Dbl} {p : Ptr}

theorem ZSet.Keyed.empty : ZSet.Keyed {} where
  toIndexed := .empty
  named n hn := by cases hn
  rooted _ := rfl

theorem ZSet.Keyed.find_eq_some (h : zset.Keyed) : zset.find name = some p ↔
    ∃ n ∈ zset.hmap.order, n.ptr = p ∧ hasName zset.nodes name n = true := by
  unfold ZSet.find
  rw [Option.map_eq_some_iff]
  constructor
  · rintro ⟨n, hn, rfl⟩
    exact ⟨n, List.mem_of_find?_eq_some hn, rfl, List.find?_some hn⟩
  · rintro ⟨n, hn, rfl, hname⟩
    cases hf : zset.hmap.order.find? (hasName zset.nodes name) with
    | none => exact absurd hname (List.find?_eq_none.mp hf n hn)
    | some n' =>
      have heq := h.named n' (List.mem_of_find?_eq_some hf) n hn name (List.find?_some hf) hname
      exact ⟨n', rfl, congrArg HNode.ptr heq⟩

theorem ZSet.Keyed.scores_eq_some (h : zset.Keyed) : zset.scores name = some score ↔
    ∃ n ∈ zset.hmap.order, ∃ z, zset.nodes n.ptr = some z ∧ z.name = name ∧ z.score = score := by
  unfold ZSet.scores
  simp only [Option.map_eq_some_iff, Option.bind_eq_some_iff, h.find_eq_some]
  constructor
  · rintro ⟨z, ⟨p, ⟨n, hn, rfl, hname⟩, hz⟩, rfl⟩
    exact ⟨n, hn, z, hz, (hasName_of hz).mp hname, rfl⟩
  · rintro ⟨n, hn, z, hz, rfl, rfl⟩
    exact ⟨z, ⟨n.ptr, ⟨n, hn, rfl, (hasName_of hz).mpr rfl⟩, hz⟩, rfl⟩

/-- The scores are those of the linked members. -/
theorem ZSet.Keyed.scores_congr (h : zset.Keyed) (h' : zset'.Keyed)
    (hmem : ∀ n, n ∈ zset'.hmap.order ↔ n ∈ zset.hmap.order)
    (hnodes : ∀ n ∈ zset.hmap.order, zset'.nodes n.ptr = zset.nodes n.ptr) :
    zset'.scores = zset.scores := by
  funext name
  apply Option.ext
  intro score
  rw [h'.scores_eq_some, h.scores_eq_some]
  constructor
  · rintro ⟨n, hn, z, hz, hrest⟩
    exact ⟨n, (hmem n).mp hn, z, hnodes n ((hmem n).mp hn) ▸ hz, hrest⟩
  · rintro ⟨n, hn, z, hz, hrest⟩
    exact ⟨n, (hmem n).mpr hn, z, (hnodes n hn).trans hz, hrest⟩

/-! ## Lookups -/

/-- A change of the hash map that keeps its nodes. -/
theorem ZSet.Keyed.rehash {hmap : HMap} (h : zset.Keyed) (hs : hmap.Shape)
    (hp : hmap.order.Perm zset.hmap.order) : ZSet.Keyed { zset with hmap := hmap } where
  shape := hs
  node n hn := h.node n (hp.mem_iff.mp hn)
  fresh n hn := h.fresh n (hp.mem_iff.mp hn)
  named n hn n' hn' := h.named n (hp.mem_iff.mp hn) n' (hp.mem_iff.mp hn')
  rooted ht := by
    have hnil := hp
    rw [h.rooted ht] at hnil
    exact hnil.eq_nil

/-- **`zset_lookup`** finds the member of the name. -/
theorem zsetLookup_scores (h : zset.Keyed) {r : Option Ptr}
    (hl : zsetLookup zset name = .ok (zset', r)) : r = zset.find name ∧ zset'.Keyed ∧
      zset' = { zset with hmap := zset'.hmap } ∧ zset'.hmap.order.Perm zset.hmap.order ∧
      zset'.scores = zset.scores := by
  have hlu := zsetLookup_spec h.toIndexed hl
  have h' : zset'.Keyed := by
    rw [hlu.eq]
    exact h.rehash hlu.shape hlu.perm
  refine ⟨?_, h', hlu.eq, hlu.perm, h.scores_congr h' (fun _ => hlu.perm.mem_iff) ?_⟩
  · cases r with
    | some p =>
      obtain ⟨n, hn, hp, hname⟩ := hlu.found p rfl
      exact (h.find_eq_some.mpr ⟨n, hn, hp, hname⟩).symm
    | none =>
      rw [eq_comm, Option.eq_none_iff_forall_ne_some]
      intro p hp
      obtain ⟨n, hn, -, hname⟩ := h.find_eq_some.mp hp
      rcases hlu.missing rfl with htree | hno
      · rw [h.rooted htree] at hn
        cases hn
      · rw [hno n hn] at hname
        cases hname
  · intro n _
    rw [hlu.eq]

/-- The member found has the score. -/
theorem ZSet.Keyed.found (h : zset.Keyed) (hf : zset.find name = some p) :
    ∃ n ∈ zset.hmap.order, ∃ z, n.ptr = p ∧ zset.nodes p = some z ∧ z.name = name ∧
      zset.scores name = some z.score := by
  obtain ⟨n, hn, rfl, hname⟩ := h.find_eq_some.mp hf
  obtain ⟨z, hz, -⟩ := h.node n hn
  have hname := (hasName_of hz).mp hname
  exact ⟨n, hn, z, rfl, hz, hname, h.scores_eq_some.mpr ⟨n, hn, z, hz, hname, rfl⟩⟩

theorem ZSet.scores_missing (hf : zset.find name = none) : zset.scores name = none := by
  rw [ZSet.scores, hf]
  rfl

/-! ## zset_add -/

/-- The scores after the member at `n` was linked or changed, and no other one. -/
theorem ZSet.Keyed.scores_set {n : HNode} {z : ZNode} (h : zset.Keyed) (h' : zset'.Keyed)
    (hn : n ∈ zset'.hmap.order) (hz : zset'.nodes n.ptr = some z)
    (hmem : ∀ m : HNode, m.ptr ≠ n.ptr → (m ∈ zset'.hmap.order ↔ m ∈ zset.hmap.order))
    (hnodes : ∀ p, p ≠ n.ptr → zset'.nodes p = zset.nodes p)
    (hold : ∀ m ∈ zset.hmap.order, m.ptr = n.ptr → ∀ a, zset.nodes m.ptr = some a →
      a.name = z.name) : zset'.scores = Function.update zset.scores z.name (some z.score) := by
  funext name
  apply Option.ext
  intro s
  rw [h'.scores_eq_some]
  by_cases hname : name = z.name
  · subst hname
    rw [Function.update_self, Option.some.injEq]
    constructor
    · rintro ⟨m, hm, a, ha, haname, rfl⟩
      have hmn : m = n :=
        h'.named m hm n hn z.name ((hasName_of ha).mpr haname) ((hasName_of hz).mpr rfl)
      rw [hmn, hz] at ha
      cases ha
      rfl
    · rintro rfl
      exact ⟨n, hn, z, hz, rfl, rfl⟩
  · rw [Function.update_of_ne hname, h.scores_eq_some]
    constructor
    · rintro ⟨m, hm, a, ha, rfl, rfl⟩
      have hne : m.ptr ≠ n.ptr := by
        intro hp
        rw [hp, hz] at ha
        cases ha
        exact hname rfl
      exact ⟨m, (hmem m hne).mp hm, a, (hnodes _ hne).symm.trans ha, rfl, rfl⟩
    · rintro ⟨m, hm, a, ha, rfl, rfl⟩
      have hne : m.ptr ≠ n.ptr := fun hp => hname (hold m hm hp a ha)
      exact ⟨m, (hmem m hne).mpr hm, a, (hnodes _ hne).trans ha, rfl, rfl⟩

/-- The member at a linked node is given another score, whatever becomes of the tree. -/
theorem ZSet.Keyed.rescore {n : HNode} {z : ZNode} (h : zset.Keyed) (score : Dbl)
    (hn : n ∈ zset.hmap.order) (hz : zset.nodes n.ptr = some z)
    (links : Links) (root : Ptr) (hzset : zset' = { zset with
      tree := some root
      links := links
      nodes := zset.nodes.write n.ptr { z with score := score } }) :
    zset'.Keyed ∧ zset'.scores = Function.update zset.scores z.name (some score) := by
  have hmap : zset'.hmap = zset.hmap := by rw [hzset]
  have hself : zset'.nodes n.ptr = some { z with score := score } := by
    rw [hzset]
    exact Store.write_self _ _ _
  have hother : ∀ p, p ≠ n.ptr → zset'.nodes p = zset.nodes p := by
    intro p hp
    rw [hzset]
    exact Store.write_of_ne _ _ hp
  have hnames : ∀ name m, hasName zset'.nodes name m = hasName zset.nodes name m := by
    intro name m
    unfold hasName
    by_cases hm : m.ptr = n.ptr
    · rw [hm, hself, hz]
    · rw [hother m.ptr hm]
  have h' : zset'.Keyed :=
    { toIndexed := h.toIndexed.congr hmap (by rw [hzset]) fun q a ha => by
        by_cases hq : q = n.ptr
        · subst hq
          cases hz.symm.trans ha
          exact ⟨_, hself, rfl, rfl⟩
        · exact ⟨a, (hother q hq).trans ha, rfl, rfl⟩
      named := by
        intro m hm m' hm' name hname hname'
        rw [hnames] at hname hname'
        exact h.named m (hmap ▸ hm) m' (hmap ▸ hm') name hname hname'
      rooted := by
        rw [hzset]
        intro ht
        cases ht }
  refine ⟨h', h.scores_set h' (hmap.symm ▸ hn) hself (fun m _ => by rw [hmap]) hother ?_⟩
  intro m _ hp a ha
  rw [hp, hz] at ha
  cases ha
  rfl

/-- A new member is linked, whatever becomes of the tree. -/
theorem ZSet.Keyed.insert {hmap : HMap} (h : zset.Keyed) (score : Dbl)
    (hnew : zset.find name = none) (hs : hmap.Shape)
    (hperm : hmap.order.Perm (⟨zset.next, (znodeNew name score).hcode⟩ :: zset.hmap.order))
    (links : Links) (root : Ptr)
    (hzset : zset' = { zset with
      tree := some root
      hmap := hmap
      links := links
      nodes := zset.nodes.write zset.next (znodeNew name score)
      next := zset.next + 1 }) :
    zset'.Keyed ∧ zset'.scores = Function.update zset.scores name (some score) := by
  have hmap' : ∀ m, m ∈ zset'.hmap.order ↔
      m = ⟨zset.next, (znodeNew name score).hcode⟩ ∨ m ∈ zset.hmap.order := by
    intro m
    rw [hzset]
    exact hperm.mem_iff.trans List.mem_cons
  have hself : zset'.nodes zset.next = some (znodeNew name score) := by
    rw [hzset]
    exact Store.write_self _ _ _
  have hother : ∀ p, p ≠ zset.next → zset'.nodes p = zset.nodes p := by
    intro p hp
    rw [hzset]
    exact Store.write_of_ne _ _ hp
  have hold : ∀ m ∈ zset.hmap.order, m.ptr ≠ zset.next := fun m hm => Nat.ne_of_lt (h.fresh m hm)
  -- an old member has not the new name
  have hapart : ∀ m ∈ zset.hmap.order, ∀ name',
      hasName zset'.nodes name' ⟨zset.next, (znodeNew name score).hcode⟩ = true →
      hasName zset'.nodes name' m = true → False := by
    intro m hm name' hn hm'
    have hname := (hasName_of (n := ⟨zset.next, (znodeNew name score).hcode⟩) hself).mp hn
    rw [hasName, hother _ (hold m hm), ← hname] at hm'
    have hfound : zset.find name = some m.ptr := h.find_eq_some.mpr ⟨m, hm, rfl, hm'⟩
    rw [hfound] at hnew
    cases hnew
  have h' : zset'.Keyed :=
    { toIndexed := by
        rw [hzset]
        exact (h.toIndexed.insert (z := znodeNew name score) rfl hperm hs links).congr rfl rfl
          fun p z hz => ⟨z, hz, rfl, rfl⟩
      named := by
        intro m hm m' hm' name' hname hname'
        rcases (hmap' m).mp hm with rfl | hm <;> rcases (hmap' m').mp hm' with rfl | hm'
        · rfl
        · exact (hapart m' hm' name' hname hname').elim
        · exact (hapart m hm name' hname' hname).elim
        · rw [hasName, hother _ (hold m hm)] at hname
          rw [hasName, hother _ (hold m' hm')] at hname'
          exact h.named m hm m' hm' name' hname hname'
      rooted := by
        rw [hzset]
        intro ht
        cases ht }
  refine ⟨h', h.scores_set (n := ⟨zset.next, (znodeNew name score).hcode⟩) h'
    ((hmap' _).mpr (.inl rfl)) hself ?_ hother fun m hm hp => absurd hp (hold m hm)⟩
  intro m hm
  rw [hmap']
  exact or_iff_right fun heq => hm (congrArg HNode.ptr heq)

/-- **`zset_add`** sets the score of the name, and answers whether the name is new. -/
theorem zsetAdd_scores {b : Bool} (h : zset.Keyed)
    (ha : zsetAdd lim zset name score = .ok (zset', b)) : zset'.Keyed ∧
      zset'.scores = zset.scores.add name score ∧ b = (zset.scores name).isNone := by
  obtain ⟨⟨zset₁, found⟩, hl, ha⟩ := bind_ok.mp ha
  obtain ⟨rfl, h₁, heq, hperm, hscores⟩ := zsetLookup_scores h hl
  have hnodes : zset₁.nodes = zset.nodes := by rw [heq]
  have hsame : zset₁.find name = zset.find name := by
    apply Option.ext
    intro p
    rw [h₁.find_eq_some, h.find_eq_some, hnodes]
    exact exists_congr fun n => and_congr_left' hperm.mem_iff
  rw [← hsame] at ha
  rw [← hscores]
  unfold Scores.add
  cases hf : zset₁.find name with
  | some p =>
    rw [hf] at ha
    obtain ⟨zset₂, hu, ha⟩ := bind_ok.mp ha
    cases ha
    obtain ⟨n, hn, z, rfl, hz, rfl, hs⟩ := h₁.found hf
    obtain ⟨z', hz', hu⟩ := bind_ok.mp hu
    cases hz.symm.trans (Store.read_ok.mp hz')
    rw [hs]
    dsimp only
    split at hu
    · rename_i hsc
      cases hu
      rw [if_pos hsc]
      exact ⟨h₁, rfl, rfl⟩
    · rename_i hsc
      obtain ⟨⟨m, tree⟩, -, hu⟩ := bind_ok.mp hu
      obtain ⟨m', root, rfl⟩ := treeAdd_frame hu
      obtain ⟨h₂, hset⟩ := h₁.rescore score hn hz m' root rfl
      rw [if_neg hsc]
      exact ⟨h₂, hset, rfl⟩
  | none =>
    rw [hf] at ha
    obtain ⟨hmap, hins, ha⟩ := bind_ok.mp ha
    obtain ⟨m₁, k, -, hlink, hk⟩ := hmInsert_spec h₁.shape h₁.notMem_next hins
    obtain ⟨zset₂, hadd, ha⟩ := bind_ok.mp ha
    cases ha
    obtain ⟨m, root, rfl⟩ := treeAdd_frame hadd
    obtain ⟨h₂, hset⟩ := h₁.insert score hf hk.shape (hk.perm.trans hlink.perm) m root rfl
    rw [ZSet.scores_missing hf]
    exact ⟨h₂, hset, rfl⟩

/-- **`zset_pop`** returns for a missing name only, and changes no score. -/
theorem zsetPop_scores (h : zset.Keyed) {r : Option Ptr}
    (hp : zsetPop lim zset name = .ok (zset', r)) : r = none ∧ zset.scores name = none ∧
      zset'.Keyed ∧ zset'.scores = zset.scores := by
  obtain ⟨rfl, hl⟩ := zsetPop_ok h.toIndexed hp
  obtain ⟨hf, h', -, -, hscores⟩ := zsetLookup_scores h hl
  exact ⟨rfl, ZSet.scores_missing hf.symm, h', hscores⟩

/-! ## What zset_pop is for -/

theorem zsetStep_keyed (op : ZOp) (h : zset.Keyed) (hs : zsetStep lim zset op = .ok zset') :
    zset'.Keyed := by
  cases op with
  | add name score =>
    obtain ⟨⟨z, b⟩, ha, hs⟩ := bind_ok.mp hs
    cases hs
    exact (zsetAdd_scores h ha).1
  | pop name =>
    obtain ⟨⟨z, r⟩, hp, hs⟩ := bind_ok.mp hs
    cases hs
    exact (zsetPop_scores h hp).2.2.1

/-- What `zset_lookup` answers. -/
def ZSet.answer (zset : ZSet) (name : Bytes) : Res (Option Ptr) :=
  (zsetLookup zset name).map Prod.snd

theorem ZSet.Keyed.answer (h : zset.Keyed) (hx : zset.hmap.Exact) (name : Bytes) :
    zset.answer name = .ok (zset.find name) := by
  obtain ⟨⟨zset', r⟩, hl⟩ := zsetLookup_total h.toIndexed hx name
  rw [ZSet.answer, hl, (zsetLookup_scores h hl).1]
  rfl

/-- `p` is the member called `name`. -/
def ZSet.IsMember (zset : ZSet) (name : Bytes) (p : Ptr) : Prop :=
  ∃ n ∈ zset.hmap.order, n.ptr = p ∧ hasName zset.nodes name n = true

/-- `zset_pop` works: if `name` is a member, it returns its node, and unlinks it and no other from
the index; else it returns NULL and unlinks nothing.  Lookups of the other names are as before, and
`hm_delete` compares members only with a comparator for members. -/
structure PopsExactly (lim : Limits) (zset : ZSet) (name : Bytes) : Prop where
  member : ∀ p, zset.IsMember name p → ∃ zset', zsetPop lim zset name = .ok (zset', some p) ∧
    (zset'.hmap.order.map HNode.ptr).Perm ((zset.hmap.order.map HNode.ptr).erase p) ∧
    ∀ other, other ≠ name → zset'.answer other = zset.answer other
  missing : (∀ p, ¬zset.IsMember name p) → ∃ zset', zsetPop lim zset name = .ok (zset', none) ∧
    (zset'.hmap.order.map HNode.ptr).Perm (zset.hmap.order.map HNode.ptr) ∧
    ∀ other, zset'.answer other = zset.answer other
  comparator : zsetPop lim zset name ≠ .error .typeConfusion

/-- Popping a name that is no member. -/
theorem zsetPop_missing (h : zset.Keyed) (hx : zset.hmap.Exact)
    (hno : ∀ p, ¬zset.IsMember name p) : ∃ zset', zsetPop lim zset name = .ok (zset', none) ∧
      (zset'.hmap.order.map HNode.ptr).Perm (zset.hmap.order.map HNode.ptr) ∧
      ∀ other, zset'.answer other = zset.answer other := by
  obtain ⟨⟨zset', r⟩, hl⟩ := zsetLookup_total h.toIndexed hx name
  obtain ⟨hr, h', heq, hperm, -⟩ := zsetLookup_scores h hl
  have hnone : r = none := by
    rw [hr, Option.eq_none_iff_forall_ne_some]
    exact fun p hp => hno p (h.find_eq_some.mp hp)
  have hx' := (zsetLookup_spec h.toIndexed hl).exact hx
  refine ⟨zset', ?_, hperm.map _, ?_⟩
  · rw [zsetPop, hl, hnone]
    rfl
  · intro other
    rw [h'.answer hx', h.answer hx]
    congr 1
    apply Option.ext
    intro p
    rw [h'.find_eq_some, h.find_eq_some]
    refine exists_congr fun n => and_congr hperm.mem_iff ?_
    rw [heq]

/-- **`zset_pop` does what it is for** if and only if the name is no member: for every sorted set
that calls of `zset_add` and `zset_pop` lead to. -/
theorem zsetPop_exact_iff {ops : List ZOp} (h : run (zsetStep lim) {} ops = .ok zset)
    (name : Bytes) : PopsExactly lim zset name ↔ ∀ p, ¬zset.IsMember name p := by
  obtain ⟨hk, hx⟩ : zset.Keyed ∧ zset.hmap.Exact :=
    run_invariant_all (I := fun zset => zset.Keyed ∧ zset.hmap.Exact)
      (fun _ op _ hi hs => ⟨zsetStep_keyed op hi.1 hs, zsetStep_exact op hi.1.toIndexed hi.2 hs⟩)
      ⟨.empty, HMap.exact_empty⟩ h
  constructor
  · intro hpop p hp
    obtain ⟨zset', hok, -⟩ := hpop.member p hp
    cases (zsetPop_ok hk.toIndexed hok).1
  · intro hno
    refine ⟨fun p hp => absurd hp (hno p), fun _ => zsetPop_missing hk hx hno, ?_⟩
    obtain ⟨zset', hok⟩ : ∃ zset', zsetPop lim zset name = .ok (zset', none) :=
      (zsetPop_missing hk hx hno).imp fun _ h => h.1
    rw [hok]
    intro hc
    cases hc

/-- Three members, one of them with another score in the meantime: a fourth name is popped. -/
theorem zsetPop_exact_fourth : ∃ zset,
    run (zsetStep ⟨9, 0⟩) {} [.add (ascii "a") ⟨0⟩, .add (ascii "b") ⟨1⟩, .add (ascii "c") ⟨2⟩,
      .add (ascii "a") ⟨3⟩] = .ok zset ∧ zset.hmap.order.length = 3 ∧
      PopsExactly ⟨9, 0⟩ zset (ascii "d") := by
  have hfacts : (run (zsetStep ⟨9, 0⟩) {} [.add (ascii "a") ⟨0⟩, .add (ascii "b") ⟨1⟩,
      .add (ascii "c") ⟨2⟩, .add (ascii "a") ⟨3⟩]).toOption.map
        (fun z => (z.hmap.order.length,
          z.hmap.order.all fun n => !hasName z.nodes (ascii "d") n)) = some (3, true) := by
    decide +kernel
  obtain ⟨zset, h, hfacts⟩ := ok_of_map hfacts
  obtain ⟨hlen, hall⟩ := Prod.mk.inj hfacts
  refine ⟨zset, h, hlen, (zsetPop_exact_iff h (ascii "d")).mpr ?_⟩
  rintro p ⟨n, hn, -, hname⟩
  have hno := List.all_eq_true.mp hall n hn
  rw [hname] at hno
  cases hno

/-- Popping the only member reads the `key` of an `Entry` that is not there. -/
theorem zsetPop_single_member :
    ∃ zset, run (zsetStep ⟨9, 0⟩) {} [.add (ascii "a") ⟨0⟩] = .ok zset ∧
      zset.IsMember (ascii "a") 0 ∧ zsetPop ⟨9, 0⟩ zset (ascii "a") = .error .typeConfusion ∧
      ¬PopsExactly ⟨9, 0⟩ zset (ascii "a") := by
  have hfacts : (run (zsetStep ⟨9, 0⟩) {} [.add (ascii "a") ⟨0⟩]).toOption.map
      (fun z => (z.hmap.order.map fun n => (n.ptr, hasName z.nodes (ascii "a") n),
        match zsetPop ⟨9, 0⟩ z (ascii "a") with | .error f => some f | .ok _ => none)) =
      some ([(0, true)], some .typeConfusion) := by decide +kernel
  obtain ⟨zset, h, hfacts⟩ := ok_of_map hfacts
  obtain ⟨hmap, hpop⟩ := Prod.mk.inj hfacts
  have hmember : zset.IsMember (ascii "a") 0 := by
    obtain ⟨n, hn, heq⟩ := List.mem_map.mp (hmap ▸ List.mem_singleton_self (0, true))
    obtain ⟨hp, hname⟩ := Prod.mk.inj heq
    exact ⟨n, hn, hp, hname⟩
  have hfault : zsetPop ⟨9, 0⟩ zset (ascii "a") = .error .typeConfusion := by
    split at hpop
    · rename_i f hf
      rw [hf, Option.some.inj hpop]
    · cases hpop
  exact ⟨zset, h, hmember, hfault, fun hpop => hpop.comparator hfault⟩

end RedisServer
