import RedisServer.LowerBound
import RedisServer.RankWalk
import RedisServer.Responses

/-!
# zquery

`zset_query` descends to the smallest member that is not below the probe, `znode_offset` jumps by
rank, and the loop of `do_query` follows successors while `n < (uint32_t)limit`.

Results:
* `queryLoop_spec` — the loop writes the members from a rank on, at most `limit` of them;
* `doQuery_found` — what `do_query` answers for a sorted set: it reads `limit` modulo `2 ^ 32`;
* `zquery_window_iff` — so the answer is the one asked for exactly if this does not matter.
-/

set_option autoImplicit false

namespace RedisServer

open Runs Trees BinaryTree

/-! ## Elements from a rank on -/

section Ranks

variable {α : Type} {p : α → Bool} {offset : Int} {l : List α}

/-- The elements from `offset` ranks behind the first one with `p` on; none if no element has it, or
if there is nothing at that rank. -/
def fromRank (p : α → Bool) (offset : Int) (l : List α) : List α :=
  if l.findIdx p < l.length ∧ 0 ≤ l.findIdx p + offset then
    l.drop (l.findIdx p + offset).toNat
  else []

theorem fromRank_sublist : (fromRank p offset l).Sublist l := by
  unfold fromRank
  split
  · exact List.drop_sublist _ _
  · exact List.nil_sublist l

end Ranks

/-! ## The tree and its members -/

/-- `t` is the tree of the sorted set: linked both ways, with exact counts, strictly sorted. -/
structure ZSet.Sorted (zset : ZSet) (t : PTree) : Prop where
  tree : zset.tree = root t
  counted : Counted zset.links none t
  sorted : (inorder t).Pairwise fun p q => memberLess zset.nodes p q = true
  stored : ∀ p ∈ inorder t, ∃ z, zset.nodes p = some z
  size : t.numNodes < 2 ^ 32

/-- The members in the order of the tree. -/
def ZSet.members (zset : ZSet) (t : PTree) : List ZNode := (inorder t).filterMap zset.nodes

/-- The members from `offset` ranks behind the smallest that is not below (`score`, `name`) on. -/
def ZSet.rankedFrom (zset : ZSet) (t : PTree) (score : Dbl) (name : Bytes) (offset : Int) :
    List ZNode :=
  fromRank (fun z => !zless z ⟨0, score, name⟩) offset (zset.members t)

variable {lim : Limits} {zset : ZSet} {t : PTree} {temp : ZNode}

theorem ZSet.Sorted.map_members (h : zset.Sorted t) :
    (zset.members t).map some = (inorder t).map zset.nodes := map_some_filterMap h.stored

theorem ZSet.Sorted.length_members (h : zset.Sorted t) :
    (zset.members t).length = (inorder t).length := by
  simpa using congrArg List.length h.map_members

theorem ZSet.Sorted.getElem?_members (h : zset.Sorted t) (k : Nat) :
    (zset.members t)[k]?.map some = (inorder t)[k]?.map zset.nodes := by
  simpa using congrArg (fun l => l[k]?) h.map_members

theorem ZSet.Sorted.inOrder (h : zset.Sorted t) : InOrder (zset.members t) := by
  refine List.Pairwise.filterMap zset.nodes ?_ h.sorted
  intro p q hpq a ha b hb
  exact (memberLess_of ha hb).symm.trans hpq

/-- The rank of the lower bound is the same for addresses and members. -/
theorem ZSet.Sorted.findIdx_members (h : zset.Sorted t) (temp : ZNode) :
    (zset.members t).findIdx (fun z => !zless z temp) =
      (inorder t).findIdx (reached zset.nodes temp) := by
  have hmap := congrArg (List.findIdx fun o : Option ZNode => o.any fun z => !zless z temp)
    h.map_members
  rwa [List.findIdx_map, List.findIdx_map] at hmap

/-! ## zset_query -/

theorem Counted.childLinked {m : Links} : ∀ {t : PTree} {parent : Option Ptr}, Counted m parent t →
    ChildLinked m t
  | nil, _, _ => trivial
  | node _ _ _, _, ⟨⟨n, hn, hlink, _⟩, hl, hr⟩ =>
    ⟨⟨n, hn, hlink.left, hlink.right⟩, hl.childLinked, hr.childLinked⟩

theorem ZSet.Sorted.searchable (h : zset.Sorted t) : zset.Searchable t :=
  ⟨h.tree, h.counted.childLinked, h.sorted, h.stored⟩

/-! ## The loop -/

/-- What the loop appends for one member. -/
def outMember (out : Bytes) (z : ZNode) : Bytes := outDbl (outStr out z.name) z.score

/-- **The loop** writes the members from rank `k` on. -/
theorem queryLoop_spec (h : zset.Sorted t) (hfuel : 2 * t.height ≤ lim.steps) {limit : Nat} :
    ∀ {fuel k n : Nat} {out : Bytes}, (inorder t).length - k < fuel →
      queryLoop lim zset limit fuel (inorder t)[k]? n out =
        .ok ((((zset.members t).drop k).take (limit - n)).foldl outMember out)
  | 0, _, _, _, hf => absurd hf (Nat.not_lt_zero _)
  | fuel + 1, k, n, out, hf => by
    have hat := h.getElem?_members k
    cases hk : (inorder t)[k]? with
    | none =>
      have hlen := h.length_members ▸ List.getElem?_eq_none_iff.mp hk
      rw [queryLoop, List.drop_eq_nil_of_le hlen, List.take_nil, List.foldl_nil]
    | some p =>
      obtain ⟨hlt, -⟩ := List.getElem?_eq_some_iff.mp hk
      rw [hk, Option.map_some] at hat
      obtain ⟨z, hz, hzp⟩ := Option.map_eq_some_iff.mp hat
      rw [queryLoop]
      split
      · rename_i hn
        have hnext : znodeOffset lim zset (some p) 1 = .ok (inorder t)[k + 1]? := by
          rw [znodeOffset_nodeAt h.counted (nodup_of_sorted h.sorted) h.size hfuel 1 hk, nodeAt,
            if_pos (by omega)]
          rfl
        have hdrop : (zset.members t).drop k = z :: (zset.members t).drop (k + 1) := by
          obtain ⟨hkl, hget⟩ := List.getElem?_eq_some_iff.mp hz
          rw [List.drop_eq_getElem_cons hkl, hget]
        obtain ⟨j, hj⟩ : ∃ j, limit - n = j + 1 := ⟨limit - n - 1, by omega⟩
        have hj' : limit - (n + 1) = j := by omega
        rw [Store.read_of hzp.symm, ok_bind, hnext, ok_bind,
          queryLoop_spec h hfuel (by omega : (inorder t).length - (k + 1) < fuel), hdrop, hj, hj',
          List.take_succ_cons, List.foldl_cons]
        rfl
      · rename_i hn
        rw [Nat.sub_eq_zero_of_le (Nat.not_lt.mp hn), List.take_zero, List.foldl_nil]

theorem queryLoop_none {limit fuel n : Nat} {out : Bytes} (hfuel : 0 < fuel) :
    queryLoop lim zset limit fuel none n out = .ok out := by
  cases fuel with
  | zero => cases hfuel
  | succ fuel => rfl

/-- **Jump and loop**, from the smallest member that is not below the probe. -/
theorem window_spec (h : zset.Sorted t) (hsteps : 2 * t.numNodes < lim.steps) (score : Dbl)
    (name : Bytes) (offset : Int) : ∃ z,
      znodeOffset lim zset ((inorder t).find? (reached zset.nodes ⟨0, score, name⟩)) offset =
        .ok z ∧
      ∀ (limit : Nat) (out : Bytes), queryLoop lim zset limit lim.steps z 0 out =
        .ok (((zset.rankedFrom t score name offset).take limit).foldl outMember out) := by
  have hheight := t.height_le_numNodes
  have hlen := length_inorder t
  have hpos : 0 < lim.steps := by omega
  rw [ZSet.rankedFrom, fromRank, h.findIdx_members, h.length_members,
    List.find?_eq_getElem?_findIdx]
  generalize (inorder t).findIdx (reached zset.nodes ⟨0, score, name⟩) = r
  cases hr : (inorder t)[r]? with
  | none =>
    -- every member is below the probe
    have hout : ¬(r < (inorder t).length ∧ 0 ≤ (r : Int) + offset) := fun hin =>
      Nat.not_lt.mpr (List.getElem?_eq_none_iff.mp hr) hin.1
    refine ⟨none, rfl, ?_⟩
    intro limit out
    rw [queryLoop_none hpos, if_neg hout, List.take_nil, List.foldl_nil]
  | some x =>
    obtain ⟨hlt, -⟩ := List.getElem?_eq_some_iff.mp hr
    refine ⟨_, znodeOffset_nodeAt h.counted (nodup_of_sorted h.sorted) h.size (by omega) offset hr,
      ?_⟩
    intro limit out
    by_cases hin : 0 ≤ (r : Int) + offset
    · rw [nodeAt, if_pos hin, if_pos ⟨hlt, hin⟩, queryLoop_spec h (by omega) (by omega)]
      rfl
    · rw [nodeAt, if_neg hin, if_neg fun h => hin h.2, queryLoop_none hpos, List.take_nil,
        List.foldl_nil]

/-- A longer answer has more members. -/
theorem take_of_outMember {l : List ZNode} {i j : Nat} {out : Bytes}
    (h : (l.take i).foldl outMember out = (l.take j).foldl outMember out) :
    min i l.length = min j l.length := by
  wlog hij : i ≤ j generalizing i j
  · exact (this h.symm (Nat.le_of_not_le hij)).symm
  have hgrow : ∀ (l : List ZNode) (out : Bytes), out.length + l.length ≤
      (l.foldl outMember out).length := by
    intro l
    induction l with
    | nil => exact fun out => Nat.le_refl _
    | cons z l ih =>
      intro out
      have := ih (outMember out z)
      rw [List.foldl_cons, List.length_cons]
      simp only [outMember, outDbl, List.length_append, List.length_cons, outStr] at this ⊢
      omega
  have hsplit := List.take_append_drop i (l.take j)
  rw [List.take_take, Nat.min_eq_left hij] at hsplit
  have hle := hgrow ((l.take j).drop i) ((l.take i).foldl outMember out)
  rw [← List.foldl_append, hsplit, h, List.length_drop, List.length_take] at hle
  omega

/-! ## do_query -/

/-- `key` finds the sorted set `zset`. -/
def FindsSet (g : GlobalData) (key : Bytes) (g' : GlobalData) (zset : ZSet) : Prop :=
  ∃ p e, lookupEntry g key = .ok (g', some p) ∧ g'.entries p = some e ∧ e.type = 1 ∧
    e.zset = some zset

section Query

variable {g g' : GlobalData} {key s name off limit : Bytes} {score : Dbl} {o l : Int}
  (hf : FindsSet g key g' zset) (ht : zset.Sorted t) (hs : stod s = .ok score)
  (ho : stoll off = .ok o) (hl : stoll limit = .ok l) (hsteps : 2 * t.numNodes < lim.steps)

include hf ht hs ho hl hsteps

/-- **`do_query`** on a sorted set. -/
theorem doQuery_found (c out : Bytes) : doQuery lim g [c, key, s, name, off, limit] out =
    if lim.slack < name.length then .error .outOfBounds
    else .ok (g', .RES_OK, ((zset.rankedFrom t score name o).take (l % 2 ^ 32).toNat).foldl
      outMember out) := by
  obtain ⟨p, e, hlook, he, hty, hz⟩ := hf
  have hheight := t.height_le_numNodes
  have hguard : ¬(e.type ≠ 1 ∨ e.zset.isNone) := by simp [hty, hz]
  rw [doQuery, if_neg (by simp), bind_arg key rfl, hlook, ok_bind]
  dsimp only
  rw [Store.read_of he, ok_bind, if_neg hguard, bind_arg s rfl, hs, ok_bind, bind_arg name rfl,
    bind_arg off rfl, ho, ok_bind, bind_arg limit rfl, hl, ok_bind, zsetOf_ok.mpr hz, ok_bind]
  by_cases hname : lim.slack < name.length
  · rw [if_pos hname, zsetQuery, if_pos hname]
    rfl
  · obtain ⟨z, hjump, hloop⟩ := window_spec ht hsteps score name o
    rw [if_neg hname, zsetQuery_spec ht.searchable (Nat.not_lt.mp hname) (by omega), ok_bind,
      hjump, ok_bind, hloop, ok_bind]
    rfl

/-- As a `uint32_t`, `limit` asks for no other number of the `remaining` members. -/
def LimitKept (limit : Int) (remaining : Nat) : Prop :=
  (limit % 2 ^ 32).toNat = limit.toNat ∨ remaining ≤ min (limit % 2 ^ 32).toNat limit.toNat

/-- **`zquery` answers the window asked for**, in increasing order, if and only if the name fits
behind `temp` and `limit` means the same as a `uint32_t`. -/
theorem zquery_window_iff (c out : Bytes) :
    (doQuery lim g [c, key, s, name, off, limit] out = .ok (g', .RES_OK,
        ((zset.rankedFrom t score name o).take l.toNat).foldl outMember out) ↔
      name.length ≤ lim.slack ∧ LimitKept l (zset.rankedFrom t score name o).length) ∧
    InOrder ((zset.rankedFrom t score name o).take l.toNat) := by
  rw [doQuery_found hf ht hs ho hl hsteps]
  refine ⟨⟨?_, ?_⟩, ht.inOrder.sublist ((List.take_sublist _ _).trans fromRank_sublist)⟩
  · intro h
    split at h
    · cases h
    · rename_i hname
      have hout := (Prod.mk.inj (Prod.mk.inj (Except.ok.inj h)).2).2
      have hmin := take_of_outMember hout
      refine ⟨Nat.not_lt.mp hname, ?_⟩
      unfold LimitKept
      omega
  · rintro ⟨hname, hkept⟩
    have htake : (zset.rankedFrom t score name o).take (l % 2 ^ 32).toNat =
        (zset.rankedFrom t score name o).take l.toNat := by
      rw [List.take_eq_take_iff]
      unfold LimitKept at hkept
      omega
    rw [if_neg (Nat.not_lt.mpr hname), htake]

end Query

/-- The one member of the examples. -/
def memberA : ZNode := znodeNew (ascii "a") ⟨0x3FF0000000000000⟩

/-- After `zadd z 1 a`. -/
theorem exists_one_member : ∃ (g g' : GlobalData) (zset : ZSet),
    run (serve ⟨64, 0⟩) {} [ask 0 ["zadd", "z", "1", "a"]] = .ok g ∧
      FindsSet g (ascii "z") g' zset ∧ zset.Sorted (node 0 nil nil) ∧
      zset.members (node 0 nil nil) = [memberA] := by
  have hfacts : (run (serve ⟨64, 0⟩) {} [ask 0 ["zadd", "z", "1", "a"]]).toOption.bind (fun g =>
      (lookupEntry g (ascii "z")).toOption.bind fun r => r.2.bind fun p => (r.1.entries p).bind
        fun e => e.zset.map fun z => (e.type, z.tree, z.links 0, z.nodes 0)) =
      some (1, some 0, some (cell nil nil none), some memberA) := by decide +kernel
  obtain ⟨g, hg, hfacts⟩ := Option.bind_eq_some_iff.mp hfacts
  obtain ⟨⟨g', found⟩, hlook, hfacts⟩ := Option.bind_eq_some_iff.mp hfacts
  obtain ⟨p, rfl, hfacts⟩ := Option.bind_eq_some_iff.mp hfacts
  obtain ⟨e, he, hfacts⟩ := Option.bind_eq_some_iff.mp hfacts
  obtain ⟨zset, hz, hfacts⟩ := Option.map_eq_some_iff.mp hfacts
  simp only [Prod.mk.injEq] at hfacts
  obtain ⟨hty, htree, hlink, hnode⟩ := hfacts
  refine ⟨g, g', zset, ok_of_toOption hg, ⟨p, e, ok_of_toOption hlook, he, hty, hz⟩,
    ⟨htree, ?_, ?_, ?_, by decide⟩, ?_⟩
  · exact ⟨⟨_, hlink, linksTo_cell nil nil none, rfl⟩, trivial, trivial⟩
  · exact List.pairwise_singleton _ _
  · intro q hq
    obtain rfl := List.mem_singleton.mp hq
    exact ⟨memberA, hnode⟩
  · exact List.filterMap_cons_some hnode

/-- After `zadd z 1 a`, `zadd z 2 b` and `zadd z 3 c`. -/
theorem exists_three_members : ∃ (g g' : GlobalData) (zset : ZSet),
    run (serve ⟨64, 0⟩) {} [ask 0 ["zadd", "z", "1", "a"], ask 1 ["zadd", "z", "2", "b"],
        ask 2 ["zadd", "z", "3", "c"]] = .ok g ∧
      FindsSet g (ascii "z") g' zset ∧ zset.Sorted (node 1 (node 0 nil nil) (node 2 nil nil)) ∧
      zset.members (node 1 (node 0 nil nil) (node 2 nil nil)) =
        [memberA, znodeNew (ascii "b") ⟨0x4000000000000000⟩,
          znodeNew (ascii "c") ⟨0x4008000000000000⟩] := by
  have hfacts : (run (serve ⟨64, 0⟩) {} [ask 0 ["zadd", "z", "1", "a"],
      ask 1 ["zadd", "z", "2", "b"], ask 2 ["zadd", "z", "3", "c"]]).toOption.bind (fun g =>
      (lookupEntry g (ascii "z")).toOption.bind fun r => r.2.bind fun p => (r.1.entries p).bind
        fun e => e.zset.map fun z => (e.type, z.tree, [0, 1, 2].map z.links,
          decide ([0, 1, 2].map z.nodes = [some memberA,
            some (znodeNew (ascii "b") ⟨0x4000000000000000⟩),
            some (znodeNew (ascii "c") ⟨0x4008000000000000⟩)] ∧
            [0, 1, 2].Pairwise fun p q => memberLess z.nodes p q = true))) =
      some (1, some 1, [some (cell nil nil (some 1)),
        some (cell (node 0 nil nil) (node 2 nil nil) none), some (cell nil nil (some 1))], true) := by
    decide +kernel
  obtain ⟨g, hg, hfacts⟩ := Option.bind_eq_some_iff.mp hfacts
  obtain ⟨⟨g', found⟩, hlook, hfacts⟩ := Option.bind_eq_some_iff.mp hfacts
  obtain ⟨p, rfl, hfacts⟩ := Option.bind_eq_some_iff.mp hfacts
  obtain ⟨e, he, hfacts⟩ := Option.bind_eq_some_iff.mp hfacts
  obtain ⟨zset, hz, hfacts⟩ := Option.map_eq_some_iff.mp hfacts
  simp only [Prod.mk.injEq, decide_eq_true_eq, List.map_cons, List.map_nil, List.cons.injEq,
    and_true] at hfacts
  obtain ⟨hty, htree, ⟨h₀, h₁, h₂⟩, ⟨ha, hb, hc⟩, hsorted⟩ := hfacts
  refine ⟨g, g', zset, ok_of_toOption hg, ⟨p, e, ok_of_toOption hlook, he, hty, hz⟩,
    ⟨htree, ?_, hsorted, ?_, by decide⟩, ?_⟩
  · exact ⟨⟨_, h₁, linksTo_cell _ _ none, rfl⟩,
      ⟨⟨_, h₀, linksTo_cell nil nil _, rfl⟩, trivial, trivial⟩,
      ⟨_, h₂, linksTo_cell nil nil _, rfl⟩, trivial, trivial⟩
  · intro q hq
    have hq : q = 0 ∨ q = 1 ∨ q = 2 := by simpa using hq
    rcases hq with rfl | rfl | rfl
    · exact ⟨_, ha⟩
    · exact ⟨_, hb⟩
    · exact ⟨_, hc⟩
  · show [0, 1, 2].filterMap zset.nodes = _
    simp [ha, hb, hc]

/-- From one rank before the first member not below 3, two members. -/
theorem zquery_window_before : ∃ (g g' : GlobalData),
    run (serve ⟨64, 0⟩) {} [ask 0 ["zadd", "z", "1", "a"], ask 1 ["zadd", "z", "2", "b"],
        ask 2 ["zadd", "z", "3", "c"]] = .ok g ∧
      doQuery ⟨64, 0⟩ g [ascii "zquery", ascii "z", ascii "3", [], ascii "-1", ascii "2"] [] =
        .ok (g', .RES_OK, [znodeNew (ascii "b") ⟨0x4000000000000000⟩,
          znodeNew (ascii "c") ⟨0x4008000000000000⟩].foldl outMember []) := by
  obtain ⟨g, g', zset, hg, hf, ht, hm⟩ := exists_three_members
  have hs : stod (ascii "3") = .ok ⟨0x4008000000000000⟩ := by decide +kernel
  have ho : stoll (ascii "-1") = .ok (-1) := by decide +kernel
  have hl : stoll (ascii "2") = .ok 2 := by decide +kernel
  have hsteps : 2 * (node 1 (node 0 nil nil) (node 2 nil nil) : PTree).numNodes <
      Limits.steps ⟨64, 0⟩ := by decide
  have hfrom : zset.rankedFrom (node 1 (node 0 nil nil) (node 2 nil nil)) ⟨0x4008000000000000⟩ []
      (-1) = [znodeNew (ascii "b") ⟨0x4000000000000000⟩,
        znodeNew (ascii "c") ⟨0x4008000000000000⟩] := by
    rw [ZSet.rankedFrom, hm]
    decide +kernel
  obtain ⟨hiff, -⟩ := zquery_window_iff hf ht hs ho hl hsteps (ascii "zquery") []
  rw [hfrom] at hiff
  exact ⟨g, g', hg, hiff.mpr ⟨Nat.le_refl 0, .inl rfl⟩⟩

/-- A limit of -1 asks for no member, and lists all. -/
theorem negative_limit_lists_all : ∃ (g g' : GlobalData) (zset : ZSet),
    run (serve ⟨64, 0⟩) {} [ask 0 ["zadd", "z", "1", "a"]] = .ok g ∧
      FindsSet g (ascii "z") g' zset ∧ zset.Sorted (node 0 nil nil) ∧
      stod (ascii "0") = .ok ⟨0⟩ ∧ stoll (ascii "0") = .ok 0 ∧ stoll (ascii "-1") = .ok (-1) ∧
      doQuery ⟨64, 0⟩ g [ascii "zquery", ascii "z", ascii "0", [], ascii "0", ascii "-1"] [] =
        .ok (g', .RES_OK, outMember [] memberA) ∧
      outMember [] memberA ≠ ((zset.rankedFrom (node 0 nil nil) ⟨0⟩ [] 0).take
        (-1 : Int).toNat).foldl outMember [] := by
  obtain ⟨g, g', zset, hg, hf, ht, hm⟩ := exists_one_member
  have hs : stod (ascii "0") = .ok ⟨0⟩ := by decide +kernel
  have ho : stoll (ascii "0") = .ok 0 := by decide +kernel
  have hl : stoll (ascii "-1") = .ok (-1) := by decide +kernel
  have hfrom : zset.rankedFrom (node 0 nil nil) ⟨0⟩ [] 0 = [memberA] := by
    rw [ZSet.rankedFrom, hm]
    decide +kernel
  refine ⟨g, g', zset, hg, hf, ht, hs, ho, hl, ?_, ?_⟩
  · have hsteps : 2 * (node 0 nil nil : PTree).numNodes < Limits.steps ⟨64, 0⟩ := by decide
    rw [doQuery_found hf ht hs ho hl hsteps, if_neg (by decide), hfrom]
    rfl
  · rw [hfrom]
    decide +kernel

end RedisServer
