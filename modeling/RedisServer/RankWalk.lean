import RedisServer.AvlRep
import RedisServer.ZSet

/-!
# Walking by rank

`avl_offset` starts at a node and moves down into the subtree that holds the target rank, or up when
the subtree of the current node does not hold it.  `pos` is the rank of the current node relative to
the start.

Results:
* `avlOffset_down` — the way down, in a subtree that holds the target;
* `avlOffset_up` — the whole walk, by induction on the path to the root: after a step up the target
  is never in the subtree just left, so every node is passed at most once upwards and once downwards;
* `znodeOffset_rank` — `znode_offset` returns the node at the rank asked for, and offsets compose.
-/

set_option autoImplicit false

namespace RedisServer

open Runs Trees BinaryTree

/-- The tree is linked below `parent`, with exact counts. -/
def Counted (m : Links) : Option Ptr → PTree → Prop
  | _, nil => True
  | parent, node p l r =>
    (∃ n, m p = some n ∧ LinksTo n l r parent ∧ n.count = (node p l r).numNodes) ∧
      Counted m (some p) l ∧ Counted m (some p) r

/-- The tree around a focus, as `Counted` sees it. -/
def CountedAround (m : Links) : Option Ptr → List (Frame Ptr) → Prop
  | _, [] => True
  | child, f :: fs => (∃ n, m f.label = some n ∧ FrameLinks n child (above fs) f) ∧
    Counted m (some f.label) f.sibling ∧ CountedAround m (some f.label) fs

variable {m : Links} {p : Ptr} {parent : Option Ptr} {fs : List (Frame Ptr)} {t l r : PTree}

theorem Rep.counted {m : Links} : ∀ {t : PTree} {parent : Option Ptr}, Rep m parent t →
    t.numNodes < 2 ^ 32 → Counted m parent t
  | nil, _, _, _ => trivial
  | node _ l r, parent, ⟨h, hl, hr⟩, hsize => by
    simp only [numNodes] at hsize
    exact ⟨⟨_, h, linksTo_cell l r parent, Nat.mod_eq_of_lt hsize⟩, hl.counted (by omega),
      hr.counted (by omega)⟩

theorem Counted.focus {m : Links} : ∀ {fs : List (Frame Ptr)} {t : PTree},
    Counted m none (plug fs t) → Counted m (above fs) t ∧ CountedAround m (root t) fs
  | [], _, h => ⟨h, trivial⟩
  | .left a r :: fs, t, h => by
    have h : Counted m none (plug fs (node a t r)) := h
    obtain ⟨⟨⟨n, hn, hlink, -⟩, ht, hr⟩, hp⟩ := h.focus
    exact ⟨ht, ⟨n, hn, hlink.left, hlink.right, hlink.parent⟩, hr, hp⟩
  | .right a l :: fs, t, h => by
    have h : Counted m none (plug fs (node a l t)) := h
    obtain ⟨⟨⟨n, hn, hlink, -⟩, hl, ht⟩, hp⟩ := h.focus
    exact ⟨ht, ⟨n, hn, hlink.left, hlink.right, hlink.parent⟩, hl, hp⟩

theorem avlCount_counted (h : Counted m parent t) : avlCount m (root t) = .ok t.numNodes := by
  cases t with
  | nil => rfl
  | node p l r =>
    obtain ⟨⟨n, hn, -, hc⟩, -, -⟩ := h
    simp [avlCount, Store.read_of hn, hc]

/-! ## Ranks -/

/-- The element at a rank; `none` outside the tree. -/
def nodeAt (t : PTree) (k : Int) : Option Ptr := if 0 ≤ k then (inorder t)[k.toNat]? else none

theorem nodeAt_none {k : Int} (h : k < 0 ∨ (t.numNodes : Int) ≤ k) : nodeAt t k = none := by
  unfold nodeAt
  split
  · exact List.getElem?_eq_none (by rw [length_inorder]; omega)
  · rfl

/-- The rank of the root of a focus. -/
theorem nodeAt_focus (fs : List (Frame Ptr)) (p : Ptr) (l r : PTree) :
    nodeAt (plug fs (node p l r)) ((before fs).length + l.numNodes : Nat) = some p := by
  rw [nodeAt, if_pos (Int.natCast_nonneg _), Int.toNat_natCast, inorder_plug, List.append_assoc,
    List.getElem?_append_right (Nat.le_add_right _ _), Nat.add_sub_cancel_left, inorder_node,
    List.append_assoc, ← length_inorder, List.getElem?_append_right (Nat.le_refl _), Nat.sub_self]
  rfl

theorem numNodes_plug (fs : List (Frame Ptr)) (t : PTree) :
    (plug fs t).numNodes = (before fs).length + t.numNodes + (after fs).length := by
  rw [← length_inorder, inorder_plug, List.length_append, List.length_append, length_inorder]

/-! ## One round of avl_offset -/

section Round

variable {fuel : Nat} {d pos : Int} {n : AVLNode}

/-- The round at a node of a counted tree: the comparisons are those of integers. -/
theorem avlOffset_round (hn : m p = some n) (hlink : LinksTo n l r parent)
    (hl : Counted m (some p) l) (hr : Counted m (some p) r)
    (hsmall : pos.natAbs + l.numNodes + r.numNodes < 2 ^ 53) :
    avlOffset (fuel + 1) m p (toDouble d) pos =
      if pos = d then .ok (some p)
      else if pos < d ∧ d ≤ pos + r.numNodes then do
        let q ← deref (root r)
        let below ← avlCount m (← m.read q).left
        avlOffset fuel m q (toDouble d) (pos + (below + 1))
      else if d < pos ∧ pos - l.numNodes ≤ d then do
        let q ← deref (root l)
        let below ← avlCount m (← m.read q).right
        avlOffset fuel m q (toDouble d) (pos - (below + 1))
      else match parent with
        | none => .ok none
        | some q => (do
          if (← m.read q).right = some p then
            avlOffset fuel m q (toDouble d) (pos - (l.numNodes + 1))
          else avlOffset fuel m q (toDouble d) (pos + (r.numNodes + 1))) := by
  have h₁ : pos.natAbs < 2 ^ 53 := by omega
  have h₂ : (pos + r.numNodes).natAbs < 2 ^ 53 := by omega
  have h₃ : (pos - l.numNodes).natAbs < 2 ^ 53 := by omega
  have hc₁ := compare_toDouble (d := d) h₁
  have hc₂ := compare_toDouble (d := d) h₂
  have hc₃ := compare_toDouble (d := d) h₃
  have hup : toDouble d ≤ pos + r.numNodes ↔ d ≤ pos + r.numNodes := by
    rw [← not_lt, hc₂.2.1, not_lt]
  have hdown : pos - l.numNodes ≤ toDouble d ↔ pos - l.numNodes ≤ d := by
    rw [← not_lt, hc₃.2.2, not_lt]
  rw [avlOffset, toDouble_exact h₁]
  simp only [Store.read_of hn, ok_bind, hlink.left, hlink.right, hlink.parent,
    avlCount_counted hl, avlCount_counted hr, toDouble_exact h₂, toDouble_exact h₃, hc₁.1,
    hc₁.2.1, hc₁.2.2, hup, hdown]
  rfl

end Round

/-! ## The walk -/

section Walk

variable {d r₀ : Int}

theorem length_before_right (a : Ptr) (l : PTree) (fs : List (Frame Ptr)) :
    (before (.right a l :: fs)).length = (before fs).length + (l.numNodes + 1) := by
  rw [before, List.length_append, List.length_append, length_inorder]
  rfl

/-- **Down** into the subtree that holds the target `r₀ + d`; `r₀` is the rank of the start. -/
theorem avlOffset_down (hr₀ : 0 ≤ r₀ ∧ r₀ < 2 ^ 32) : ∀ {l r : PTree} {p : Ptr}
    {fs : List (Frame Ptr)} {parent : Option Ptr} {fuel : Nat},
    Counted m parent (node p l r) → (plug fs (node p l r)).numNodes < 2 ^ 32 →
    (before fs).length ≤ r₀ + d → r₀ + d < (before fs).length + (node p l r).numNodes →
    (node p l r).height ≤ fuel →
    avlOffset fuel m p (toDouble d) ((before fs).length + l.numNodes - r₀) =
      .ok (nodeAt (plug fs (node p l r)) (r₀ + d))
  | _, _, _, _, _, 0, _, _, _, _, hf => absurd hf (Nat.not_succ_le_zero _)
  | l, r, p, fs, parent, fuel + 1, ⟨⟨n, hn, hlink, _⟩, hl, hr⟩, hsize, hlo, hhi, hf => by
    have hplug := numNodes_plug fs (node p l r)
    simp only [numNodes, height] at hhi hf hplug
    rw [avlOffset_round hn hlink hl hr (by omega)]
    by_cases heq : ((before fs).length + l.numNodes - r₀ : Int) = d
    · rw [if_pos heq]
      have hrank : r₀ + d = ((before fs).length + l.numNodes : Nat) := by push_cast; omega
      rw [hrank, nodeAt_focus]
    · rw [if_neg heq]
      by_cases hlt : ((before fs).length + l.numNodes - r₀ : Int) < d
      · -- the target is in the right subtree
        rw [if_pos ⟨hlt, by omega⟩]
        cases r with
        | nil => simp only [numNodes] at hhi; omega
        | node q rl rr =>
          obtain ⟨⟨n', hn', hlink', -⟩, hrl, -⟩ := id hr
          simp only [root_node, deref_some, ok_bind, Store.read_of hn', hlink'.left,
            avlCount_counted hrl]
          have hb := length_before_right p l fs
          have hgo : avlOffset fuel m q (toDouble d)
              ((before (.right p l :: fs)).length + rl.numNodes - r₀) =
              .ok (nodeAt (plug (.right p l :: fs) (node q rl rr)) (r₀ + d)) :=
            avlOffset_down hr₀ hr hsize (by omega) (by omega) (by omega)
          rw [plug_cons, Frame.plug] at hgo
          rw [← hgo, hb]
          congr 1
          push_cast
          omega
      · -- the target is in the left subtree
        rw [if_neg fun h => hlt h.1, if_pos ⟨by omega, by omega⟩]
        cases l with
        | nil => simp only [numNodes] at heq hlt; omega
        | node q ll lr =>
          obtain ⟨⟨n', hn', hlink', -⟩, -, hlr⟩ := id hl
          simp only [root_node, deref_some, ok_bind, Store.read_of hn', hlink'.right,
            avlCount_counted hlr]
          have hb : before (.left p r :: fs) = before fs := rfl
          have hgo : avlOffset fuel m q (toDouble d)
              ((before (.left p r :: fs)).length + ll.numNodes - r₀) =
              .ok (nodeAt (plug (.left p r :: fs) (node q ll lr)) (r₀ + d)) :=
            avlOffset_down hr₀ hl hsize (by rw [hb]; omega) (by rw [hb]; omega) (by omega)
          rw [plug_cons, Frame.plug, hb] at hgo
          rw [← hgo]
          congr 1
          simp only [numNodes]
          push_cast
          omega

/-- **The whole walk**, from a focus. -/
theorem avlOffset_up (hr₀ : 0 ≤ r₀ ∧ r₀ < 2 ^ 32) : ∀ {fs : List (Frame Ptr)} {l r : PTree}
    {p : Ptr} {fuel : Nat}, Counted m none (plug fs (node p l r)) →
    (inorder (plug fs (node p l r))).Nodup → (plug fs (node p l r)).numNodes < 2 ^ 32 →
    fs.length + (plug fs (node p l r)).height ≤ fuel →
    avlOffset fuel m p (toDouble d) ((before fs).length + l.numNodes - r₀) =
      .ok (nodeAt (plug fs (node p l r)) (r₀ + d))
  | fs, l, r, p, 0, _, _, _, hf => by
    have := length_le_height_plug fs (node p l r)
    simp only [height] at this
    omega
  | fs, l, r, p, fuel + 1, h, hnd, hsize, hf => by
    obtain ⟨hfocus, haround⟩ := h.focus
    have hheight := length_le_height_plug fs (node p l r)
    have hplug := numNodes_plug fs (node p l r)
    by_cases hin : ((before fs).length : Int) ≤ r₀ + d ∧
        r₀ + d < (before fs).length + (node p l r).numNodes
    · exact avlOffset_down hr₀ hfocus hsize hin.1 hin.2 (by omega)
    · -- the target is not below `p`
      simp only [numNodes] at hin hplug
      obtain ⟨⟨n, hn, hlink, -⟩, hl, hr⟩ := hfocus
      rw [avlOffset_round hn hlink hl hr (by omega), if_neg (by omega), if_neg (by omega),
        if_neg (by omega)]
      match fs, h, hnd, haround, hsize, hf, hin, hplug with
      | [], h, _, _, _, _, hin, _ =>
        refine (congrArg Except.ok (nodeAt_none ?_)).symm
        simp only [before, List.length_nil, plug_nil, numNodes] at hin ⊢
        omega
      | .left a s :: fs, h, hnd, ⟨⟨nf, hnf, hlf⟩, _, _⟩, hsize, hf, hin, hplug =>
        have hnf : m a = some nf := hnf
        have hps : p ∉ inorder s := fun hp =>
          ((nodup_focus hnd).2.2 p (by simp [around, Frame.sibling, hp])) (by simp)
        have hside : nf.right ≠ some p := fun hp => hps (root_mem (hlf.2.1.symm.trans hp))
        simp only [above, Frame.label, Store.read_of hnf, ok_bind, if_neg hside]
        have hf' : fs.length + (plug fs (node a (node p l r) s)).height ≤ fuel := by
          simp only [List.length_cons, plug_cons, Frame.plug] at hf
          omega
        have hgo : avlOffset fuel m a (toDouble d)
            ((before fs).length + (node p l r).numNodes - r₀) =
            .ok (nodeAt (plug fs (node a (node p l r) s)) (r₀ + d)) :=
          avlOffset_up hr₀ h hnd hsize hf'
        have hb : before (.left a s :: fs) = before fs := rfl
        rw [hb, plug_cons, Frame.plug, ← hgo]
        congr 1
        simp only [numNodes]
        push_cast
        omega
      | .right a s :: fs, h, hnd, ⟨⟨nf, hnf, hlf⟩, _, _⟩, hsize, hf, hin, hplug =>
        have hnf : m a = some nf := hnf
        simp only [above, Frame.label, Store.read_of hnf, ok_bind, hlf.2.1, root_node, if_true]
        have hf' : fs.length + (plug fs (node a s (node p l r))).height ≤ fuel := by
          simp only [List.length_cons, plug_cons, Frame.plug] at hf
          omega
        have hgo : avlOffset fuel m a (toDouble d) ((before fs).length + s.numNodes - r₀) =
            .ok (nodeAt (plug fs (node a s (node p l r))) (r₀ + d)) :=
          avlOffset_up hr₀ h hnd hsize hf'
        rw [length_before_right, plug_cons, Frame.plug, ← hgo]
        congr 1
        push_cast
        omega

end Walk

/-- The node at rank `r` in focus. -/
theorem exists_focus_rank {x : Ptr} {r : Nat} (hnd : (inorder t).Nodup)
    (hx : (inorder t)[r]? = some x) :
    ∃ fs l rr, t = plug fs (node x l rr) ∧ (before fs).length + l.numNodes = r := by
  obtain ⟨fs, l, rr, rfl⟩ := exists_focus (List.mem_of_getElem? hx)
  refine ⟨fs, l, rr, rfl, ?_⟩
  have hat := nodeAt_focus fs x l rr
  rw [nodeAt, if_pos (Int.natCast_nonneg _), Int.toNat_natCast] at hat
  have hlt : (before fs).length + l.numNodes < (inorder (plug fs (node x l rr))).length := by
    rw [length_inorder, numNodes_plug, numNodes]
    omega
  exact (List.getElem?_inj hlt hnd).mp (hat.trans hx.symm)

/-- From the node at rank `r`. -/
theorem znodeOffset_nodeAt {lim : Limits} {zset : ZSet} {x : Ptr} {r : Nat}
    (h : Counted zset.links none t) (hnd : (inorder t).Nodup) (hsize : t.numNodes < 2 ^ 32)
    (hfuel : 2 * t.height ≤ lim.steps) (d : Int) (hx : (inorder t)[r]? = some x) :
    znodeOffset lim zset (some x) d = .ok (nodeAt t (r + d)) := by
  obtain ⟨fs, l, rr, rfl, hr⟩ := exists_focus_rank hnd hx
  have hheight := length_le_height_plug fs (node x l rr)
  have hplug := numNodes_plug fs (node x l rr)
  simp only [height, numNodes] at hheight hplug
  have hgo := avlOffset_up (d := d) (show (0 : Int) ≤ r ∧ (r : Int) < 2 ^ 32 by omega) h hnd hsize
    (show _ ≤ lim.steps by omega)
  rw [← hgo, znodeOffset]
  congr 1
  omega

/-- **`znode_offset`** from the node at rank `r` returns the node at rank `r + d`, or NULL when the
tree has no such rank; and offsets compose. -/
theorem znodeOffset_rank {lim : Limits} {zset : ZSet} {x : Ptr} {r : Nat}
    (h : Counted zset.links none t) (hnd : (inorder t).Nodup) (hsize : t.numNodes < 2 ^ 32)
    (hx : (inorder t)[r]? = some x) (hfuel : 2 * t.height ≤ lim.steps) :
    (∀ d : Int, znodeOffset lim zset (some x) d = .ok (nodeAt t (r + d))) ∧
      ∀ (a b : Int) (y : Ptr), znodeOffset lim zset (some x) a = .ok (some y) →
        znodeOffset lim zset (some y) b = znodeOffset lim zset (some x) (a + b) := by
  have hwalk : ∀ {x : Ptr} {r : Nat} (d : Int), (inorder t)[r]? = some x →
      znodeOffset lim zset (some x) d = .ok (nodeAt t (r + d)) :=
    znodeOffset_nodeAt h hnd hsize hfuel
  refine ⟨fun d => hwalk d hx, ?_⟩
  intro a b y hy
  have hat : nodeAt t (r + a) = some y := Except.ok.inj ((hwalk a hx).symm.trans hy)
  unfold nodeAt at hat
  split at hat
  · rename_i hpos
    rw [hwalk b hat, hwalk (a + b) hx]
    congr 2
    omega
  · cases hat

theorem znodeOffset_rank_three :
    (∀ d : Int, znodeOffset ⟨4, 0⟩
      { links := layout none (node 1 (node 0 nil nil) (node 2 nil nil)) } (some 2) d =
      .ok (nodeAt (node 1 (node 0 nil nil) (node 2 nil nil)) ((2 : Nat) + d))) ∧
    ∀ (a b : Int) (y : Ptr), znodeOffset ⟨4, 0⟩
      { links := layout none (node 1 (node 0 nil nil) (node 2 nil nil)) } (some 2) a =
        .ok (some y) →
      znodeOffset ⟨4, 0⟩ { links := layout none (node 1 (node 0 nil nil) (node 2 nil nil)) }
        (some y) b =
      znodeOffset ⟨4, 0⟩ { links := layout none (node 1 (node 0 nil nil) (node 2 nil nil)) }
        (some 2) (a + b) :=
  znodeOffset_rank ((rep_layout none (by decide)).counted (by decide)) (by decide) (by decide)
    (by decide) (by decide)

end RedisServer
