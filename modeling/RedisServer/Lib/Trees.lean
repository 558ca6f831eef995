import Mathlib

/-!
# Search trees with a focus

Binary trees (`BinaryTree` of Mathlib) as an algorithm with parent links sees them: a subtree in
focus and the path from it to the root, a list of `Frame`s.

* `inorder`, `root` — what a tree holds, and where it hangs;
* `plug` — the whole tree around a focus; `inorder_plug` and `height_plug_congr` are what an
  operation at the focus needs to know about the rest;
* `lowerBound` — the descent for the first element with a property that all behind it have too;
* `Balanced`, `CalmBelow` — depth balance everywhere, and everywhere below the root;
* `rotateLeft` … `rebalance` — the AVL rotations at the root: they keep the order
  (`inorder_rebalance`) and restore the balance (`balanced_rebalance`);
* `insertLeaf`, `removeRoot`, `remove` — insertion and deletion without any rotation.
-/

set_option autoImplicit false

namespace Trees

open BinaryTree

universe u

variable {α : Type u}

/-! ## Contents -/

def inorder : BinaryTree α → List α
  | nil => []
  | node a l r => inorder l ++ a :: inorder r

def root : BinaryTree α → Option α
  | nil => none
  | node a _ _ => some a

@[simp] theorem inorder_nil : inorder (nil : BinaryTree α) = [] := rfl

@[simp] theorem inorder_node (a : α) (l r : BinaryTree α) :
    inorder (node a l r) = inorder l ++ a :: inorder r := rfl

@[simp] theorem root_nil : root (nil : BinaryTree α) = none := rfl

@[simp] theorem root_node (a : α) (l r : BinaryTree α) : root (node a l r) = some a := rfl

theorem root_eq_none {t : BinaryTree α} : root t = none ↔ t = nil := by cases t <;> simp

theorem root_mem {t : BinaryTree α} {a : α} (h : root t = some a) : a ∈ inorder t := by
  cases t with
  | nil => cases h
  | node b l r => cases h; simp

theorem length_inorder (t : BinaryTree α) : (inorder t).length = t.numNodes := by
  induction t with
  | nil => rfl
  | node a l r ihl ihr => simp [ihl, ihr]; omega

theorem height_map {β : Type u} (f : α → β) (t : BinaryTree α) : (t.map f).height = t.height := by
  induction t with
  | nil => rfl
  | node a l r ihl ihr => simp [BinaryTree.map, ihl, ihr]

/-! ## Lower bounds -/

/-- The descent of a search for the first element with `p`, which holds of every element behind one
that has it; `found` is the last one seen. -/
def lowerBound (p : α → Bool) : BinaryTree α → Option α → Option α
  | nil, found => found
  | node a l r, found => if p a then lowerBound p l (some a) else lowerBound p r found

theorem lowerBound_eq {p : α → Bool} {t : BinaryTree α} (found : Option α)
    (h : (inorder t).Pairwise fun a b => p a = true → p b = true) :
    lowerBound p t found = ((inorder t).find? p).or found := by
  induction t generalizing found with
  | nil => rfl
  | node a l r ihl ihr =>
    obtain ⟨hl, hr, hlr⟩ := List.pairwise_append.mp h
    rw [lowerBound, inorder_node, List.find?_append]
    by_cases hp : p a = true
    · rw [if_pos hp, ihl _ hl, List.find?_cons_of_pos hp]
      cases (inorder l).find? p <;> rfl
    · have hnone : (inorder l).find? p = none :=
        List.find?_eq_none.mpr fun b hb hpb => hp (hlr b hb a List.mem_cons_self hpb)
      rw [if_neg hp, ihr _ (List.pairwise_cons.mp hr).2, hnone, List.find?_cons_of_neg hp]
      rfl

/-! ## Focus -/

/-- One step of a path: the focus is the left, or the right, child of `a`. -/
inductive Frame (α : Type u) where
  | left (a : α) (r : BinaryTree α)
  | right (a : α) (l : BinaryTree α)

namespace Frame

def label : Frame α → α
  | left a _ => a
  | right a _ => a

/-- The other child. -/
def sibling : Frame α → BinaryTree α
  | left _ r => r
  | right _ l => l

def plug : Frame α → BinaryTree α → BinaryTree α
  | left a r, t => node a t r
  | right a l, t => node a l t

end Frame

/-- The tree around the focus `t`, the nearest frame first. -/
def plug : List (Frame α) → BinaryTree α → BinaryTree α
  | [], t => t
  | f :: fs, t => plug fs (f.plug t)

@[simp] theorem plug_nil (t : BinaryTree α) : plug [] t = t := rfl

@[simp] theorem plug_cons (f : Frame α) (fs : List (Frame α)) (t : BinaryTree α) :
    plug (f :: fs) t = plug fs (f.plug t) := rfl

theorem plug_append (fs gs : List (Frame α)) (t : BinaryTree α) :
    plug (fs ++ gs) t = plug gs (plug fs t) := by
  induction fs generalizing t with
  | nil => rfl
  | cons f fs ih => exact ih _

/-- What stands before the focus in order. -/
def before : List (Frame α) → List α
  | [] => []
  | .left _ _ :: fs => before fs
  | .right a l :: fs => before fs ++ (inorder l ++ [a])

/-- What stands behind the focus in order. -/
def after : List (Frame α) → List α
  | [] => []
  | .left a r :: fs => (a :: inorder r) ++ after fs
  | .right _ _ :: fs => after fs

theorem inorder_plug (fs : List (Frame α)) (t : BinaryTree α) :
    inorder (plug fs t) = before fs ++ inorder t ++ after fs := by
  induction fs generalizing t with
  | nil => simp [before, after]
  | cons f fs ih => cases f <;> simp [ih, Frame.plug, before, after]

/-- The elements outside the focus. -/
def around : List (Frame α) → List α
  | [] => []
  | f :: fs => f.label :: (inorder f.sibling ++ around fs)

theorem perm_plug (fs : List (Frame α)) (t : BinaryTree α) :
    (inorder (plug fs t)).Perm (inorder t ++ around fs) := by
  induction fs generalizing t with
  | nil => simp [around]
  | cons f fs ih =>
    apply (ih (f.plug t)).trans
    rw [around, ← List.cons_append, ← List.append_assoc]
    refine List.Perm.append_right _ ?_
    cases f with
    | left a r => exact .refl _
    | right a l =>
      simp only [Frame.plug, inorder_node, Frame.label, Frame.sibling]
      exact List.perm_append_comm.trans (by simpa using List.perm_middle.symm)

theorem nodup_plug {fs : List (Frame α)} {t : BinaryTree α} :
    (inorder (plug fs t)).Nodup ↔ (inorder t ++ around fs).Nodup := (perm_plug fs t).nodup_iff

theorem mem_plug {fs : List (Frame α)} {t : BinaryTree α} {a : α} :
    a ∈ inorder (plug fs t) ↔ a ∈ inorder t ∨ a ∈ around fs := by
  rw [(perm_plug fs t).mem_iff, List.mem_append]

theorem root_plug_cons (f : Frame α) (fs : List (Frame α)) (t t' : BinaryTree α) :
    root (plug (f :: fs) t) = root (plug (f :: fs) t') := by
  induction fs generalizing f t t' with
  | nil => cases f <;> rfl
  | cons g fs ih => exact ih g _ _

/-- Every element of a tree can be brought into focus. -/
theorem exists_focus {a : α} {t : BinaryTree α} (h : a ∈ inorder t) :
    ∃ fs l r, t = plug fs (node a l r) := by
  induction t with
  | nil => cases h
  | node b l r ihl ihr =>
    simp only [inorder_node, List.mem_append, List.mem_cons] at h
    rcases h with h | rfl | h
    · obtain ⟨fs, l', r', rfl⟩ := ihl h
      exact ⟨fs ++ [.left b r], l', r', by rw [plug_append]; rfl⟩
    · exact ⟨[], l, r, rfl⟩
    · obtain ⟨fs, l', r', rfl⟩ := ihr h
      exact ⟨fs ++ [.right b l], l', r', by rw [plug_append]; rfl⟩

theorem length_le_height_plug (fs : List (Frame α)) (t : BinaryTree α) :
    fs.length + t.height ≤ (plug fs t).height := by
  induction fs generalizing t with
  | nil => simp
  | cons f fs ih =>
    have := ih (f.plug t)
    have hf : t.height + 1 ≤ (f.plug t).height := by
      cases f <;> simp only [Frame.plug, height] <;> omega
    simp only [List.length_cons, plug_cons]
    omega

/-! ## Balance -/

/-- At every node the depths of the two subtrees differ by at most one. -/
def Balanced : BinaryTree α → Prop
  | nil => True
  | node _ l r => l.height ≤ r.height + 1 ∧ r.height ≤ l.height + 1 ∧ Balanced l ∧ Balanced r

/-- Balance everywhere below the root. -/
def CalmBelow : BinaryTree α → Prop
  | nil => True
  | node _ l r => Balanced l ∧ Balanced r

instance Balanced.decidable : (t : BinaryTree α) → Decidable (Balanced t)
  | nil => .isTrue trivial
  | node _ l r =>
    have := Balanced.decidable l
    have := Balanced.decidable r
    inferInstanceAs (Decidable (_ ∧ _ ∧ _ ∧ _))

instance CalmBelow.decidable : (t : BinaryTree α) → Decidable (CalmBelow t)
  | nil => .isTrue trivial
  | node _ _ _ => inferInstanceAs (Decidable (_ ∧ _))

theorem Balanced.calmBelow {t : BinaryTree α} (h : Balanced t) : CalmBelow t := by
  cases t with
  | nil => trivial
  | node a l r => exact ⟨h.2.2.1, h.2.2.2⟩

theorem Balanced.of_plug {fs : List (Frame α)} {t : BinaryTree α} (h : Balanced (plug fs t)) :
    Balanced t := by
  induction fs generalizing t with
  | nil => exact h
  | cons f fs ih =>
    have := ih h
    cases f with
    | left a r => exact this.2.2.1
    | right a l => exact this.2.2.2

/-- A focus below the root of a calm tree is balanced. -/
theorem CalmBelow.focus {f : Frame α} {fs : List (Frame α)} {t : BinaryTree α}
    (h : CalmBelow (plug (f :: fs) t)) : Balanced t := by
  induction fs generalizing f t with
  | nil =>
    cases f with
    | left a r => exact h.1
    | right a l => exact h.2
  | cons g fs ih =>
    have hb : Balanced (f.plug t) := ih h
    cases f with
    | left a r => exact hb.2.2.1
    | right a l => exact hb.2.2.2

theorem calmBelow_plug_congr {fs : List (Frame α)} {t t' : BinaryTree α}
    (hh : t.height = t'.height) (hb : Balanced t ↔ Balanced t')
    (hc : CalmBelow t ↔ CalmBelow t') : CalmBelow (plug fs t) ↔ CalmBelow (plug fs t') := by
  induction fs generalizing t t' with
  | nil => exact hc
  | cons f fs ih =>
    refine ih ?_ ?_ ?_ <;> cases f <;>
      simp only [Frame.plug, height, Balanced, CalmBelow, hh, hb]

/-- The label of the focus does not matter for the balance. -/
theorem calmBelow_plug_label {fs : List (Frame α)} (a b : α) {l r : BinaryTree α} :
    CalmBelow (plug fs (node a l r)) ↔ CalmBelow (plug fs (node b l r)) :=
  calmBelow_plug_congr rfl Iff.rfl Iff.rfl

/-- Putting `b` in the place of `a`. -/
def relabel [DecidableEq α] (a b : α) (c : α) : α := if c = a then b else c

theorem map_relabel_of_notMem [DecidableEq α] {a : α} (b : α) {t : BinaryTree α}
    (h : a ∉ inorder t) : t.map (relabel a b) = t := by
  induction t with
  | nil => rfl
  | node c l r ihl ihr =>
    simp only [inorder_node, List.mem_append, List.mem_cons, not_or] at h
    rw [BinaryTree.map, ihl h.1, ihr h.2.2, relabel, if_neg (Ne.symm h.2.1)]

theorem map_relabel_plug [DecidableEq α] {a : α} (b : α) {fs : List (Frame α)}
    {t : BinaryTree α} (h : a ∉ around fs) :
    (plug fs t).map (relabel a b) = plug fs (t.map (relabel a b)) := by
  induction fs generalizing t with
  | nil => rfl
  | cons f fs ih =>
    simp only [around, List.mem_cons, List.mem_append, not_or] at h
    rw [plug_cons, ih h.2.2, plug_cons]
    have hs := map_relabel_of_notMem b h.2.1
    have hlabel : relabel a b f.label = f.label := if_neg (Ne.symm h.1)
    cases f with
    | left c r => exact congrArg (plug fs) (congrArg₂ (fun c r => node c _ r) hlabel hs)
    | right c l => exact congrArg (plug fs) (congrArg₂ (fun c l => node c l _) hlabel hs)

/-- Relabelling the focus. -/
theorem map_relabel_focus [DecidableEq α] {a : α} (b : α) {fs : List (Frame α)}
    {l r : BinaryTree α} (h : (inorder (plug fs (node a l r))).Nodup) :
    (plug fs (node a l r)).map (relabel a b) = plug fs (node b l r) := by
  obtain ⟨hnd, -, hd⟩ := List.nodup_append.mp (nodup_plug.mp h)
  have hfs : a ∉ around fs := fun ha => hd a (by simp) a ha rfl
  obtain ⟨-, hr, hlr⟩ := List.nodup_append.mp hnd
  have hl : a ∉ inorder l := fun ha => hlr a ha a List.mem_cons_self rfl
  rw [map_relabel_plug b hfs, BinaryTree.map, map_relabel_of_notMem b hl,
    map_relabel_of_notMem b (List.nodup_cons.mp hr).1, relabel, if_pos rfl]

/-! ## Rotations -/

def rotateLeft : BinaryTree α → BinaryTree α
  | node a x (node b y z) => node b (node a x y) z
  | t => t

def rotateRight : BinaryTree α → BinaryTree α
  | node a (node b x y) z => node b x (node a y z)
  | t => t

/-- The rotation for a left subtree that is too deep. -/
def fixLeft : BinaryTree α → BinaryTree α
  | node a l r =>
    rotateRight (node a (if l.left.height < l.right.height then rotateLeft l else l) r)
  | t => t

/-- The rotation for a right subtree that is too deep. -/
def fixRight : BinaryTree α → BinaryTree α
  | node a l r =>
    rotateLeft (node a l (if r.right.height < r.left.height then rotateRight r else r))
  | t => t

/-- The AVL rotation at the root, where the depths differ by two. -/
def rebalance : BinaryTree α → BinaryTree α
  | node a l r =>
    if l.height = r.height + 2 then fixLeft (node a l r)
    else if l.height + 2 = r.height then fixRight (node a l r)
    else node a l r
  | t => t

@[simp] theorem inorder_rotateLeft (t : BinaryTree α) : inorder (rotateLeft t) = inorder t := by
  unfold rotateLeft; split <;> simp

@[simp] theorem inorder_rotateRight (t : BinaryTree α) : inorder (rotateRight t) = inorder t := by
  unfold rotateRight; split <;> simp

@[simp] theorem inorder_fixLeft (t : BinaryTree α) : inorder (fixLeft t) = inorder t := by
  cases t with
  | nil => rfl
  | node a l r =>
    rw [fixLeft, inorder_rotateRight]
    split <;> simp

@[simp] theorem inorder_fixRight (t : BinaryTree α) : inorder (fixRight t) = inorder t := by
  cases t with
  | nil => rfl
  | node a l r =>
    rw [fixRight, inorder_rotateLeft]
    split <;> simp

/-- **Rotations keep the order.** -/
@[simp] theorem inorder_rebalance (t : BinaryTree α) : inorder (rebalance t) = inorder t := by
  cases t with
  | nil => rfl
  | node a l r =>
    rw [rebalance]
    split
    · exact inorder_fixLeft _
    · split
      · exact inorder_fixRight _
      · rfl

theorem rebalance_of_balanced {t : BinaryTree α} (h : Balanced t) : rebalance t = t := by
  cases t with
  | nil => rfl
  | node a l r =>
    obtain ⟨h₁, h₂, -, -⟩ := h
    rw [rebalance, if_neg (by omega), if_neg (by omega)]

theorem balanced_fixLeft {a : α} {l r : BinaryTree α} (hl : Balanced l) (hr : Balanced r)
    (h : l.height = r.height + 2) : Balanced (fixLeft (node a l r)) := by
  match l, hl with
  | nil, _ => simp at h
  | node b x y, ⟨h₁, h₂, hx, hy⟩ =>
    simp only [height] at h
    rw [fixLeft]
    by_cases hxy : (node b x y).left.height < (node b x y).right.height
    · rw [if_pos hxy]
      have hxy : x.height < y.height := hxy
      match y, hy with
      | nil, _ => simp at hxy
      | node c u v, ⟨h₃, h₄, hu, hv⟩ =>
        simp only [height] at h h₁ h₂ hxy
        simp only [rotateLeft, rotateRight, Balanced, height]
        refine ⟨by omega, by omega, ⟨by omega, by omega, hx, hu⟩, by omega, by omega, hv, hr⟩
    · rw [if_neg hxy]
      have hxy : ¬x.height < y.height := hxy
      simp only [rotateRight, Balanced, height]
      refine ⟨by omega, by omega, hx, by omega, by omega, hy, hr⟩

theorem balanced_fixRight {a : α} {l r : BinaryTree α} (hl : Balanced l) (hr : Balanced r)
    (h : l.height + 2 = r.height) : Balanced (fixRight (node a l r)) := by
  match r, hr with
  | nil, _ => simp at h
  | node b x y, ⟨h₁, h₂, hx, hy⟩ =>
    simp only [height] at h
    rw [fixRight]
    by_cases hxy : (node b x y).right.height < (node b x y).left.height
    · rw [if_pos hxy]
      have hxy : y.height < x.height := hxy
      match x, hx with
      | nil, _ => simp at hxy
      | node c u v, ⟨h₃, h₄, hu, hv⟩ =>
        simp only [height] at h h₁ h₂ hxy
        simp only [rotateLeft, rotateRight, Balanced, height]
        refine ⟨by omega, by omega, ⟨by omega, by omega, hl, hu⟩, by omega, by omega, hv, hy⟩
    · rw [if_neg hxy]
      have hxy : ¬y.height < x.height := hxy
      simp only [rotateLeft, Balanced, height]
      refine ⟨by omega, by omega, ⟨by omega, by omega, hl, hx⟩, hy⟩

/-- The depth after the rotation, of a subtree on the left that is too deep. -/
theorem height_fixLeft {a : α} {l r : BinaryTree α} (hl : Balanced l)
    (h : l.height = r.height + 2) :
    (fixLeft (node a l r)).height = l.height + 1 ∨ (fixLeft (node a l r)).height = l.height := by
  match l, hl with
  | nil, _ => simp at h
  | node b x y, ⟨h₁, h₂, _, hy⟩ =>
    simp only [height] at h
    rw [fixLeft]
    by_cases hxy : (node b x y).left.height < (node b x y).right.height
    · rw [if_pos hxy]
      have hxy : x.height < y.height := hxy
      match y, hy with
      | nil, _ => simp at hxy
      | node c u v, ⟨h₃, h₄, _, _⟩ =>
        simp only [height] at h h₁ h₂ hxy
        simp only [rotateLeft, rotateRight, height]
        omega
    · rw [if_neg hxy]
      have hxy : ¬x.height < y.height := hxy
      simp only [rotateRight, height]
      omega

theorem height_fixRight {a : α} {l r : BinaryTree α} (hr : Balanced r)
    (h : l.height + 2 = r.height) :
    (fixRight (node a l r)).height = r.height + 1 ∨ (fixRight (node a l r)).height = r.height := by
  match r, hr with
  | nil, _ => simp at h
  | node b x y, ⟨h₁, h₂, hx, _⟩ =>
    simp only [height] at h
    rw [fixRight]
    by_cases hxy : (node b x y).right.height < (node b x y).left.height
    · rw [if_pos hxy]
      have hxy : y.height < x.height := hxy
      match x, hx with
      | nil, _ => simp at hxy
      | node c u v, ⟨h₃, h₄, _, _⟩ =>
        simp only [height] at h h₁ h₂ hxy
        simp only [rotateLeft, rotateRight, height]
        omega
    · rw [if_neg hxy]
      have hxy : ¬y.height < x.height := hxy
      simp only [rotateLeft, height]
      omega

/-- **The rotation restores the balance** of a tree that is calm below the root. -/
theorem balanced_rebalance {a : α} {l r : BinaryTree α} (hl : Balanced l) (hr : Balanced r)
    (h₁ : l.height ≤ r.height + 2) (h₂ : r.height ≤ l.height + 2) :
    Balanced (rebalance (node a l r)) := by
  rw [rebalance]
  split
  · rename_i h; exact balanced_fixLeft hl hr h
  · split
    · rename_i h; exact balanced_fixRight hl hr h
    · exact ⟨by omega, by omega, hl, hr⟩

theorem map_rotateLeft {β : Type u} (f : α → β) (t : BinaryTree α) :
    (rotateLeft t).map f = rotateLeft (t.map f) := by
  match t with
  | nil | node _ _ nil | node _ _ (node _ _ _) => rfl

theorem map_rotateRight {β : Type u} (f : α → β) (t : BinaryTree α) :
    (rotateRight t).map f = rotateRight (t.map f) := by
  match t with
  | nil | node _ nil _ | node _ (node _ _ _) _ => rfl

theorem map_left {β : Type u} (f : α → β) (t : BinaryTree α) : t.left.map f = (t.map f).left := by
  cases t <;> rfl

theorem map_right {β : Type u} (f : α → β) (t : BinaryTree α) :
    t.right.map f = (t.map f).right := by
  cases t <;> rfl

/-- Rotations look at depths only. -/
theorem map_rebalance {β : Type u} (f : α → β) (t : BinaryTree α) :
    (rebalance t).map f = rebalance (t.map f) := by
  have hl : ∀ t : BinaryTree α, (t.map f).left.height = t.left.height := by
    intro t
    rw [← map_left, height_map]
  have hr : ∀ t : BinaryTree α, (t.map f).right.height = t.right.height := by
    intro t
    rw [← map_right, height_map]
  cases t with
  | nil => rfl
  | node a l r =>
    simp only [rebalance, BinaryTree.map, height_map, fixLeft, fixRight, hl, hr]
    split
    · rw [map_rotateRight, BinaryTree.map]
      split
      · rw [map_rotateLeft]
      · rfl
    · split
      · rw [map_rotateLeft, BinaryTree.map]
        split
        · rw [map_rotateRight]
        · rfl
      · rfl

/-! ## Walking up from a focus -/

/-- What hangs below the old root after `rebalance`. -/
def kept : BinaryTree α → BinaryTree α
  | nil => nil
  | node a l r =>
    if l.height = r.height + 2 then (rebalance (node a l r)).right
    else if l.height + 2 = r.height then (rebalance (node a l r)).left
    else node a l r

/-- Rebalancing from the focus up to the root when only the outcome of the last rotation is linked:
of every other one, what hangs below the old root stays. -/
def settle : List (Frame α) → BinaryTree α → BinaryTree α
  | [], t => rebalance t
  | f :: fs, t => settle fs (f.plug (kept t))

theorem kept_of_balanced {t : BinaryTree α} (h : Balanced t) : kept t = t := by
  cases t with
  | nil => rfl
  | node a l r =>
    obtain ⟨h₁, h₂, -, -⟩ := h
    rw [kept, if_neg (by omega), if_neg (by omega)]

/-- A rotation to the right splits the left subtree. -/
theorem fixLeft_eq (a : α) {l : BinaryTree α} (r : BinaryTree α) (hl : l ≠ nil) :
    ∃ c u v, fixLeft (node a l r) = node c u (node a v r) ∧
      inorder l = inorder u ++ c :: inorder v ∧ v.height ≤ l.height := by
  match l, hl with
  | node b x y, _ =>
    rw [fixLeft]
    split
    · match y with
      | nil => exact ⟨b, x, nil, rfl, rfl, Nat.zero_le _⟩
      | node c u v => exact ⟨c, node b x u, v, rfl, by simp, by simp only [height]; omega⟩
    · exact ⟨b, x, y, rfl, rfl, by simp only [height]; omega⟩

/-- A rotation to the left splits the right subtree. -/
theorem fixRight_eq (a : α) (l : BinaryTree α) {r : BinaryTree α} (hr : r ≠ nil) :
    ∃ c u v, fixRight (node a l r) = node c (node a l u) v ∧
      inorder r = inorder u ++ c :: inorder v ∧ u.height ≤ r.height := by
  match r, hr with
  | node b x y, _ =>
    rw [fixRight]
    split
    · match x with
      | nil => exact ⟨b, nil, y, rfl, rfl, Nat.zero_le _⟩
      | node c u v => exact ⟨c, u, node b v y, rfl, by simp, by simp only [height]; omega⟩
    · exact ⟨b, x, y, rfl, rfl, by simp only [height]; omega⟩

/-- The three ways the subtree below the old root can look. -/
theorem kept_cases (a : α) (l r : BinaryTree α) :
    (l.height = r.height + 2 ∧ ∃ c u v, rebalance (node a l r) = node c u (node a v r) ∧
      kept (node a l r) = node a v r ∧ inorder l = inorder u ++ c :: inorder v ∧
      v.height ≤ l.height) ∨
    (l.height + 2 = r.height ∧ ∃ c u v, rebalance (node a l r) = node c (node a l u) v ∧
      kept (node a l r) = node a l u ∧ inorder r = inorder u ++ c :: inorder v ∧
      u.height ≤ r.height) ∨
    (l.height ≠ r.height + 2 ∧ l.height + 2 ≠ r.height ∧ rebalance (node a l r) = node a l r ∧
      kept (node a l r) = node a l r) := by
  by_cases h₁ : l.height = r.height + 2
  · have hl : l ≠ nil := by rintro rfl; simp at h₁
    obtain ⟨c, u, v, hf, hin, hv⟩ := fixLeft_eq a r hl
    have hreb : rebalance (node a l r) = node c u (node a v r) := by rw [rebalance, if_pos h₁, hf]
    exact .inl ⟨h₁, c, u, v, hreb, by rw [kept, if_pos h₁, hreb]; rfl, hin, hv⟩
  · by_cases h₂ : l.height + 2 = r.height
    · have hr : r ≠ nil := by rintro rfl; simp at h₂
      obtain ⟨c, u, v, hf, hin, hu⟩ := fixRight_eq a l hr
      have hreb : rebalance (node a l r) = node c (node a l u) v := by
        rw [rebalance, if_neg h₁, if_pos h₂, hf]
      exact .inr (.inl ⟨h₂, c, u, v, hreb, by rw [kept, if_neg h₁, if_pos h₂, hreb]; rfl, hin, hu⟩)
    · exact .inr (.inr ⟨h₁, h₂, by rw [rebalance, if_neg h₁, if_neg h₂],
        by rw [kept, if_neg h₁, if_neg h₂]⟩)

@[simp] theorem root_kept (t : BinaryTree α) : root (kept t) = root t := by
  cases t with
  | nil => rfl
  | node a l r =>
    rcases kept_cases a l r with ⟨-, c, u, v, -, h, -⟩ | ⟨-, c, u, v, -, h, -⟩ | ⟨-, -, -, h⟩ <;>
      rw [h] <;> rfl

theorem inorder_kept_sublist (t : BinaryTree α) : (inorder (kept t)).Sublist (inorder t) := by
  cases t with
  | nil => exact .refl _
  | node a l r =>
    rcases kept_cases a l r with
      ⟨-, c, u, v, -, h, hin, -⟩ | ⟨-, c, u, v, -, h, hin, -⟩ | ⟨-, -, -, h⟩
    · rw [h, inorder_node, inorder_node, hin, List.append_assoc]
      exact (((List.sublist_append_right [c] (inorder v)).append (.refl _)).trans
        (List.sublist_append_right _ _))
    · rw [h, inorder_node, inorder_node, hin]
      exact (List.sublist_append_left _ _).cons_cons a |>.append_left _
    · rw [h]

/-- A rotation cuts something off. -/
theorem numNodes_kept_lt {a : α} {l r : BinaryTree α}
    (h : l.height = r.height + 2 ∨ l.height + 2 = r.height) :
    (kept (node a l r)).numNodes < (node a l r).numNodes := by
  rcases kept_cases a l r with
    ⟨-, c, u, v, -, hk, hin, -⟩ | ⟨-, c, u, v, -, hk, hin, -⟩ | ⟨h₁, h₂, -⟩
  · have := congrArg List.length hin
    rw [List.length_append, List.length_cons] at this
    simp only [length_inorder] at this
    rw [hk]
    simp only [numNodes]
    omega
  · have := congrArg List.length hin
    rw [List.length_append, List.length_cons] at this
    simp only [length_inorder] at this
    rw [hk]
    simp only [numNodes]
    omega
  · omega

theorem inorder_plug_sublist (fs : List (Frame α)) {t t' : BinaryTree α}
    (h : (inorder t').Sublist (inorder t)) :
    (inorder (plug fs t')).Sublist (inorder (plug fs t)) := by
  rw [inorder_plug, inorder_plug]
  exact (h.append_left _).append_right _

/-- Walking up loses elements, and adds none. -/
theorem inorder_settle_sublist (fs : List (Frame α)) (t : BinaryTree α) :
    (inorder (settle fs t)).Sublist (inorder (plug fs t)) := by
  induction fs generalizing t with
  | nil => rw [settle, inorder_rebalance]; exact .refl _
  | cons f fs ih =>
    exact (ih _).trans (inorder_plug_sublist (f :: fs) (inorder_kept_sublist t))

theorem numNodes_settle_le (fs : List (Frame α)) (t : BinaryTree α) :
    (settle fs t).numNodes ≤ (plug fs t).numNodes := by
  rw [← length_inorder, ← length_inorder]
  exact (inorder_settle_sublist fs t).length_le

theorem exists_lost {fs : List (Frame α)} {t : BinaryTree α} (hnd : (inorder (plug fs t)).Nodup)
    (h : (settle fs t).numNodes < (plug fs t).numNodes) :
    ∃ a ∈ inorder (plug fs t), a ∉ inorder (settle fs t) := by
  by_contra hall
  push Not at hall
  have := (hnd.subperm hall).length_le
  rw [length_inorder, length_inorder] at this
  omega

/-- **Nothing is lost** on the way up through a tree that is calm below its root. -/
theorem settle_of_calm {fs : List (Frame α)} {t : BinaryTree α} (h : CalmBelow (plug fs t)) :
    settle fs t = rebalance (plug fs t) := by
  induction fs generalizing t with
  | nil => rfl
  | cons f fs ih =>
    rw [settle, kept_of_balanced h.focus]
    exact ih h

theorem height_plug_near (f : Frame α) {s t : BinaryTree α} (h₁ : t.height ≤ s.height + 1)
    (h₂ : s.height ≤ t.height + 1) :
    (f.plug t).height ≤ (f.plug s).height + 1 ∧ (f.plug s).height ≤ (f.plug t).height + 1 := by
  cases f <;> simp only [Frame.plug, height] <;> omega

theorem numNodes_plug_lt (fs : List (Frame α)) {t t' : BinaryTree α}
    (h : t'.numNodes < t.numNodes) : (plug fs t').numNodes < (plug fs t).numNodes := by
  induction fs generalizing t t' with
  | nil => exact h
  | cons f fs ih =>
    apply ih
    cases f <;> simp only [Frame.plug, numNodes] <;> omega

/-- **Something is lost** on the way up through any other tree that came from a balanced one by
changing the depth of the focus by at most one. -/
theorem calm_or_lost {fs : List (Frame α)} {s t : BinaryTree α} (hs : Balanced (plug fs s))
    (ht : Balanced t) (h₁ : t.height ≤ s.height + 1) (h₂ : s.height ≤ t.height + 1) :
    CalmBelow (plug fs t) ∨ (settle fs t).numNodes < (plug fs t).numNodes := by
  induction fs generalizing s t with
  | nil => exact .inl ht.calmBelow
  | cons f fs ih =>
    rw [plug_cons] at hs
    have hfs := hs.of_plug
    have hnear := height_plug_near f h₁ h₂
    rw [settle, kept_of_balanced ht]
    by_cases hft : Balanced (f.plug t)
    · exact ih hs hft hnear.1 hnear.2
    · cases fs with
      | nil =>
        -- the unbalanced node is the root
        refine .inl ?_
        cases f with
        | left a r => exact ⟨ht, hfs.2.2.2⟩
        | right a l => exact ⟨hfs.2.2.1, ht⟩
      | cons g gs =>
        have hlt : (kept (f.plug t)).numNodes < (f.plug t).numNodes := by
          cases f with
          | left a r =>
            obtain ⟨hb₁, hb₂, -, hr⟩ := hfs
            have : ¬(t.height ≤ r.height + 1 ∧ r.height ≤ t.height + 1) := fun h =>
              hft ⟨h.1, h.2, ht, hr⟩
            exact numNodes_kept_lt (by omega)
          | right a l =>
            obtain ⟨hb₁, hb₂, hl, -⟩ := hfs
            have : ¬(l.height ≤ t.height + 1 ∧ t.height ≤ l.height + 1) := fun h =>
              hft ⟨h.1, h.2, hl, ht⟩
            exact numNodes_kept_lt (by omega)
        exact .inr (Nat.lt_of_le_of_lt (numNodes_settle_le gs (g.plug (kept (f.plug t))))
          (numNodes_plug_lt (g :: gs) hlt))

/-- Where the focus has not become deeper, a rotation above it cuts into the other side. -/
theorem kept_plug {f : Frame α} {s t : BinaryTree α} (hs : Balanced (f.plug s))
    (h : t.height ≤ s.height) :
    (∀ a ∈ inorder t, a ∈ inorder (kept (f.plug t))) ∧
      (kept (f.plug t)).height ≤ (f.plug s).height := by
  cases f with
  | left a r =>
    obtain ⟨hb₁, hb₂, -, -⟩ := hs
    simp only [Frame.plug]
    rcases kept_cases a t r with ⟨h₁, -⟩ | ⟨-, c, u, v, -, hk, -, hu⟩ | ⟨-, -, -, hk⟩
    · omega
    · rw [hk]
      exact ⟨fun b hb => List.mem_append_left _ hb, by simp only [height]; omega⟩
    · rw [hk]
      exact ⟨fun b hb => List.mem_append_left _ hb, by simp only [height]; omega⟩
  | right a l =>
    obtain ⟨hb₁, hb₂, -, -⟩ := hs
    simp only [Frame.plug]
    rcases kept_cases a l t with ⟨-, c, u, v, -, hk, -, hv⟩ | ⟨h₁, -⟩ | ⟨-, -, -, hk⟩
    · rw [hk]
      exact ⟨fun b hb => by simp [hb], by simp only [height]; omega⟩
    · omega
    · rw [hk]
      exact ⟨fun b hb => by simp [hb], by simp only [height]; omega⟩

/-- **A walk up from a focus that has not become deeper** keeps the focus and the path. -/
theorem mem_settle {fs : List (Frame α)} {s t : BinaryTree α} {a : α} (hs : Balanced (plug fs s))
    (h : (kept t).height ≤ s.height) (ha : a ∈ inorder (kept t) ∨ a ∈ fs.map Frame.label) :
    a ∈ inorder (settle fs t) := by
  induction fs generalizing s t with
  | nil =>
    rw [settle, inorder_rebalance]
    rcases ha with ha | ha
    · exact (inorder_kept_sublist t).subset ha
    · cases ha
  | cons f fs ih =>
    rw [plug_cons] at hs
    have hk := kept_plug hs.of_plug h
    apply ih hs hk.2
    rcases ha with ha | ha
    · exact .inl (hk.1 a ha)
    · rcases List.mem_cons.mp ha with rfl | ha
      · refine .inl (root_mem ?_)
        cases f <;> rw [root_kept] <;> rfl
      · exact .inr ha

/-! ## Insertion -/

section Insert

variable (lt : α → α → Bool) (x : α)

/-- Insertion as a leaf: left of greater elements, right of the others. -/
def insertLeaf : BinaryTree α → BinaryTree α
  | nil => node x nil nil
  | node a l r => if lt x a then node a (insertLeaf l) r else node a l (insertLeaf r)

/-- The path below `fs` on which `insertLeaf` goes down. -/
def descent : BinaryTree α → List (Frame α) → List (Frame α)
  | nil, fs => fs
  | node a l r, fs =>
    if lt x a then descent l (.left a r :: fs) else descent r (.right a l :: fs)

theorem plug_descent (t : BinaryTree α) (fs : List (Frame α)) :
    plug (descent lt x t fs) nil = plug fs t ∧
      plug (descent lt x t fs) (node x nil nil) = plug fs (insertLeaf lt x t) := by
  induction t generalizing fs with
  | nil => exact ⟨rfl, rfl⟩
  | node a l r ihl ihr =>
    rw [descent, insertLeaf]
    split
    · exact ihl (.left a r :: fs)
    · exact ihr (.right a l :: fs)

theorem length_descent (t : BinaryTree α) (fs : List (Frame α)) :
    (descent lt x t fs).length ≤ fs.length + t.height := by
  induction t generalizing fs with
  | nil => exact Nat.le_refl _
  | node a l r ihl ihr =>
    rw [descent]
    have hl := ihl (.left a r :: fs)
    have hr := ihr (.right a l :: fs)
    simp only [List.length_cons] at hl hr
    simp only [height]
    split <;> omega

theorem height_insertLeaf (t : BinaryTree α) :
    t.height ≤ (insertLeaf lt x t).height ∧ (insertLeaf lt x t).height ≤ t.height + 1 := by
  induction t with
  | nil => simp [insertLeaf]
  | node a l r ihl ihr =>
    rw [insertLeaf]
    split <;> · simp only [height]; omega

/-- **The inserted element finds its place**: it splits the order into the smaller and the greater
elements. -/
theorem inorder_insertLeaf {t : BinaryTree α}
    (hsort : (inorder t).Pairwise fun a b => lt a b = true)
    (htotal : ∀ a ∈ inorder t, lt x a = true ∨ lt a x = true)
    (habove : ∀ a ∈ inorder t, ∀ b ∈ inorder t, lt x a = true → lt a b = true → lt x b = true)
    (hbelow : ∀ a ∈ inorder t, ∀ b ∈ inorder t, lt a b = true → lt b x = true → lt a x = true) :
    ∃ l₁ l₂, inorder t = l₁ ++ l₂ ∧ inorder (insertLeaf lt x t) = l₁ ++ x :: l₂ ∧
      (∀ a ∈ l₁, lt a x = true) ∧ ∀ a ∈ l₂, lt x a = true := by
  induction t with
  | nil => exact ⟨[], [], rfl, rfl, by simp, by simp⟩
  | node a l r ihl ihr =>
    simp only [inorder_node] at hsort htotal habove hbelow ⊢
    obtain ⟨hl, hr, hlr⟩ := List.pairwise_append.mp hsort
    obtain ⟨har, hr⟩ := List.pairwise_cons.mp hr
    have ha : a ∈ inorder l ++ a :: inorder r := by simp
    have hinl : ∀ b ∈ inorder l, b ∈ inorder l ++ a :: inorder r := fun b hb => by simp [hb]
    have hinr : ∀ b ∈ inorder r, b ∈ inorder l ++ a :: inorder r := fun b hb => by simp [hb]
    rw [insertLeaf]
    split
    · rename_i hxa
      obtain ⟨l₁, l₂, h₁, h₂, hlt, hgt⟩ := ihl hl (fun b hb => htotal b (hinl b hb))
        (fun b hb c hc => habove b (hinl b hb) c (hinl c hc))
        (fun b hb c hc => hbelow b (hinl b hb) c (hinl c hc))
      refine ⟨l₁, l₂ ++ a :: inorder r, by rw [h₁, List.append_assoc], ?_, hlt, ?_⟩
      · rw [inorder_node, h₂, List.append_assoc, List.cons_append]
      · intro b hb
        rcases List.mem_append.mp hb with hb | hb
        · exact hgt b hb
        · rcases List.mem_cons.mp hb with rfl | hb
          · exact hxa
          · exact habove a ha b (hinr b hb) hxa (har b hb)
    · rename_i hxa
      have hax : lt a x = true := (htotal a ha).resolve_left hxa
      obtain ⟨l₁, l₂, h₁, h₂, hlt, hgt⟩ := ihr hr (fun b hb => htotal b (hinr b hb))
        (fun b hb c hc => habove b (hinr b hb) c (hinr c hc))
        (fun b hb c hc => hbelow b (hinr b hb) c (hinr c hc))
      refine ⟨inorder l ++ a :: l₁, l₂, by rw [h₁]; simp, by simp [h₂], ?_, hgt⟩
      intro b hb
      rcases List.mem_append.mp hb with hb | hb
      · exact hbelow b (hinl b hb) a ha (hlr b hb a List.mem_cons_self) hax
      · rcases List.mem_cons.mp hb with rfl | hb
        · exact hax
        · exact hlt b hb

theorem perm_insertLeaf (t : BinaryTree α) :
    (inorder (insertLeaf lt x t)).Perm (x :: inorder t) := by
  induction t with
  | nil => exact .refl _
  | node a l r ihl ihr =>
    rw [insertLeaf]
    split
    · exact ihl.append_right _
    · simp only [inorder_node]
      refine ((ihr.cons a).append_left _).trans ?_
      refine ((List.Perm.swap x a _).append_left _).trans ?_
      exact List.perm_middle

variable {lt x} in
/-- Insertion into a balanced tree, with the rotation at the root. -/
theorem balanced_insertLeaf {t : BinaryTree α} (hb : Balanced t)
    (hc : CalmBelow (insertLeaf lt x t)) : Balanced (rebalance (insertLeaf lt x t)) := by
  cases t with
  | nil => exact ⟨Nat.le_succ _, Nat.le_succ _, trivial, trivial⟩
  | node a l r =>
    obtain ⟨h₁, h₂, -, -⟩ := hb
    have hl := height_insertLeaf lt x l
    have hr := height_insertLeaf lt x r
    rw [insertLeaf] at hc ⊢
    split at hc
    · rename_i hxa
      rw [if_pos hxa]
      exact balanced_rebalance hc.1 hc.2 (by omega) (by omega)
    · rename_i hxa
      rw [if_neg hxa]
      exact balanced_rebalance hc.1 hc.2 (by omega) (by omega)

end Insert

/-! ## Removal -/

/-- The first element of `node a l r`. -/
def leftmost (a : α) : BinaryTree α → α
  | nil => a
  | node b l _ => leftmost b l

/-- Remove the first element; its place is taken by the first element behind it below the same
node, if there is one. -/
def removeMin : BinaryTree α → BinaryTree α
  | nil => nil
  | node _ nil nil => nil
  | node _ nil (node b l r) => node (leftmost b l) nil (removeMin (node b l r))
  | node a (node b l r) r' => node a (removeMin (node b l r)) r'

/-- Remove the root of `node a l r`; the first element of `r` takes its place. -/
def removeRoot (l : BinaryTree α) : BinaryTree α → BinaryTree α
  | nil => l
  | node b l' r' => node (leftmost b l') l (removeMin (node b l' r'))

/-- Remove `x`. -/
def remove [DecidableEq α] (x : α) : BinaryTree α → BinaryTree α
  | nil => nil
  | node a l r => if a = x then removeRoot l r else node a (remove x l) (remove x r)

theorem removeMin_nil_left (a : α) (r : BinaryTree α) :
    removeMin (node a nil r) = removeRoot nil r := by
  cases r <;> rfl

/-- The first element in focus: it has no left child. -/
theorem exists_leftmost (a : α) (l r : BinaryTree α) :
    ∃ fs r', node a l r = plug fs (node (leftmost a l) nil r') ∧
      removeMin (node a l r) = plug fs (removeRoot nil r') := by
  induction l generalizing a r with
  | nil => exact ⟨[], r, rfl, removeMin_nil_left a r⟩
  | node b l' r' ihl ihr =>
    obtain ⟨fs, r'', h₁, h₂⟩ := ihl b r'
    refine ⟨fs ++ [.left a r], r'', ?_, ?_⟩
    · rw [leftmost, plug_append, ← h₁]; rfl
    · rw [removeMin, plug_append, ← h₂]; rfl

theorem inorder_removeMin (a : α) (l r : BinaryTree α) :
    inorder (node a l r) = leftmost a l :: inorder (removeMin (node a l r)) := by
  suffices h : ∀ t : BinaryTree α, ∀ a l r, t = node a l r →
      inorder t = leftmost a l :: inorder (removeMin t) from h _ a l r rfl
  intro t
  induction t with
  | nil => intro a l r h; cases h
  | node a l r ihl ihr =>
    rintro _ _ _ ⟨⟩
    match l, r with
    | nil, nil => rfl
    | nil, node b l' r' =>
      have := ihr b l' r' rfl
      rw [inorder_node, this]
      rfl
    | node b l' r', r =>
      have := ihl b l' r' rfl
      rw [inorder_node, this]
      rfl

theorem inorder_removeRoot (l r : BinaryTree α) :
    inorder (removeRoot l r) = inorder l ++ inorder r := by
  cases r with
  | nil => simp [removeRoot]
  | node b l' r' => rw [removeRoot, inorder_node, ← inorder_removeMin]

theorem height_removeMin (a : α) (l r : BinaryTree α) :
    (removeMin (node a l r)).height ≤ (node a l r).height ∧
      (node a l r).height ≤ (removeMin (node a l r)).height + 1 := by
  suffices h : ∀ t : BinaryTree α, (removeMin t).height ≤ t.height ∧
      t.height ≤ (removeMin t).height + 1 from h _
  intro t
  induction t with
  | nil => simp [removeMin]
  | node a l r ihl ihr =>
    match l, r with
    | nil, nil => simp [removeMin]
    | nil, node b l' r' => rw [removeMin]; simp only [height] at ihr ⊢; omega
    | node b l' r', r => rw [removeMin]; simp only [height] at ihl ⊢; omega

theorem height_removeRoot (a : α) (l r : BinaryTree α) :
    (removeRoot l r).height ≤ (node a l r).height ∧
      (node a l r).height ≤ (removeRoot l r).height + 1 := by
  cases r with
  | nil => simp [removeRoot]
  | node b l' r' =>
    have := height_removeMin b l' r'
    rw [removeRoot]
    simp only [height] at this ⊢
    omega

section Remove

variable [DecidableEq α] {x : α}

theorem remove_of_notMem {t : BinaryTree α} (h : x ∉ inorder t) : remove x t = t := by
  induction t with
  | nil => rfl
  | node a l r ihl ihr =>
    simp only [inorder_node, List.mem_append, List.mem_cons, not_or] at h
    rw [remove, if_neg (Ne.symm h.2.1), ihl h.1, ihr h.2.2]

theorem height_remove (t : BinaryTree α) (h : (inorder t).Nodup) :
    (remove x t).height ≤ t.height ∧ t.height ≤ (remove x t).height + 1 := by
  induction t with
  | nil => simp [remove]
  | node a l r ihl ihr =>
    obtain ⟨hl, hr, -⟩ := List.nodup_append.mp h
    have := ihl hl
    have := ihr (List.nodup_cons.mp hr).2
    rw [remove]
    split
    · exact height_removeRoot a l r
    · simp only [height]; omega

/-- Removal at the focus. -/
theorem remove_plug {fs : List (Frame α)} {l r : BinaryTree α}
    (h : (inorder (plug fs (node x l r))).Nodup) :
    remove x (plug fs (node x l r)) = plug fs (removeRoot l r) := by
  suffices hs : ∀ (fs : List (Frame α)) (t t' : BinaryTree α), x ∈ inorder t →
      (inorder (plug fs t)).Nodup → remove x t = t' → remove x (plug fs t) = plug fs t' from
    hs fs _ _ (by simp) h (by simp [remove])
  intro fs
  induction fs with
  | nil => exact fun t t' _ _ h => h
  | cons f fs ih =>
    intro t t' hx hnd ht
    have hnd' : (inorder (f.plug t)).Nodup := by
      rw [plug_cons, inorder_plug] at hnd
      exact (List.nodup_append.mp (List.nodup_append.mp hnd).1).2.1
    refine ih (f.plug t) (f.plug t') ?_ hnd ?_
    · cases f <;> simp [Frame.plug, hx]
    · cases f with
      | left a s =>
        obtain ⟨-, -, hd⟩ := List.nodup_append.mp hnd'
        have ha : a ≠ x := fun h => hd x hx a List.mem_cons_self h.symm
        have hs : x ∉ inorder s := fun h => hd x hx x (List.mem_cons_of_mem _ h) rfl
        simp only [Frame.plug, remove, if_neg ha, ht, remove_of_notMem hs]
      | right a s =>
        obtain ⟨-, hnt, hd⟩ := List.nodup_append.mp hnd'
        have ha : a ≠ x := fun h => (List.nodup_cons.mp hnt).1 (h ▸ hx)
        have hs : x ∉ inorder s := fun h => hd x h x (List.mem_cons_of_mem _ hx) rfl
        simp only [Frame.plug, remove, if_neg ha, ht, remove_of_notMem hs]

/-- **Removal removes one element** from the order. -/
theorem inorder_remove {t : BinaryTree α} (hx : x ∈ inorder t) (h : (inorder t).Nodup) :
    ∃ l₁ l₂, inorder t = l₁ ++ x :: l₂ ∧ inorder (remove x t) = l₁ ++ l₂ := by
  obtain ⟨fs, l, r, rfl⟩ := exists_focus hx
  refine ⟨before fs ++ inorder l, inorder r ++ after fs, ?_, ?_⟩
  · simp [inorder_plug]
  · rw [remove_plug h, inorder_plug, inorder_removeRoot]; simp

/-- Removal from a balanced tree, with the rotation at the root. -/
theorem balanced_remove {t : BinaryTree α} (hb : Balanced t) (h : (inorder t).Nodup)
    (hc : CalmBelow (remove x t)) : Balanced (rebalance (remove x t)) := by
  cases t with
  | nil => trivial
  | node a l r =>
    obtain ⟨h₁, h₂, hbl, hbr⟩ := hb
    obtain ⟨hl, hr, hd⟩ := List.nodup_append.mp h
    rw [remove] at hc ⊢
    split at hc
    · rename_i hax
      rw [if_pos hax]
      cases r with
      | nil => rw [removeRoot, rebalance_of_balanced hbl]; exact hbl
      | node b l' r' =>
        have := height_removeMin b l' r'
        exact balanced_rebalance hc.1 hc.2 (by omega) (by omega)
    · rename_i hax
      rw [if_neg hax]
      have hhl := height_remove (x := x) l hl
      have hhr := height_remove (x := x) r (List.nodup_cons.mp hr).2
      by_cases hxl : x ∈ inorder l
      · have hxr : x ∉ inorder r := fun hxr => hd x hxl x (List.mem_cons_of_mem _ hxr) rfl
        rw [remove_of_notMem hxr] at hc ⊢
        exact balanced_rebalance hc.1 hc.2 (by omega) (by omega)
      · rw [remove_of_notMem hxl] at hc ⊢
        exact balanced_rebalance hc.1 hc.2 (by omega) (by omega)

end Remove

end Trees
