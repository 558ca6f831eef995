import Mathlib

/-!
# Circular doubly linked lists

`L a` are the two links of the node `a`.  `Ring L h xs` says that from the sentinel `h` the `next`
links lead through `xs` back to `h`, each node once, and that every `prev` link is the inverse of a
`next` link.

Unlinking a node and linking one in before the sentinel are given as the field writes that do it:
`Ring.unlink` and `Ring.append` name the neighbours that are found in the links, and the ring the
writes leave.
-/

set_option autoImplicit false

namespace Rings

universe u

structure Link (α : Type u) where
  prev : Option α := none
  next : Option α := none
  deriving DecidableEq, Repr

/-! ## Rings -/

section Ring

variable {α : Type u} {L L' : α → Link α} {h n : α} {xs ys zs : List α}

/-- `b` comes right after `a`. -/
def Adj (L : α → Link α) (a b : α) : Prop := (L a).next = some b ∧ (L b).prev = some a

/-- A chain does not depend on the `next` link of its last node and the `prev` link of its first. -/
theorem chain_frame : ∀ {l : List α}, l.IsChain (Adj L) →
    (∀ a ∈ l.dropLast, (L' a).next = (L a).next) → (∀ b ∈ l.tail, (L' b).prev = (L b).prev) →
    l.IsChain (Adj L')
  | [], _, _, _ => .nil
  | [_], _, _, _ => .singleton _
  | a :: b :: l, hc, hn, hp => by
    obtain ⟨⟨hab, hba⟩, hc⟩ := List.isChain_cons_cons.mp hc
    refine List.isChain_cons_cons.mpr ⟨⟨?_, ?_⟩, ?_⟩
    · exact (hn a (by simp)).trans hab
    · exact (hp b (by simp)).trans hba
    · refine chain_frame hc (fun x hx => hn x ?_) fun x hx => hp x ?_
      · simpa using .inr hx
      · exact List.mem_cons_of_mem _ hx

/-- The ring of the sentinel `h` and the nodes `xs`. -/
structure Ring (L : α → Link α) (h : α) (xs : List α) : Prop where
  nodup : (h :: xs).Nodup
  chain : (h :: xs ++ [h]).IsChain (Adj L)

theorem Ring.congr (hr : Ring L h xs) (heq : ∀ a ∈ h :: xs, L' a = L a) : Ring L' h xs where
  nodup := hr.nodup
  chain := by
    refine chain_frame hr.chain ?_ ?_
    · intro a ha
      rw [List.dropLast_concat] at ha
      rw [heq a ha]
    · intro b hb
      have hb : b ∈ xs ++ [h] := hb
      rw [heq b (by simpa [or_comm] using hb)]

theorem Ring.init (hp : (L h).prev = some h) (hn : (L h).next = some h) : Ring L h [] where
  nodup := List.nodup_singleton h
  chain := List.isChain_cons_cons.mpr ⟨⟨hn, hp⟩, .singleton h⟩

theorem Ring.next_nil (hr : Ring L h []) : (L h).next = some h :=
  (List.isChain_cons_cons.mp hr.chain).1.1

theorem Ring.next_cons (hr : Ring L h (n :: xs)) : (L h).next = some n :=
  (List.isChain_cons_cons.mp hr.chain).1.1

/-- The last node, or the sentinel. -/
theorem exists_last (h : α) (ys : List α) : ∃ A p, h :: ys = A ++ [p] :=
  ⟨_, _, (List.dropLast_append_getLast (List.cons_ne_nil h ys)).symm⟩

/-- What is left of a chain when the links of its ends are overwritten. -/
theorem chain_front {A : List α} {p : α} (hA : h :: ys = A ++ [p]) (hnd : (h :: ys).Nodup)
    (hc : (A ++ [p]).IsChain (Adj L)) (hn : ∀ a ∈ h :: ys, a ≠ p → (L' a).next = (L a).next)
    (hp : ∀ b ∈ ys, (L' b).prev = (L b).prev) : (A ++ [p]).IsChain (Adj L') := by
  refine chain_frame hc (fun a ha => hn a ?_ ?_) fun b hb => hp b ?_
  · rw [List.dropLast_concat] at ha
    rw [hA]
    exact List.mem_append_left _ ha
  · rintro rfl
    rw [List.dropLast_concat] at ha
    rw [hA] at hnd
    exact (List.disjoint_of_nodup_append hnd) ha List.mem_cons_self
  · rw [← hA] at hb
    exact hb

theorem chain_back {B : List α} {q : α} (hB : zs ++ [h] = q :: B) (hnd : (zs ++ [h]).Nodup)
    (hc : (q :: B).IsChain (Adj L)) (hn : ∀ a ∈ zs, (L' a).next = (L a).next)
    (hp : ∀ b ∈ zs ++ [h], b ≠ q → (L' b).prev = (L b).prev) : (q :: B).IsChain (Adj L') := by
  refine chain_frame hc (fun a ha => hn a ?_) fun b hb => hp b ?_ ?_
  · rw [← hB, List.dropLast_concat] at ha
    exact ha
  · rw [hB]
    exact List.mem_cons_of_mem _ hb
  · rintro rfl
    rw [hB] at hnd
    exact (List.nodup_cons.mp hnd).1 hb

end Ring

/-! ## Writes -/

variable {α : Type u} [DecidableEq α] {L : α → Link α} {h n : α} {xs ys zs : List α}

def setNext (L : α → Link α) (a : α) (v : Option α) : α → Link α :=
  Function.update L a { L a with next := v }

def setPrev (L : α → Link α) (a : α) (v : Option α) : α → Link α :=
  Function.update L a { L a with prev := v }

theorem setNext_next (L : α → Link α) (a b : α) (v : Option α) :
    (setNext L a v b).next = if b = a then v else (L b).next := by
  unfold setNext
  by_cases h : b = a
  · subst h; simp
  · simp [h]

@[simp] theorem setNext_prev (L : α → Link α) (a b : α) (v : Option α) :
    (setNext L a v b).prev = (L b).prev := by
  unfold setNext
  by_cases h : b = a
  · subst h; simp
  · simp [h]

theorem setPrev_prev (L : α → Link α) (a b : α) (v : Option α) :
    (setPrev L a v b).prev = if b = a then v else (L b).prev := by
  unfold setPrev
  by_cases h : b = a
  · subst h; simp
  · simp [h]

@[simp] theorem setPrev_next (L : α → Link α) (a b : α) (v : Option α) :
    (setPrev L a v b).next = (L b).next := by
  unfold setPrev
  by_cases h : b = a
  · subst h; simp
  · simp [h]

/-- **Unlinking** `n` from between `p` and `q`. -/
theorem Ring.unlink (hr : Ring L h (ys ++ n :: zs)) :
    ∃ p q, (L n).prev = some p ∧ (L n).next = some q ∧ p ∈ h :: ys ∧ q ∈ zs ++ [h] ∧
      Ring (setPrev (setNext L p (some q)) q (some p)) h (ys ++ zs) := by
  obtain ⟨A, p, hA⟩ := exists_last h ys
  obtain ⟨q, B, hB⟩ : ∃ q B, zs ++ [h] = q :: B := List.exists_cons_of_ne_nil (by simp)
  have hlist : h :: (ys ++ n :: zs) ++ [h] = A ++ p :: n :: q :: B := by
    rw [← hB, List.append_cons A p, ← hA]
    simp
  have hc := hr.chain
  rw [hlist, List.isChain_append_cons_cons] at hc
  obtain ⟨hcA, hpn, hc⟩ := hc
  obtain ⟨hnq, hcB⟩ := List.isChain_cons_cons.mp hc
  obtain ⟨hh, hnd⟩ := List.nodup_cons.mp hr.nodup
  obtain ⟨hndy, hndz, hdisj⟩ := List.nodup_append'.mp hnd
  have hndz := (List.nodup_cons.mp hndz).2
  have hhy : h ∉ ys := fun hm => hh (List.mem_append_left _ hm)
  have hhz : h ∉ zs := fun hm => hh (List.mem_append_right _ (List.mem_cons_of_mem _ hm))
  have hp : p ∈ h :: ys := by rw [hA]; simp
  have hq : q ∈ zs ++ [h] := by rw [hB]; simp
  have hyz : ∀ b ∈ ys, b ∉ zs ++ [h] := by
    intro b hb hm
    rcases List.mem_append.mp hm with hm | hm
    · exact hdisj hb (List.mem_cons_of_mem _ hm)
    · exact hhy (List.mem_singleton.mp hm ▸ hb)
  have hzy : ∀ a ∈ zs, a ∉ h :: ys := by
    intro a ha hm
    rcases List.mem_cons.mp hm with rfl | hm
    · exact hhz ha
    · exact hdisj hm (List.mem_cons_of_mem _ ha)
  refine ⟨p, q, hpn.2, hnq.1, hp, hq, ?_, ?_⟩
  · exact hr.nodup.sublist (((List.sublist_cons_self n zs).append_left ys).cons_cons h)
  · have hlist' : h :: (ys ++ zs) ++ [h] = A ++ p :: q :: B := by
      rw [← hB, List.append_cons A p, ← hA]
      simp
    rw [hlist', List.isChain_append_cons_cons]
    refine ⟨?_, ⟨?_, ?_⟩, ?_⟩
    · refine chain_front hA (List.nodup_cons.mpr ⟨hhy, hndy⟩) hcA ?_ ?_
      · intro a _ hap
        rw [setPrev_next, setNext_next, if_neg hap]
      · intro b hb
        rw [setPrev_prev, if_neg (fun heq : b = q => hyz b hb (heq ▸ hq)), setNext_prev]
    · rw [setPrev_next, setNext_next, if_pos rfl]
    · rw [setPrev_prev, if_pos rfl]
    · have hndB : (zs ++ [h]).Nodup :=
        List.nodup_append'.mpr ⟨hndz, List.nodup_singleton h, by simpa using hhz⟩
      refine chain_back hB hndB hcB ?_ ?_
      · intro a ha
        rw [setPrev_next, setNext_next, if_neg (fun heq : a = p => hzy a ha (heq ▸ hp))]
      · intro b _ hbq
        rw [setPrev_prev, if_neg hbq, setNext_prev]

/-- **Linking in** `n` between the last node `p` and the sentinel. -/
theorem Ring.append (hr : Ring L h xs) (hn : n ∉ h :: xs) :
    ∃ p, (L h).prev = some p ∧ p ∈ h :: xs ∧
      Ring (setPrev (setNext (setPrev (setNext L p (some n)) n (some p)) n (some h)) h (some n)) h
        (xs ++ [n]) := by
  obtain ⟨A, p, hA⟩ := exists_last h xs
  have hlist : h :: xs ++ [h] = A ++ p :: h :: [] := by
    rw [List.append_cons A p, ← hA]
  have hc := hr.chain
  rw [hlist, List.isChain_append_cons_cons] at hc
  obtain ⟨hcA, hph, -⟩ := hc
  have hp : p ∈ h :: xs := by rw [hA]; simp
  obtain ⟨hh, hnd⟩ := List.nodup_cons.mp hr.nodup
  have hnh : n ≠ h := fun heq => hn (heq ▸ List.mem_cons_self)
  have hnp : n ≠ p := fun heq => hn (heq ▸ hp)
  refine ⟨p, hph.2, hp, ?_, ?_⟩
  · rw [← List.cons_append]
    exact List.nodup_append'.mpr ⟨hr.nodup, List.nodup_singleton n, by simpa using hn⟩
  · have hlist' : h :: (xs ++ [n]) ++ [h] = A ++ p :: n :: [h] := by
      rw [List.append_cons A p, ← hA]
      simp
    rw [hlist', List.isChain_append_cons_cons, List.isChain_cons_cons]
    refine ⟨?_, ⟨?_, ?_⟩, ⟨?_, ?_⟩, .singleton h⟩
    · refine chain_front hA hr.nodup hcA ?_ ?_
      · intro a ha hap
        have han : a ≠ n := fun heq => hn (heq ▸ ha)
        rw [setPrev_next, setNext_next, if_neg han, setPrev_next, setNext_next, if_neg hap]
      · intro b hb
        have hbn : b ≠ n := fun heq => hn (heq ▸ List.mem_cons_of_mem _ hb)
        have hbh : b ≠ h := fun heq => hh (heq ▸ hb)
        rw [setPrev_prev, if_neg hbh, setNext_prev, setPrev_prev, if_neg hbn, setNext_prev]
    · rw [setPrev_next, setNext_next, if_neg hnp.symm, setPrev_next, setNext_next, if_pos rfl]
    · rw [setPrev_prev, if_neg hnh, setNext_prev, setPrev_prev, if_pos rfl]
    · rw [setPrev_next, setNext_next, if_pos rfl]
    · rw [setPrev_prev, if_pos rfl]

end Rings
