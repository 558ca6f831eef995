import Mathlib

/-!
# Cutting a stream into items

A `Framing` takes one item off the front of a stream: `next s` is the item and the number of
elements it takes.  What it takes is decided by these elements alone (`own`), so that neither what
follows nor how the stream was delivered matters.  `items` is the item-by-item parse of a whole
stream.

`Consumed c as` says that `c` is exactly what the items `as` take; a reader that has consumed `c`
sees the items of the rest (`Consumed.items`), and reading one item more extends `c`
(`Consumed.next`).
-/

set_option autoImplicit false

namespace Deframe

universe u v

structure Framing (β : Type u) (α : Type v) where
  next : List β → Option (α × Nat)
  pos : ∀ {s a k}, next s = some (a, k) → 0 < k
  le : ∀ {s a k}, next s = some (a, k) → k ≤ s.length
  own : ∀ {s a k}, next s = some (a, k) → ∀ t, next (s.take k ++ t) = some (a, k)

namespace Framing

variable {β : Type u} {α : Type v} (F : Framing β α)

/-- The items of a stream, up to the first place where there is none. -/
def items (s : List β) : List α :=
  match _h : F.next s with
  | none => []
  | some (a, k) => a :: items (s.drop k)
termination_by s.length
decreasing_by
  have := F.pos _h
  have := F.le _h
  rw [List.length_drop]
  omega

variable {F}

theorem items_none {s : List β} (h : F.next s = none) : F.items s = [] := by
  rw [items]
  split
  · rfl
  · rename_i heq; rw [h] at heq; cases heq

theorem items_some {s : List β} {a : α} {k : Nat} (h : F.next s = some (a, k)) :
    F.items s = a :: F.items (s.drop k) := by
  rw [items]
  split
  · rename_i heq; rw [h] at heq; cases heq
  · rename_i heq; rw [h] at heq; cases heq; rfl

/-- What holds of every item that `next` takes holds of all items. -/
theorem forall_items {P : α → Prop} (h : ∀ {s a k}, F.next s = some (a, k) → P a) (s : List β) :
    ∀ a ∈ F.items s, P a := by
  induction hn : s.length using Nat.strongRecOn generalizing s with
  | _ n ih =>
    cases hs : F.next s with
    | none => rw [items_none hs]; simp
    | some r =>
      obtain ⟨a, k⟩ := r
      have hpos := F.pos hs
      have hle := F.le hs
      rw [items_some hs]
      exact List.forall_mem_cons.mpr
        ⟨h hs, ih (s.drop k).length (by rw [List.length_drop]; omega) (s.drop k) rfl⟩

/-- What comes behind an item does not change it. -/
theorem next_append {s : List β} {a : α} {k : Nat} (h : F.next s = some (a, k)) (t : List β) :
    F.next (s ++ t) = some (a, k) := by
  have hown := F.own h (s.drop k ++ t)
  rwa [← List.append_assoc, List.take_append_drop] at hown

/-- A longer stream has the same items in front. -/
theorem items_prefix (s t : List β) : F.items s <+: F.items (s ++ t) := by
  induction hn : s.length using Nat.strongRecOn generalizing s with
  | _ n ih =>
    cases hs : F.next s with
    | none => rw [items_none hs]; exact List.nil_prefix
    | some r =>
      obtain ⟨a, k⟩ := r
      have hpos := F.pos hs
      have hle := F.le hs
      rw [items_some hs, items_some (next_append hs t), List.drop_append_of_le_length hle]
      exact (List.prefix_cons_inj a).mpr
        (ih (s.drop k).length (by rw [List.length_drop]; omega) (s.drop k) rfl)

variable (F) in
/-- The items `as` take exactly `c`. -/
def Consumed (c : List β) (as : List α) : Prop := ∀ t, F.items (c ++ t) = as ++ F.items t

theorem Consumed.nil : F.Consumed [] [] := fun _ => rfl

theorem Consumed.items {c : List β} {as : List α} (h : F.Consumed c as) (t : List β) :
    F.items (c ++ t) = as ++ F.items t := h t

theorem Consumed.prefix {c : List β} {as : List α} (h : F.Consumed c as) (t : List β) :
    as <+: F.items (c ++ t) := ⟨F.items t, (h t).symm⟩

theorem Consumed.next {c s : List β} {as : List α} {a : α} {k : Nat} (h : F.Consumed c as)
    (hn : F.next s = some (a, k)) : F.Consumed (c ++ s.take k) (as ++ [a]) := by
  intro t
  have hlen : (s.take k).length = k := List.length_take_of_le (F.le hn)
  have hdrop : (s.take k ++ t).drop k = t := by
    rw [List.drop_append_of_le_length (Nat.le_of_eq hlen.symm), List.drop_take_self, List.nil_append]
  rw [List.append_assoc, h, items_some (F.own hn t), hdrop, List.append_assoc]
  rfl

end Framing

end Deframe
