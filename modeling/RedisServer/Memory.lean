import RedisServer.Lib.Runs

/-!
# Faults, addresses and stores

The server keeps its objects on the C++ heap and links them by raw pointers.  A `Store` maps the
addresses of the live objects of one type to their contents; an access the language leaves
undefined, a failed `assert` and an escaping C++ exception are faults, and every modelled function
that can run into one returns in `Res`.

Addresses are never handed out twice, so a reference to a freed object is recognised when it is
followed (`Fault.useAfterFree`).
-/

set_option autoImplicit false

namespace RedisServer

/-- Why the process cannot go on. -/
inductive Fault where
  | nullDeref
  | nullZSet      -- `zset->tree` or `zset->hmap` read through a NULL `ZSet *`
  | useAfterFree
  | outOfBounds
  | typeConfusion -- `container_of` applied to a node embedded in another type
  | assertFailed
  | exception     -- std::invalid_argument or std::out_of_range
  | outOfFuel     -- a loop over links was followed for `Limits.steps` iterations
  | died          -- die(): the message of a failed system call, and exit()
  deriving DecidableEq, Repr

abbrev Res := Except Fault

/-- A `std::string`, a `char` buffer: any bytes, NUL included. -/
abbrev Bytes := List UInt8

abbrev Ptr := Nat

/-- The bytes of an ASCII literal of the source. -/
def ascii (s : String) : Bytes := s.toList.map (fun c => UInt8.ofNat c.toNat)

/-- Bounds the source does not have: `steps` limits the loops that follow tree links (the links
could form a cycle), `slack` is how many bytes behind the stack object `temp` of `zset_query` can
be overwritten without harm.  Results hold for all values, or for all large enough `steps`. -/
structure Limits where
  steps : Nat
  slack : Nat
  deriving DecidableEq, Repr

/-- `assert(b)`. -/
def assert (b : Bool) : Res Unit := if b then .ok () else .error .assertFailed

/-- `*p` for a pointer that may be NULL. -/
def deref : Option Ptr → Res Ptr
  | some p => .ok p
  | none => .error .nullDeref

@[simp] theorem assert_true : assert true = .ok () := rfl
@[simp] theorem assert_false : assert false = .error .assertFailed := rfl

theorem assert_ok {b : Bool} {u : Unit} : assert b = .ok u ↔ b = true := by
  cases b <;> simp [assert]

@[simp] theorem deref_some (p : Ptr) : deref (some p) = .ok p := rfl
@[simp] theorem deref_none : deref none = .error .nullDeref := rfl

/-- The live objects of one type, by address. -/
abbrev Store (α : Type) := Ptr → Option α

namespace Store

variable {α : Type}

def empty : Store α := fun _ => none

def read (s : Store α) (p : Ptr) : Res α :=
  match s p with
  | some a => .ok a
  | none => .error .useAfterFree

/-- `*p = a` on a live object, and the first write to a fresh one. -/
def write (s : Store α) (p : Ptr) (a : α) : Store α := fun q => if q = p then some a else s q

/-- `delete p` / `free(p)`. -/
def free (s : Store α) (p : Ptr) : Store α := fun q => if q = p then none else s q

/-- Change fields of the object at `p`. -/
def modify (s : Store α) (p : Ptr) (f : α → α) : Res (Store α) := do
  let a ← s.read p
  return s.write p (f a)

@[simp] theorem write_self (s : Store α) (p : Ptr) (a : α) : s.write p a p = some a := by
  simp [write]

theorem write_of_ne (s : Store α) {p q : Ptr} (a : α) (h : q ≠ p) : s.write p a q = s q := by
  simp [write, h]

@[simp] theorem free_self (s : Store α) (p : Ptr) : s.free p p = none := by simp [free]

theorem free_of_ne (s : Store α) {p q : Ptr} (h : q ≠ p) : s.free p q = s q := by
  simp [free, h]

@[simp] theorem free_write (s : Store α) (p : Ptr) (a : α) : (s.write p a).free p = s.free p := by
  funext q
  by_cases h : q = p
  · subst h; simp
  · rw [free_of_ne _ h, free_of_ne _ h, write_of_ne _ _ h]

theorem free_eq_some {s : Store α} {p q : Ptr} {a : α} :
    s.free p q = some a ↔ q ≠ p ∧ s q = some a := by
  by_cases h : q = p <;> simp [free, h]

theorem read_ok {s : Store α} {p : Ptr} {a : α} : s.read p = .ok a ↔ s p = some a := by
  unfold read; cases s p <;> simp

theorem read_of {s : Store α} {p : Ptr} {a : α} (h : s p = some a) : s.read p = .ok a :=
  read_ok.mpr h

theorem modify_of {s : Store α} {p : Ptr} {a : α} (f : α → α) (h : s p = some a) :
    s.modify p f = .ok (s.write p (f a)) := by
  simp [modify, read_of h]

theorem modify_ok {s s' : Store α} {p : Ptr} {f : α → α} :
    s.modify p f = .ok s' ↔ ∃ a, s p = some a ∧ s' = s.write p (f a) := by
  unfold modify
  rw [Runs.bind_ok]
  constructor
  · rintro ⟨a, ha, h⟩
    cases h
    exact ⟨a, read_ok.mp ha, rfl⟩
  · rintro ⟨a, ha, rfl⟩
    exact ⟨a, read_ok.mpr ha, rfl⟩

end Store

end RedisServer
