/-
  Foundation/Heap.lean --- objects that are made, read and deleted through pointers.

  WHAT THIS FILE IS FOR.  A heap has the objects of one class that exist, by address, and
  counts those that were ever made.  Where a new object is put is up to an `Allocator`:
  anywhere but at the null pointer or at an object that exists.  Reading, writing or
  deleting an object that is not there has no result.

  `Heap.Owns start heap p x` says what a piece of code has made of a heap that it began
  with: one object, at `p`, or none, when `p` is the null pointer.  The rules say how each
  operation changes what is owned; code that ends owning nothing has leaked nothing.

  `Heap.Distinct` is about a heap as a whole: one object an address.  Its rules say what is
  read at every address behind each operation.
-/
import Mathlib.Data.List.Basic
import Mathlib.Order.Lattice
import Mathlib.Tactic.Common

set_option autoImplicit false

namespace SporeClient.Foundation

/-- An address; 0 is the null pointer. -/
abbrev Ptr : Type := Nat

/-- The objects that exist, and how many were ever made. -/
structure Heap (α : Type) where
  objects : List (Ptr × α) := []
  made : Nat := 0
  deriving DecidableEq

namespace Heap

variable {α : Type}

/-- The object at an address. -/
def read (H : Heap α) (p : Ptr) : Option α := H.objects.lookup p

/-- No object is at the address, and it is not the null pointer. -/
def Fresh (H : Heap α) (p : Ptr) : Prop := p ≠ 0 ∧ H.read p = none

end Heap

/-- Where the next object is put. -/
structure Allocator (α : Type) where
  address : Heap α → Ptr
  fresh : ∀ H : Heap α, H.Fresh (address H)

namespace Heap

variable {α : Type}

/-- `new`. -/
def new (A : Allocator α) (H : Heap α) (x : α) : Heap α × Ptr :=
  (⟨(A.address H, x) :: H.objects, H.made + 1⟩, A.address H)

/-- Assign to an object. -/
def write (H : Heap α) (p : Ptr) (x : α) : Option (Heap α) :=
  match H.read p with
  | none => none
  | some _ => some { H with objects := H.objects.map fun o => if o.1 = p then (p, x) else o }

/-- `delete` of a pointer that is not null. -/
def remove (H : Heap α) (p : Ptr) : Option (Heap α) :=
  match H.read p with
  | none => none
  | some _ => some { H with objects := H.objects.eraseP fun o => o.1 == p }

/-- `delete`: nothing is done for the null pointer. -/
def delete (H : Heap α) (p : Ptr) : Option (Heap α) := if p = 0 then some H else H.remove p

/-- The greatest address in use. -/
def last (objects : List (Ptr × α)) : Ptr := objects.foldr (fun o p => max o.1 p) 0

theorem le_last {objects : List (Ptr × α)} {o : Ptr × α} (h : o ∈ objects) :
    o.1 ≤ last objects := by
  induction objects with
  | nil => simp at h
  | cons o' objects ih =>
      rcases List.mem_cons.mp h with rfl | h
      · exact le_max_left ..
      · exact (ih h).trans (le_max_right ..)

/-- Objects are put behind all that exist. -/
def behind (α : Type) : Allocator α where
  address H := last H.objects + 1
  fresh H := by
    refine ⟨Nat.succ_ne_zero _, List.lookup_eq_none_iff.mpr fun o ho => ?_⟩
    simpa using Nat.ne_of_gt (Nat.lt_succ_of_le (le_last ho))

/-! ## Objects by address -/

/-- No two objects are at one address, and none is at the null pointer. -/
structure Distinct (H : Heap α) : Prop where
  nodup : (H.objects.map Prod.fst).Nodup
  not_null : H.read 0 = none

section

variable {H : Heap α} {p : Ptr} {x : α}

theorem distinct_empty : Distinct ({} : Heap α) := ⟨List.nodup_nil, rfl⟩

theorem lookup_cons_eq (a q : Ptr) (y : α) (objects : List (Ptr × α)) :
    ((a, y) :: objects).lookup q = if q = a then some y else objects.lookup q := by
  by_cases hq : q = a
  · simp [hq]
  · rw [List.lookup_cons, beq_false_of_ne hq, if_neg hq]

theorem mem_addresses_iff : p ∈ H.objects.map Prod.fst ↔ H.read p ≠ none := by
  rw [read, ne_eq, List.lookup_eq_none_iff]
  simp

theorem read_new (A : Allocator α) (H : Heap α) (x : α) (q : Ptr) :
    (H.new A x).1.read q = if q = (H.new A x).2 then some x else H.read q := by
  rw [Heap.new, read, lookup_cons_eq]
  rfl

theorem Distinct.new (h : H.Distinct) (A : Allocator α) (x : α) : (H.new A x).1.Distinct := by
  obtain ⟨hne, hfresh⟩ := A.fresh H
  refine ⟨List.nodup_cons.mpr ⟨?_, h.nodup⟩, ?_⟩
  · rw [mem_addresses_iff]
    exact not_not.mpr hfresh
  · exact (read_new A H x 0).trans ((if_neg hne.symm).trans h.not_null)

theorem lookup_write (objects : List (Ptr × α)) (p q : Ptr) (x : α) :
    (objects.map fun o => if o.1 = p then (p, x) else o).lookup q =
      if q = p then (objects.lookup p).map fun _ => x else objects.lookup q := by
  induction objects with
  | nil => simp
  | cons o objects ih =>
      obtain ⟨a, y⟩ := o
      rw [List.map_cons, lookup_cons_eq, lookup_cons_eq]
      by_cases ha : a = p
      · subst ha
        by_cases hq : q = a <;> simp [lookup_cons_eq, hq, ih]
      · simp only [ha, if_false, lookup_cons_eq, ih, Ne.symm ha]
        by_cases hq : q = p
        · subst hq
          simp [Ne.symm ha]
        · simp [hq]

theorem lookup_remove {objects : List (Ptr × α)} (h : (objects.map Prod.fst).Nodup) (p q : Ptr) :
    (objects.eraseP fun o => o.1 == p).lookup q = if q = p then none else objects.lookup q := by
  induction objects with
  | nil => simp
  | cons o objects ih =>
      obtain ⟨a, y⟩ := o
      obtain ⟨ha, hnodup⟩ := List.nodup_cons.mp h
      have hnone : objects.lookup a = none := List.lookup_eq_none_iff.mpr fun o ho => by
        have hne : a ≠ o.1 := fun heq => ha (List.mem_map.mpr ⟨o, ho, heq.symm⟩)
        simpa using hne
      by_cases hap : a = p
      · subst hap
        rw [List.eraseP_cons_of_pos (by simp), lookup_cons_eq]
        by_cases hq : q = a <;> simp [hq, hnone]
      · rw [List.eraseP_cons_of_neg (by simpa using hap), lookup_cons_eq, lookup_cons_eq,
          ih hnodup]
        by_cases hq : q = a
        · simp [hq, hap]
        · simp [hq]

/-- An assignment changes one object. -/
theorem Distinct.write (h : H.Distinct) {y : α} (hp : H.read p = some y) (x : α) :
    ∃ H', H.write p x = some H' ∧ H'.Distinct ∧
      ∀ q, H'.read q = if q = p then some x else H.read q := by
  have hq : ∀ q, (⟨H.objects.map fun o => if o.1 = p then (p, x) else o, H.made⟩ : Heap α).read q =
      if q = p then some x else H.read q := by
    intro q
    rw [read, lookup_write, show H.objects.lookup p = some y from hp]
    rfl
  refine ⟨_, by simp only [Heap.write, hp], ⟨?_, ?_⟩, hq⟩
  · have hsame : (fun o : Ptr × α => (if o.1 = p then (p, x) else o).1) = Prod.fst := by
      funext o
      split
      · rename_i ho
        exact ho.symm
      · rfl
    simpa [List.map_map, Function.comp_def, hsame] using h.nodup
  · rw [hq, h.not_null]
    rw [if_neg]
    rintro rfl
    simp [h.not_null] at hp

/-- A deletion takes one object away. -/
theorem Distinct.remove (h : H.Distinct) {y : α} (hp : H.read p = some y) :
    ∃ H', H.remove p = some H' ∧ H'.Distinct ∧
      ∀ q, H'.read q = if q = p then none else H.read q := by
  refine ⟨⟨H.objects.eraseP fun o => o.1 == p, H.made⟩, by simp only [Heap.remove, hp], ⟨?_, ?_⟩,
    fun q => lookup_remove h.nodup p q⟩
  · exact h.nodup.sublist ((List.eraseP_sublist).map _)
  · refine (lookup_remove h.nodup p 0).trans ?_
    split
    · rfl
    · exact h.not_null

end

/-! ## What is owned -/

/-- Beside the objects of `start` there is one at `p`, or none when `p` is null. -/
def Owns (start H : Heap α) (p : Ptr) : Option α → Prop
  | none => p = 0 ∧ H.objects = start.objects
  | some x => start.Fresh p ∧ H.objects = (p, x) :: start.objects

section

variable {start H : Heap α} {p : Ptr} {x : α}

theorem owns_start : start.Owns start 0 none := ⟨rfl, rfl⟩

theorem Owns.new (A : Allocator α) (h : start.Owns H p none) (x : α) :
    start.Owns (H.new A x).1 (H.new A x).2 (some x) := by
  obtain ⟨hne, hread⟩ := A.fresh H
  refine ⟨⟨hne, ?_⟩, by simp [Heap.new, h.2]⟩
  simpa [Heap.new, read, ← h.2] using hread

theorem Owns.ne_null (h : start.Owns H p (some x)) : p ≠ 0 := h.1.1

theorem Owns.read (h : start.Owns H p (some x)) : H.read p = some x := by
  rw [Heap.read, h.2, List.lookup_cons_self]

theorem Owns.write (h : start.Owns H p (some x)) (y : α) :
    ∃ H', H.write p y = some H' ∧ start.Owns H' p (some y) := by
  refine ⟨_, by simp only [Heap.write, h.read]; rfl, h.1, ?_⟩
  have hother : ∀ o ∈ start.objects, o.1 ≠ p := by
    rintro o ho rfl
    have := List.lookup_eq_none_iff.mp h.1.2 o ho
    simp at this
  have hsame : start.objects.map (fun o => if o.1 = p then (p, y) else o) = start.objects :=
    (List.map_congr_left fun o ho => if_neg (hother o ho)).trans (List.map_id _)
  simp [h.2, hsame]

theorem Owns.delete {x : Option α} (h : start.Owns H p x) :
    ∃ H', H.delete p = some H' ∧ start.Owns H' 0 none := by
  cases x with
  | none => exact ⟨H, by rw [Heap.delete, if_pos h.1], rfl, h.2⟩
  | some x =>
      refine ⟨_, by simp only [Heap.delete, h.ne_null, if_false, remove, h.read]; rfl, rfl, ?_⟩
      simp [h.2]

end

end Heap

end SporeClient.Foundation
