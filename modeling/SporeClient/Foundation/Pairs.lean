/-
  Foundation/Pairs.lean --- where two given symbols stand next to each other in a list.

  WHAT THIS FILE IS FOR.  Marks of two symbols, such as the ends of a block or of a line,
  are found by looking at neighbours.  `[a, b] <:+: l` says that `a` and `b` are
  neighbours somewhere in `l`; the lemmas say when this holds of a list built by `::` or
  `++`, and cut a list at the first such place.
-/
import Mathlib.Data.List.Infix
import Mathlib.Tactic.Common

set_option autoImplicit false

namespace SporeClient.Foundation

variable {α : Type} {a b : α}

theorem not_pair_infix_nil : ¬[a, b] <:+: [] := fun h => by simpa using h.length_le

theorem pair_infix_cons {c : α} {rest : List α} :
    [a, b] <:+: c :: rest ↔ (c = a ∧ rest.head? = some b) ∨ [a, b] <:+: rest := by
  rw [List.infix_cons_iff, List.cons_prefix_cons]
  refine or_congr_left (and_congr eq_comm ?_)
  cases rest with
  | nil => simp
  | cons d rest => simp [List.cons_prefix_cons, eq_comm]

theorem pair_infix_append {l r : List α} :
    [a, b] <:+: l ++ r ↔
      [a, b] <:+: l ∨ [a, b] <:+: r ∨ (l.getLast? = some a ∧ r.head? = some b) := by
  induction l with
  | nil => simp
  | cons c l ih =>
      rw [List.cons_append, pair_infix_cons, pair_infix_cons, ih]
      cases l with
      | nil => simp; tauto
      | cons d l => simp [List.getLast?_cons_cons]; tauto

/-- A pair that stands at a place of the list. -/
theorem pair_infix_middle (l r : List α) : [a, b] <:+: l ++ a :: b :: r :=
  ⟨l, r, by simp⟩

/-- **The first place**: the pair does not stand earlier, not even overlapping it. -/
theorem exists_first_pair {l : List α} (h : [a, b] <:+: l) :
    ∃ p q, l = p ++ a :: b :: q ∧ ¬[a, b] <:+: p ++ [a] := by
  induction l with
  | nil => exact absurd h not_pair_infix_nil
  | cons c rest ih =>
      by_cases hc : c = a ∧ rest.head? = some b
      · obtain ⟨rfl, hb⟩ := hc
        obtain ⟨q, rfl⟩ := List.head?_eq_some_iff.mp hb
        exact ⟨[], q, rfl, fun h => by simpa using h.length_le⟩
      · obtain ⟨p, q, rfl, hp⟩ := ih ((pair_infix_cons.mp h).resolve_left hc)
        refine ⟨c :: p, q, rfl, fun hin => ?_⟩
        rcases pair_infix_cons.mp hin with ⟨hca, hhead⟩ | hin
        · refine hc ⟨hca, ?_⟩
          cases p with
          | nil => simpa using hhead
          | cons d p => simpa using hhead
        · exact hp hin

/-- There is only one first place. -/
theorem first_pair_unique {p₁ q₁ p₂ q₂ : List α} (h₁ : ¬[a, b] <:+: p₁ ++ [a])
    (h₂ : ¬[a, b] <:+: p₂ ++ [a]) (h : p₁ ++ a :: b :: q₁ = p₂ ++ a :: b :: q₂) : p₁ = p₂ := by
  induction p₁ generalizing p₂ with
  | nil =>
      cases p₂ with
      | nil => rfl
      | cons d p =>
          simp only [List.nil_append, List.cons_append, List.cons.injEq] at h
          obtain ⟨rfl, hrest⟩ := h
          refine absurd (pair_infix_cons.mpr (Or.inl ⟨rfl, ?_⟩)) h₂
          cases p with
          | nil => simpa using (congrArg List.head? hrest).symm
          | cons e p => simpa using (congrArg List.head? hrest).symm
  | cons c p ih =>
      cases p₂ with
      | nil =>
          simp only [List.nil_append, List.cons_append, List.cons.injEq] at h
          obtain ⟨rfl, hrest⟩ := h
          refine absurd (pair_infix_cons.mpr (Or.inl ⟨rfl, ?_⟩)) h₁
          cases p with
          | nil => simpa using congrArg List.head? hrest
          | cons e p => simpa using congrArg List.head? hrest
      | cons d p' =>
          simp only [List.cons_append, List.cons.injEq] at h
          obtain ⟨rfl, hrest⟩ := h
          have hp := ih (fun hin => h₁ (pair_infix_cons.mpr (Or.inr hin)))
            (fun hin => h₂ (pair_infix_cons.mpr (Or.inr hin))) hrest
          rw [hp]

end SporeClient.Foundation
