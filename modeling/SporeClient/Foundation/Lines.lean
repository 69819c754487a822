/-
  Foundation/Lines.lean --- texts and their lines.

  WHAT THIS FILE IS FOR.  `unlines` writes lines, each with its newline; `linesOf` takes a
  text apart again.  On whole lines a line reader does what `onLines` does, one line after
  the other (`scan_unlines`), so that a proof about a stream can be an induction on its
  lines.
-/
import SporeClient.Foundation.LineReader

set_option autoImplicit false

namespace SporeClient.Foundation

variable {α σ ο : Type} [DecidableEq α]

/-! ## Writing lines and taking them apart -/

/-- Lines, each with its newline. -/
def unlines (nl : α) (ls : List (List α)) : List α := ls.flatMap (· ++ [nl])

/-- The lines of a text.  A newline at the end of the text ends its last line. -/
def linesOf (nl : α) : List α → List (List α)
  | [] => []
  | c :: rest =>
      if c = nl then [] :: linesOf nl rest
      else match linesOf nl rest with
        | [] => [[c]]
        | l :: ls => (c :: l) :: ls

section

variable {nl : α}

omit [DecidableEq α] in
@[simp] theorem unlines_nil : unlines nl [] = [] := rfl

omit [DecidableEq α] in
@[simp] theorem unlines_cons (l : List α) (ls : List (List α)) :
    unlines nl (l :: ls) = l ++ nl :: unlines nl ls := by simp [unlines]

omit [DecidableEq α] in
@[simp] theorem unlines_append (a b : List (List α)) :
    unlines nl (a ++ b) = unlines nl a ++ unlines nl b := by simp [unlines]

/-- The first line is cut off at its newline. -/
theorem linesOf_line {l : List α} (rest : List α) (h : nl ∉ l) :
    linesOf nl (l ++ nl :: rest) = l :: linesOf nl rest := by
  induction l with
  | nil => simp [linesOf]
  | cons c l ih =>
      have hc : c ≠ nl := fun heq => h (heq ▸ List.mem_cons_self)
      have hl : nl ∉ l := fun hmem => h (List.mem_cons_of_mem _ hmem)
      rw [List.cons_append, linesOf, if_neg hc, ih hl]

theorem linesOf_unlines {ls : List (List α)} (h : ∀ l ∈ ls, nl ∉ l) :
    linesOf nl (unlines nl ls) = ls := by
  induction ls with
  | nil => rfl
  | cons l ls ih =>
      rw [unlines_cons, linesOf_line _ (h l List.mem_cons_self),
        ih fun a ha => h a (List.mem_cons_of_mem _ ha)]

/-- A line has no newline in it. -/
theorem newline_not_mem_of_mem_linesOf {text l : List α} (h : l ∈ linesOf nl text) : nl ∉ l := by
  induction text generalizing l with
  | nil => simp [linesOf] at h
  | cons c rest ih =>
      rw [linesOf] at h
      split at h
      · rcases List.mem_cons.mp h with rfl | h
        · simp
        · exact ih h
      · rename_i hc
        split at h
        · rw [List.mem_singleton.mp h]
          simpa using Ne.symm hc
        · rename_i first ls hrest
          have hfirst := ih (hrest ▸ List.mem_cons_self)
          rcases List.mem_cons.mp h with rfl | h
          · simpa [hfirst] using Ne.symm hc
          · exact ih (hrest ▸ List.mem_cons_of_mem _ h)

/-- A text that ends with a newline is its lines. -/
theorem unlines_linesOf (text : List α) :
    unlines nl (linesOf nl (text ++ [nl])) = text ++ [nl] := by
  induction text with
  | nil => simp [linesOf]
  | cons c rest ih =>
      rw [List.cons_append, linesOf]
      split
      · rename_i hc
        rw [unlines_cons, ih, hc]
        rfl
      · cases hrest : linesOf nl (rest ++ [nl]) with
        | nil =>
            rw [hrest] at ih
            simp at ih
        | cons l ls =>
            rw [hrest] at ih
            rw [unlines_cons, List.cons_append, ← unlines_cons, ih]

/-- Every text is whole lines and a part of a line. -/
theorem exists_unlines (nl : α) (text : List α) :
    ∃ ls tail, text = unlines nl ls ++ tail ∧ (∀ l ∈ ls, nl ∉ l) ∧ nl ∉ tail := by
  induction text with
  | nil => exact ⟨[], [], by simp, by simp, by simp⟩
  | cons c rest ih =>
      obtain ⟨ls, tail, rfl, hls, htail⟩ := ih
      by_cases hc : c = nl
      · exact ⟨[] :: ls, tail, by simp [hc], by simpa using hls, htail⟩
      · cases ls with
        | nil => exact ⟨[], c :: tail, by simp, by simp, by simp [htail, Ne.symm hc]⟩
        | cons l ls =>
            refine ⟨(c :: l) :: ls, tail, by simp, ?_, htail⟩
            intro a ha
            rcases List.mem_cons.mp ha with rfl | ha
            · simp [Ne.symm hc, hls l List.mem_cons_self]
            · exact hls a (List.mem_cons_of_mem _ ha)

end

/-! ## Reading whole lines -/

namespace LineReader

variable (R : LineReader α σ ο)

/-- Act on lines, one after the other. -/
def onLines : σ → List (List α) → σ × List ο
  | s, [] => (s, [])
  | s, l :: ls =>
      ((onLines (R.onLine s l).1 ls).1, (R.onLine s l).2.toList ++ (onLines (R.onLine s l).1 ls).2)

omit [DecidableEq α] in
theorem onLines_append (s : σ) (a b : List (List α)) :
    R.onLines s (a ++ b) =
      ((R.onLines (R.onLines s a).1 b).1,
        (R.onLines s a).2 ++ (R.onLines (R.onLines s a).1 b).2) := by
  induction a generalizing s with
  | nil => simp [onLines]
  | cons l a ih => simp [onLines, ih]

/-- On whole lines the byte-at-a-time reader acts line by line. -/
theorem scan_unlines (s : σ) {ls : List (List α)} (h : ∀ l ∈ ls, R.newline ∉ l) :
    R.scan ⟨[], s⟩ (unlines R.newline ls) = (⟨[], (R.onLines s ls).1⟩, (R.onLines s ls).2) := by
  induction ls generalizing s with
  | nil => rfl
  | cons l ls ih =>
      rw [unlines_cons, R.scan_line _ _ (h l List.mem_cons_self), List.nil_append,
        ih _ fun a ha => h a (List.mem_cons_of_mem _ ha)]
      rfl

/-- What is put out for a stream is put out for its whole lines. -/
theorem scan_out (s : σ) {ls : List (List α)} {tail : List α} (h : ∀ l ∈ ls, R.newline ∉ l)
    (htail : R.newline ∉ tail) :
    (R.scan ⟨[], s⟩ (unlines R.newline ls ++ tail)).2 = (R.onLines s ls).2 := by
  rw [R.scan_append, R.scan_unlines s h, R.scan_partial _ htail, List.append_nil]

end LineReader

end SporeClient.Foundation
