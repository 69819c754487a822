/-
  Foundation/LineReader.lean --- a machine that reads a stream in pieces and acts on
  whole lines.

  WHAT THIS FILE IS FOR.  A line reader keeps the bytes of the unfinished line in a
  buffer.  Each piece that arrives is appended to the buffer, and then, as long as
  the buffer holds a newline, the first line is cut off and handed to `onLine`, which
  updates a state and may put something out.  Nothing here says what a line means.

  THE RULES IT GIVES.

      feedAll_eq_scan    however a stream is cut into pieces, the reader does what a
                         byte-at-a-time reader does with the whole stream
      scan_append        reading two streams one after the other composes
      feedAll_simulates  two readers that do the same with each line do the same
      Run.scan_eq        in the middle of a run, what is still in the buffer is all that
                         is left to be put out
      Run.invariant      what holds at the start and is kept by `onLine` holds at
                         every iteration of the loop
-/
import Mathlib.Data.List.Basic
import Mathlib.Tactic.Common

set_option autoImplicit false

namespace SporeClient.Foundation

variable {α σ ο : Type} [DecidableEq α]

/-! ## Cutting at the first occurrence -/

/-- The part of a list before the first `a` and the part after it. -/
def splitFirst (a : α) : List α → Option (List α × List α)
  | [] => none
  | x :: rest =>
      if x = a then some ([], rest)
      else (splitFirst a rest).map fun p => (x :: p.1, p.2)

theorem splitFirst_append {a : α} {l : List α} (rest : List α) (h : a ∉ l) :
    splitFirst a (l ++ a :: rest) = some (l, rest) := by
  induction l with
  | nil => simp [splitFirst]
  | cons x l ih =>
      have hx : x ≠ a := fun hxa => h (hxa ▸ List.mem_cons_self)
      have hl : a ∉ l := fun hal => h (List.mem_cons_of_mem _ hal)
      simp [splitFirst, hx, ih hl]

/-- Where the first `a` is does not depend on how the list is written. -/
theorem first_unique {a : α} {x y l r : List α} (hx : a ∉ x) (hy : a ∉ y)
    (h : x ++ a :: l = y ++ a :: r) : x = y ∧ l = r := by
  have hsplit := (splitFirst_append l hx).symm.trans (h ▸ splitFirst_append r hy)
  simpa using hsplit

theorem splitFirst_eq_none {a : α} {l : List α} (h : a ∉ l) : splitFirst a l = none := by
  induction l with
  | nil => rfl
  | cons x l ih =>
      have hx : x ≠ a := fun hxa => h (hxa ▸ List.mem_cons_self)
      have hl : a ∉ l := fun hal => h (List.mem_cons_of_mem _ hal)
      simp [splitFirst, hx, ih hl]

theorem splitFirst_eq_some {a : α} {l x y : List α} (h : splitFirst a l = some (x, y)) :
    l = x ++ a :: y ∧ a ∉ x := by
  induction l generalizing x with
  | nil => simp [splitFirst] at h
  | cons c l ih =>
      rw [splitFirst] at h
      split at h
      · rename_i hc
        obtain ⟨rfl, rfl⟩ := Prod.mk.inj (Option.some.inj h)
        simp [hc]
      · rename_i hc
        obtain ⟨⟨u, w⟩, hp, hxy⟩ := Option.map_eq_some_iff.mp h
        obtain ⟨rfl, rfl⟩ := Prod.mk.inj hxy
        obtain ⟨hl, hu⟩ := ih hp
        exact ⟨by rw [hl]; rfl, by simp [Ne.symm hc, hu]⟩

/-! ## The machine -/

/-- What a line reader ends its lines with, and what it does with a whole line. -/
structure LineReader (α σ ο : Type) where
  /-- The end of a line. -/
  newline : α
  /-- The state after a line, and what is put out for it. -/
  onLine : σ → List α → σ × Option ο

/-- A line reader in the middle of its stream. -/
structure Reading (α σ : Type) where
  /-- Bytes read and not yet cut into lines. -/
  buf : List α
  /-- The state the last line left. -/
  state : σ
  deriving DecidableEq

namespace LineReader

variable (R : LineReader α σ ο)

/-- One iteration of the inner loop: cut the first line off the buffer and act on
it.  There is none when the buffer holds no newline. -/
def step (s : Reading α σ) : Option (Reading α σ × Option ο) :=
  match splitFirst R.newline s.buf with
  | none => none
  | some (line, rest) =>
      some (⟨rest, (R.onLine s.state line).1⟩, (R.onLine s.state line).2)

/-- The inner loop.  Every iteration erases a newline from the buffer, so the length
of the buffer is fuel enough (`drain_eq_scan`). -/
def drain : Nat → Reading α σ → Reading α σ × List ο
  | 0, s => (s, [])
  | n + 1, s =>
      match R.step s with
      | none => (s, [])
      | some (s', o) => ((drain n s').1, o.toList ++ (drain n s').2)

/-- One round of the outer loop: append a piece to the buffer, then run the inner
loop. -/
def feed (s : Reading α σ) (piece : List α) : Reading α σ × List ο :=
  R.drain (s.buf ++ piece).length ⟨s.buf ++ piece, s.state⟩

/-- The outer loop over all pieces that arrive. -/
def feedAll : Reading α σ → List (List α) → Reading α σ × List ο
  | s, [] => (s, [])
  | s, piece :: rest =>
      ((feedAll (R.feed s piece).1 rest).1,
        (R.feed s piece).2 ++ (feedAll (R.feed s piece).1 rest).2)

/-! ## The byte-at-a-time reader -/

/-- The same machine fed one byte at a time, from a buffer without a newline. -/
def scan : Reading α σ → List α → Reading α σ × List ο
  | s, [] => (s, [])
  | s, c :: rest =>
      if c = R.newline then
        ((scan ⟨[], (R.onLine s.state s.buf).1⟩ rest).1,
          (R.onLine s.state s.buf).2.toList ++
            (scan ⟨[], (R.onLine s.state s.buf).1⟩ rest).2)
      else scan ⟨s.buf ++ [c], s.state⟩ rest

@[simp] theorem scan_nil (s : Reading α σ) : R.scan s [] = (s, []) := rfl

/-- Bytes without a newline extend the unfinished line. -/
theorem scan_partial {l : List α} (s : Reading α σ) (h : R.newline ∉ l) :
    R.scan s l = (⟨s.buf ++ l, s.state⟩, []) := by
  induction l generalizing s with
  | nil => simp
  | cons c l ih =>
      have hc : c ≠ R.newline := fun hcn => h (hcn ▸ List.mem_cons_self)
      have hl : R.newline ∉ l := fun hn => h (List.mem_cons_of_mem _ hn)
      simp [scan, hc, ih _ hl]

/-- The bytes of a line and its newline. -/
theorem scan_line {l : List α} (s : Reading α σ) (rest : List α) (h : R.newline ∉ l) :
    R.scan s (l ++ R.newline :: rest) =
      ((R.scan ⟨[], (R.onLine s.state (s.buf ++ l)).1⟩ rest).1,
        (R.onLine s.state (s.buf ++ l)).2.toList ++
          (R.scan ⟨[], (R.onLine s.state (s.buf ++ l)).1⟩ rest).2) := by
  induction l generalizing s with
  | nil => simp [scan]
  | cons c l ih =>
      have hc : c ≠ R.newline := fun hcn => h (hcn ▸ List.mem_cons_self)
      have hl : R.newline ∉ l := fun hn => h (List.mem_cons_of_mem _ hn)
      simp [scan, hc, ih ⟨s.buf ++ [c], s.state⟩ hl]

/-- Reading one stream and then another is reading the two in a row. -/
theorem scan_append (s : Reading α σ) (a b : List α) :
    R.scan s (a ++ b) =
      ((R.scan (R.scan s a).1 b).1, (R.scan s a).2 ++ (R.scan (R.scan s a).1 b).2) := by
  induction a generalizing s with
  | nil => simp
  | cons c a ih =>
      simp only [List.cons_append, scan]
      split <;> simp [ih]

/-- The byte-at-a-time reader never keeps a newline. -/
theorem scan_buf {s : Reading α σ} (h : R.newline ∉ s.buf) (l : List α) :
    R.newline ∉ (R.scan s l).1.buf := by
  induction l generalizing s with
  | nil => simpa using h
  | cons c l ih =>
      simp only [scan]
      split
      · exact ih (by simp)
      · rename_i hc
        exact ih (by simp [h, Ne.symm hc])

/-- The inner loop, given fuel for every byte of its buffer, is the byte-at-a-time
reader. -/
theorem drain_eq_scan {n : Nat} {pending l : List α} (st : σ) (h : R.newline ∉ pending)
    (hn : (pending ++ l).length ≤ n) :
    R.drain n ⟨pending ++ l, st⟩ = R.scan ⟨pending, st⟩ l := by
  induction n generalizing pending l st with
  | zero =>
      have hnil : pending ++ l = [] := List.eq_nil_of_length_eq_zero (Nat.le_zero.mp hn)
      simp [drain, (List.append_eq_nil_iff.mp hnil).1, (List.append_eq_nil_iff.mp hnil).2]
  | succ n ih =>
      by_cases hl : R.newline ∈ l
      · obtain ⟨line, rest, rfl, hline⟩ := List.eq_append_cons_of_mem hl
        have hnone : R.newline ∉ pending ++ line := by simp [h, hline]
        have hfuel : ([] ++ rest).length ≤ n := by
          simp only [List.length_append, List.length_cons] at hn
          simp only [List.nil_append]
          omega
        have hrest : R.drain n ⟨rest, (R.onLine st (pending ++ line)).1⟩ =
            R.scan ⟨[], (R.onLine st (pending ++ line)).1⟩ rest :=
          ih (R.onLine st (pending ++ line)).1 List.not_mem_nil hfuel
        rw [R.scan_line _ rest hline]
        simp [drain, step, ← List.append_assoc, splitFirst_append rest hnone, hrest]
      · have hnone : R.newline ∉ pending ++ l := by simp [h, hl]
        rw [R.scan_partial _ hl]
        simp [drain, step, splitFirst_eq_none hnone]

theorem feed_eq_scan {s : Reading α σ} (h : R.newline ∉ s.buf) (piece : List α) :
    R.feed s piece = R.scan s piece :=
  R.drain_eq_scan s.state h (Nat.le_refl _)

/-- **However a stream is cut into pieces, the reader does what the byte-at-a-time
reader does with the whole stream.** -/
theorem feedAll_eq_scan {s : Reading α σ} (h : R.newline ∉ s.buf) (pieces : List (List α)) :
    R.feedAll s pieces = R.scan s pieces.flatten := by
  induction pieces generalizing s with
  | nil => simp [feedAll]
  | cons piece rest ih =>
      rw [feedAll, R.feed_eq_scan h, ih (R.scan_buf h piece), List.flatten_cons, R.scan_append]

/-! ## Two readers -/

/-- **The simulation rule.**  Two readers that do the same with each line, in states that
stay related, put out the same and end in related states. -/
theorem feedAll_simulates {τ : Type} (R : LineReader α σ ο) (R' : LineReader α τ ο)
    (hnewline : R'.newline = R.newline) (rel : σ → τ → Prop)
    (hline : ∀ s t l, rel s t → rel (R.onLine s l).1 (R'.onLine t l).1 ∧
      (R'.onLine t l).2 = (R.onLine s l).2)
    {s : σ} {t : τ} (hstart : rel s t) (pieces : List (List α)) :
    rel (R.feedAll ⟨[], s⟩ pieces).1.state (R'.feedAll ⟨[], t⟩ pieces).1.state ∧
      (R'.feedAll ⟨[], t⟩ pieces).2 = (R.feedAll ⟨[], s⟩ pieces).2 := by
  rw [R.feedAll_eq_scan List.not_mem_nil, R'.feedAll_eq_scan List.not_mem_nil]
  generalize pieces.flatten = l
  generalize ([] : List α) = buf
  induction l generalizing s t buf with
  | nil => exact ⟨hstart, rfl⟩
  | cons c l ih =>
      obtain ⟨hrel, hout⟩ := hline s t buf hstart
      simp only [scan, hnewline]
      split
      · obtain ⟨hstate, hrest⟩ := ih hrel []
        exact ⟨hstate, by rw [hout, hrest]⟩
      · exact ih hstart (buf ++ [c])

/-! ## Runs, iteration by iteration -/

/-- What one iteration of the inner loop did. -/
structure Step (α σ ο : Type) where
  /-- The state before the line. -/
  before : σ
  /-- The line, without its newline. -/
  line : List α
  /-- The state after the line. -/
  after : σ
  /-- What was put out. -/
  out : Option ο

/-- The loop started in `s₀` has read `read`, made the iterations `steps`, and is now
in `s`.  A piece arrives only when the inner loop is done with the buffer. -/
inductive Run (s₀ : σ) : List α → List (Step α σ ο) → Reading α σ → Prop
  | start : Run s₀ [] [] ⟨[], s₀⟩
  | piece {read : List α} {steps : List (Step α σ ο)} {s : Reading α σ} (p : List α)
      (h : Run s₀ read steps s) (hnone : splitFirst R.newline s.buf = none) :
      Run s₀ (read ++ p) steps ⟨s.buf ++ p, s.state⟩
  | line {read : List α} {steps : List (Step α σ ο)} {s : Reading α σ}
      {l rest : List α} (h : Run s₀ read steps s)
      (hline : splitFirst R.newline s.buf = some (l, rest)) :
      Run s₀ read
        (steps ++ [⟨s.state, l, (R.onLine s.state l).1, (R.onLine s.state l).2⟩])
        ⟨rest, (R.onLine s.state l).1⟩

namespace Run

variable {R : LineReader α σ ο} {s₀ : σ} {read : List α} {steps : List (Step α σ ο)}
  {s : Reading α σ}

/-- **The invariant rule.**  What holds at the start and is kept by every line holds
at every iteration. -/
theorem invariant {P : σ → Prop} (hstart : P s₀)
    (hkept : ∀ st l, R.newline ∉ l → P st → P (R.onLine st l).1)
    (h : R.Run s₀ read steps s) : P s.state := by
  induction h with
  | start => exact hstart
  | piece p _ _ ih => exact ih
  | line _ hline ih => exact hkept _ _ (splitFirst_eq_some hline).2 ih

/-- **In the middle of a run**: what has been put out, and what the buffer will put out, is
what the byte-at-a-time reader puts out for all that was read. -/
theorem scan_eq (h : R.Run s₀ read steps s) :
    (R.scan ⟨[], s₀⟩ read).1 = (R.scan ⟨[], s.state⟩ s.buf).1 ∧
      (R.scan ⟨[], s₀⟩ read).2 = steps.filterMap Step.out ++ (R.scan ⟨[], s.state⟩ s.buf).2 := by
  induction h with
  | start => exact ⟨rfl, rfl⟩
  | piece p _ _ ih =>
      rw [R.scan_append, R.scan_append, ih.1, ih.2]
      exact ⟨rfl, List.append_assoc _ _ _⟩
  | @line read steps s l rest _ hline ih =>
      obtain ⟨hbuf, hl⟩ := splitFirst_eq_some hline
      rw [ih.1, ih.2, hbuf, R.scan_line ⟨[], s.state⟩ rest hl, List.nil_append,
        List.filterMap_append, List.append_assoc]
      refine ⟨rfl, congrArg (steps.filterMap Step.out ++ ·) (congrArg (· ++ _) ?_)⟩
      cases (R.onLine s.state l).2 <;> simp

end Run

/-- The iterations of the inner loop are a run that puts out the same. -/
theorem run_drain {s₀ : σ} {read : List α} {steps : List (Step α σ ο)} {s : Reading α σ}
    (h : R.Run s₀ read steps s) (n : Nat) :
    ∃ more, R.Run s₀ read (steps ++ more) (R.drain n s).1 ∧
      (R.drain n s).2 = more.filterMap Step.out := by
  induction n generalizing steps s with
  | zero => exact ⟨[], by simpa [drain] using h, by simp [drain]⟩
  | succ n ih =>
      cases hline : splitFirst R.newline s.buf with
      | none => exact ⟨[], by simpa [drain, step, hline] using h, by simp [drain, step, hline]⟩
      | some p =>
          obtain ⟨more, hrun, hout⟩ := ih (h.line hline)
          refine ⟨⟨s.state, p.1, (R.onLine s.state p.1).1, (R.onLine s.state p.1).2⟩ :: more,
            ?_, ?_⟩
          · simpa [drain, step, hline] using hrun
          · cases ho : (R.onLine s.state p.1).2 <;> simp [drain, step, hline, hout, ho]

/-- **The outer loop is a run** over all that arrived, and puts out what its
iterations put out. -/
theorem run_feedAll (s₀ : σ) (pieces : List (List α)) :
    ∃ steps, R.Run s₀ pieces.flatten steps (R.feedAll ⟨[], s₀⟩ pieces).1 ∧
      (R.feedAll ⟨[], s₀⟩ pieces).2 = steps.filterMap Step.out := by
  suffices hgen : ∀ (read : List α) (steps : List (Step α σ ο)) (s : Reading α σ),
      R.Run s₀ read steps s → R.newline ∉ s.buf →
      ∃ more, R.Run s₀ (read ++ pieces.flatten) (steps ++ more) (R.feedAll s pieces).1 ∧
        (R.feedAll s pieces).2 = more.filterMap Step.out by
    simpa using hgen [] [] ⟨[], s₀⟩ Run.start (by simp)
  induction pieces with
  | nil => exact fun read steps s h _ => ⟨[], by simpa [feedAll] using h, by simp [feedAll]⟩
  | cons piece rest ih =>
      intro read steps s h hbuf
      obtain ⟨more₁, hrun₁, hout₁⟩ := R.run_drain
        (h.piece piece (splitFirst_eq_none hbuf)) (s.buf ++ piece).length
      have hbuf₁ : R.newline ∉ (R.feed s piece).1.buf := by
        rw [R.feed_eq_scan hbuf]
        exact R.scan_buf hbuf piece
      obtain ⟨more₂, hrun₂, hout₂⟩ := ih _ _ _ hrun₁ hbuf₁
      refine ⟨more₁ ++ more₂, ?_, ?_⟩
      · simpa [feedAll, feed] using hrun₂
      · rw [feedAll, List.filterMap_append, ← hout₁, ← hout₂]
        rfl

end LineReader

end SporeClient.Foundation
