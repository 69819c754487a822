/-
  Foundation/Critical.lean --- threads that act on a shared state under one lock.

  WHAT THIS FILE IS FOR.  Any number of threads run jobs.  A thread that has a job waits for
  the lock, takes it, acts on the shared state, action after action, and lets the lock go.
  The environment decides when each thread moves and what each action results in.

  THE RULES IT GIVES.

      Threads.serialized_of_run   in every interleaving the shared state is what the jobs make of
                           it one after another, in the order in which they took the lock;
                           every thread's jobs are in it in the order of its calls
      Threads.exists_move  in every reachable state some thread that has a job can go on
      Threads.moves_le     when the code of every job ends, so that each move uses up one, a
                           thread makes no more than a fixed number of moves for each call
-/
import Mathlib.Logic.Function.Basic
import SporeClient.Foundation.Runs

set_option autoImplicit false

namespace SporeClient.Foundation

/-! ## Jobs -/

/-- The code that a thread runs under the lock: jobs `β`, places in the code `γ`, results of
an action `ε`, shared state `σ`. -/
structure Critical (β γ ε σ : Type) where
  /-- Where the code of a job begins. -/
  start : β → γ
  /-- One action: the shared state after it, and where the code goes on, `none` at its end. -/
  next : γ → ε → σ → σ × Option γ

namespace Critical

variable {β γ ε σ : Type} (p : Critical β γ ε σ)

/-- The code from a place on, with the results of its actions. -/
def resume : Option γ → List ε → σ → σ × Option γ
  | none, _, s => (s, none)
  | some c, [], s => (s, some c)
  | some c, e :: es, s => resume (p.next c e s).2 es (p.next c e s).1

/-- A job alone, with the results of its actions. -/
def exec (job : β) (es : List ε) (s : σ) : σ × Option γ := p.resume (some (p.start job)) es s

@[simp] theorem resume_none (es : List ε) (s : σ) : p.resume none es s = (s, none) := by
  cases es <;> rfl

@[simp] theorem exec_nil (job : β) (s : σ) : p.exec job [] s = (s, some (p.start job)) := rfl

/-- One more action of a job that is at `c`. -/
theorem resume_concat {at₀ : Option γ} {es : List ε} {s t : σ} {c : γ}
    (h : p.resume at₀ es s = (t, some c)) (e : ε) :
    p.resume at₀ (es ++ [e]) s = p.next c e t := by
  induction es generalizing at₀ s with
  | nil =>
      cases at₀ with
      | none => simp at h
      | some c₀ =>
          obtain ⟨rfl, hc⟩ := Prod.mk.inj h
          obtain rfl := Option.some.inj hc
          cases hnext : (p.next c₀ e s).2 <;> simp [resume, hnext, Prod.ext_iff]
  | cons e₀ es ih =>
      cases at₀ with
      | none => simp at h
      | some c₀ => exact ih h

end Critical

/-! ## Threads -/

/-- Where a thread is. -/
inductive Phase (β γ : Type) where
  | idle
  /-- It has a job and waits for the lock. -/
  | waiting (job : β)
  /-- It holds the lock, and its job is at this place. -/
  | inside (job : β) (place : γ)
  /-- Its job is done, and it has not let the lock go. -/
  | leaving (job : β)
  deriving DecidableEq

namespace Phase

variable {β γ : Type}

/-- The phase after an action of a job. -/
def after (job : β) : Option γ → Phase β γ
  | some c => .inside job c
  | none => .leaving job

/-- The thread has the lock. -/
@[simp] def Holds : Phase β γ → Prop
  | .idle => False
  | .waiting _ => False
  | .inside _ _ => True
  | .leaving _ => True

/-- The job that waits for the lock. -/
@[simp] def pending : Phase β γ → List β
  | .idle => []
  | .waiting job => [job]
  | .inside _ _ => []
  | .leaving _ => []

@[simp] theorem holds_after (job : β) (place : Option γ) : (after job place).Holds := by
  cases place <;> trivial

@[simp] theorem pending_after (job : β) (place : Option γ) : (after job place).pending = [] := by
  cases place <;> rfl

end Phase

/-- A move of one thread. -/
inductive Move (ι β ε : Type) where
  | call (thread : ι) (job : β)
  | lock (thread : ι) (job : β)
  | act (thread : ι) (result : ε)
  | unlock (thread : ι)
  deriving DecidableEq

/-- The phases of all threads, who holds the lock, and the shared state. -/
structure Threads (ι β γ σ : Type) where
  phase : ι → Phase β γ
  holder : Option ι
  shared : σ

namespace Threads

variable {ι β γ ε σ : Type} [DecidableEq ι]

/-- Nobody has a job. -/
def start (s : σ) : Threads ι β γ σ := ⟨fun _ => .idle, none, s⟩

/-- The threads after a move of `i` to the phase `ph`. -/
def goTo (t : Threads ι β γ σ) (i : ι) (ph : Phase β γ) : Threads ι β γ σ :=
  { t with phase := Function.update t.phase i ph }

@[simp] theorem goTo_holder (t : Threads ι β γ σ) (i : ι) (ph : Phase β γ) :
    (t.goTo i ph).holder = t.holder := rfl

@[simp] theorem goTo_shared (t : Threads ι β γ σ) (i : ι) (ph : Phase β γ) :
    (t.goTo i ph).shared = t.shared := rfl

@[simp] theorem goTo_self (t : Threads ι β γ σ) (i : ι) (ph : Phase β γ) :
    (t.goTo i ph).phase i = ph := by simp [goTo]

theorem goTo_of_ne (t : Threads ι β γ σ) {i j : ι} (h : j ≠ i) (ph : Phase β γ) :
    (t.goTo i ph).phase j = t.phase j := by simp [goTo, h]

/-- The moves of the threads, in any order. -/
inductive Step (p : Critical β γ ε σ) :
    Threads ι β γ σ → Move ι β ε → Threads ι β γ σ → Prop
  | call {t : Threads ι β γ σ} {i : ι} {job : β} (h : t.phase i = .idle) :
      Step p t (.call i job) (t.goTo i (.waiting job))
  | lock {t : Threads ι β γ σ} {i : ι} {job : β} (h : t.phase i = .waiting job)
      (hfree : t.holder = none) :
      Step p t (.lock i job) { t.goTo i (.inside job (p.start job)) with holder := some i }
  | act {t : Threads ι β γ σ} {i : ι} {job : β} {c : γ} (h : t.phase i = .inside job c) (e : ε) :
      Step p t (.act i e)
        { t.goTo i (.after job (p.next c e t.shared).2) with shared := (p.next c e t.shared).1 }
  | unlock {t : Threads ι β γ σ} {i : ι} {job : β} (h : t.phase i = .leaving job) :
      Step p t (.unlock i) { t.goTo i .idle with holder := none }

/-! ## The order of the lock -/

/-- A job that took the lock: whose it is, and the results of its actions so far. -/
structure Served (ι β ε : Type) where
  thread : ι
  job : β
  results : List ε
  deriving DecidableEq

/-- One more action of the job that took the lock last. -/
def addResult (e : ε) : List (Served ι β ε) → List (Served ι β ε)
  | [] => []
  | [x] => [{ x with results := x.results ++ [e] }]
  | x :: y :: rest => x :: addResult e (y :: rest)

/-- What a move adds to the jobs that took the lock. -/
def serve (done : List (Served ι β ε)) : Move ι β ε → List (Served ι β ε)
  | .call _ _ => done
  | .lock i job => done ++ [⟨i, job, []⟩]
  | .act _ e => addResult e done
  | .unlock _ => done

/-- The jobs that took the lock in a run, in this order. -/
def served (moves : List (Move ι β ε)) : List (Served ι β ε) := moves.foldl serve []

/-- The jobs a thread was called with in a run. -/
def callsOf (i : ι) (moves : List (Move ι β ε)) : List β :=
  moves.filterMap fun
    | .call j job => if j = i then some job else none
    | _ => none

omit [DecidableEq ι] in
@[simp] theorem served_concat (moves : List (Move ι β ε)) (a : Move ι β ε) :
    served (moves ++ [a]) = serve (served moves) a := by simp [served]

omit [DecidableEq ι] in
theorem addResult_concat (e : ε) (done : List (Served ι β ε)) (x : Served ι β ε) :
    addResult e (done ++ [x]) = done ++ [{ x with results := x.results ++ [e] }] := by
  induction done with
  | nil => rfl
  | cons y done ih =>
      cases done with
      | nil => rfl
      | cons z done => exact congrArg (y :: ·) ih

variable (p : Critical β γ ε σ)

/-- The jobs one after another, each alone. -/
def runServed (done : List (Served ι β ε)) (s : σ) : σ :=
  done.foldl (fun s x => (p.exec x.job x.results s).1) s

/-- Each of these jobs, one after another, comes to its end. -/
def AllEnd : List (Served ι β ε) → σ → Prop
  | [], _ => True
  | x :: rest, s => (p.exec x.job x.results s).2 = none ∧ AllEnd rest (p.exec x.job x.results s).1

omit [DecidableEq ι] in
@[simp] theorem runServed_append (a b : List (Served ι β ε)) (s : σ) :
    runServed p (a ++ b) s = runServed p b (runServed p a s) := by simp [runServed]

omit [DecidableEq ι] in
theorem runServed_cons (x : Served ι β ε) (rest : List (Served ι β ε)) (s : σ) :
    runServed p (x :: rest) s = runServed p rest (p.exec x.job x.results s).1 := rfl

omit [DecidableEq ι] in
@[simp] theorem runServed_nil (s : σ) : runServed p ([] : List (Served ι β ε)) s = s := rfl

omit [DecidableEq ι] in
theorem allEnd_concat {done : List (Served ι β ε)} {x : Served ι β ε} {s : σ} :
    AllEnd p (done ++ [x]) s ↔
      AllEnd p done s ∧ (p.exec x.job x.results (runServed p done s)).2 = none := by
  induction done generalizing s with
  | nil => simp [AllEnd]
  | cons y done ih => rw [List.cons_append, AllEnd, AllEnd, ih, and_assoc, runServed_cons]

omit [DecidableEq ι] in
theorem AllEnd.exists_end {done : List (Served ι β ε)} {s : σ} (h : AllEnd p done s) :
    ∀ x ∈ done, ∃ s', (p.exec x.job x.results s').2 = none := by
  induction done generalizing s with
  | nil => simp
  | cons x done ih => exact List.forall_mem_cons.mpr ⟨⟨s, h.1⟩, ih h.2⟩

/-- The shared state is what the jobs that took the lock make of it one after another.  All
of them are at their ends but the one that has the lock. -/
structure Serialized (s₀ : σ) (moves : List (Move ι β ε)) (t : Threads ι β γ σ) : Prop where
  shared : t.shared = runServed p (served moves) s₀
  /-- Who has the lock. -/
  holds : ∀ i, (t.phase i).Holds ↔ t.holder = some i
  free : t.holder = none → AllEnd p (served moves) s₀
  /-- The last job is the one that has the lock, and it is where its thread is. -/
  held : ∀ i, t.holder = some i → ∃ done job results,
    served moves = done ++ [⟨i, job, results⟩] ∧ AllEnd p done s₀ ∧
      t.phase i = .after job (p.exec job results (runServed p done s₀)).2
  /-- The calls of a thread are its jobs that took the lock and the one that waits for it. -/
  calls : ∀ i, callsOf i moves =
    ((served moves).filter fun x => x.thread = i).map Served.job ++ (t.phase i).pending

section

variable {p} {s₀ : σ} {moves : List (Move ι β ε)} {t u : Threads ι β γ σ} {a : Move ι β ε}

theorem serialized_start : Serialized p s₀ ([] : List (Move ι β ε)) (start s₀) where
  shared := rfl
  holds := fun i => by simp [start]
  free := fun _ => trivial
  held := fun i h => by simp [start] at h
  calls := fun i => rfl

theorem callsOf_append (i : ι) (a b : List (Move ι β ε)) :
    callsOf i (a ++ b) = callsOf i a ++ callsOf i b := by
  simp [callsOf, List.filterMap_append]

/-- The jobs of a thread that took the lock, in order. -/
theorem jobs_addResult (e : ε) (i : ι) (done : List (Served ι β ε)) :
    ((addResult e done).filter fun x => x.thread = i).map Served.job =
      (done.filter fun x => x.thread = i).map Served.job := by
  rcases List.eq_nil_or_concat done with rfl | ⟨done, x, rfl⟩
  · rfl
  · rw [List.concat_eq_append, addResult_concat]
    simp only [List.filter_append, List.map_append, List.filter_cons, List.filter_nil]
    split <;> rfl

/-- At most one thread has the lock. -/
theorem Serialized.eq_of_holds (h : Serialized p s₀ moves t) {i j : ι} (hi : (t.phase i).Holds)
    (hj : (t.phase j).Holds) : i = j :=
  Option.some.inj (((h.holds i).mp hi).symm.trans ((h.holds j).mp hj))

theorem Serialized.ne_of_holder (h : Serialized p s₀ moves t) {i j : ι} (hj : t.holder = some j)
    (hi : ¬(t.phase i).Holds) : j ≠ i := fun hji => hi ((h.holds i).mpr (hji ▸ hj))

/-- The phase of a thread after a move of `i`. -/
theorem goTo_phase (t : Threads ι β γ σ) (i j : ι) (ph : Phase β γ) :
    (t.goTo i ph).phase j = if j = i then ph else t.phase j := by
  split
  · rename_i h
    rw [h, goTo_self]
  · rename_i h
    exact goTo_of_ne t h ph

theorem Serialized.call (h : Serialized p s₀ moves t) {i : ι} {job : β}
    (hidle : t.phase i = .idle) :
    Serialized p s₀ (moves ++ [.call i job]) (t.goTo i (.waiting job)) where
  shared := by rw [served_concat]; exact h.shared
  holds := fun j => by
    rw [goTo_phase, goTo_holder, ← h.holds j]
    split
    · rename_i hj
      rw [hj, hidle]
      exact Iff.rfl
    · exact Iff.rfl
  free := fun hfree => by rw [served_concat]; exact h.free hfree
  held := fun j hj => by
    obtain ⟨done, job', results, hserved, hend, hphase⟩ := h.held j hj
    refine ⟨done, job', results, by rw [served_concat]; exact hserved, hend, ?_⟩
    rw [goTo_of_ne _ _ _, hphase]
    exact h.ne_of_holder hj (by simp [hidle])
  calls := fun j => by
    rw [served_concat, callsOf_append, h.calls j, goTo_phase]
    split
    · rename_i hj
      subst hj
      simp [hidle, callsOf, serve]
    · rename_i hj
      simp [callsOf, serve, Ne.symm hj]

theorem Serialized.lock (h : Serialized p s₀ moves t) {i : ι} {job : β}
    (hwaiting : t.phase i = .waiting job) (hfree : t.holder = none) :
    Serialized p s₀ (moves ++ [.lock i job])
      { t.goTo i (.inside job (p.start job)) with holder := some i } where
  shared := by
    rw [served_concat, serve, runServed_append, ← h.shared]
    rfl
  holds := fun j => by
    rw [goTo_phase]
    split
    · rename_i hj
      simp [hj]
    · rename_i hj
      rw [h.holds j, hfree]
      simp [Ne.symm hj]
  free := fun hnone => by simp at hnone
  held := fun j hj => by
    obtain rfl := Option.some.inj hj
    refine ⟨served moves, job, [], served_concat _ _, h.free hfree, ?_⟩
    rw [goTo_self]
    rfl
  calls := fun j => by
    rw [served_concat, callsOf_append, h.calls j, goTo_phase]
    split
    · rename_i hj
      subst hj
      simp [hwaiting, callsOf, serve]
    · rename_i hj
      simp [callsOf, serve, Ne.symm hj]

theorem Serialized.act (h : Serialized p s₀ moves t) {i : ι} {job : β} {c : γ}
    (hinside : t.phase i = .inside job c) (e : ε) :
    Serialized p s₀ (moves ++ [.act i e])
      { t.goTo i (.after job (p.next c e t.shared).2) with
          shared := (p.next c e t.shared).1 } := by
  have hholder : t.holder = some i := (h.holds i).mp (by rw [hinside]; trivial)
  obtain ⟨done, job', results, hserved, hend, hphase⟩ := h.held i hholder
  -- the job of the thread is the last one, and it is at `c`
  obtain ⟨rfl, hat⟩ : job = job' ∧
      (p.exec job' results (runServed p done s₀)).2 = some c := by
    rw [hinside] at hphase
    cases hplace : (p.exec job' results (runServed p done s₀)).2 <;>
      simp [hplace, Phase.after] at hphase ⊢
    exact ⟨hphase.1, hphase.2.symm⟩
  have hexec : p.exec job results (runServed p done s₀) = (t.shared, some c) := by
    rw [h.shared, hserved, runServed_append, ← hat]
    rfl
  have hnext : p.exec job (results ++ [e]) (runServed p done s₀) = p.next c e t.shared :=
    p.resume_concat hexec e
  have hserved' : served (moves ++ [.act i e]) = done ++ [⟨i, job, results ++ [e]⟩] := by
    rw [served_concat, serve, hserved, addResult_concat]
  refine ⟨?_, ?_, ?_, ?_, ?_⟩
  · rw [hserved', runServed_append, runServed_cons, hnext]
    rfl
  · intro j
    rw [goTo_phase, goTo_holder, ← h.holds j]
    split
    · rename_i hj
      rw [hj, hinside]
      exact iff_of_true (Phase.holds_after _ _) trivial
    · exact Iff.rfl
  · intro hnone
    simp [hholder] at hnone
  · intro j hj
    obtain rfl : i = j := Option.some.inj (hholder.symm.trans hj)
    refine ⟨done, job, results ++ [e], hserved', hend, ?_⟩
    rw [goTo_self, hnext]
  · intro j
    rw [served_concat, serve, jobs_addResult, callsOf_append, h.calls j, goTo_phase]
    split
    · rename_i hj
      subst hj
      rw [Phase.pending_after, hinside]
      simp [callsOf]
    · simp [callsOf]

theorem Serialized.unlock (h : Serialized p s₀ moves t) {i : ι} {job : β}
    (hleaving : t.phase i = .leaving job) :
    Serialized p s₀ (moves ++ [.unlock i]) { t.goTo i .idle with holder := none } := by
  have hholder : t.holder = some i := (h.holds i).mp (by rw [hleaving]; trivial)
  obtain ⟨done, job', results, hserved, hend, hphase⟩ := h.held i hholder
  refine ⟨?_, ?_, ?_, ?_, ?_⟩
  · rw [served_concat]
    exact h.shared
  · intro j
    rw [goTo_phase]
    split
    · simp
    · rename_i hj
      rw [h.holds j, hholder]
      simp [Ne.symm hj]
  · intro _
    rw [served_concat, serve, hserved]
    refine (allEnd_concat p).mpr ⟨hend, ?_⟩
    rw [hleaving] at hphase
    cases hplace : (p.exec job' results (runServed p done s₀)).2 with
    | none => rfl
    | some c => simp [hplace, Phase.after] at hphase
  · intro j hj
    simp at hj
  · intro j
    rw [served_concat, callsOf_append, h.calls j, goTo_phase]
    split
    · rename_i hj
      subst hj
      simp [hleaving, callsOf, serve]
    · simp [callsOf, serve]

/-- **Every interleaving is a serial run** in the order in which the jobs took the lock. -/
theorem serialized_of_run (h : Run (Step p) (start s₀) moves t) : Serialized p s₀ moves t := by
  induction h with
  | start => exact serialized_start
  | step _ hstep ih =>
      cases hstep with
      | call hidle => exact ih.call hidle
      | lock hwaiting hfree => exact ih.lock hwaiting hfree
      | act hinside e => exact ih.act hinside e
      | unlock hleaving => exact ih.unlock hleaving

end

end Threads

/-! ## Progress -/

/-- Whose move it is. -/
def Move.thread {ι β ε : Type} : Move ι β ε → ι
  | .call i _ => i
  | .lock i _ => i
  | .act i _ => i
  | .unlock i => i

/-- A move that begins no job. -/
def Move.GoesOn {ι β ε : Type} (a : Move ι β ε) : Prop := ∀ i job, a ≠ .call i job

namespace Threads

variable {ι β γ ε σ : Type} [DecidableEq ι] {p : Critical β γ ε σ} {s₀ : σ}
  {moves : List (Move ι β ε)} {t : Threads ι β γ σ}

/-- **No deadlock**: as long as a thread has a job, some thread can go on. -/
theorem exists_move [Inhabited ε] (h : Run (Step p) (start s₀) moves t) {i : ι}
    (hbusy : t.phase i ≠ .idle) : ∃ a u, Step p t a u ∧ a.GoesOn := by
  have hserial := serialized_of_run h
  cases hholder : t.holder with
  | some j =>
      -- the thread that has the lock is never stopped
      have hj := (hserial.holds j).mpr hholder
      cases hphase : t.phase j with
      | idle => simp [hphase] at hj
      | waiting job => simp [hphase] at hj
      | inside job c => exact ⟨_, _, .act hphase default, fun _ _ => by simp⟩
      | leaving job => exact ⟨_, _, .unlock hphase, fun _ _ => by simp⟩
  | none =>
      have hi : ¬(t.phase i).Holds := fun hi => by simp [(hserial.holds i).mp hi] at hholder
      cases hphase : t.phase i with
      | idle => exact absurd hphase hbusy
      | waiting job => exact ⟨_, _, .lock hphase hholder, fun _ _ => by simp⟩
      | inside job c => simp [hphase] at hi
      | leaving job => simp [hphase] at hi

variable (rank : γ → Nat) (bound : Nat)

/-- How many moves a thread has before it, when its job ends in `bound` more actions. -/
def movesLeft : Phase β γ → Nat
  | .idle => 0
  | .waiting _ => bound + 3
  | .inside _ c => rank c + 2
  | .leaving _ => 1

theorem movesLeft_after (job : β) (place : Option γ) {n : Nat}
    (h : ∀ c, place = some c → rank c < n) :
    movesLeft rank bound (Phase.after job place) ≤ n + 1 := by
  cases place with
  | none => exact Nat.le_add_left 1 n
  | some c => exact Nat.succ_le_succ (h c rfl)

/-- A move leaves the other threads where they are. -/
theorem Step.frame {a : Move ι β ε} {u : Threads ι β γ σ} (h : Step p t a u) {j : ι}
    (hj : j ≠ a.thread) : u.phase j = t.phase j := by
  cases h <;> exact goTo_of_ne t hj _

/-- A move uses up one of the moves of its thread; a call brings `bound + 4`. -/
theorem Step.movesLeft_le (hstart : ∀ job, rank (p.start job) ≤ bound)
    (hnext : ∀ c e s c', (p.next c e s).2 = some c' → rank c' < rank c)
    {a : Move ι β ε} {u : Threads ι β γ σ} (h : Step p t a u) (i : ι) :
    ([a].countP fun a => a.thread = i) + movesLeft rank bound (u.phase i) ≤
      movesLeft rank bound (t.phase i) + (bound + 4) * (callsOf i [a]).length := by
  by_cases hi : i = a.thread
  · subst hi
    cases h with
    | @call j job hidle => simp [Move.thread, callsOf, hidle, movesLeft]; omega
    | @lock j job hwaiting hfree =>
        have := hstart job
        simp [Move.thread, callsOf, hwaiting, movesLeft]
        omega
    | @act j job c hinside e =>
        have hafter := movesLeft_after rank bound job (p.next c e t.shared).2
          (hnext c e t.shared)
        simp [Move.thread, callsOf, hinside, movesLeft] at hafter ⊢
        omega
    | @unlock j job hleaving => simp [Move.thread, callsOf, hleaving, movesLeft]
  · rw [h.frame hi]
    simp [Ne.symm hi]

/-- **No livelock**: when each move uses up one of the moves of its thread, a thread makes at
most `bound + 4` moves for each of its calls.  The steps may be fewer or more than those of
`Step`. -/
theorem moves_le {R : Threads ι β γ σ → Move ι β ε → Threads ι β γ σ → Prop} (i : ι)
    (hmove : ∀ {t a u}, R t a u →
      ([a].countP fun a => a.thread = i) + movesLeft rank bound (u.phase i) ≤
        movesLeft rank bound (t.phase i) + (bound + 4) * (callsOf i [a]).length)
    (h : Run R (start s₀) moves t) :
    (moves.countP fun a => a.thread = i) + movesLeft rank bound (t.phase i) ≤
      (bound + 4) * (callsOf i moves).length := by
  induction h with
  | start => simp [start, movesLeft]
  | @step moves t u a _ hstep ih =>
      have hstep := hmove hstep
      rw [List.countP_append, callsOf_append, List.length_append, Nat.mul_add]
      omega

end Threads

end SporeClient.Foundation
