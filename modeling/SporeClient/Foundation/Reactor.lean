/-
  Foundation/Reactor.lean --- a line reader whose output is acted on while it reads.

  WHAT THIS FILE IS FOR.  What a reader puts out changes a state, and this state says
  whether there is another piece to read.  The reader does not look at the state, so all
  that the loop can do is to end early: it acts on what the reader puts out for the first
  pieces, and stops behind the first piece after which the state does not let it go on
  (`feedWhile_eq`).
-/
import SporeClient.Foundation.LineReader

set_option autoImplicit false

namespace SporeClient.Foundation

namespace LineReader

variable {α σ ο τ : Type} [DecidableEq α] (R : LineReader α σ ο) (react : τ → ο → τ)
  (goesOn : τ → Bool)

/-- The outer loop, when what is put out for a piece changes the state `t`, and the next piece
is there only when the state goes on. -/
def feedWhile : Reading α σ → τ → List (List α) → τ
  | _, t, [] => t
  | s, t, piece :: rest =>
      if goesOn t then
        feedWhile (R.feed s piece).1 ((R.feed s piece).2.foldl react t) rest
      else t

/-- **The loop acts on the output of the first pieces.**  Before each of them the state goes
on, and when there are more, the last state does not. -/
theorem feedWhile_eq (s : Reading α σ) (t : τ) (pieces : List (List α)) :
    ∃ n ≤ pieces.length,
      R.feedWhile react goesOn s t pieces = (R.feedAll s (pieces.take n)).2.foldl react t ∧
        (n < pieces.length → goesOn (R.feedWhile react goesOn s t pieces) = false) ∧
        ∀ k < n, goesOn ((R.feedAll s (pieces.take k)).2.foldl react t) = true := by
  induction pieces generalizing s t with
  | nil => exact ⟨0, Nat.le_refl 0, rfl, by simp, by simp⟩
  | cons piece rest ih =>
      cases ht : goesOn t with
      | false =>
          have hstop : R.feedWhile react goesOn s t (piece :: rest) = t := by
            simp [feedWhile, ht]
          exact ⟨0, Nat.zero_le _, hstop, fun _ => by rw [hstop, ht], by simp⟩
      | true =>
          have hgo : R.feedWhile react goesOn s t (piece :: rest) =
              R.feedWhile react goesOn (R.feed s piece).1
                ((R.feed s piece).2.foldl react t) rest := by
            simp [feedWhile, ht]
          have hfold : ∀ k, (R.feedAll s ((piece :: rest).take (k + 1))).2.foldl react t =
              (R.feedAll (R.feed s piece).1 (rest.take k)).2.foldl react
                ((R.feed s piece).2.foldl react t) := by
            intro k
            rw [List.take_succ_cons, feedAll, List.foldl_append]
          obtain ⟨n, hn, heq, hlast, hbefore⟩ :=
            ih (R.feed s piece).1 ((R.feed s piece).2.foldl react t)
          refine ⟨n + 1, Nat.succ_le_succ hn, ?_, fun hmore => ?_, fun k hk => ?_⟩
          · rw [hgo, hfold, heq]
          · rw [hgo]
            exact hlast (Nat.lt_of_succ_lt_succ hmore)
          · cases k with
            | zero => exact ht
            | succ k =>
                rw [hfold]
                exact hbefore k (Nat.lt_of_succ_lt_succ hk)

end LineReader

end SporeClient.Foundation
