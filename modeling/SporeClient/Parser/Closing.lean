/-
  Parser/Closing.lean --- what the tokenizer makes of a text as a whole.

  WHAT THIS FILE IS FOR.  A message may end inside quotes, brackets or a block; what
  `tokenize` does then is code of its own, behind the loop.  `explicitClose` is the text
  that would have closed what is open.  Adding it to the message changes no token
  (`tokenize_explicitClose`), so the code behind the loop does what the loop would have
  done.  The marks that are added, the spaces and the quotes are all that the tokens and
  the text differ by (`tokenize_conserves`).
-/
import SporeClient.Parser.Blocks

set_option autoImplicit false

namespace SporeClient.Parser

open SporeClient.Foundation

/-! ## What is left open -/

/-- The marks the tokenizer adds: one closing bracket for each level that is open, `>>` for
an open block. -/
def autoClose (message : Bytes) : Bytes :=
  let s := Tokenizer.loop {} message
  match s.inside with
  | .none => []
  | .quotes => []
  | .sQuotes => []
  | .brackets => List.replicate s.depth s.close
  | .triangles => closeMark

/-- The text that closes what a message leaves open: the quote, one closing bracket for each
level that is open, or `>>`. -/
def explicitClose (message : Bytes) : Bytes :=
  let s := Tokenizer.loop {} message
  match s.inside with
  | .none => []
  | .quotes => ['"']
  | .sQuotes => ['\'']
  | .brackets => List.replicate s.depth s.close
  | .triangles => closeMark

/-- The text that closes a mode. -/
def Mode.closeText : Mode → Bytes
  | .outside => []
  | .quote q => [q]
  | .bracket b n => List.replicate n (closer b)
  | .block => closeMark

theorem autoClose_eq (message : Bytes) :
    autoClose message = (Mode.outside.after message none).closing := by
  rw [← Tokenizer.loop_mode, autoClose, Tokenizer.mode]
  cases (Tokenizer.loop {} message).inside <;> rfl

theorem explicitClose_eq (message : Bytes) :
    explicitClose message = (Mode.outside.after message none).closeText := by
  rw [← Tokenizer.loop_mode, explicitClose, Tokenizer.mode]
  cases (Tokenizer.loop {} message).inside <;> rfl

/-- **The tokenizer loses and invents nothing** but spaces, quotes and the marks it adds; and
no token is empty. -/
theorem tokenize_conserves (message : Bytes) :
    withoutGaps ((tokenize message).flatMap Token.value) =
        withoutGaps message ++ autoClose message ∧
      ∀ t ∈ tokenize message, t.value ≠ [] := by
  refine ⟨?_, fun t ht => value_ne_nil ht⟩
  rw [autoClose_eq]
  exact withoutGaps_tokenize message

/-! ## A space outside everything -/

/-- **A space outside everything divides a text** into two that are tokenized by
themselves. -/
theorem tokenize_compositional {a : Bytes} (ha : endsInside a = .none) (b : Bytes) :
    tokenize (a ++ [' '] ++ b) = tokenize a ++ tokenize b := by
  have hmode := (endsInside_none_iff a).mp ha
  rw [List.append_assoc, List.singleton_append]
  exact tokenize_cut hmode b

/-- A closed block, an empty pair of quotes and a `<` behind them. -/
theorem tokenize_compositional_block :
    tokenize ("k=<<a b>>\"\"<".toList ++ [' '] ++ "<c".toList) =
      [⟨"k=<<a b>><".toList, .arg⟩, ⟨"<c".toList, .none⟩] :=
  (tokenize_compositional (by decide) _).trans (by decide)

/-! ## Closing explicitly -/

/-- The closing brackets close the levels that are open, one each. -/
theorem Lexer.read_closers {b : Char} (hb : b = '[' ∨ b = '{') {n : Nat} (hn : 0 < n) (t : Token)
    (d : List Token) :
    (⟨.bracket b n, t, d⟩ : Lexer).read (List.replicate n (closer b)) none =
      ⟨.outside, ⟨t.value ++ List.replicate n (closer b), t.type⟩, d⟩ := by
  have hne := closer_ne hb
  have hstep : ∀ n t next, (⟨.bracket b n, t, d⟩ : Lexer).step (closer b) next =
      ⟨if n - 1 = 0 then .outside else .bracket b (n - 1), ⟨t.value ++ [closer b], t.type⟩, d⟩ := by
    intro n t next
    simp [step, Mode.step, hne, Token.keep]
  induction n generalizing t with
  | zero => exact absurd hn (Nat.lt_irrefl 0)
  | succ n ih =>
      rw [List.replicate_succ, read_cons, hstep, Nat.add_sub_cancel]
      by_cases hzero : n = 0
      · subst hzero
        simp
      · rw [if_neg hzero, ih (Nat.pos_of_ne_zero hzero)]
        simp

/-- Outside everything `>>` is kept. -/
theorem Lexer.read_closeMark (t : Token) (d : List Token) :
    (⟨.outside, t, d⟩ : Lexer).read closeMark none =
      ⟨.outside, ⟨t.value ++ closeMark, t.type⟩, d⟩ := by
  have hstep : ∀ t next, (⟨.outside, t, d⟩ : Lexer).step '>' next =
      ⟨.outside, ⟨t.value ++ ['>'], t.type⟩, d⟩ := by
    intro t next
    simp [step, Mode.step, Token.keep]
  rw [closeMark, read_cons, hstep, read_cons, hstep]
  simp

/-- **A text that ends in a block**, read with `>>` behind it.  A `>` at its end closes the
block one byte earlier, and the same bytes are kept. -/
theorem Lexer.read_block_end {message : Bytes} (h : Mode.outside.after message none = .block) :
    ∃ t d, ({} : Lexer).read message none = ⟨.block, t, d⟩ ∧
      ({} : Lexer).read (message ++ closeMark) none =
        ⟨.outside, ⟨t.value ++ closeMark, t.type⟩, d⟩ := by
  rcases List.eq_nil_or_concat' message with rfl | ⟨front, c, rfl⟩
  · simp at h
  -- only in a block is the last byte the last of a text that ends in a block
  have hlast : Mode.outside.after front (some c) = .block := by
    rw [Mode.after_append, List.head?_cons, Option.some_or, Mode.after_cons, Mode.after_nil,
      List.head?_nil, Option.none_or, step_eq_block_iff] at h
    rcases h with ⟨_, _, hnext⟩ | ⟨hblock, _⟩
    · simp at hnext
    · exact hblock
  have hmode := Lexer.read_mode {} front (some c)
  have hfront : ∀ next, ({} : Lexer).read (front ++ [c]) next =
      (({} : Lexer).read front (some c)).step c next := by
    intro next
    rw [read_append, List.head?_cons, Option.some_or, read_cons, List.head?_nil, Option.none_or,
      read_nil]
  have hback := read_append {} (front ++ [c]) closeMark none
  rw [hfront] at hback
  rw [hback, hfront]
  clear hback hfront
  generalize ({} : Lexer).read front (some c) = s at hmode ⊢
  obtain ⟨m, t, d⟩ := s
  obtain rfl : m = .block := hmode.trans hlast
  refine ⟨⟨t.value ++ [c], t.type⟩, d, by simp [step, Mode.step, Token.keep], ?_⟩
  have hnext : closeMark.head?.or none = some '>' := rfl
  rw [hnext]
  by_cases hc : c = '>'
  · have hstep : (⟨.block, t, d⟩ : Lexer).step c (some '>') =
        ⟨.outside, ⟨t.value ++ [c], t.type⟩, d⟩ := by simp [step, Mode.step, Token.keep, hc]
    rw [hstep, read_closeMark]
  · have hstep : (⟨.block, t, d⟩ : Lexer).step c (some '>') =
        ⟨.block, ⟨t.value ++ [c], t.type⟩, d⟩ := by simp [step, Mode.step, Token.keep, hc]
    have hclose := @read_block_close ⟨t.value ++ [c], t.type⟩ d [] [] none
      (by simp [closeMark, pair_infix_cons])
    rw [hstep]
    simpa using hclose

/-- **The lexer behind the closing text** is outside everything, and its last token is the
one that `tokenize` closes by itself. -/
theorem Lexer.read_explicitClose (message : Bytes) :
    ∃ m t d, ({} : Lexer).read message none = ⟨m, t, d⟩ ∧
      ({} : Lexer).read (message ++ explicitClose message) none =
        ⟨.outside, ⟨t.value ++ m.closing, t.type⟩, d⟩ := by
  have hmode := Lexer.read_mode {} message none
  have hproper : (Mode.outside.after message none).Proper :=
    Mode.after_proper (m := .outside) trivial message none
  -- only the first `>` of `>>` is seen from inside the message
  have hneutral : ∀ text : Bytes, Neutral text.head? →
      ({} : Lexer).read (message ++ text) none =
        (({} : Lexer).read message none).read text none := by
    intro text htext
    rw [read_append, Option.or_none, Lexer.read_neutral htext (show Neutral none by decide)]
  rw [explicitClose_eq]
  cases hm : Mode.outside.after message none with
  | block =>
      obtain ⟨t, d, hread, hclose⟩ := read_block_end hm
      exact ⟨.block, t, d, hread, hclose⟩
  | outside =>
      rw [hm] at hmode
      simp only [Mode.closeText, List.append_nil]
      generalize ({} : Lexer).read message none = s at hmode ⊢
      obtain ⟨m, t, d⟩ := s
      obtain rfl : m = .outside := hmode
      exact ⟨.outside, t, d, rfl, by simp [Mode.closing]⟩
  | quote q =>
      rw [hm] at hmode hproper
      have hq : Neutral (some q) := by rcases hproper with rfl | rfl <;> decide
      simp only [Mode.closeText]
      rw [hneutral [q] hq]
      generalize ({} : Lexer).read message none = s at hmode ⊢
      obtain ⟨m, t, d⟩ := s
      obtain rfl : m = .quote q := hmode
      refine ⟨.quote q, t, d, rfl, ?_⟩
      rw [read_cons, read_nil]
      simp [step, Mode.step, Mode.closing]
  | bracket b n =>
      rw [hm] at hmode hproper
      have hhead : Neutral (List.replicate n (closer b)).head? := by
        obtain ⟨hb, hn⟩ := hproper
        obtain ⟨k, rfl⟩ := Nat.exists_eq_succ_of_ne_zero hn.ne'
        rcases hb with rfl | rfl <;> simp [List.replicate_succ, closer, Neutral]
      simp only [Mode.closeText]
      rw [hneutral _ hhead]
      generalize ({} : Lexer).read message none = s at hmode ⊢
      obtain ⟨m, t, d⟩ := s
      obtain rfl : m = .bracket b n := hmode
      exact ⟨.bracket b n, t, d, rfl, read_closers hproper.1 hproper.2 t d⟩

/-- **Closing by itself is closing explicitly.**  The text that closes what a message leaves
open changes no token, and leaves nothing open. -/
theorem tokenize_explicitClose (message : Bytes) :
    tokenize message = tokenize (message ++ explicitClose message) ∧
      endsInside (message ++ explicitClose message) = .none := by
  obtain ⟨m, t, d, hread, hclose⟩ := Lexer.read_explicitClose message
  constructor
  · rw [tokenize_eq, tokenize_eq, hread, hclose]
    simp [Lexer.finish, Mode.closing]
  · rw [endsInside_none_iff, ← Lexer.read_mode {} _ none, hclose]

end SporeClient.Parser
