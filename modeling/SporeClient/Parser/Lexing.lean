/-
  Parser/Lexing.lean --- the tokenizer as a lexer: a mode and an action for every byte.

  WHAT THIS FILE IS FOR.  `tokenize` mixes two things: which mode it is in, which depends
  on the text alone, and what it does to the token it is building.  Here the two are
  separate.  `Mode.step` is the mode after a byte and one of three actions: the byte is
  kept, it is left out, or it cuts the token off.  A `Lexer` carries out the actions, and
  `tokenize_eq` says that the tokenizer is this lexer.

  THE FACTS MOST USED.

      tokenize_eq            the tokenizer is the lexer
      Lexer.read_append      reading a text is reading its front and then its back
      Lexer.read_neutral     what follows a text matters only when it is part of a mark
      withoutGaps_tokenize   no byte but a space or a quote is lost, and none is invented
                             but the marks at the end that close what is open
-/
import SporeClient.Foundation.Lookahead
import SporeClient.Parser.Tokenize

set_option autoImplicit false

namespace SporeClient.Parser

open SporeClient.Foundation

/-! ## Modes -/

/-- What the lexer is inside of: nothing, quotes of one kind, brackets of one kind to a
depth, or a block. -/
inductive Mode where
  | outside
  | quote (q : Char)
  | bracket (b : Char) (depth : Nat)
  | block
  deriving DecidableEq, Repr

/-- What becomes of a byte. -/
inductive Action where
  | keep
  | drop
  | cut
  deriving DecidableEq, Repr

/-- The bracket that closes `b`. -/
def closer (b : Char) : Char := if b = '[' then ']' else '}'

theorem closer_ne {b : Char} (hb : b = '[' ∨ b = '{') : closer b ≠ b := by
  rcases hb with rfl | rfl <;> decide

/-- The mode after the byte `c` and what becomes of it; `next` is the byte after it. -/
def Mode.step (m : Mode) (c : Char) (next : Option Char) : Mode × Action :=
  match m with
  | .outside =>
      if c = ' ' then (.outside, .cut)
      else if c = '"' ∨ c = '\'' then (.quote c, .drop)
      else if c = '[' ∨ c = '{' then (.bracket c 1, .keep)
      else if c = '<' ∧ next = some '<' then (.block, .keep)
      else (.outside, .keep)
  | .quote q => if c = q then (.outside, .drop) else (.quote q, .keep)
  | .bracket b n =>
      if c = b then (.bracket b (n + 1), .keep)
      else if c = closer b then (if n - 1 = 0 then .outside else .bracket b (n - 1), .keep)
      else (.bracket b n, .keep)
  | .block => if c = '>' ∧ next = some '>' then (.outside, .keep) else (.block, .keep)

/-- The mode after a text; `after` is the byte that follows it. -/
def Mode.after (m : Mode) (text : Bytes) (next : Option Char) : Mode :=
  Lookahead.run (fun m c next => (m.step c next).1) next m text

/-- The text that closes what a mode leaves open. -/
def Mode.closing : Mode → Bytes
  | .outside => []
  | .quote _ => []
  | .bracket b n => List.replicate n (closer b)
  | .block => ['>', '>']

/-! ## The lexer -/

/-- A token with one more byte, read in mode `m`. -/
def Token.keep (t : Token) (m : Mode) (c : Char) : Token :=
  { value := t.value ++ [c]
    type :=
      if m = .outside ∧ c = '=' then .arg
      else if m = .outside ∧ c = '~' ∧ t.value = [] then .handle
      else t.type }

/-- A token counts when it has text. -/
def emit (t : Token) : List Token := if t.value = [] then [] else [t]

/-- A lexer in the middle of a text. -/
structure Lexer where
  mode : Mode := .outside
  curr : Token := {}
  tokens : List Token := []
  deriving DecidableEq, Repr

namespace Lexer

/-- Read one byte. -/
def step (s : Lexer) (c : Char) (next : Option Char) : Lexer :=
  match s.mode.step c next with
  | (m, .keep) => ⟨m, s.curr.keep s.mode c, s.tokens⟩
  | (m, .drop) => ⟨m, s.curr, s.tokens⟩
  | (m, .cut) => ⟨m, {}, s.tokens ++ emit s.curr⟩

/-- Read a text that `after` follows. -/
def read (s : Lexer) (text : Bytes) (after : Option Char) : Lexer :=
  Lookahead.run step after s text

/-- Close what is open and end the last token. -/
def finish (s : Lexer) : List Token :=
  s.tokens ++ emit ⟨s.curr.value ++ s.mode.closing, s.curr.type⟩

end Lexer

/-! ## The tokenizer is this lexer -/

namespace Tokenizer

/-- The mode of the tokenizer. -/
def mode (s : Tokenizer) : Mode :=
  match s.inside with
  | .none => .outside
  | .quotes => .quote '"'
  | .sQuotes => .quote '\''
  | .brackets => .bracket s.bracket s.depth
  | .triangles => .block

/-- The tokenizer `s` is where the lexer `t` is; a token without text has no type yet. -/
structure Simulates (s : Tokenizer) (t : Lexer) : Prop where
  lexer_eq : t = ⟨s.mode, s.curr, s.tokens⟩
  untyped : s.curr.value = [] → s.curr = {}

/-- A byte that is kept. -/
theorem simulates_keep {s s' : Tokenizer} {c : Char} {next : Option Char} {m : Mode}
    (hstep : s.mode.step c next = (m, .keep)) (hmode : s'.mode = m)
    (hcurr : s'.curr = s.curr.keep s.mode c) (htokens : s'.tokens = s.tokens) :
    s'.Simulates (Lexer.step ⟨s.mode, s.curr, s.tokens⟩ c next) := by
  refine ⟨?_, fun h => ?_⟩
  · simp only [Lexer.step, hstep, hmode, hcurr, htokens]
  · rw [hcurr] at h
    simp [Token.keep] at h

/-- Outside everything. -/
theorem simulates_none {s : Tokenizer} (hin : s.inside = .none)
    (huntyped : s.curr.value = [] → s.curr = {}) (c : Char) (next : Option Char) :
    (s.stepNone c next).Simulates (Lexer.step ⟨s.mode, s.curr, s.tokens⟩ c next) := by
  have hmode : s.mode = .outside := by simp [mode, hin]
  unfold stepNone
  split
  · -- a space
    rename_i hc
    subst hc
    by_cases hv : s.curr.value = []
    · refine ⟨?_, ?_⟩
      · simp [Lexer.step, Mode.step, flush, emit, mode, hin, huntyped hv]
      · simpa [flush, hv] using huntyped hv
    · refine ⟨?_, ?_⟩
      · simp [Lexer.step, Mode.step, flush, emit, hv, mode, hin]
      · simp [flush, hv]
  · split
    · rename_i hc
      subst hc
      exact ⟨by simp [Lexer.step, Mode.step, mode, hin], huntyped⟩
    · split
      · rename_i hc
        subst hc
        exact ⟨by simp [Lexer.step, Mode.step, mode, hin], huntyped⟩
      · -- every other byte is kept
        rename_i hspace hquote hsquote
        split
        · rename_i hc
          rcases hc with rfl | rfl <;>
            exact simulates_keep (by simp [hmode, Mode.step]; rfl) (by simp [mode])
              (by simp [push, Token.keep]) rfl
        · rename_i hbracket
          split
          · rename_i hc
            subst hc
            exact simulates_keep (by simp [hmode, Mode.step]; rfl) (by simp [mode, push, hin])
              (by simp [push, Token.keep, hmode]) rfl
          · rename_i heq
            split
            · rename_i hc
              subst hc
              split
              · rename_i hv
                exact simulates_keep (by simp [hmode, Mode.step]; rfl) (by simp [mode, push, hin])
                  (by simp [push, Token.keep, hmode, hv]) rfl
              · rename_i hv
                exact simulates_keep (by simp [hmode, Mode.step]; rfl) (by simp [mode, push, hin])
                  (by simp [push, Token.keep, hv]) rfl
            · rename_i htilde
              have hcurr : (s.push c).curr = s.curr.keep s.mode c := by
                simp [push, Token.keep, heq, htilde]
              split
              · rename_i hc
                split
                · rename_i hnext
                  exact simulates_keep (by simp [hmode, Mode.step, hc, hnext]; rfl) (by simp [mode])
                    hcurr rfl
                · rename_i hnext
                  exact simulates_keep (by simp [hmode, Mode.step, hc, hnext]; rfl)
                    (by simp [mode, push, hin]) hcurr rfl
              · rename_i hc
                refine simulates_keep (m := .outside) ?_ (by simp [mode, push, hin]) hcurr rfl
                simp only [hmode, Mode.step, hspace, hquote, hsquote, hbracket, hc, or_self,
                  false_and, if_false]

/-- Inside brackets. -/
theorem simulates_brackets {s : Tokenizer} (hin : s.inside = .brackets) (c : Char)
    (next : Option Char) :
    (s.stepBrackets c).Simulates (Lexer.step ⟨s.mode, s.curr, s.tokens⟩ c next) := by
  have hmode : s.mode = .bracket s.bracket s.depth := by simp [mode, hin]
  unfold stepBrackets
  split
  · rename_i hc
    exact simulates_keep (by simp [hmode, Mode.step, hc]; rfl) (by simp [mode, push, hin])
      (by simp [push, Token.keep, hmode]) rfl
  · rename_i hopen
    split
    · rename_i hc
      refine simulates_keep
        (m := if s.depth - 1 = 0 then .outside else .bracket s.bracket (s.depth - 1))
        ?_ ?_ (by simp [push, Token.keep, hmode]) rfl
      · have hc' : c = closer s.bracket := hc
        simp only [hmode, Mode.step, if_neg hopen, if_pos hc']
      · by_cases hd : s.depth - 1 = 0 <;> simp [mode, push, hd]
    · rename_i hc
      have hc' : c ≠ closer s.bracket := hc
      refine simulates_keep (m := .bracket s.bracket s.depth) ?_ (by simp [mode, push, hin])
        (by simp [push, Token.keep, hmode]) rfl
      simp only [hmode, Mode.step, if_neg hopen, if_neg hc']

theorem simulates_step {s : Tokenizer} {t : Lexer} (h : s.Simulates t) (c : Char)
    (next : Option Char) : (s.step c next).Simulates (t.step c next) := by
  obtain ⟨rfl, huntyped⟩ := h
  unfold step
  cases hin : s.inside with
  | none => exact simulates_none hin huntyped c next
  | brackets => exact simulates_brackets hin c next
  | quotes =>
      by_cases hc : c = '"'
      · exact ⟨by simp [Lexer.step, Mode.step, mode, hin, hc], by simpa [hc] using huntyped⟩
      · simp only [if_neg hc]
        exact simulates_keep (by simp [mode, hin, Mode.step, hc]; rfl) (by simp [mode, push, hin])
          (by simp [push, Token.keep, mode, hin]) rfl
  | sQuotes =>
      by_cases hc : c = '\''
      · exact ⟨by simp [Lexer.step, Mode.step, mode, hin, hc], by simpa [hc] using huntyped⟩
      · simp only [if_neg hc]
        exact simulates_keep (by simp [mode, hin, Mode.step, hc]; rfl) (by simp [mode, push, hin])
          (by simp [push, Token.keep, mode, hin]) rfl
  | triangles =>
      by_cases hc : c = '>' ∧ next = some '>'
      · simp only [if_pos hc]
        exact simulates_keep (by simp [mode, hin, Mode.step, hc]; rfl) (by simp [mode])
          (by simp [push, Token.keep, mode, hin]) rfl
      · simp only [if_neg hc]
        exact simulates_keep (by simp [mode, hin, Mode.step, hc]; rfl) (by simp [mode, push, hin])
          (by simp [push, Token.keep, mode, hin]) rfl

theorem loop_eq_run (s : Tokenizer) (message : Bytes) :
    s.loop message = Lookahead.run step none s message := by
  induction message generalizing s with
  | nil => rfl
  | cons c rest ih => rw [loop, ih, Lookahead.run_cons, Option.or_none]

/-- The loop over a message is the lexer reading it. -/
theorem simulates_loop (message : Bytes) :
    (Tokenizer.loop {} message).Simulates (Lexer.read {} message none) := by
  rw [loop_eq_run]
  exact Lookahead.run_rel (R := Simulates) (fun _ _ c next h => simulates_step h c next)
    ⟨rfl, fun _ => rfl⟩ none message

theorem closing_eq (s : Tokenizer) : s.closing = s.mode.closing := by
  unfold closing mode
  cases s.inside <;> rfl

end Tokenizer

/-- **The tokenizer is the lexer.** -/
theorem tokenize_eq (message : Bytes) : tokenize message = (Lexer.read {} message none).finish := by
  obtain ⟨hlexer, huntyped⟩ := Tokenizer.simulates_loop message
  rw [tokenize, hlexer]
  simp only [Tokenizer.finish, Tokenizer.flush, Lexer.finish, emit, Tokenizer.closing_eq]
  split
  · simp
  · rfl

namespace Lexer

/-- The mode of the lexer depends on the text alone. -/
theorem read_mode (s : Lexer) (text : Bytes) (after : Option Char) :
    (s.read text after).mode = s.mode.after text after := by
  refine Lookahead.run_rel (R := fun (s : Lexer) m => s.mode = m) ?_ rfl after text
  rintro s m c next rfl
  unfold step
  rcases s.mode.step c next with ⟨m', _ | _ | _⟩ <;> rfl

end Lexer

/-- **The tokenizer ends in the mode of the lexer.** -/
theorem Tokenizer.loop_mode (message : Bytes) :
    (Tokenizer.loop {} message).mode = Mode.outside.after message none := by
  rw [← Lexer.read_mode {} message none, (simulates_loop message).lexer_eq]

/-- The tokenizer ends inside a block when the lexer does. -/
theorem endsInside_triangles_iff (message : Bytes) :
    endsInside message = .triangles ↔ Mode.outside.after message none = .block := by
  rw [← Tokenizer.loop_mode, endsInside, Tokenizer.mode]
  cases (Tokenizer.loop {} message).inside <;> simp

/-- The tokenizer ends with nothing open when the lexer does. -/
theorem endsInside_none_iff (message : Bytes) :
    endsInside message = .none ↔ Mode.outside.after message none = .outside := by
  rw [← Tokenizer.loop_mode, endsInside, Tokenizer.mode]
  cases (Tokenizer.loop {} message).inside <;> simp

/-! ## Reading in parts -/

namespace Mode

@[simp] theorem after_nil (m : Mode) (next : Option Char) : m.after [] next = m := rfl

theorem after_cons (m : Mode) (c : Char) (rest : Bytes) (next : Option Char) :
    m.after (c :: rest) next = (m.step c (rest.head?.or next)).1.after rest next := rfl

theorem after_append (m : Mode) (a b : Bytes) (next : Option Char) :
    m.after (a ++ b) next = (m.after a (b.head?.or next)).after b next :=
  Lookahead.run_append _ next m a b

end Mode

namespace Lexer

@[simp] theorem read_nil (s : Lexer) (after : Option Char) : s.read [] after = s := rfl

theorem read_cons (s : Lexer) (c : Char) (rest : Bytes) (after : Option Char) :
    s.read (c :: rest) after = (s.step c (rest.head?.or after)).read rest after := rfl

/-- Reading a text is reading its front, with the back in sight, and then its back. -/
theorem read_append (s : Lexer) (a b : Bytes) (after : Option Char) :
    s.read (a ++ b) after = (s.read a (b.head?.or after)).read b after :=
  Lookahead.run_append _ after s a b

/-- The tokens already made stay in front. -/
theorem read_tokens (m : Mode) (t : Token) (d e : List Token) (text : Bytes)
    (after : Option Char) :
    (⟨m, t, d ++ e⟩ : Lexer).read text after =
      ⟨((⟨m, t, e⟩ : Lexer).read text after).mode, ((⟨m, t, e⟩ : Lexer).read text after).curr,
        d ++ ((⟨m, t, e⟩ : Lexer).read text after).tokens⟩ := by
  have hstep : ∀ (s r : Lexer) (c : Char) (next : Option Char),
      s = ⟨r.mode, r.curr, d ++ r.tokens⟩ →
        s.step c next =
          ⟨(r.step c next).mode, (r.step c next).curr, d ++ (r.step c next).tokens⟩ := by
    rintro s r c next rfl
    simp only [step]
    rcases r.mode.step c next with ⟨m', _ | _ | _⟩ <;> simp
  exact Lookahead.run_rel (R := fun (s r : Lexer) => s = ⟨r.mode, r.curr, d ++ r.tokens⟩)
    hstep (t := ⟨m, t, e⟩) rfl after text

theorem finish_tokens (m : Mode) (t : Token) (d : List Token) (text : Bytes)
    (after : Option Char) :
    ((⟨m, t, d⟩ : Lexer).read text after).finish =
      d ++ ((⟨m, t, []⟩ : Lexer).read text after).finish := by
  have h := read_tokens m t d [] text after
  rw [List.append_nil] at h
  rw [h]
  simp [finish]

end Lexer

/-! ## Lookahead that does not matter -/

/-- A lookahead that is not the second byte of a mark. -/
def Neutral (next : Option Char) : Prop := next ≠ some '<' ∧ next ≠ some '>'

instance (next : Option Char) : Decidable (Neutral next) := inferInstanceAs (Decidable (_ ∧ _))

theorem Mode.step_neutral {a b : Option Char} (ha : Neutral a) (hb : Neutral b) (m : Mode)
    (c : Char) : m.step c a = m.step c b := by
  cases m <;> simp [Mode.step, ha.1, ha.2, hb.1, hb.2]

theorem Mode.after_neutral {a b : Option Char} (ha : Neutral a) (hb : Neutral b) (m : Mode)
    (text : Bytes) : m.after text a = m.after text b :=
  Lookahead.run_after (fun m c => by rw [m.step_neutral ha hb]) m text

theorem Lexer.read_neutral {a b : Option Char} (ha : Neutral a) (hb : Neutral b) (s : Lexer)
    (text : Bytes) : s.read text a = s.read text b :=
  Lookahead.run_after (fun s c => by simp only [Lexer.step, s.mode.step_neutral ha hb c]) s text

/-- A space outside everything begins afresh. -/
theorem Mode.after_cut {a : Bytes} (h : Mode.outside.after a none = .outside) (b : Bytes) :
    Mode.outside.after (a ++ ' ' :: b) none = Mode.outside.after b none := by
  have hnext : Mode.outside.after a (some ' ') = .outside :=
    (Mode.after_neutral (by decide) (by decide) _ a).trans h
  rw [Mode.after_append, List.head?_cons, Option.some_or, hnext, Mode.after_cons]
  rfl

/-- **A space outside everything** divides a text into two that are tokenized by themselves. -/
theorem tokenize_cut {a : Bytes} (h : Mode.outside.after a none = .outside) (b : Bytes) :
    tokenize (a ++ ' ' :: b) = tokenize a ++ tokenize b := by
  have hnext : ({} : Lexer).read a (some ' ') = ({} : Lexer).read a none :=
    Lexer.read_neutral (by decide) (by decide) {} a
  have hmode : (({} : Lexer).read a none).mode = .outside := by rw [Lexer.read_mode, h]
  rw [tokenize_eq, tokenize_eq, tokenize_eq, Lexer.read_append, List.head?_cons, Option.some_or,
    hnext, Lexer.read_cons]
  generalize ({} : Lexer).read a none = s at hmode ⊢
  obtain ⟨m, t, d⟩ := s
  obtain rfl : m = .outside := hmode
  have hcut : ∀ next, (⟨.outside, t, d⟩ : Lexer).step ' ' next = ⟨.outside, {}, d ++ emit t⟩ :=
    fun _ => rfl
  rw [hcut, Lexer.finish_tokens]
  simp [Lexer.finish, Mode.closing]

/-! ## Proper modes -/

/-- A mode the lexer can be in: the quotes are quotes, the brackets are brackets, and as
many are open as the depth says, at least one. -/
def Mode.Proper : Mode → Prop
  | .outside => True
  | .quote q => q = '"' ∨ q = '\''
  | .bracket b n => (b = '[' ∨ b = '{') ∧ 0 < n
  | .block => True

theorem Mode.step_proper {m : Mode} (h : m.Proper) (c : Char) (next : Option Char) :
    (m.step c next).1.Proper := by
  cases m with
  | outside =>
      simp only [step]
      split
      · trivial
      · split
        · assumption
        · split
          · exact ⟨‹_›, Nat.one_pos⟩
          · split <;> trivial
  | quote q =>
      simp only [step]
      split
      · trivial
      · exact h
  | bracket b n =>
      simp only [step]
      split
      · exact ⟨h.1, Nat.succ_pos n⟩
      · split
        · simp only
          split
          · trivial
          · exact ⟨h.1, Nat.pos_of_ne_zero ‹_›⟩
        · exact h
  | block =>
      simp only [step]
      split <;> trivial

theorem Mode.after_proper {m : Mode} (h : m.Proper) (text : Bytes) (next : Option Char) :
    (m.after text next).Proper := by
  induction text generalizing m with
  | nil => exact h
  | cons c rest ih => exact ih (m.step_proper h c _)

/-! ## Properties of all tokens -/

/-- **The invariant rule for tokens.**  What holds of a token without text, and is kept
when a byte or a closing mark is added, holds of every token. -/
theorem tokenize_forall {P : Token → Prop} (hstart : P {})
    (hkeep : ∀ t m c, P t → P (t.keep m c))
    (hclose : ∀ t (m : Mode), P t → P ⟨t.value ++ m.closing, t.type⟩) {message : Bytes} :
    ∀ t ∈ tokenize message, P t := by
  have hemit : ∀ t : Token, P t → ∀ u ∈ emit t, P u := by
    intro t ht u hu
    unfold emit at hu
    split at hu
    · simp at hu
    · rwa [List.mem_singleton.mp hu]
  have hread : ∀ (text : Bytes) (s : Lexer), P s.curr → (∀ t ∈ s.tokens, P t) →
      P (s.read text none).curr ∧ ∀ t ∈ (s.read text none).tokens, P t := by
    intro text
    induction text with
    | nil => exact fun s hcurr htokens => ⟨hcurr, htokens⟩
    | cons c rest ih =>
        intro s hcurr htokens
        rw [Lexer.read_cons]
        unfold Lexer.step
        rcases s.mode.step c (rest.head?.or none) with ⟨m, _ | _ | _⟩
        · exact ih _ (hkeep _ _ _ hcurr) htokens
        · exact ih _ hcurr htokens
        · apply ih _ hstart
          intro t ht
          rcases List.mem_append.mp ht with ht | ht
          · exact htokens t ht
          · exact hemit _ hcurr t ht
  obtain ⟨hcurr, htokens⟩ := hread message {} hstart (by simp)
  intro t ht
  rw [tokenize_eq, Lexer.finish] at ht
  rcases List.mem_append.mp ht with ht | ht
  · exact htokens t ht
  · exact hemit _ (hclose _ _ hcurr) t ht

/-- The token of an argument has the `=` that made it one. -/
theorem eq_mem_of_arg {message : Bytes} {t : Token} (ht : t ∈ tokenize message)
    (harg : t.type = .arg) : '=' ∈ t.value := by
  refine tokenize_forall (P := fun t => t.type = .arg → '=' ∈ t.value) (by simp) ?_ ?_ t ht harg
  · intro t m c ih htype
    by_cases hc : m = .outside ∧ c = '='
    · simp [Token.keep, hc.2]
    · have hold : t.type = .arg := by
        simp only [Token.keep, if_neg hc] at htype
        split at htype
        · simp at htype
        · exact htype
      exact List.mem_append_left _ (ih hold)
  · exact fun t m ih htype => List.mem_append_left _ (ih htype)

/-- The token of a handle begins with the `~` that made it one. -/
theorem tilde_front_of_handle {message : Bytes} {t : Token} (ht : t ∈ tokenize message)
    (hhandle : t.type = .handle) : t.value.head? = some '~' := by
  refine tokenize_forall (P := fun t => t.type = .handle → t.value.head? = some '~') (by simp)
    ?_ ?_ t ht hhandle
  · intro t m c ih htype
    simp only [Token.keep] at htype ⊢
    split at htype
    · simp at htype
    · split at htype
      · rename_i hc
        simp [hc.2.1, hc.2.2]
      · rw [List.head?_append, ih htype]
        rfl
  · intro t m ih htype
    rw [List.head?_append, ih htype]
    rfl

/-- No token is empty. -/
theorem value_ne_nil {message : Bytes} {t : Token} (ht : t ∈ tokenize message) : t.value ≠ [] := by
  have hemit : ∀ t : Token, ∀ u ∈ emit t, u.value ≠ [] := by
    intro t u hu
    unfold emit at hu
    split at hu
    · simp at hu
    · rename_i hne
      rwa [List.mem_singleton.mp hu]
  have hread : ∀ (text : Bytes) (s : Lexer), (∀ t ∈ s.tokens, t.value ≠ []) →
      ∀ t ∈ (s.read text none).tokens, t.value ≠ [] := by
    intro text
    induction text with
    | nil => exact fun s htokens => htokens
    | cons c rest ih =>
        intro s htokens
        rw [Lexer.read_cons]
        unfold Lexer.step
        rcases s.mode.step c (rest.head?.or none) with ⟨m, _ | _ | _⟩
        · exact ih _ htokens
        · exact ih _ htokens
        · apply ih _
          intro t ht
          rcases List.mem_append.mp ht with ht | ht
          · exact htokens t ht
          · exact hemit _ t ht
  rw [tokenize_eq, Lexer.finish] at ht
  rcases List.mem_append.mp ht with ht | ht
  · exact hread message {} (by simp) t ht
  · exact hemit _ t ht

/-! ## What is conserved -/

/-- Spaces and quotes: the bytes the lexer does not keep outside everything. -/
def isGap (c : Char) : Bool := c == ' ' || c == '"' || c == '\''

/-- The marks the lexer puts at the end of what is left open. -/
def isCloser (c : Char) : Bool := c == ']' || c == '}' || c == '>'

/-- A proper mode leaves out nothing but spaces and quotes. -/
theorem Mode.step_drops {m : Mode} (h : m.Proper) (c : Char) (next : Option Char) :
    (m.step c next).2 = .keep ∨ isGap c = true := by
  cases m with
  | outside =>
      simp only [step]
      split
      · rename_i hc
        exact Or.inr (by simp [isGap, hc])
      · split
        · rename_i hc
          exact Or.inr (by simpa [isGap, or_assoc] using Or.inr hc)
        · split
          · exact Or.inl rfl
          · split <;> exact Or.inl rfl
  | quote q =>
      simp only [step]
      split
      · rename_i hc
        have hq : q = '"' ∨ q = '\'' := h
        exact Or.inr (by simpa [isGap, hc, or_assoc] using Or.inr hq)
      · exact Or.inl rfl
  | bracket b n =>
      simp only [step]
      split
      · exact Or.inl rfl
      · split <;> exact Or.inl rfl
  | block =>
      simp only [step]
      split <;> exact Or.inl rfl

/-- A text without its spaces and quotes. -/
def withoutGaps (text : Bytes) : Bytes := text.filter fun c => !isGap c

theorem withoutGaps_append (a b : Bytes) :
    withoutGaps (a ++ b) = withoutGaps a ++ withoutGaps b := List.filter_append ..

theorem count_withoutGaps {x : Char} (hx : isGap x = false) (text : Bytes) :
    (withoutGaps text).count x = text.count x := List.count_filter (by simp [hx])

/-- The marks that close what is open. -/
theorem Mode.mem_closing {m : Mode} {c : Char} (h : c ∈ m.closing) : isCloser c = true := by
  cases m with
  | outside => simp [closing] at h
  | quote q => simp [closing] at h
  | bracket b n =>
      rw [List.eq_of_mem_replicate h, closer]
      split <;> rfl
  | block => simp [List.eq_of_mem_replicate (show c ∈ List.replicate 2 '>' from h), isCloser]

theorem Mode.count_closing {m : Mode} {x : Char} (hx : isCloser x = false) :
    m.closing.count x = 0 :=
  List.count_eq_zero.mpr fun hmem => by simp [mem_closing hmem] at hx

/-- A closing mark is no space and no quote. -/
theorem Mode.withoutGaps_closing (m : Mode) : withoutGaps m.closing = m.closing := by
  apply List.filter_eq_self.mpr
  intro c hc
  have hcloser := mem_closing hc
  simp only [isCloser, Bool.or_eq_true, beq_iff_eq] at hcloser
  rcases hcloser with (rfl | rfl) | rfl <;> rfl

/-- The bytes the lexer has kept, in order. -/
def Lexer.kept (s : Lexer) : Bytes := s.tokens.flatMap Token.value ++ s.curr.value

theorem flatMap_emit (t : Token) : (emit t).flatMap Token.value = t.value := by
  unfold emit
  split
  · rename_i h
    simp [h]
  · simp

/-- One step keeps its byte, or leaves out a space or a quote. -/
theorem Lexer.kept_step {s : Lexer} (h : s.mode.Proper) (c : Char) (next : Option Char) :
    withoutGaps (s.step c next).kept = withoutGaps s.kept ++ withoutGaps [c] := by
  have hdrops := Mode.step_drops h c next
  have hgap : isGap c = true → withoutGaps [c] = [] := fun hc => by simp [withoutGaps, hc]
  simp only [step]
  generalize s.mode.step c next = r at hdrops
  obtain ⟨m, a⟩ := r
  cases a with
  | keep =>
      rw [← withoutGaps_append]
      simp [kept, Token.keep]
  | drop => simp [kept, hgap (hdrops.resolve_left (by simp))]
  | cut => simp [kept, flatMap_emit, hgap (hdrops.resolve_left (by simp))]

/-- **Conservation**, for a text that is being read. -/
theorem Lexer.kept_read {s : Lexer} (h : s.mode.Proper) (text : Bytes) (after : Option Char) :
    withoutGaps (s.read text after).kept = withoutGaps s.kept ++ withoutGaps text := by
  induction text generalizing s with
  | nil => simp [withoutGaps]
  | cons c rest ih =>
      have hmode : (s.step c (rest.head?.or after)).mode.Proper := by
        have hm := Lexer.read_mode s [c] (rest.head?.or after)
        rw [read_cons, read_nil] at hm
        simp only [List.head?_nil, Option.none_or] at hm
        rw [hm]
        exact Mode.after_proper h _ _
      rw [read_cons, ih hmode, kept_step h, List.append_assoc, ← withoutGaps_append,
        List.singleton_append]

/-- **Conservation.**  But for spaces and quotes, the tokens are the text and the marks that
close what it leaves open. -/
theorem withoutGaps_tokenize (message : Bytes) :
    withoutGaps ((tokenize message).flatMap Token.value) =
      withoutGaps message ++ (Mode.outside.after message none).closing := by
  have hread := Lexer.kept_read (s := {}) trivial message none
  have hmode := Lexer.read_mode {} message none
  rw [tokenize_eq, Lexer.finish, List.flatMap_append, flatMap_emit, hmode, ← List.append_assoc,
    withoutGaps_append, Mode.withoutGaps_closing]
  exact congrArg (· ++ _) (hread.trans (List.nil_append _))

/-- How often `x` stands in tokens. -/
def countIn (x : Char) (tokens : List Token) : Nat := (tokens.map fun t => t.value.count x).sum

@[simp] theorem countIn_nil (x : Char) : countIn x [] = 0 := rfl

@[simp] theorem countIn_cons (x : Char) (t : Token) (l : List Token) :
    countIn x (t :: l) = t.value.count x + countIn x l := by simp [countIn]

@[simp] theorem countIn_append (x : Char) (a b : List Token) :
    countIn x (a ++ b) = countIn x a + countIn x b := by simp [countIn]

theorem count_flatMap_value (x : Char) (tokens : List Token) :
    (tokens.flatMap Token.value).count x = countIn x tokens := by
  induction tokens with
  | nil => rfl
  | cons t rest ih => rw [List.flatMap_cons, List.count_append, countIn_cons, ih]

/-- A byte that is no space and no quote is counted in the tokens and the one that is
begun. -/
theorem Lexer.count_read {x : Char} (hx : isGap x = false) (text : Bytes) :
    countIn x (({} : Lexer).read text none).tokens +
      (({} : Lexer).read text none).curr.value.count x = text.count x := by
  have hread := congrArg (List.count x) (Lexer.kept_read (s := {}) trivial text none)
  rw [List.count_append, count_withoutGaps hx, count_withoutGaps hx, count_withoutGaps hx,
    kept, List.count_append, count_flatMap_value] at hread
  simpa [kept] using hread

/-- **Conservation of one byte.**  A byte that is no space, quote or closing mark stands in
the tokens as often as in the text. -/
theorem count_tokenize {x : Char} (hgap : isGap x = false) (hcloser : isCloser x = false)
    (message : Bytes) : countIn x (tokenize message) = message.count x := by
  have hcount := congrArg (List.count x) (withoutGaps_tokenize message)
  rwa [List.count_append, count_withoutGaps hgap, count_withoutGaps hgap, count_flatMap_value,
    Mode.count_closing hcloser, Nat.add_zero] at hcount

/-! ## A line ending at the end -/

/-- A newline or a carriage return is kept, and the mode stays. -/
theorem Mode.step_lineEnd {c : Char} (hc : c = '\n' ∨ c = '\r') {m : Mode} (hm : m.Proper)
    (next : Option Char) : m.step c next = (m, .keep) := by
  cases m with
  | outside => rcases hc with rfl | rfl <;> simp [step]
  | quote q => rcases hc with rfl | rfl <;> rcases hm with rfl | rfl <;> simp [step]
  | bracket b n => rcases hc with rfl | rfl <;> rcases hm.1 with rfl | rfl <;> simp [step, closer]
  | block => rcases hc with rfl | rfl <;> simp [step]

theorem Mode.after_lineEnd {c : Char} (hc : c = '\n' ∨ c = '\r') {m : Mode} (hm : m.Proper)
    (text : Bytes) : m.after (text ++ [c]) none = m.after text none := by
  have hneutral : Neutral (some c) := by rcases hc with rfl | rfl <;> decide
  rw [after_append, List.head?_cons, Option.some_or,
    after_neutral hneutral (show Neutral none by decide), after_cons,
    step_lineEnd hc (after_proper hm text none), after_nil]

/-- **A newline or carriage return at the end of a text** belongs to its last token, or is
one. -/
theorem tokenize_lineEnd {c : Char} (hc : c = '\n' ∨ c = '\r') (message : Bytes) :
    ∃ front v marks type, tokenize message = front ++ emit ⟨v ++ marks, type⟩ ∧
      tokenize (message ++ [c]) = front ++ [⟨v ++ c :: marks, type⟩] ∧
      (v = [] → type = .none) ∧ ∀ c ∈ marks, isCloser c = true := by
  have hneutral : Neutral (some c) := by rcases hc with rfl | rfl <;> decide
  have hplain : c ≠ '=' ∧ c ≠ '~' := by rcases hc with rfl | rfl <;> decide
  have hnext : ({} : Lexer).read message (some c) = ({} : Lexer).read message none :=
    Lexer.read_neutral hneutral (by decide) {} message
  have hproper : (({} : Lexer).read message none).mode.Proper := by
    rw [Lexer.read_mode]
    exact Mode.after_proper (m := .outside) trivial message none
  have huntyped : (({} : Lexer).read message none).curr.value = [] →
      (({} : Lexer).read message none).curr.type = .none := by
    obtain ⟨hlexer, huntyped⟩ := Tokenizer.simulates_loop message
    rw [hlexer]
    exact fun hv => by rw [huntyped hv]
  rw [tokenize_eq, tokenize_eq, Lexer.read_append, List.head?_cons, Option.some_or, hnext]
  generalize ({} : Lexer).read message none = s at hproper huntyped ⊢
  obtain ⟨m, ⟨v, type⟩, d⟩ := s
  refine ⟨d, v, m.closing, type, rfl, ?_, huntyped, fun c hc => Mode.mem_closing hc⟩
  rw [Lexer.read_cons, List.head?_nil, Option.none_or, Lexer.read_nil]
  simp [Lexer.step, Mode.step_lineEnd hc hproper, Lexer.finish, Token.keep, emit, hplain]

/-- A newline at the end of a text belongs to its last token, or is one. -/
theorem tokenize_newline (message : Bytes) :
    ∃ front v marks type, tokenize message = front ++ emit ⟨v ++ marks, type⟩ ∧
      tokenize (message ++ ['\n']) = front ++ [⟨v ++ '\n' :: marks, type⟩] ∧
      (v = [] → type = .none) ∧ ∀ c ∈ marks, isCloser c = true :=
  tokenize_lineEnd (Or.inl rfl) message

/-- A byte that is not in the text is in no token. -/
theorem not_mem_of_tokenize {x : Char} (hgap : isGap x = false) (hcloser : isCloser x = false)
    {message : Bytes} (h : x ∉ message) {t : Token} (ht : t ∈ tokenize message) : x ∉ t.value := by
  have hcount := count_tokenize hgap hcloser message
  rw [List.count_eq_zero.mpr h, countIn, List.sum_eq_zero_iff_forall_eq_nat] at hcount
  exact List.count_eq_zero.mp (hcount _ (List.mem_map_of_mem ht))

end SporeClient.Parser
