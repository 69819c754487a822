/-
  Parser/TokenText.lean --- the text of one token, and what it tells about its source.

  WHAT THIS FILE IS FOR.  `tokenText m l` is what the lexer, in mode `m` before `l`, adds
  to the token it is building before that token ends.  The lemmas go from this result back
  to `l`.  Some bound it: quotes at its front come from quotes at the front of `l`
  (`quotes_le`), its first space is one of `l` (`spaces_le`), it is not much longer than
  `l`.  From them follows that a token that repeats its source left nothing out
  (`solid_of_tokenText`), and that a token never is its source in block marks
  (`tokenText_ne_block`).
-/
import SporeClient.Parser.Blocks

set_option autoImplicit false

namespace SporeClient.Parser

open SporeClient.Foundation

/-- The text the lexer adds to its token, up to the end of the token. -/
def tokenText (m : Mode) : Bytes → Bytes
  | [] => m.closing
  | c :: rest =>
      match m.step c rest.head? with
      | (m', .keep) => c :: tokenText m' rest
      | (m', .drop) => tokenText m' rest
      | (_, .cut) => []

theorem tokenText_keep {m m' : Mode} {c : Char} {rest : Bytes}
    (h : m.step c rest.head? = (m', .keep)) : tokenText m (c :: rest) = c :: tokenText m' rest := by
  rw [tokenText, h]

theorem tokenText_drop {m m' : Mode} {c : Char} {rest : Bytes}
    (h : m.step c rest.head? = (m', .drop)) : tokenText m (c :: rest) = tokenText m' rest := by
  rw [tokenText, h]

theorem tokenText_cut {m m' : Mode} {c : Char} {rest : Bytes}
    (h : m.step c rest.head? = (m', .cut)) : tokenText m (c :: rest) = [] := by
  rw [tokenText, h]

/-- A token that has begun is what it has and its text; an argument stays one. -/
theorem Lexer.finish_token (m : Mode) (t : Token) (ht : t.value ≠ []) (d : List Token)
    (text : Bytes) :
    ∃ type more, ((⟨m, t, d⟩ : Lexer).read text none).finish =
      d ++ ⟨t.value ++ tokenText m text, type⟩ :: more ∧ (t.type = .arg → type = .arg) := by
  induction text generalizing m t with
  | nil => exact ⟨t.type, [], by simp [finish, emit, ht, tokenText], fun h => h⟩
  | cons c rest ih =>
      rw [read_cons, Option.or_none]
      rcases hstep : m.step c rest.head? with ⟨m', _ | _ | _⟩
      · have hread : (⟨m, t, d⟩ : Lexer).step c rest.head? = ⟨m', t.keep m c, d⟩ := by
          simp [step, hstep]
        obtain ⟨type, more, hmore, htype⟩ := ih m' (t.keep m c) (by simp [Token.keep])
        refine ⟨type, more, ?_, fun h => htype (Token.keep_type.1 h ht)⟩
        rw [hread, hmore, tokenText_keep hstep]
        simp [Token.keep]
      · have hread : (⟨m, t, d⟩ : Lexer).step c rest.head? = ⟨m', t, d⟩ := by simp [step, hstep]
        obtain ⟨type, more, hmore, htype⟩ := ih m' t ht
        exact ⟨type, more, by rw [hread, hmore, tokenText_drop hstep], htype⟩
      · have hread : (⟨m, t, d⟩ : Lexer).step c rest.head? = ⟨m', {}, d ++ [t]⟩ := by
          simp [step, hstep, emit, ht]
        refine ⟨t.type, ((⟨m', {}, []⟩ : Lexer).read rest none).finish, ?_, fun h => h⟩
        rw [hread, finish_tokens, tokenText_cut hstep, List.append_nil, List.append_assoc]
        rfl

/-- The token of an argument that has begun is what it has and its text. -/
theorem Lexer.finish_arg (m : Mode) (v : Bytes) (hv : v ≠ []) (d : List Token) (text : Bytes) :
    ∃ more, ((⟨m, ⟨v, .arg⟩, d⟩ : Lexer).read text none).finish =
      d ++ ⟨v ++ tokenText m text, .arg⟩ :: more := by
  obtain ⟨type, more, hmore, htype⟩ := finish_token m ⟨v, .arg⟩ hv d text
  exact ⟨more, by rw [hmore, htype rfl]⟩

/-- **Behind a row the lexer is in step**: an argument has its key and what the lexer makes
of the rest. -/
theorem IsRow.tokenize_arg {text : Bytes} {tokens : List Token} (h : IsRow text tokens)
    {key : Bytes} (hkey : IsKey key) (rest : Bytes) :
    ∃ more, Parser.tokenize (text ++ ' ' :: (key ++ '=' :: rest)) =
      tokens ++ ⟨key ++ '=' :: tokenText .outside rest, .arg⟩ :: more := by
  obtain ⟨p, pieces, rfl, rfl⟩ := h
  obtain ⟨t, d, hread, htokens, _⟩ := Lexer.read_row p.token [] pieces
    (show Neutral (some ' ') by decide)
  have hcut : ∀ next, (⟨.outside, t, d⟩ : Lexer).step ' ' next = ⟨.outside, {}, d ++ emit t⟩ :=
    fun _ => rfl
  have heq : ∀ (t : Token) (d : List Token) (next : Option Char),
      (⟨.outside, t, d⟩ : Lexer).step '=' next = ⟨.outside, ⟨t.value ++ ['='], .arg⟩, d⟩ :=
    fun _ _ _ => by simp [Lexer.step, Mode.step, Token.keep]
  obtain ⟨type, hkeyRead, _⟩ := Lexer.read_solid headBad_of_isGap hkey.solid {} (d ++ emit t)
    (show Neutral (some '=') by decide)
  obtain ⟨more, hmore⟩ := Lexer.finish_arg .outside (key ++ ['=']) (by simp) (d ++ emit t) rest
  refine ⟨more, ?_⟩
  rw [tokenize_eq, List.append_assoc, Lexer.read_append,
    p.lexes [] _ (by simpa using neutral_row pieces (show Neutral (some ' ') by decide)),
    Lexer.read_append, List.head?_cons, Option.some_or, hread, Lexer.read_cons, hcut,
    Lexer.read_append, List.head?_cons, Option.some_or, hkeyRead, Lexer.read_cons, heq,
    List.nil_append, hmore, htokens]
  simp [emit, p.counts]

/-! ## Actions -/

/-- Quotes. -/
def isQuote (c : Char) : Bool := c == '"' || c == '\''

/-- Only quotes are left out. -/
theorem Mode.step_drop {m m' : Mode} (hm : m.Proper) {c : Char} {next : Option Char}
    (h : m.step c next = (m', .drop)) : isQuote c = true := by
  have hdrops := m.step_drops hm c next
  rw [h] at hdrops
  have hgap : isGap c = true := hdrops.resolve_left (by simp)
  have hspace : c ≠ ' ' := by
    rintro rfl
    cases m with
    | outside => simp [Mode.step] at h
    | quote q => rcases hm with rfl | rfl <;> simp [Mode.step] at h
    | bracket b n =>
        simp only [Mode.step] at h
        split at h
        · simp at h
        · split at h <;> simp at h
    | block => simp [Mode.step] at h
  simpa [isGap, isQuote, hspace] using hgap

/-- Only a space outside everything cuts a token off. -/
theorem Mode.step_cut {m m' : Mode} {c : Char} {next : Option Char}
    (h : m.step c next = (m', .cut)) : m = .outside ∧ c = ' ' := by
  cases m with
  | outside =>
      simp only [Mode.step] at h
      split at h
      · exact ⟨rfl, ‹_›⟩
      · split at h
        · simp at h
        · split at h
          · simp at h
          · split at h <;> simp at h
  | quote q =>
      simp only [Mode.step] at h
      split at h <;> simp at h
  | bracket b n =>
      simp only [Mode.step] at h
      split at h
      · simp at h
      · split at h <;> simp at h
  | block =>
      simp only [Mode.step] at h
      split at h <;> simp at h

theorem Mode.proper_of_step {m m' : Mode} (hm : m.Proper) {c : Char} {next : Option Char}
    {a : Action} (h : m.step c next = (m', a)) : m'.Proper := by
  have hp := m.step_proper hm c next
  rwa [h] at hp

/-! ## Quotes at the front -/

/-- How many quotes stand at the front. -/
def leadingQuotes (l : Bytes) : Nat := (l.takeWhile isQuote).length

theorem leadingQuotes_cons (c : Char) (l : Bytes) :
    leadingQuotes (c :: l) = if isQuote c then leadingQuotes l + 1 else 0 := by
  unfold leadingQuotes
  rw [List.takeWhile_cons]
  split <;> simp

/-- **Quotes at the front of a token come from quotes at the front of its source.** -/
theorem quotes_le {m : Mode} (hm : m.Proper) (l : Bytes) :
    leadingQuotes (tokenText m l) ≤ leadingQuotes l := by
  induction l generalizing m with
  | nil =>
      have hclosing : m.closing.takeWhile isQuote = [] := by
        cases hcl : m.closing with
        | nil => rfl
        | cons c rest =>
            have hc : isCloser c = true := Mode.mem_closing (hcl ▸ List.mem_cons_self)
            rw [List.takeWhile_cons, if_neg]
            intro hq
            simp only [isCloser, isQuote, Bool.or_eq_true, beq_iff_eq] at hc hq
            rcases hq with rfl | rfl <;> simp at hc
      simp [tokenText, leadingQuotes, hclosing]
  | cons c rest ih =>
      rcases hstep : m.step c rest.head? with ⟨m', _ | _ | _⟩
      · have hrest := ih (Mode.proper_of_step hm hstep)
        rw [tokenText_keep hstep, leadingQuotes_cons, leadingQuotes_cons]
        split <;> omega
      · have hrest := ih (Mode.proper_of_step hm hstep)
        rw [tokenText_drop hstep, leadingQuotes_cons, if_pos (Mode.step_drop hm hstep)]
        omega
      · simp [tokenText_cut hstep, leadingQuotes]

/-- Outside everything the first quote is left out, so the token has fewer. -/
theorem quotes_lt {l : Bytes} (h : 0 < leadingQuotes l) :
    leadingQuotes (tokenText .outside l) < leadingQuotes l := by
  cases l with
  | nil => simp [leadingQuotes] at h
  | cons c rest =>
      rw [leadingQuotes_cons] at h ⊢
      by_cases hc : isQuote c = true
      · have hq : c = '"' ∨ c = '\'' := by simpa [isQuote] using hc
        have hstep : Mode.outside.step c rest.head? = (.quote c, .drop) := by
          rcases hq with rfl | rfl <;> simp [Mode.step]
        have hrest := quotes_le (m := .quote c) hq rest
        rw [tokenText_drop hstep, if_pos hc]
        omega
      · simp [hc] at h

/-- What follows the quotes at the front does not add to them. -/
theorem leadingQuotes_append {a b : Bytes} (h : leadingQuotes b = 0) :
    leadingQuotes (a ++ b) = leadingQuotes a := by
  induction a with
  | nil => rw [List.nil_append, h]; rfl
  | cons c a ih => rw [List.cons_append, leadingQuotes_cons, leadingQuotes_cons, ih]

theorem leadingQuotes_le_append (a b : Bytes) : leadingQuotes a ≤ leadingQuotes (a ++ b) := by
  induction a with
  | nil => simp [leadingQuotes]
  | cons c a ih =>
      rw [List.cons_append, leadingQuotes_cons, leadingQuotes_cons]
      split <;> omega

/-! ## A token that repeats its source -/

/-- **A token that repeats its source left nothing out.**  When the token read from `y`
and what follows begins with `y`, every byte of `y` was kept; the mode after `y` reads the
rest of the token. -/
theorem solid_of_tokenText {m : Mode} (hm : m.Proper) (hquote : ∀ q, m ≠ .quote q) {y τ z : Bytes}
    (hτ : leadingQuotes τ = 0) (hneutral : Neutral τ.head?)
    (h : tokenText m (y ++ τ) = y ++ z) :
    ∃ m', m'.Proper ∧ (∀ q, m' ≠ .quote q) ∧ tokenText m' τ = z ∧
      (m' = .outside → solid isGap m y = true) := by
  induction y generalizing m with
  | nil => exact ⟨m, hm, hquote, h, fun h => by simp [solid, h]⟩
  | cons c y ih =>
      have hnext : m.step c (y ++ τ).head? = m.step c y.head? := by
        cases y with
        | nil => exact m.step_neutral hneutral (by decide) c
        | cons d y => rfl
      rw [List.cons_append, List.cons_append] at h
      rcases hstep : m.step c (y ++ τ).head? with ⟨m₁, _ | _ | _⟩
      · -- the byte is kept: go on behind it
        rw [tokenText_keep hstep, List.cons.injEq] at h
        have hgap : m = .outside → isGap c = false := by
          rintro rfl
          rw [← Bool.not_eq_true]
          intro hg
          have hc : c = ' ' ∨ c = '"' ∨ c = '\'' := by simpa [isGap, or_assoc] using hg
          rcases hc with rfl | rfl | rfl <;> simp [Mode.step] at hstep
        have hkeep := m.step_keep hquote hgap (y ++ τ).head?
        rw [hstep] at hkeep
        obtain ⟨m', hm', hq', hrest, hsolid⟩ :=
          ih (Mode.proper_of_step hm hstep) hkeep.2 h.2
        refine ⟨m', hm', hq', hrest, fun hout => ?_⟩
        have hm₁ : (m.step c y.head?).1 = m₁ := by rw [← hnext, hstep]
        cases m with
        | outside => rw [solid, hgap rfl, hm₁, hsolid hout]; rfl
        | quote q => exact absurd rfl (hquote q)
        | bracket b n => rw [solid, hm₁, hsolid hout]
        | block => rw [solid, hm₁, hsolid hout]
      · -- a quote left out would have to be made up for by one behind it
        have hc := Mode.step_drop hm hstep
        rw [tokenText_drop hstep] at h
        have hle := quotes_le (Mode.proper_of_step hm hstep) (y ++ τ)
        have hge := leadingQuotes_le_append y z
        rw [h, leadingQuotes_cons, if_pos hc, leadingQuotes_append hτ] at hle
        omega
      · rw [tokenText_cut hstep] at h
        simp at h

/-! ## A handle that repeats its source -/

/-- **A handle that repeats its source** has nothing outside brackets and blocks that ends
a token or makes it an argument. -/
theorem solid_of_handle {y w : Bytes} {more : List Token}
    (h : tokenize ('~' :: y ++ ' ' :: w) = ⟨'~' :: y, .handle⟩ :: more) :
    solid headBad .outside y = true := by
  have hstep : ∀ next, ({} : Lexer).step '~' next = ⟨.outside, ⟨['~'], .handle⟩, []⟩ := fun _ => by
    simp [Lexer.step, Mode.step, Token.keep]
  rw [List.cons_append, tokenize_eq, Lexer.read_cons, hstep] at h
  obtain ⟨type, more', hmore, _⟩ :=
    Lexer.finish_token .outside ⟨['~'], .handle⟩ (by simp) [] (y ++ ' ' :: w)
  have htext : tokenText .outside (y ++ ' ' :: w) = y ++ [] := by
    rw [hmore] at h
    simpa using congrArg Token.value (List.cons.inj h).1
  have hspace : ∀ m : Mode, m ≠ .outside → (∀ q, m ≠ .quote q) → m.Proper →
      tokenText m (' ' :: w) ≠ [] := by
    intro m hout hquote hm hnil
    have hgap : m = .outside → isGap ' ' = false := fun h => absurd h hout
    have hkeep := (m.step_keep hquote hgap w.head?).1
    rcases hstep : m.step ' ' w.head? with ⟨m', a⟩
    rw [hstep] at hkeep
    simp only at hkeep
    subst hkeep
    simp [tokenText_keep hstep] at hnil
  have hneutral : Neutral (' ' :: w).head? := show Neutral (some ' ') by decide
  obtain ⟨m', hm', hquote, hrest, hsolid⟩ := solid_of_tokenText (m := .outside) trivial (by simp)
    (by simp [leadingQuotes_cons, isQuote]) hneutral htext
  have hout : m' = .outside := by
    by_contra hout
    exact hspace m' hout hquote hm' hrest
  by_contra hbad
  have hread := Lexer.read_solid_arg (hsolid hout) (by simpa using hbad)
    ⟨['~'], .handle⟩ [] (show Neutral (some ' ') by decide)
  have hcut : ∀ next, (⟨.outside, ⟨['~'] ++ y, .arg⟩, []⟩ : Lexer).step ' ' next =
      ⟨.outside, {}, [⟨['~'] ++ y, .arg⟩]⟩ := fun _ => by simp [Lexer.step, Mode.step, emit]
  rw [Lexer.read_append, List.head?_cons, Option.some_or, hread, Lexer.read_cons, hcut,
    Lexer.finish_tokens] at h
  simpa using congrArg Token.type (List.cons.inj h).1

/-! ## A token that is its source in block marks -/

/-- How far the first space is. -/
def beforeSpace (l : Bytes) : Nat := (l.takeWhile (· ≠ ' ')).length

theorem beforeSpace_cons (c : Char) (l : Bytes) :
    beforeSpace (c :: l) = if c = ' ' then 0 else beforeSpace l + 1 := by
  unfold beforeSpace
  rw [List.takeWhile_cons]
  by_cases hc : c = ' ' <;> simp [hc]

theorem beforeSpace_append {a b : Bytes} (h : ' ' ∉ a) :
    beforeSpace (a ++ b) = a.length + beforeSpace b := by
  induction a with
  | nil => simp
  | cons c a ih =>
      have hc : c ≠ ' ' := fun heq => h (heq ▸ List.mem_cons_self)
      have ha : ' ' ∉ a := fun hmem => h (List.mem_cons_of_mem _ hmem)
      rw [List.cons_append, beforeSpace_cons, if_neg hc, ih ha, List.length_cons]
      omega

theorem beforeSpace_append_of_mem {a b : Bytes} (h : ' ' ∈ a) :
    beforeSpace (a ++ b) = beforeSpace a := by
  induction a with
  | nil => simp at h
  | cons c a ih =>
      rw [List.cons_append, beforeSpace_cons, beforeSpace_cons]
      split
      · rfl
      · rename_i hc
        rw [ih ((List.mem_cons.mp h).resolve_left (Ne.symm hc))]

theorem space_not_mem_closing (m : Mode) : ' ' ∉ m.closing := fun h => by
  simpa [isCloser] using Mode.mem_closing h

/-- **The first space of a token is no further than the first space of its source.** -/
theorem spaces_le {m : Mode} (hm : m.Proper) {l : Bytes} (h : ' ' ∈ tokenText m l) :
    beforeSpace (tokenText m l) ≤ beforeSpace l := by
  induction l generalizing m with
  | nil => exact absurd h (space_not_mem_closing m)
  | cons c rest ih =>
      rcases hstep : m.step c rest.head? with ⟨m', _ | _ | _⟩
      · rw [tokenText_keep hstep] at h ⊢
        rw [beforeSpace_cons, beforeSpace_cons]
        split
        · exact Nat.le_refl 0
        · rename_i hc
          have hrest := ih (Mode.proper_of_step hm hstep)
            ((List.mem_cons.mp h).resolve_left (Ne.symm hc))
          omega
      · rw [tokenText_drop hstep] at h ⊢
        have hrest := ih (Mode.proper_of_step hm hstep) h
        rw [beforeSpace_cons]
        split
        · rename_i hc
          -- a space is never left out
          simpa [hc, isQuote] using Mode.step_drop hm hstep
        · omega
      · rw [tokenText_cut hstep] at h
        simp at h

/-- A token without a space ends before the first space that follows its source. -/
theorem length_le_of_no_space {m : Mode} (hm : m.Proper) {a ρ : Bytes}
    (h : ' ' ∉ tokenText m (a ++ ' ' :: ρ)) :
    (tokenText m (a ++ ' ' :: ρ)).length ≤ a.length := by
  induction a generalizing m with
  | nil =>
      rw [List.nil_append] at h ⊢
      rcases hstep : m.step ' ' ρ.head? with ⟨m', _ | _ | _⟩
      · simp [tokenText_keep hstep] at h
      · simpa [isQuote] using Mode.step_drop hm hstep
      · simp [tokenText_cut hstep]
  | cons c a ih =>
      rw [List.cons_append] at h ⊢
      rcases hstep : m.step c (a ++ ' ' :: ρ).head? with ⟨m', _ | _ | _⟩
      · rw [tokenText_keep hstep] at h ⊢
        have hrest := ih (Mode.proper_of_step hm hstep) fun hmem => h (List.mem_cons_of_mem _ hmem)
        simpa using hrest
      · rw [tokenText_drop hstep] at h ⊢
        have hrest := ih (Mode.proper_of_step hm hstep) h
        exact Nat.le_succ_of_le hrest
      · simp [tokenText_cut hstep]

/-- A token is longer than its source by the two bytes that close a block, or it ends with
the brackets it was closed with. -/
theorem length_le_of_closed {m : Mode} (hm : m.Proper) (l : Bytes) :
    (tokenText m l).length ≤ l.length + 2 ∨
      (tokenText m l).getLast? = some ']' ∨ (tokenText m l).getLast? = some '}' := by
  induction l generalizing m with
  | nil =>
      rw [tokenText]
      cases m with
      | outside => exact Or.inl (by simp [Mode.closing])
      | quote q => exact Or.inl (by simp [Mode.closing])
      | block => exact Or.inl (by simp [Mode.closing])
      | bracket b n =>
          have hlast : (Mode.bracket b n).closing.getLast? = some (closer b) := by
            simp [Mode.closing, List.getLast?_replicate, Nat.pos_iff_ne_zero.mp hm.2]
          rw [hlast, closer]
          by_cases hb : b = '[' <;> simp [hb]
  | cons c rest ih =>
      rcases hstep : m.step c rest.head? with ⟨m', _ | _ | _⟩
      · rw [tokenText_keep hstep]
        rcases ih (Mode.proper_of_step hm hstep) with hlen | hlast | hlast
        · exact Or.inl (by simpa using hlen)
        · exact Or.inr (Or.inl (by rw [List.getLast?_cons, hlast]; rfl))
        · exact Or.inr (Or.inr (by rw [List.getLast?_cons, hlast]; rfl))
      · rw [tokenText_drop hstep]
        rcases ih (Mode.proper_of_step hm hstep) with hlen | hlast
        · exact Or.inl (by simp only [List.length_cons]; omega)
        · exact Or.inr hlast
      · exact Or.inl (by simp [tokenText_cut hstep])

/-- **A token is never its source in block marks.**  The source is `v` and at most one more
byte, and the text ends there or goes on with a space. -/
theorem tokenText_ne_block {m : Mode} (hm : m.Proper) {v sfx ρ n₁ n₂ : Bytes}
    (hlen : sfx.length ≤ 1) (hρ : ρ = [] ∨ ρ.head? = some ' ')
    (hn₁ : ' ' ∉ n₁) (hn₂ : ' ' ∉ n₂) :
    tokenText m (v ++ sfx ++ ρ) ≠ openMark ++ (n₁ ++ v ++ n₂) ++ closeMark := by
  intro h
  have htotal := congrArg List.length h
  simp only [List.length_append, openMark, closeMark, List.length_cons, List.length_nil] at htotal
  by_cases hv : ' ' ∈ v
  · -- the marks push the first space of `v` back
    have hspaces := spaces_le hm (l := v ++ sfx ++ ρ) (by rw [h]; simp [hv])
    have hout : ' ' ∉ openMark ++ n₁ := by simp [openMark, hn₁]
    have htoken : openMark ++ (n₁ ++ v ++ n₂) ++ closeMark =
        (openMark ++ n₁) ++ (v ++ (n₂ ++ closeMark)) := by simp
    rw [h, htoken, beforeSpace_append hout, beforeSpace_append_of_mem hv, List.append_assoc,
      beforeSpace_append_of_mem hv] at hspaces
    simp only [openMark, List.length_append, List.length_cons, List.length_nil] at hspaces
    omega
  · have hno : ' ' ∉ tokenText m (v ++ sfx ++ ρ) := by
      rw [h]
      simp [openMark, closeMark, hv, hn₁, hn₂]
    rcases hρ with rfl | hρ
    · rcases length_le_of_closed hm (v ++ sfx ++ []) with hle | hlast | hlast
      · simp only [List.length_append, List.length_nil] at hle
        rw [h] at hle
        simp only [List.length_append, openMark, closeMark, List.length_cons, List.length_nil]
          at hle
        omega
      · rw [h] at hlast
        simp [closeMark] at hlast
      · rw [h] at hlast
        simp [closeMark] at hlast
    · obtain ⟨ρ', rfl⟩ := List.head?_eq_some_iff.mp hρ
      have hle := length_le_of_no_space hm hno
      rw [h] at hle
      simp only [List.length_append, openMark, closeMark, List.length_cons, List.length_nil] at hle
      omega

end SporeClient.Parser
