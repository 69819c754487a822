/-
  Parser/Pieces.lean --- texts that the lexer reads to one token.

  WHAT THIS FILE IS FOR.  A serialized message is a row of pieces with single spaces
  between them.  A piece reads to a token (`Lexes`) when the lexer, outside everything
  and with no token begun, has that token at its end and is outside again.  Words and
  quoted texts do; so does a solid text, which has no space or quote outside brackets and
  blocks and closes what it opens.  A row of pieces is read to one token each
  (`tokenize_row`).
-/
import SporeClient.Parser.Lexing

set_option autoImplicit false

namespace SporeClient.Parser

/-! ## Solid text -/

/-- Read from mode `m`, the text has no byte of the class `bad` outside brackets and
blocks, has no quotes to open, and closes every bracket and block it is in. -/
def solid (bad : Char → Bool) : Mode → Bytes → Bool
  | m, [] => m == .outside
  | .outside, c :: rest => !bad c && solid bad (Mode.outside.step c rest.head?).1 rest
  | .quote _, _ :: _ => false
  | .bracket b n, c :: rest => solid bad ((Mode.bracket b n).step c rest.head?).1 rest
  | .block, c :: rest => solid bad (Mode.block.step c rest.head?).1 rest

/-- A byte that is no gap outside everything, and any byte in brackets or a block, is kept
and opens no quotes. -/
theorem Mode.step_keep {m : Mode} {c : Char} (hquote : ∀ q, m ≠ .quote q)
    (hc : m = .outside → isGap c = false) (next : Option Char) :
    (m.step c next).2 = .keep ∧ ∀ q, (m.step c next).1 ≠ .quote q := by
  cases m with
  | quote q => exact absurd rfl (hquote q)
  | outside =>
      have hgap : c ≠ ' ' ∧ ¬(c = '"' ∨ c = '\'') := by
        simpa [isGap, not_or, and_assoc] using hc rfl
      simp only [step, if_neg hgap.1, if_neg hgap.2]
      split
      · simp
      · split <;> simp
  | bracket b n =>
      simp only [step]
      split
      · simp
      · split
        · simp only
          split <;> simp
        · simp
  | block =>
      simp only [step]
      split <;> simp

/-- What `solid` says of the first byte, in a mode that is not a quote. -/
theorem solid_cons {bad : Char → Bool} {m : Mode} {c : Char} {rest : Bytes}
    (h : solid bad m (c :: rest) = true) :
    (∀ q, m ≠ .quote q) ∧ (m = .outside → bad c = false) ∧
      solid bad (m.step c rest.head?).1 rest = true := by
  cases m with
  | outside =>
      rw [solid, Bool.and_eq_true, Bool.not_eq_true'] at h
      exact ⟨by simp, fun _ => h.1, h.2⟩
  | quote q => simp [solid] at h
  | bracket b n => exact ⟨by simp, by simp, by rwa [solid] at h⟩
  | block => exact ⟨by simp, by simp, by rwa [solid] at h⟩

/-- A byte that is kept keeps the type of an argument, and of any token when it is no `=`
outside everything and no `~` at its front. -/
theorem Token.keep_type {t : Token} {m : Mode} {c : Char} :
    (t.type = .arg → t.value ≠ [] → (t.keep m c).type = .arg) ∧
      (¬(m = .outside ∧ c = '=') → ¬(m = .outside ∧ c = '~' ∧ t.value = []) →
        (t.keep m c).type = t.type) := by
  refine ⟨fun harg hne => ?_, fun h₁ h₂ => ?_⟩
  · simp [keep, harg, hne]
  · simp only [keep, if_neg h₁, if_neg h₂]

/-- A byte that is kept, in front of others. -/
theorem Lexer.read_kept {m : Mode} {c : Char} (hquote : ∀ q, m ≠ .quote q)
    (hgap : m = .outside → isGap c = false) {after : Option Char} (hafter : Neutral after)
    (rest : Bytes) (t : Token) (d : List Token) :
    (⟨m, t, d⟩ : Lexer).read (c :: rest) after =
      (⟨(m.step c rest.head?).1, t.keep m c, d⟩ : Lexer).read rest after := by
  have hnext : m.step c (rest.head?.or after) = m.step c rest.head? := by
    cases rest with
    | nil => exact m.step_neutral hafter (by decide) c
    | cons d rest => rfl
  have hkeep := (m.step_keep hquote hgap rest.head?).1
  rw [read_cons]
  simp only [step, hnext]
  generalize hr : m.step c rest.head? = r at hkeep
  obtain ⟨m', a⟩ := r
  simp only at hkeep
  subst hkeep
  rfl

/-- **A solid text is read to itself.** -/
theorem Lexer.read_solid {bad : Char → Bool} (hbad : ∀ c, isGap c = true → bad c = true)
    {m : Mode} {text : Bytes} (h : solid bad m text = true) (t : Token) (d : List Token)
    {after : Option Char} (hafter : Neutral after) :
    ∃ type, (⟨m, t, d⟩ : Lexer).read text after = ⟨.outside, ⟨t.value ++ text, type⟩, d⟩ ∧
      (t.type = .arg → t.value ≠ [] → type = .arg) ∧
      (bad '=' = true → (t.value ≠ [] ∨ text.head? ≠ some '~') → type = t.type) := by
  induction text generalizing m t with
  | nil =>
      have hm : m = .outside := by simpa [solid] using h
      exact ⟨t.type, by simp [hm], fun h _ => h, fun _ _ => rfl⟩
  | cons c rest ih =>
      obtain ⟨hquote, hc, hrest⟩ := solid_cons h
      have hgap : m = .outside → isGap c = false := fun hm => by
        by_contra hg
        simpa [hc hm] using hbad c (by simpa using hg)
      obtain ⟨type, hread, harg, hother⟩ := ih hrest (t.keep m c)
      have hne : (t.keep m c).value ≠ [] := by simp [Token.keep]
      refine ⟨type, ?_, fun ht hv => harg (Token.keep_type.1 ht hv) hne, fun heq hfront => ?_⟩
      · rw [read_kept hquote hgap hafter, hread]
        simp [Token.keep]
      · rw [hother heq (Or.inl hne)]
        refine Token.keep_type.2 ?_ ?_
        · rintro ⟨hm, rfl⟩
          simp [hc hm] at heq
        · rintro ⟨_, rfl, hv⟩
          rcases hfront with hfront | hfront
          · exact hfront hv
          · simp at hfront

/-! ## Words -/

/-- The bytes of a word: no NUL, no white space, no quote, no opening bracket, and none of
`=`, `~` and `<`. -/
def wordChar (c : Char) : Bool :=
  !(['\x00', ' ', '\r', '\n', '\'', '"', '[', '{', '=', '~', '<'].contains c)

/-- A word: what commands, handles, topics, keys and flags are made of. -/
structure IsWord (w : Bytes) : Prop where
  ne_nil : w ≠ []
  chars : ∀ c ∈ w, wordChar c = true

instance (w : Bytes) : Decidable (IsWord w) :=
  decidable_of_iff (w ≠ [] ∧ w.all wordChar = true)
    ⟨fun h => ⟨h.1, List.all_eq_true.mp h.2⟩, fun h => ⟨h.1, List.all_eq_true.mpr h.2⟩⟩

/-- The bytes that end or change a token that is no argument. -/
def headBad (c : Char) : Bool := isGap c || c == '='

theorem headBad_of_isGap (c : Char) (h : isGap c = true) : headBad c = true := by
  simp [headBad, h]

theorem step_wordChar {c : Char} (h : wordChar c = true) (next : Option Char) :
    headBad c = false ∧ Mode.outside.step c next = (.outside, .keep) := by
  simp only [wordChar, Bool.not_eq_true', List.contains_eq_mem, decide_eq_false_iff_not,
    List.mem_cons, List.not_mem_nil, or_false, not_or] at h
  obtain ⟨_, hspace, _, _, hsquote, hquote, hopen, hbrace, heq, _, hlt⟩ := h
  refine ⟨by simp [headBad, isGap, hspace, hsquote, hquote, heq], ?_⟩
  simp [Mode.step, hspace, hsquote, hquote, hopen, hbrace, hlt]

/-- Bytes of words are a solid text. -/
theorem solid_of_wordChars {w : Bytes} (h : ∀ c ∈ w, wordChar c = true) :
    solid headBad .outside w = true := by
  induction w with
  | nil => rfl
  | cons c rest ih =>
      obtain ⟨hbad, hstep⟩ := step_wordChar (h c List.mem_cons_self) rest.head?
      rw [solid, hstep, hbad]
      exact ih fun a ha => h a (List.mem_cons_of_mem _ ha)

theorem IsWord.solid {w : Bytes} (h : IsWord w) : solid headBad .outside w = true :=
  solid_of_wordChars h.chars

theorem IsWord.not_mem {w : Bytes} (h : IsWord w) {c : Char} (hc : wordChar c = false) : c ∉ w :=
  fun hmem => by simp [h.chars c hmem] at hc

/-! ## Parts that can be written as they are -/

/-- A text that can be written as a command, a topic or a flag. -/
structure IsBare (w : Bytes) : Prop where
  ne_nil : w ≠ []
  solid : solid headBad .outside w = true
  front : w.head? ≠ some '~'
  no_nul : '\x00' ∉ w

instance (w : Bytes) : Decidable (IsBare w) :=
  decidable_of_iff
    (w ≠ [] ∧ Parser.solid headBad .outside w = true ∧ w.head? ≠ some '~' ∧ '\x00' ∉ w)
    ⟨fun h => ⟨h.1, h.2.1, h.2.2.1, h.2.2.2⟩, fun h => ⟨h.1, h.2, h.3, h.4⟩⟩

theorem IsWord.isBare {w : Bytes} (h : IsWord w) : IsBare w where
  ne_nil := h.ne_nil
  solid := h.solid
  front := fun hfront => h.not_mem rfl (List.mem_of_mem_head? hfront)
  no_nul := h.not_mem rfl

/-- A text that can be written as the key of an argument. -/
structure IsKey (k : Bytes) : Prop where
  solid : solid headBad .outside k = true
  no_eq : '=' ∉ k
  no_nul : '\x00' ∉ k

instance (k : Bytes) : Decidable (IsKey k) :=
  decidable_of_iff (Parser.solid headBad .outside k = true ∧ '=' ∉ k ∧ '\x00' ∉ k)
    ⟨fun h => ⟨h.1, h.2.1, h.2.2⟩, fun h => ⟨h.1, h.2, h.3⟩⟩

theorem IsWord.isKey {w : Bytes} (h : IsWord w) : IsKey w where
  solid := h.solid
  no_eq := h.not_mem rfl
  no_nul := h.not_mem rfl

/-- A text that can be written as the handle of a request. -/
structure IsHandle (h : Bytes) : Prop where
  ne_nil : h ≠ []
  solid : solid headBad .outside h = true
  no_nul : '\x00' ∉ h

theorem IsWord.isHandle {w : Bytes} (h : IsWord w) : IsHandle w :=
  ⟨h.ne_nil, h.solid, h.not_mem rfl⟩

/-- Behind a text without `=` that is read to itself the lexer is outside everything. -/
theorem solid_append {bad : Char → Bool} (hbad : ∀ c, bad c = true → headBad c = true) {m : Mode}
    {a b : Bytes} (h : solid headBad m a = true) (hb : Neutral b.head?) :
    solid bad m (a ++ b) = solid bad .outside b := by
  induction a generalizing m with
  | nil =>
      have hm : m = .outside := by simpa [solid] using h
      rw [hm, List.nil_append]
  | cons c a ih =>
      obtain ⟨hquote, hc, hrest⟩ := solid_cons h
      have hnext : m.step c (a ++ b).head? = m.step c a.head? := by
        cases a with
        | nil => exact m.step_neutral hb (by decide) c
        | cons d a => rfl
      have hgood : m = .outside → bad c = false := fun hm =>
        Bool.eq_false_iff.mpr fun hbadc => by simpa [hc hm] using hbad c hbadc
      rw [← ih hrest, List.cons_append]
      cases m with
      | outside => rw [solid, hnext, hgood rfl, Bool.not_false, Bool.true_and]
      | quote q => exact absurd rfl (hquote q)
      | bracket b n => rw [solid, hnext]
      | block => rw [solid, hnext]

/-- A token with an `=` outside brackets and blocks becomes an argument. -/
theorem Lexer.read_solid_arg {m : Mode} {text : Bytes} (h : solid isGap m text = true)
    (hbad : solid headBad m text = false) (t : Token) (d : List Token)
    {after : Option Char} (hafter : Neutral after) :
    (⟨m, t, d⟩ : Lexer).read text after = ⟨.outside, ⟨t.value ++ text, .arg⟩, d⟩ := by
  induction text generalizing m t with
  | nil =>
      rw [solid] at h hbad
      simp [h] at hbad
  | cons c rest ih =>
      obtain ⟨hquote, hc, hrest⟩ := solid_cons h
      have hkeep : (t.keep m c).value ++ rest = t.value ++ c :: rest := by simp [Token.keep]
      rw [read_kept hquote hc hafter, ← hkeep]
      by_cases heq : m = .outside ∧ c = '='
      · -- the token is an argument from here on
        obtain ⟨type, hread, harg, _⟩ := read_solid (fun _ h => h) hrest (t.keep m c) d hafter
        have htype : (t.keep m c).type = .arg := by simp [Token.keep, heq]
        rw [hread, harg htype (by simp [Token.keep])]
      · refine ih hrest ?_ (t.keep m c)
        cases m with
        | outside =>
            have hhead : headBad c = false := by
              have hceq : c ≠ '=' := fun hceq => heq ⟨rfl, hceq⟩
              simp [headBad, hc rfl, hceq]
            simpa [solid, hhead] using hbad
        | quote q => exact absurd rfl (hquote q)
        | bracket b n => rwa [solid] at hbad
        | block => rwa [solid] at hbad

/-! ## Pieces -/

/-- The piece is read to the token `t` when no token has begun. -/
def Lexes (piece : Bytes) (t : Token) : Prop :=
  ∀ (d : List Token) (after : Option Char), Neutral after →
    (⟨.outside, {}, d⟩ : Lexer).read piece after = ⟨.outside, t, d⟩

/-- Read after the `=` of an argument, the text adds `value` to it. -/
def Carries (text value : Bytes) : Prop :=
  ∀ (v : Bytes) (d : List Token) (after : Option Char), v ≠ [] → Neutral after →
    (⟨.outside, ⟨v, .arg⟩, d⟩ : Lexer).read text after = ⟨.outside, ⟨v ++ value, .arg⟩, d⟩

/-- A solid text that is no argument and does not begin like a handle. -/
theorem lexes_solid {text : Bytes} (h : solid headBad .outside text = true)
    (hfront : text.head? ≠ some '~') : Lexes text ⟨text, .none⟩ := by
  intro d after hafter
  obtain ⟨type, hread, _, htype⟩ := Lexer.read_solid headBad_of_isGap h {} d hafter
  rw [hread, htype rfl (Or.inr hfront)]
  simp

theorem IsWord.lexes {w : Bytes} (h : IsWord w) : Lexes w ⟨w, .none⟩ := by
  apply lexes_solid h.solid
  intro hfront
  exact h.not_mem rfl (List.mem_of_mem_head? hfront)

/-- A `~` and a solid text. -/
theorem lexes_handle {text : Bytes} (h : solid headBad .outside text = true) :
    Lexes ('~' :: text) ⟨'~' :: text, .handle⟩ := by
  intro d after hafter
  have hstep : ∀ next, (⟨.outside, {}, d⟩ : Lexer).step '~' next =
      ⟨.outside, ⟨['~'], .handle⟩, d⟩ := fun _ => by
    simp [Lexer.step, Mode.step, Token.keep]
  obtain ⟨type, hread, _, htype⟩ :=
    Lexer.read_solid headBad_of_isGap h ⟨['~'], .handle⟩ d hafter
  rw [Lexer.read_cons, hstep, hread, htype rfl (Or.inl (by simp))]
  rfl

/-- A solid text carries itself. -/
theorem carries_solid {text : Bytes} (h : solid isGap .outside text = true) :
    Carries text text := by
  intro v d after hv hafter
  obtain ⟨type, hread, htype, _⟩ := Lexer.read_solid (fun _ h => h) h ⟨v, .arg⟩ d hafter
  rw [hread, htype rfl hv]

/-- Behind such a piece the lexer is outside everything. -/
theorem Lexes.after {piece : Bytes} {t : Token} (h : Lexes piece t) :
    Mode.outside.after piece none = .outside := by
  rw [← Lexer.read_mode (⟨.outside, {}, []⟩ : Lexer), h [] none (by decide)]

/-- Inside quotes every byte but the quote is kept. -/
theorem Lexer.read_quote {q : Char} {text : Bytes} (h : q ∉ text) (t : Token) (d : List Token)
    (after : Option Char) :
    (⟨.quote q, t, d⟩ : Lexer).read text after = ⟨.quote q, ⟨t.value ++ text, t.type⟩, d⟩ := by
  induction text generalizing t with
  | nil => simp
  | cons c rest ih =>
      have hc : c ≠ q := fun hcq => h (hcq ▸ List.mem_cons_self)
      have hrest : q ∉ rest := fun hmem => h (List.mem_cons_of_mem _ hmem)
      have hstep : ∀ next, (⟨.quote q, t, d⟩ : Lexer).step c next =
          ⟨.quote q, ⟨t.value ++ [c], t.type⟩, d⟩ := fun _ => by
        simp [Lexer.step, Mode.step, hc, Token.keep]
      rw [read_cons, hstep, ih hrest]
      simp

/-- A text in quotes carries what the quotes hold. -/
theorem carries_quoted {q : Char} (hq : q = '"' ∨ q = '\'') {text : Bytes} (h : q ∉ text) :
    Carries (q :: text ++ [q]) text := by
  intro v d after _ _
  have hopen : ∀ next, (⟨.outside, ⟨v, .arg⟩, d⟩ : Lexer).step q next =
      ⟨.quote q, ⟨v, .arg⟩, d⟩ := fun _ => by
    rcases hq with rfl | rfl <;> simp [Lexer.step, Mode.step]
  have hclose : ∀ (t : Token) (next : Option Char),
      (⟨.quote q, t, d⟩ : Lexer).step q next = ⟨.outside, t, d⟩ := fun _ _ => by
    simp [Lexer.step, Mode.step]
  rw [List.cons_append, Lexer.read_cons, hopen, Lexer.read_append, Lexer.read_quote h,
    Lexer.read_cons, hclose, Lexer.read_nil]

/-- A key, `=` and a text that carries a value. -/
theorem lexes_arg {key text value : Bytes} (hkey : solid headBad .outside key = true)
    (h : Carries text value) : Lexes (key ++ '=' :: text) ⟨key ++ '=' :: value, .arg⟩ := by
  intro d after hafter
  have hstep : ∀ (t : Token) (next : Option Char), (⟨.outside, t, d⟩ : Lexer).step '=' next =
      ⟨.outside, ⟨t.value ++ ['='], .arg⟩, d⟩ := fun _ _ => by
    simp [Lexer.step, Mode.step, Token.keep]
  obtain ⟨type, hread, _⟩ := Lexer.read_solid headBad_of_isGap hkey {} d
    (show Neutral (some '=') by decide)
  rw [Lexer.read_append, List.head?_cons, Option.some_or, hread, Lexer.read_cons, hstep,
    h ([] ++ key ++ ['=']) d after (by simp) hafter]
  simp

/-- A text that is read to itself and has an `=` is an argument. -/
theorem lexes_solid_arg {text : Bytes} (h : solid isGap .outside text = true)
    (hbad : solid headBad .outside text = false) : Lexes text ⟨text, .arg⟩ := fun d _ hafter =>
  Lexer.read_solid_arg h hbad {} d hafter

/-! ## Rows of pieces -/

/-- A piece and the token it is read to. -/
structure Piece where
  text : Bytes
  token : Token
  lexes : Lexes text token
  counts : token.value ≠ []

/-- Pieces with a space in front of each. -/
def row (pieces : List Piece) : Bytes := pieces.flatMap fun p => ' ' :: p.text

@[simp] theorem row_nil : row [] = [] := rfl

@[simp] theorem row_cons (p : Piece) (rest : List Piece) :
    row (p :: rest) = ' ' :: p.text ++ row rest := rfl

theorem neutral_row (pieces : List Piece) {after : Option Char} (h : Neutral after) :
    Neutral ((row pieces).head?.or after) := by
  cases pieces with
  | nil => simpa using h
  | cons p rest => simp [Neutral]

/-- **A row of pieces is read to one token each.** -/
theorem Lexer.read_row (t : Token) (d : List Token) (pieces : List Piece)
    {after : Option Char} (hafter : Neutral after) :
    ∃ t' d', (⟨.outside, t, d⟩ : Lexer).read (row pieces) after = ⟨.outside, t', d'⟩ ∧
      d' ++ emit t' = d ++ emit t ++ pieces.map Piece.token ∧ (t.value ≠ [] → t'.value ≠ []) := by
  induction pieces generalizing t d with
  | nil => exact ⟨t, d, by simp, by simp, id⟩
  | cons p rest ih =>
      obtain ⟨t', d', hread, htokens, hne⟩ := ih p.token (d ++ emit t)
      refine ⟨t', d', ?_, ?_, fun _ => hne p.counts⟩
      · have hcut : ∀ next, (⟨.outside, t, d⟩ : Lexer).step ' ' next =
            ⟨.outside, {}, d ++ emit t⟩ := fun _ => rfl
        rw [row_cons, List.cons_append, read_cons, hcut, read_append,
          p.lexes _ _ (neutral_row rest hafter), hread]
      · rw [htokens]
        simp [emit, p.counts]

/-- **A text that begins with a piece and goes on with a row is tokenized piece by piece.** -/
theorem tokenize_row (p : Piece) (pieces : List Piece) :
    tokenize (p.text ++ row pieces) = p.token :: pieces.map Piece.token := by
  obtain ⟨t, d, hread, htokens, _⟩ :=
    Lexer.read_row p.token [] pieces (show Neutral none by decide)
  rw [tokenize_eq, Lexer.read_append, p.lexes [] _ (neutral_row pieces (by decide)), hread]
  simp only [Lexer.finish, Mode.closing, List.append_nil, htokens]
  simp [emit, p.counts]

/-- The last token with a newline behind it. -/
def withNewline : List Token → List Token
  | [] => []
  | [t] => [⟨t.value ++ ['\n'], t.type⟩]
  | t :: u :: rest => t :: withNewline (u :: rest)

theorem withNewline_concat (l : List Token) (t : Token) :
    withNewline (l ++ [t]) = l ++ [⟨t.value ++ ['\n'], t.type⟩] := by
  induction l with
  | nil => rfl
  | cons u l ih =>
      cases l with
      | nil => rfl
      | cons w l => exact congrArg (u :: ·) ih

/-- A newline behind a row belongs to its last token. -/
theorem tokenize_row_newline (p : Piece) (pieces : List Piece) :
    tokenize (p.text ++ row pieces ++ ['\n']) =
      withNewline (p.token :: pieces.map Piece.token) := by
  obtain ⟨t, d, hread, htokens, hne⟩ :=
    Lexer.read_row p.token [] pieces (show Neutral (some '\n') by decide)
  have hkeep : ∀ next, (⟨.outside, t, d⟩ : Lexer).step '\n' next =
      ⟨.outside, ⟨t.value ++ ['\n'], t.type⟩, d⟩ := fun _ => by
    simp [Lexer.step, Mode.step, Token.keep]
  have hlist : p.token :: pieces.map Piece.token = d ++ [t] := by
    simpa [emit, p.counts, hne p.counts] using htokens.symm
  rw [tokenize_eq, List.append_assoc, Lexer.read_append,
    p.lexes [] _ (by simpa using neutral_row pieces (show Neutral (some '\n') by decide)),
    Lexer.read_append, List.head?_cons, Option.some_or, hread, Lexer.read_cons, hkeep,
    Lexer.read_nil, hlist, withNewline_concat]
  simp [Lexer.finish, Mode.closing, emit]

/-- The text is a row, with a piece for each of these tokens. -/
def IsRow (text : Bytes) (tokens : List Token) : Prop :=
  ∃ (p : Piece) (pieces : List Piece), text = p.text ++ row pieces ∧
    p.token :: pieces.map Piece.token = tokens

theorem IsRow.tokenize {text : Bytes} {tokens : List Token} (h : IsRow text tokens) :
    Parser.tokenize text = tokens := by
  obtain ⟨p, pieces, rfl, rfl⟩ := h
  exact tokenize_row p pieces

/-- One more piece at the end of a row. -/
theorem IsRow.concat {text : Bytes} {tokens : List Token} (h : IsRow text tokens) (p : Piece) :
    IsRow (text ++ ' ' :: p.text) (tokens ++ [p.token]) := by
  obtain ⟨q, pieces, rfl, rfl⟩ := h
  exact ⟨q, pieces ++ [p], by simp [row], by simp⟩

theorem IsRow.tokenize_newline {text : Bytes} {tokens : List Token} (h : IsRow text tokens) :
    Parser.tokenize (text ++ ['\n']) = withNewline tokens := by
  obtain ⟨p, pieces, rfl, rfl⟩ := h
  exact tokenize_row_newline p pieces

end SporeClient.Parser
