/-
  Parser/BuildSpec.lean --- what `build` makes of a list of tokens.

  WHAT THIS FILE IS FOR.  `build` is a loop with an index.  After the first token (and
  after the topic, in a publish) the index no longer matters, and what the rest of the
  tokens adds can be said at once: the arguments and flags among them in order, the last
  handle, and which words `props` has seen (`buildLoop_rest`).  The later modules use
  `build_eq` and `build_publish` and never unfold the loop.
-/
import SporeClient.Parser.Parse

set_option autoImplicit false

namespace SporeClient.Parser

open SporeClient.Foundation

/-- The arguments among the tokens. -/
def argsOf (tokens : List Token) : List (Bytes × Bytes) :=
  tokens.filterMap fun t =>
    if t.type = .arg then some (cstr (argOf t.value).1, cstr (argOf t.value).2) else none

/-- The flags among the tokens. -/
def flagsOf (tokens : List Token) : List Bytes :=
  tokens.filterMap fun t => if t.type = .none then some (cstr t.value) else none

/-- The last handle among the tokens, or `handle` when there is none. -/
def handleOf (handle : Bytes) (tokens : List Token) : Bytes :=
  tokens.foldl (fun h t => if t.type = .handle then cstr (t.value.drop 1) else h) handle

/-- What one token says about `props`. -/
def Props.note (props : Props) (t : Token) : Props :=
  match t.type with
  | .arg => props.noteArg (argOf t.value).1
  | .handle => props
  | .none => props.noteFlag t.value

/-- What the tokens say about `props`. -/
def propsOf (props : Props) (tokens : List Token) : Props := tokens.foldl Props.note props

/-- What the tokens add to a message. -/
def ParsedMessage.addTokens (m : ParsedMessage) (tokens : List Token) : ParsedMessage :=
  { m with
    handle := handleOf m.handle tokens
    args := m.args ++ argsOf tokens
    flags := m.flags ++ flagsOf tokens }

theorem argsOf_cons (t : Token) (rest : List Token) :
    argsOf (t :: rest) =
      if t.type = .arg then (cstr (argOf t.value).1, cstr (argOf t.value).2) :: argsOf rest
      else argsOf rest := by
  by_cases h : t.type = .arg <;> simp [argsOf, h]

theorem flagsOf_cons (t : Token) (rest : List Token) :
    flagsOf (t :: rest) =
      if t.type = .none then cstr t.value :: flagsOf rest else flagsOf rest := by
  by_cases h : t.type = .none <;> simp [flagsOf, h]

theorem argsOf_append (a b : List Token) : argsOf (a ++ b) = argsOf a ++ argsOf b := by
  simp [argsOf]

theorem flagsOf_append (a b : List Token) : flagsOf (a ++ b) = flagsOf a ++ flagsOf b := by
  simp [flagsOf]

theorem handleOf_append (h : Bytes) (a b : List Token) :
    handleOf h (a ++ b) = handleOf (handleOf h a) b := by
  simp [handleOf]

/-- Only handles change the handle. -/
theorem handleOf_of_not_handle {l : List Token} (h : ∀ t ∈ l, t.type ≠ .handle)
    (handle : Bytes) : handleOf handle l = handle := by
  induction l with
  | nil => rfl
  | cons t rest ih =>
      have hcons : handleOf handle (t :: rest) =
          handleOf (if t.type = .handle then cstr (t.value.drop 1) else handle) rest := rfl
      rw [hcons, if_neg (h t List.mem_cons_self), ih fun u hu => h u (List.mem_cons_of_mem t hu)]

theorem ParsedMessage.addTokens_append (m : ParsedMessage) (a b : List Token) :
    m.addTokens (a ++ b) = (m.addTokens a).addTokens b := by
  simp [addTokens, argsOf_append, flagsOf_append, handleOf_append]

theorem ParsedMessage.addTokens_cons (m : ParsedMessage) (t : Token) (rest : List Token) :
    m.addTokens (t :: rest) = (m.addTokens [t]).addTokens rest :=
  m.addTokens_append [t] rest

theorem buildRest_eq (p : ParserState) (m : ParsedMessage) (t : Token) :
    buildRest p m t = ({ p with props := p.props.note t }, m.addTokens [t]) := by
  unfold buildRest Props.note ParsedMessage.addTokens
  cases h : t.type <;> simp [handleOf, argsOf, flagsOf, h]

/-- **The rest of the tokens**, when the index no longer matters. -/
theorem buildLoop_rest {i : Nat} {p : ParserState} (m : ParsedMessage) (tokens : List Token)
    (hi : 1 ≤ i) (hpublish : p.type = .publish → 2 ≤ i) :
    buildLoop i p m tokens = ({ p with props := propsOf p.props tokens }, m.addTokens tokens) := by
  induction tokens generalizing i p m with
  | nil => simp [buildLoop, propsOf, ParsedMessage.addTokens, handleOf, argsOf, flagsOf]
  | cons t rest ih =>
      have hstep : buildStep i p m t = buildRest p m t := by
        have hzero : i ≠ 0 := by omega
        have htopic : ¬(p.type = .publish ∧ i = 1) := by
          rintro ⟨hp, rfl⟩
          have := hpublish hp
          omega
        simp only [buildStep, if_neg hzero, if_neg htopic]
      rw [buildLoop, hstep, buildRest_eq, ih _ (by omega) (fun h => by have := hpublish h; omega)]
      simp only [propsOf, List.foldl_cons, ParsedMessage.addTokens, handleOf, argsOf, flagsOf,
        List.filterMap_cons, List.filterMap_nil, List.append_assoc, List.foldl_nil, Prod.mk.injEq,
        true_and, ParsedMessage.mk.injEq, List.append_cancel_left_eq]
      cases t.type <;> simp

theorem buildLoop_append (i : Nat) (p : ParserState) (m : ParsedMessage) (a b : List Token) :
    buildLoop i p m (a ++ b) =
      buildLoop (i + a.length) (buildLoop i p m a).1 (buildLoop i p m a).2 b := by
  induction a generalizing i p m with
  | nil => rfl
  | cons t rest ih =>
      rw [List.cons_append, buildLoop, buildLoop, ih, List.length_cons, Nat.add_assoc,
        Nat.add_comm 1]

/-- Behind two tokens, the rest only adds to the message. -/
theorem build_append {a : List Token} (ha : 2 ≤ a.length) (p : ParserState) (m : ParsedMessage)
    (b : List Token) : (build p m (a ++ b)).2 = (build p m a).2.addTokens b := by
  have hrest := buildLoop_rest (i := 0 + a.length) (p := (buildLoop 0 p m a).1)
    (buildLoop 0 p m a).2 b (by omega) (fun _ => by omega)
  rw [build, build, buildLoop_append, hrest]

/-- A message that is no publish: the first token, then what the rest adds. -/
theorem build_eq {p : ParserState} {m : ParsedMessage} {t : Token} (rest : List Token)
    (h : (buildFirst p m t).1.type ≠ .publish) :
    build p m (t :: rest) =
      ({ (buildFirst p m t).1 with props := propsOf (buildFirst p m t).1.props rest },
        (buildFirst p m t).2.addTokens rest) := by
  have hstep : buildStep 0 p m t = buildFirst p m t := rfl
  rw [build, buildLoop, hstep, buildLoop_rest _ rest (by omega) (fun hp => absurd hp h)]

/-- A publish with a topic: the topic is taken as it is, then the rest is added. -/
theorem build_publish (p : ParserState) (m : ParsedMessage) (topic : Token) (rest : List Token) :
    build p m (⟨publishWord, .none⟩ :: topic :: rest) =
      ({ p with type := .publish, props := propsOf p.props rest },
        ({ m with capability := cstr topic.value } : ParsedMessage).addTokens rest) := by
  have hfirst : buildStep 0 p m ⟨publishWord, .none⟩ = ({ p with type := .publish }, m) := by
    simp [buildStep, buildFirst, show publishWord ≠ witnessWord by decide]
  have htopic : buildStep 1 { p with type := .publish } m topic =
      ({ p with type := .publish }, { m with capability := cstr topic.value }) := rfl
  rw [build, buildLoop, buildLoop, hfirst, htopic,
    buildLoop_rest _ rest (by omega) (fun _ => by omega)]

/-- After the first token the type is settled. -/
theorem buildLoop_type {i : Nat} (hi : 1 ≤ i) (p : ParserState) (m : ParsedMessage)
    (tokens : List Token) : (buildLoop i p m tokens).1.type = p.type := by
  induction tokens generalizing i p m with
  | nil => rfl
  | cons t rest ih =>
      have hstep : (buildStep i p m t).1.type = p.type := by
        have hzero : i ≠ 0 := by omega
        simp only [buildStep, if_neg hzero]
        split
        · rfl
        · rw [buildRest_eq]
      rw [buildLoop, ih (by omega), hstep]

/-- Only the word `publish` begins a publish. -/
theorem buildFirst_publish {p : ParserState} {m : ParsedMessage} {t : Token}
    (h : (buildFirst p m t).1.type = .publish) : t = ⟨publishWord, .none⟩ := by
  obtain ⟨value, type⟩ := t
  unfold buildFirst at h
  cases type with
  | arg => simp at h
  | handle =>
      simp only at h
      split at h <;> simp at h
  | none =>
      simp only at h
      split at h
      · simp at h
      · split at h
        · rename_i hvalue
          rw [hvalue]
        · simp at h

/-- The first token of a request is its command. -/
theorem buildFirst_request {p : ParserState} {m : ParsedMessage} {t : Token}
    (h : (buildFirst p m t).1.type = .request) :
    t.type ≠ .handle ∧ ∀ (p : ParserState) (m : ParsedMessage),
      buildFirst p m t = ({ p with type := .request }, { m with capability := cstr t.value }) := by
  unfold buildFirst at h ⊢
  cases htype : t.type with
  | arg => exact ⟨by simp, fun _ _ => rfl⟩
  | handle =>
      rw [htype] at h
      simp only at h
      split at h <;> simp at h
  | none =>
      rw [htype] at h
      simp only at h
      split at h
      · simp at h
      · split at h
        · simp at h
        · rename_i hwitness hpublish
          exact ⟨by simp, fun _ _ => by simp only [if_neg hwitness, if_neg hpublish]⟩

/-- Only a handle begins a response; the command stands behind its first colon. -/
theorem buildFirst_handle {p : ParserState} {m : ParsedMessage} {t : Token}
    (h : (buildFirst p m t).1.type = .response) :
    t.type = .handle ∧
      (splitFirst ':' (t.value.drop 1) = none → (buildFirst p m t).2.capability = m.capability) ∧
      ∀ a b, splitFirst ':' (t.value.drop 1) = some (a, b) →
        buildFirst p m t =
          ({ p with type := .response }, { m with handle := cstr a, capability := cstr b }) := by
  unfold buildFirst at h ⊢
  cases htype : t.type with
  | arg =>
      rw [htype] at h
      simp at h
  | handle =>
      refine ⟨rfl, fun hnone => ?_, fun a b hsome => ?_⟩
      · simp only [hnone]
      · simp only [hsome]
  | none =>
      rw [htype] at h
      simp only at h
      split at h
      · simp at h
      · split at h <;> simp at h

/-- A message that turns out to be a request or a response. -/
theorem build_of_type {p : ParserState} {m : ParsedMessage} {tokens : List Token}
    (hp : (build p m tokens).1.type ≠ p.type) (hpublish : (build p m tokens).1.type ≠ .publish) :
    ∃ t rest, tokens = t :: rest ∧
      (buildFirst p m t).1.type = (build p m tokens).1.type ∧
      (build p m tokens).2 = (buildFirst p m t).2.addTokens rest := by
  cases tokens with
  | nil => exact absurd rfl hp
  | cons t rest =>
      have htype : (build p m (t :: rest)).1.type = (buildFirst p m t).1.type :=
        buildLoop_type (Nat.le_refl 1) _ _ rest
      rw [htype] at hpublish ⊢
      exact ⟨t, rest, rfl, rfl, by rw [build_eq rest hpublish]⟩

/-- **A response with a command**: its first token is a handle with a colon, and the rest
is added. -/
theorem parse_response {text : Bytes} (htype : (parseNew text).1.type = .response)
    (hcommand : (parseNew text).2.capability ≠ []) :
    ∃ t rest a b, tokenize text = t :: rest ∧ t.type = .handle ∧
      t.value.drop 1 = a ++ ':' :: b ∧ ':' ∉ a ∧ (parseNew text).1.props = propsOf {} rest ∧
      (parseNew text).2 = (⟨cstr b, cstr a, [], []⟩ : ParsedMessage).addTokens rest := by
  have hparse : parseNew text = build { raw := text } {} (tokenize text) := rfl
  rw [hparse] at htype hcommand ⊢
  cases htokens : tokenize text with
  | nil =>
      rw [htokens] at htype
      simp [build, buildLoop] at htype
  | cons t rest =>
      rw [htokens] at htype hcommand
      have hfirst : (buildFirst { raw := text } {} t).1.type = .response := by
        rw [← htype]
        exact (buildLoop_type (Nat.le_refl 1) _ _ rest).symm
      have hbuild := build_eq (p := { raw := text }) (m := {}) rest (by rw [hfirst]; simp)
      obtain ⟨hhandle, hnone, hsome⟩ := buildFirst_handle hfirst
      cases hsplit : splitFirst ':' (t.value.drop 1) with
      | none =>
          rw [hbuild] at hcommand
          exact absurd (hnone hsplit) hcommand
      | some ab =>
          obtain ⟨hvalue, ha⟩ := splitFirst_eq_some hsplit
          rw [hsome ab.1 ab.2 hsplit] at hbuild
          exact ⟨t, rest, ab.1, ab.2, rfl, hhandle, hvalue, ha, by rw [hbuild], by rw [hbuild]⟩

/-- Only the word `witness` begins a witness. -/
theorem buildFirst_witness {p : ParserState} {m : ParsedMessage} {t : Token}
    (h : (buildFirst p m t).1.type = .witness) :
    t = ⟨witnessWord, .none⟩ := by
  obtain ⟨value, type⟩ := t
  unfold buildFirst at h
  cases type with
  | arg => simp at h
  | handle =>
      simp only at h
      split at h <;> simp at h
  | none =>
      simp only at h
      split at h
      · rename_i hvalue
        rw [hvalue]
      · split at h <;> simp at h

/-- **A witness**: its first token is the word, and the rest is added. -/
theorem parse_witness {text : Bytes} (htype : (parseNew text).1.type = .witness) :
    ∃ rest, tokenize text = ⟨witnessWord, .none⟩ :: rest ∧
      (parseNew text).1.props = propsOf {} rest ∧ (parseNew text).2.args = argsOf rest := by
  have hparse : parseNew text = build { raw := text } {} (tokenize text) := rfl
  rw [hparse] at htype ⊢
  cases htokens : tokenize text with
  | nil =>
      rw [htokens] at htype
      simp [build, buildLoop] at htype
  | cons t rest =>
      rw [htokens] at htype
      have hfirst : (buildFirst { raw := text } {} t).1.type = .witness := by
        rw [← htype]
        exact (buildLoop_type (Nat.le_refl 1) _ _ rest).symm
      obtain rfl := buildFirst_witness hfirst
      rw [build_eq (p := { raw := text }) (m := {}) rest (by rw [hfirst]; simp)]
      exact ⟨rest, rfl, rfl, rfl⟩

/-! ## The raw text -/

/-- The raw text a parser keeps has no part in the building. -/
theorem buildStep_raw (r : Bytes) (i : Nat) (p : ParserState) (m : ParsedMessage) (t : Token) :
    buildStep i { p with raw := r } m t =
      ({ (buildStep i p m t).1 with raw := r }, (buildStep i p m t).2) := by
  unfold buildStep
  split
  · unfold buildFirst
    cases t.type with
    | arg => rfl
    | handle =>
        simp only
        cases splitFirst ':' (t.value.drop 1) <;> rfl
    | none =>
        simp only
        split
        · rfl
        · split <;> rfl
  · simp only
    split
    · rfl
    · unfold buildRest
      cases t.type <;> rfl

theorem build_raw (r : Bytes) (p : ParserState) (m : ParsedMessage) (tokens : List Token) :
    build { p with raw := r } m tokens =
      ({ (build p m tokens).1 with raw := r }, (build p m tokens).2) := by
  have hloop : ∀ (i : Nat) (p : ParserState) (m : ParsedMessage),
      buildLoop i { p with raw := r } m tokens =
        ({ (buildLoop i p m tokens).1 with raw := r }, (buildLoop i p m tokens).2) := by
    induction tokens with
    | nil => exact fun _ _ _ => rfl
    | cons t rest ih =>
        intro i p m
        rw [buildLoop, buildStep_raw]
        exact ih (i + 1) (buildStep i p m t).1 (buildStep i p m t).2
  exact hloop 0 p m

/-- What is parsed depends on the tokens. -/
theorem parseNew_eq (message : Bytes) :
    parseNew message =
      ({ (build {} {} (tokenize message)).1 with raw := message },
        (build {} {} (tokenize message)).2) :=
  build_raw message {} {} (tokenize message)

/-! ## Stored strings -/

/-- One token adds at most one argument, as two C strings. -/
theorem buildStep_args (i : Nat) (p : ParserState) (m : ParsedMessage) (t : Token) :
    (buildStep i p m t).2.args = m.args ∨
      ∃ key value, (buildStep i p m t).2.args = m.args ++ [(cstr key, cstr value)] := by
  unfold buildStep
  split
  · unfold buildFirst
    cases t.type with
    | arg => exact Or.inl rfl
    | handle =>
        simp only
        cases splitFirst ':' (t.value.drop 1) <;> exact Or.inl rfl
    | none =>
        simp only
        split
        · exact Or.inl rfl
        · split <;> exact Or.inl rfl
  · split
    · exact Or.inl rfl
    · unfold buildRest
      cases t.type with
      | arg => exact Or.inr ⟨_, _, rfl⟩
      | handle => exact Or.inl rfl
      | none => exact Or.inl rfl

/-- **A parsed argument has no NUL.** -/
theorem no_nul_of_mem_args {message : Bytes} {arg : Bytes × Bytes}
    (h : arg ∈ (parseNew message).2.args) : '\x00' ∉ arg.1 ∧ '\x00' ∉ arg.2 := by
  have hloop : ∀ (tokens : List Token) (i : Nat) (p : ParserState) (m : ParsedMessage),
      (∀ arg ∈ m.args, '\x00' ∉ arg.1 ∧ '\x00' ∉ arg.2) →
        ∀ arg ∈ (buildLoop i p m tokens).2.args, '\x00' ∉ arg.1 ∧ '\x00' ∉ arg.2 := by
    intro tokens
    induction tokens with
    | nil => exact fun _ _ _ hm => hm
    | cons t rest ih =>
        intro i p m hm
        apply ih
        intro arg harg
        rcases buildStep_args i p m t with hsame | ⟨key, value, hmore⟩
        · exact hm arg (hsame ▸ harg)
        · rw [hmore] at harg
          rcases List.mem_append.mp harg with harg | harg
          · exact hm arg harg
          · obtain rfl := List.mem_singleton.mp harg
            exact ⟨nul_not_mem_cstr key, nul_not_mem_cstr value⟩
  exact hloop (tokenize message) 0 _ {} (by simp) arg h

/-! ## What the tokens had -/

theorem argOf_append {key : Bytes} (h : '=' ∉ key) (v : Bytes) :
    argOf (key ++ '=' :: v) = (key, stripBlock v) := by
  rw [argOf, splitFirst_append v h]

/-- Key and value of a token that has an `=`. -/
theorem argOf_split {v : Bytes} (h : '=' ∈ v) :
    ∃ key val, v = key ++ '=' :: val ∧ argOf v = (key, stripBlock val) := by
  obtain ⟨key, val, rfl, hkey⟩ := List.eq_append_cons_of_mem h
  exact ⟨key, val, rfl, argOf_append hkey val⟩

/-! ## What `props` has seen -/

theorem note_hasFlagOk (props : Props) (t : Token) :
    (props.note t).hasFlagOk =
      (props.hasFlagOk || decide (t.type = .none ∧ t.value = okWord)) := by
  unfold Props.note Props.noteArg Props.noteFlag
  cases t.type <;> simp only <;> repeat' split
  all_goals simp_all

theorem note_hasFlagError (props : Props) (t : Token) :
    (props.note t).hasFlagError =
      (props.hasFlagError || decide (t.type = .none ∧ t.value = errorWord)) := by
  have hne : okWord ≠ errorWord := by decide
  unfold Props.note Props.noteArg Props.noteFlag
  cases t.type <;> simp only <;> repeat' split
  all_goals simp_all

theorem note_hasArgCode (props : Props) (t : Token) :
    (props.note t).hasArgCode =
      (props.hasArgCode || decide (t.type = .arg ∧ (argOf t.value).1 = codeWord)) := by
  unfold Props.note Props.noteArg Props.noteFlag
  cases t.type <;> simp only <;> repeat' split
  all_goals simp_all

theorem note_hasArgWhat (props : Props) (t : Token) :
    (props.note t).hasArgWhat =
      (props.hasArgWhat || decide (t.type = .arg ∧ (argOf t.value).1 = whatWord)) := by
  have hne : codeWord ≠ whatWord := by decide
  unfold Props.note Props.noteArg Props.noteFlag
  cases t.type <;> simp only <;> repeat' split
  all_goals simp_all

theorem note_hasArgBody (props : Props) (t : Token) :
    (props.note t).hasArgBody =
      (props.hasArgBody || decide (t.type = .arg ∧ (argOf t.value).1 = bodyWord)) := by
  have hcode : codeWord ≠ bodyWord := by decide
  have hwhat : whatWord ≠ bodyWord := by decide
  unfold Props.note Props.noteArg Props.noteFlag
  cases t.type <;> simp only <;> repeat' split
  all_goals simp_all

/-- **A mark of `props`** is set when one of the tokens sets it. -/
theorem propsOf_mark {mark : Props → Bool} {sets : Token → Bool}
    (h : ∀ props t, mark (props.note t) = (mark props || sets t)) (props : Props)
    (tokens : List Token) : mark (propsOf props tokens) = (mark props || tokens.any sets) := by
  induction tokens generalizing props with
  | nil => simp [propsOf]
  | cons t rest ih =>
      have hcons : propsOf props (t :: rest) = propsOf (props.note t) rest := rfl
      rw [hcons, ih, h, List.any_cons, Bool.or_assoc]

/-- Marks that flags set. -/
theorem flag_mark_iff {mark : Props → Bool} {w : Bytes}
    (h : ∀ props t, mark (props.note t) =
      (mark props || decide (t.type = .none ∧ t.value = w)))
    (hmark : mark {} = false) {tokens : List Token} :
    mark (propsOf {} tokens) = true ↔ (⟨w, .none⟩ : Token) ∈ tokens := by
  rw [propsOf_mark h, hmark, Bool.false_or, List.any_eq_true]
  constructor
  · rintro ⟨⟨value, type⟩, ht, hset⟩
    obtain ⟨rfl, rfl⟩ := of_decide_eq_true hset
    exact ht
  · intro ht
    exact ⟨⟨w, .none⟩, ht, decide_eq_true ⟨rfl, rfl⟩⟩

/-- Marks that arguments set. -/
theorem arg_mark_iff {mark : Props → Bool} {key : Bytes}
    (h : ∀ props t, mark (props.note t) =
      (mark props || decide (t.type = .arg ∧ (argOf t.value).1 = key)))
    (hmark : mark {} = false) {tokens : List Token} :
    mark (propsOf {} tokens) = true ↔
      ∃ t ∈ tokens, t.type = .arg ∧ (argOf t.value).1 = key := by
  rw [propsOf_mark h, hmark, Bool.false_or, List.any_eq_true]
  simp only [decide_eq_true_eq]

end SporeClient.Parser
