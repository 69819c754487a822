/-
  Parser/Grammar.lean --- the grammar of messages.

  WHAT THIS FILE IS FOR.  Whether a text is accepted is decided in three places: the
  tokenizer types the tokens, `build` sorts them by type and position, `validate` looks at
  what was stored and at `props`.  `Grammar` says the same of the list of tokens at once,
  one clause for each type of message, and mentions neither `build` nor `validate`.
  `accepts_iff_grammar` is the agreement of the two.
-/
import SporeClient.Parser.Lexing
import SporeClient.Parser.Validate

set_option autoImplicit false

namespace SporeClient.Parser

open SporeClient.Foundation

/-! ## The clauses -/

/-- An untyped token has this text. -/
def HasFlag (w : Bytes) (tokens : List Token) : Prop := ⟨w, .none⟩ ∈ tokens

/-- An argument has this key: the text before its first `=`. -/
def HasArg (key : Bytes) (tokens : List Token) : Prop :=
  ∃ t ∈ tokens, t.type = .arg ∧ ∃ val, t.value = key ++ '=' :: val ∧ '=' ∉ key

/-- The last handle among the tokens. -/
def lastHandle (tokens : List Token) : Option Token :=
  (tokens.filter fun t => t.type = .handle).getLast?

/-- The handle of a response: the text after the `~` of the last handle, or what its first
token has. -/
def responseHandle (handle : Bytes) (tokens : List Token) : Bytes :=
  match lastHandle tokens with
  | some t => t.value.drop 1
  | none => handle

/-- A request: a command and a handle. -/
structure RequestGrammar (t : Token) (rest : List Token) : Prop where
  not_handle : t.type ≠ .handle
  not_witness : t.value ≠ witnessWord
  not_publish : t.value ≠ publishWord
  no_eq : '=' ∉ t.value
  handle : ∃ h, lastHandle rest = some h ∧ 1 < h.value.length

/-- A response: `~handle:command`, and `ok` or `error` but not both. -/
structure ResponseGrammar (t : Token) (rest : List Token) : Prop where
  is_handle : t.type = .handle
  head : ∃ handle command, t.value = '~' :: handle ++ ':' :: command ∧ ':' ∉ handle ∧
    command ≠ [] ∧ responseHandle handle rest ≠ []
  ok_or_error : HasFlag okWord rest ∨ HasFlag errorWord rest
  not_both : ¬(HasFlag okWord rest ∧ HasFlag errorWord rest)
  fields : HasFlag errorWord rest → HasArg codeWord rest ∧ HasArg whatWord rest

/-- A witness: the word and a body. -/
structure WitnessGrammar (t : Token) (rest : List Token) : Prop where
  word : t = ⟨witnessWord, .none⟩
  body : HasArg bodyWord rest

/-- A publish: the word and a topic. -/
structure PublishGrammar (t : Token) (rest : List Token) : Prop where
  word : t = ⟨publishWord, .none⟩
  topic : ∃ topic more, rest = topic :: more ∧ '=' ∉ topic.value ∧ topic.value.head? ≠ some '~'

/-- The messages of a type, as lists of tokens. -/
def Grammar (type : MessageType) : List Token → Prop
  | [] => False
  | t :: rest =>
      match type with
      | .unknown => False
      | .request => RequestGrammar t rest
      | .response => ResponseGrammar t rest
      | .witness => WitnessGrammar t rest
      | .publish => PublishGrammar t rest

/-! ## What `build` stores -/

/-- The last handle is the one that is stored. -/
theorem handleOf_eq (handle : Bytes) (tokens : List Token) :
    handleOf handle tokens =
      match lastHandle tokens with
      | some t => cstr (t.value.drop 1)
      | none => handle := by
  rcases List.eq_nil_or_concat (tokens.filter fun t => t.type = .handle) with hnil | ⟨l, t, hl⟩
  · have hno : ∀ t ∈ tokens, t.type ≠ .handle := by simpa using hnil
    rw [handleOf_of_not_handle hno, lastHandle, hnil]
    rfl
  · -- only the handles count, and of these the last
    have hfilter : ∀ (ts : List Token) (h : Bytes),
        handleOf h (ts.filter fun t => t.type = .handle) = handleOf h ts := by
      intro ts
      induction ts with
      | nil => exact fun _ => rfl
      | cons t rest ih =>
          intro h
          by_cases ht : t.type = .handle
          · rw [List.filter_cons_of_pos (by simpa using ht)]
            exact ih _
          · rw [List.filter_cons_of_neg (by simpa using ht), ih]
            exact (congrArg (handleOf · rest) (if_neg ht)).symm
    rw [List.concat_eq_append] at hl
    have ht : t.type = .handle := by
      have hmem : t ∈ tokens.filter fun t => t.type = .handle := by rw [hl]; simp
      simpa using (List.mem_filter.mp hmem).2
    rw [← hfilter, lastHandle, hl, handleOf_append, List.getLast?_concat]
    simp [handleOf, ht]

theorem hasArg_iff {key : Bytes} (hkey : '=' ∉ key) {tokens : List Token}
    (h : ∀ t ∈ tokens, t.type = .arg → '=' ∈ t.value) :
    HasArg key tokens ↔ ∃ t ∈ tokens, t.type = .arg ∧ (argOf t.value).1 = key := by
  refine exists_congr fun t => and_congr_right fun ht => and_congr_right fun harg => ?_
  constructor
  · rintro ⟨val, hval, _⟩
    rw [hval, argOf_append hkey]
  · rintro rfl
    obtain ⟨k, val, hval, hk⟩ := argOf_split (h t ht harg)
    rw [hk]
    exact ⟨val, hval, by rwa [hk] at hkey⟩

/-! ## The four types -/

section

variable {message : Bytes} {t : Token} {rest : List Token}

/-- What is known of the tokens of a text without NUL. -/
structure Lexed (tokens : List Token) : Prop where
  ne_nil : ∀ t ∈ tokens, t.value ≠ []
  no_nul : ∀ t ∈ tokens, '\x00' ∉ t.value
  arg : ∀ t ∈ tokens, t.type = .arg → '=' ∈ t.value
  handle : ∀ t ∈ tokens, t.type = .handle → t.value.head? = some '~'

theorem lexed_tokenize (h : '\x00' ∉ message) : Lexed (tokenize message) where
  ne_nil _ ht := value_ne_nil ht
  no_nul _ ht := not_mem_of_tokenize rfl rfl h ht
  arg _ ht := eq_mem_of_arg ht
  handle _ ht := tilde_front_of_handle ht

/-- The last handle is one of the tokens. -/
theorem lastHandle_mem {h : Token} (hlast : lastHandle rest = some h) :
    h ∈ rest ∧ h.type = .handle := by
  have hmem := List.mem_of_getLast? hlast
  rw [List.mem_filter] at hmem
  exact ⟨hmem.1, by simpa using hmem.2⟩

/-- Without NUL the stored handle is the written one. -/
theorem handleOf_eq_responseHandle (hlexed : Lexed rest) {handle : Bytes} :
    handleOf handle rest = responseHandle handle rest := by
  rw [handleOf_eq, responseHandle]
  cases hlast : lastHandle rest with
  | none => rfl
  | some h =>
      have hno : '\x00' ∉ h.value.drop 1 := fun hmem =>
        hlexed.no_nul h (lastHandle_mem hlast).1 (List.mem_of_mem_drop hmem)
      exact cstr_eq_self hno

theorem Lexed.tail (h : Lexed (t :: rest)) : Lexed rest where
  ne_nil u hu := h.ne_nil u (List.mem_cons_of_mem t hu)
  no_nul u hu := h.no_nul u (List.mem_cons_of_mem t hu)
  arg u hu := h.arg u (List.mem_cons_of_mem t hu)
  handle u hu := h.handle u (List.mem_cons_of_mem t hu)

theorem build_type (t : Token) (rest : List Token) :
    (build {} {} (t :: rest)).1.type = (buildFirst {} {} t).1.type :=
  buildLoop_type (Nat.le_refl 1) _ _ rest

theorem request_iff (h : Lexed (t :: rest)) :
    ((build {} {} (t :: rest)).1.type = .request ∧ ValidRequest (build {} {} (t :: rest)).2) ↔
      RequestGrammar t rest := by
  have hstored : responseHandle [] rest ≠ [] ↔
      ∃ h, lastHandle rest = some h ∧ 1 < h.value.length := by
    rw [responseHandle]
    cases lastHandle rest with
    | none => simp
    | some h =>
        rw [← List.length_pos_iff, List.length_drop, Nat.sub_pos_iff_lt]
        simp
  have hcstr : cstr t.value = t.value := cstr_eq_self (h.no_nul t List.mem_cons_self)
  constructor
  · rintro ⟨htype, hvalid⟩
    rw [build_type] at htype
    obtain ⟨hhandle, hfirst⟩ := buildFirst_request htype
    have hbuild := build_eq (p := {}) (m := {}) rest (by rw [htype]; simp)
    rw [hbuild, hfirst] at hvalid
    have heq : '=' ∉ t.value := by simpa [hcstr, ParsedMessage.addTokens] using hvalid.no_arg
    have hnone : t.type = .none := by
      cases ht : t.type with
      | none => rfl
      | arg => exact absurd (h.arg t List.mem_cons_self ht) heq
      | handle => exact absurd ht hhandle
    have hhead := hvalid.handle
    rw [ParsedMessage.addTokens, handleOf_eq_responseHandle h.tail] at hhead
    refine ⟨hhandle, fun hw => ?_, fun hw => ?_, heq, hstored.mp hhead⟩
    · simp [buildFirst, hnone, hw] at htype
    · simp [buildFirst, hnone, hw, show publishWord ≠ witnessWord by decide] at htype
  · intro hg
    have hnone : t.type = .none := by
      cases ht : t.type with
      | none => rfl
      | arg => exact absurd (h.arg t List.mem_cons_self ht) hg.no_eq
      | handle => exact absurd ht hg.not_handle
    have hfirst : buildFirst {} {} t = ({ type := .request }, { capability := t.value }) := by
      simp [buildFirst, hnone, hg.not_witness, hg.not_publish, hcstr]
    have hbuild := build_eq (p := {}) (m := {}) (t := t) rest (by rw [hfirst]; simp)
    rw [hbuild, hfirst]
    refine ⟨rfl, h.ne_nil t List.mem_cons_self, hg.no_eq, ?_⟩
    rw [ParsedMessage.addTokens, handleOf_eq_responseHandle h.tail]
    exact hstored.mpr hg.handle

theorem witness_iff (h : Lexed (t :: rest)) :
    ((build {} {} (t :: rest)).1.type = .witness ∧
      (build {} {} (t :: rest)).1.props.hasArgBody = true) ↔ WitnessGrammar t rest := by
  have hfirst : buildFirst {} {} ⟨witnessWord, .none⟩ =
      ({ type := .witness }, { capability := witnessWord }) := rfl
  have hprops : (build {} {} (⟨witnessWord, .none⟩ :: rest)).1.props = propsOf {} rest := by
    rw [build_eq rest (by rw [hfirst]; simp), hfirst]
  have hbody : (propsOf {} rest).hasArgBody = true ↔ HasArg bodyWord rest := by
    rw [arg_mark_iff note_hasArgBody rfl, hasArg_iff (by decide) h.tail.arg]
  constructor
  · rintro ⟨htype, hargs⟩
    have hword : t = ⟨witnessWord, .none⟩ := by
      rw [build_type] at htype
      obtain ⟨value, type⟩ := t
      unfold buildFirst at htype
      cases type with
      | arg => simp at htype
      | handle =>
          simp only at htype
          split at htype <;> simp at htype
      | none =>
          simp only at htype
          split at htype
          · rename_i hvalue
            rw [hvalue]
          · split at htype <;> simp at htype
    subst hword
    exact ⟨rfl, hbody.mp (hprops ▸ hargs)⟩
  · rintro ⟨rfl, hargs⟩
    exact ⟨build_type _ _, by rw [hprops]; exact hbody.mpr hargs⟩

theorem publish_iff (h : Lexed (t :: rest)) :
    ((build {} {} (t :: rest)).1.type = .publish ∧ ValidPublish (build {} {} (t :: rest)).2) ↔
      PublishGrammar t rest := by
  have htopic : ∀ topic more, rest = topic :: more →
      ((build {} {} (⟨publishWord, .none⟩ :: rest)).2.capability = topic.value ∧
        topic.value ≠ []) := by
    rintro topic more rfl
    rw [build_publish]
    exact ⟨cstr_eq_self (h.tail.no_nul topic List.mem_cons_self),
      h.tail.ne_nil topic List.mem_cons_self⟩
  constructor
  · rintro ⟨htype, hvalid⟩
    rw [build_type] at htype
    obtain rfl := buildFirst_publish htype
    refine ⟨rfl, ?_⟩
    cases rest with
    | nil => exact absurd rfl hvalid.topic
    | cons topic more =>
        obtain ⟨hcap, _⟩ := htopic topic more rfl
        exact ⟨topic, more, rfl, hcap ▸ hvalid.no_arg, hcap ▸ hvalid.no_handle⟩
  · rintro ⟨rfl, topic, more, rfl, heq, hfront⟩
    obtain ⟨hcap, hne⟩ := htopic topic more rfl
    exact ⟨build_type _ _, by rwa [hcap], by rwa [hcap], by rwa [hcap]⟩

theorem response_iff (h : Lexed (t :: rest)) :
    ((build {} {} (t :: rest)).1.type = .response ∧
      ValidResponse (build {} {} (t :: rest)).1.props (build {} {} (t :: rest)).2) ↔
      ResponseGrammar t rest := by
  have hflag : ∀ {mark : Props → Bool} {w : Bytes}, (∀ props t, mark (props.note t) =
      (mark props || decide (t.type = .none ∧ t.value = w))) → mark {} = false →
      (mark (propsOf {} rest) = true ↔ HasFlag w rest) := fun hnote hmark =>
    flag_mark_iff hnote hmark
  have hok := hflag note_hasFlagOk rfl
  have herror := hflag note_hasFlagError rfl
  have hcode : (propsOf {} rest).hasArgCode = true ↔ HasArg codeWord rest := by
    rw [arg_mark_iff note_hasArgCode rfl, hasArg_iff (by decide) h.tail.arg]
  have hwhat : (propsOf {} rest).hasArgWhat = true ↔ HasArg whatWord rest := by
    rw [arg_mark_iff note_hasArgWhat rfl, hasArg_iff (by decide) h.tail.arg]
  -- what is built when the first token has a colon
  have hbuilt : ∀ handle command, t.type = .handle → t.value = '~' :: handle ++ ':' :: command →
      ':' ∉ handle → build {} {} (t :: rest) =
        ({ type := .response, props := propsOf {} rest },
          ({ handle := handle, capability := command } : ParsedMessage).addTokens rest) := by
    intro handle command htype hvalue hcolon
    have hnul := h.no_nul t List.mem_cons_self
    rw [hvalue] at hnul
    simp only [List.cons_append, List.mem_cons, List.mem_append, not_or] at hnul
    have hfirst : buildFirst {} {} t =
        ({ type := .response }, { handle := handle, capability := command }) := by
      simp [buildFirst, htype, hvalue, splitFirst_append command hcolon, cstr_eq_self hnul.2.1,
        cstr_eq_self hnul.2.2.2]
    rw [build_eq rest (by rw [hfirst]; simp), hfirst]
  constructor
  · rintro ⟨htype, hvalid⟩
    rw [build_type] at htype
    obtain ⟨hhandle, hnone, hsome⟩ := buildFirst_handle htype
    have hbuild := build_eq (p := {}) (m := {}) rest (by rw [htype]; simp)
    cases hsplit : splitFirst ':' (t.value.drop 1) with
    | none =>
        have hcap : (build {} {} (t :: rest)).2.capability = [] := by
          rw [hbuild]
          exact hnone hsplit
        exact absurd hcap hvalid.command
    | some ab =>
        obtain ⟨hdrop, hcolon⟩ := splitFirst_eq_some hsplit
        have hvalue : t.value = '~' :: ab.1 ++ ':' :: ab.2 := by
          have htilde := h.handle t List.mem_cons_self hhandle
          obtain ⟨l, hl⟩ := List.head?_eq_some_iff.mp htilde
          rw [hl] at hdrop ⊢
          exact congrArg ('~' :: ·) hdrop
        rw [hbuilt ab.1 ab.2 hhandle hvalue hcolon] at hvalid
        have hhead := hvalid.handle
        rw [ParsedMessage.addTokens, handleOf_eq_responseHandle h.tail] at hhead
        refine ⟨hhandle, ⟨ab.1, ab.2, hvalue, hcolon, hvalid.command, hhead⟩, ?_, ?_, ?_⟩
        · exact hvalid.ok_or_error.imp hok.mp herror.mp
        · exact fun hboth => hvalid.not_both ⟨hok.mpr hboth.1, herror.mpr hboth.2⟩
        · intro herr
          have herr := herror.mpr herr
          exact ⟨hcode.mp (hvalid.code herr), hwhat.mp (hvalid.what herr)⟩
  · intro hg
    obtain ⟨handle, command, hvalue, hcolon, hcommand, hhandle⟩ := hg.head
    rw [hbuilt handle command hg.is_handle hvalue hcolon]
    refine ⟨rfl, hcommand, ?_, ?_, ?_, ?_, ?_⟩
    · rwa [ParsedMessage.addTokens, handleOf_eq_responseHandle h.tail]
    · exact hg.ok_or_error.imp hok.mpr herror.mpr
    · exact fun hboth => hg.not_both ⟨hok.mp hboth.1, herror.mp hboth.2⟩
    · exact fun herr => hcode.mpr (hg.fields (herror.mp herr)).1
    · exact fun herr => hwhat.mpr (hg.fields (herror.mp herr)).2

end

/-! ## The grammar -/

/-- **A text is accepted as a message of a type exactly when its tokens are one by the
grammar**, and it is accepted at all when they are one of some type. -/
theorem accepts_iff_grammar {message : Bytes} (h : '\x00' ∉ message) :
    (∀ type, Accepts message type ↔ Grammar type (tokenize message)) ∧
      (IsAccepted message ↔ ∃ type, Grammar type (tokenize message)) := by
  have hlexed := lexed_tokenize h
  have htypes : ∀ type, Accepts message type ↔ Grammar type (tokenize message) := by
    intro type
    rw [accepts_iff, parseNew_eq]
    cases htokens : tokenize message with
    | nil =>
        refine iff_of_false (fun haccepts => ?_) id
        obtain ⟨rfl, hvalid⟩ := haccepts
        exact hvalid
    | cons t rest =>
        rw [htokens] at hlexed
        cases type with
        | unknown => exact iff_of_false (fun haccepts => haccepts.2) id
        | request => exact request_iff hlexed
        | response => exact response_iff hlexed
        | witness => exact witness_iff hlexed
        | publish => exact publish_iff hlexed
  refine ⟨htypes, ?_⟩
  constructor
  · intro haccepted
    exact ⟨_, (htypes _).mp ⟨haccepted, rfl⟩⟩
  · rintro ⟨type, hg⟩
    exact ((htypes type).mpr hg).1

theorem accepts_response_by_grammar : Accepts "~h:c ok".toList .response := by
  apply ((accepts_iff_grammar (by decide)).1 .response).mpr
  have htokens : tokenize "~h:c ok".toList =
      [⟨['~', 'h', ':', 'c'], .handle⟩, ⟨okWord, .none⟩] := by decide
  rw [htokens]
  exact
    { is_handle := rfl
      head := ⟨['h'], ['c'], rfl, by decide, by decide, by decide⟩
      ok_or_error := Or.inl List.mem_cons_self
      not_both := fun hboth => absurd hboth.2 (by unfold HasFlag; decide)
      fields := fun herr => absurd herr (by unfold HasFlag; decide) }

end SporeClient.Parser
