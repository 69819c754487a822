/-
  Wire/Accepting.lean --- which messages `validate` accepts from their serialized text.

  WHAT THIS FILE IS FOR.  `parse` takes a text as it is, so the newline at the end of what
  `serialize` writes belongs to the last token.  For a message that can be written as it is
  this decides little: a word at the end of the line is no longer the word `ok` or `error`,
  everything else is judged as without the newline.  For each kind of message one theorem
  says when its own text is accepted.
-/
import SporeClient.Wire.OwnFields

set_option autoImplicit false

namespace SporeClient.Wire

open SporeClient.Foundation
open SporeClient.Parser

/-! ## Tokens with a newline at the end -/

theorem withNewline_cons {t : Token} {rest : List Token} (h : rest ≠ []) :
    withNewline (t :: rest) = t :: withNewline rest := by
  cases rest with
  | nil => exact absurd rfl h
  | cons u rest => rfl

/-- A token of such a list is the last one, or was there before. -/
theorem mem_withNewline {t : Token} {l : List Token} :
    t ∈ withNewline l ↔
      t ∈ l.dropLast ∨ ∃ u, l.getLast? = some u ∧ t = ⟨u.value ++ ['\n'], u.type⟩ := by
  rcases List.eq_nil_or_concat l with rfl | ⟨front, u, rfl⟩
  · simp [withNewline]
  · rw [List.concat_eq_append, withNewline_concat]
    simp

/-- A word at the end of the line is no longer this word. -/
theorem flagToken_mem_withNewline {w : Bytes} (hw : '\n' ∉ w) {l : List Token} :
    flagToken w ∈ withNewline l ↔ flagToken w ∈ l.dropLast := by
  rw [mem_withNewline, or_iff_left]
  rintro ⟨u, _, heq⟩
  have hvalue : w = u.value ++ ['\n'] := congrArg Token.value heq
  exact hw (by simp [hvalue])

/-- The newline does not make a token a handle. -/
theorem not_handle_withNewline {l : List Token} (h : ∀ t ∈ l, t.type ≠ .handle) :
    ∀ t ∈ withNewline l, t.type ≠ .handle := by
  intro t ht
  rcases mem_withNewline.mp ht with ht | ⟨u, hu, rfl⟩
  · exact h t (List.mem_of_mem_dropLast ht)
  · exact h u (List.mem_of_getLast? hu)

/-- The newline does not change the key of an argument. -/
theorem exists_key_withNewline {key : Bytes} {l : List Token}
    (h : ∀ t ∈ l, t.type = .arg → '=' ∈ t.value) :
    (∃ t ∈ withNewline l, t.type = .arg ∧ (argOf t.value).1 = key) ↔
      ∃ t ∈ l, t.type = .arg ∧ (argOf t.value).1 = key := by
  rcases List.eq_nil_or_concat l with rfl | ⟨front, u, rfl⟩
  · simp [withNewline]
  · rw [List.concat_eq_append] at h ⊢
    rw [withNewline_concat]
    have hlast : (u.type = .arg ∧ (argOf (u.value ++ ['\n'])).1 = key) ↔
        (u.type = .arg ∧ (argOf u.value).1 = key) := by
      apply and_congr_right
      intro hu
      obtain ⟨k, v, hvalue, hk⟩ := List.eq_append_cons_of_mem (h u (by simp) hu)
      simp only [hvalue, List.append_assoc, List.cons_append, argOf_append hk]
    simp only [List.mem_append, List.mem_singleton, or_and_right, exists_or, exists_eq_left, hlast]

/-! ## Parsing with the newline -/

/-- A row with a newline behind it, when it is no publish and has more than one token. -/
theorem parse_row_newline {text : Bytes} {t : Token} {rest : List Token}
    (hrow : IsRow text (t :: rest)) (hrest : rest ≠ [])
    (hfirst : (buildFirst {} {} t).1.type ≠ .publish) :
    (parseNew (text ++ ['\n'])).1.type = (buildFirst {} {} t).1.type ∧
      (parseNew (text ++ ['\n'])).1.props =
        propsOf (buildFirst {} {} t).1.props (withNewline rest) ∧
      (parseNew (text ++ ['\n'])).2 = (buildFirst {} {} t).2.addTokens (withNewline rest) := by
  rw [parseNew_eq, hrow.tokenize_newline, withNewline_cons hrest, build_eq _ hfirst]
  exact ⟨rfl, rfl, rfl⟩

/-! ## Tokens of arguments and flags -/

/-- The tokens of arguments and flags are no handles, and an argument has its `=`. -/
def IsPart (t : Token) : Prop := t.type ≠ .handle ∧ (t.type = .arg → '=' ∈ t.value)

theorem isPart_flagToken (f : Bytes) : IsPart (flagToken f) :=
  ⟨by simp [flagToken], by simp [flagToken]⟩

theorem isPart_argToken (p : Bytes × Bytes) : IsPart (argToken p) :=
  ⟨by simp [argToken], by simp [argToken]⟩

theorem isPart_fieldTokens {k v : Bytes} {t : Token} (ht : t ∈ fieldTokens k v) : IsPart t := by
  unfold fieldTokens at ht
  split at ht
  · rw [List.mem_singleton.mp ht]
    exact ⟨by simp [fieldToken], by simp [fieldToken]⟩
  · simp at ht

/-- The arguments of a message have these keys. -/
theorem exists_key_args {l : List (Bytes × Bytes)} (hkeys : ∀ p ∈ l, '=' ∉ p.1) {key : Bytes} :
    (∃ t ∈ l.map argToken, t.type = .arg ∧ (argOf t.value).1 = key) ↔ ∃ p ∈ l, p.1 = key := by
  have hkey : ∀ p ∈ l, (argOf (argToken p).value).1 = p.1 := fun p hp => by
    rw [argToken, argOf_append (hkeys p hp)]
  constructor
  · rintro ⟨t, ht, _, rfl⟩
    obtain ⟨p, hp, rfl⟩ := List.mem_map.mp ht
    exact ⟨p, hp, (hkey p hp).symm⟩
  · rintro ⟨p, hp, rfl⟩
    exact ⟨argToken p, List.mem_map_of_mem hp, rfl, hkey p hp⟩

/-- No flag has a key. -/
theorem not_exists_key_flags (l : List Bytes) (key : Bytes) :
    ¬∃ t ∈ l.map flagToken, t.type = .arg ∧ (argOf t.value).1 = key := by
  rintro ⟨t, ht, harg, _⟩
  obtain ⟨f, _, rfl⟩ := List.mem_map.mp ht
  simp [flagToken] at harg

/-- A field has its key when it is not left out. -/
theorem exists_key_field {k v key : Bytes} (hk : '=' ∉ k) :
    (∃ t ∈ fieldTokens k v, t.type = .arg ∧ (argOf t.value).1 = key) ↔ v ≠ [] ∧ k = key := by
  unfold fieldTokens
  by_cases hv : v = []
  · simp [hv]
  · simp [hv, fieldToken, argOf_append hk]

/-! ## Requests -/

/-- The tokens behind the command. -/
def Request.tail (r : Request) : List Token :=
  handleToken r.handle :: (r.args.entries.map argToken ++ r.flags.toList.map flagToken)

theorem handleOf_withNewline {h : Bytes} (hnul : '\x00' ∉ h) {rest : List Token}
    (hrest : ∀ t ∈ rest, t.type ≠ .handle) :
    handleOf [] (withNewline (handleToken h :: rest)) = if rest = [] then h ++ ['\n'] else h := by
  split
  · rename_i hnil
    rw [hnil]
    have hno : '\x00' ∉ h ++ ['\n'] := by simpa using hnul
    simp [withNewline, handleOf, handleToken, cstr_eq_self hno]
  · rename_i hne
    have hcons : handleOf [] (handleToken h :: withNewline rest) =
        handleOf (cstr h) (withNewline rest) := rfl
    rw [withNewline_cons hne, hcons, handleOf_of_not_handle (not_handle_withNewline hrest),
      cstr_eq_self hnul]

/-- **The text of a request is accepted** when its command has no `=` in brackets. -/
theorem Request.accepts_serialize {r : Request} (h : r.Sendable) :
    Accepts r.serialize .request ↔ '=' ∉ r.command := by
  have hfirst : buildFirst {} {} (flagToken r.command) =
      ({ type := .request }, { capability := r.command }) := by
    simp [buildFirst, flagToken, h.not_witness, h.not_publish, cstr_eq_self h.command.no_nul]
  obtain ⟨htype, _, hmsg⟩ := parse_row_newline (Request.isRow_text h) (by simp)
    (by rw [hfirst]; simp)
  have hparts : ∀ t ∈ r.args.entries.map argToken ++ r.flags.toList.map flagToken,
      t.type ≠ .handle := by
    intro t ht
    rw [List.mem_append, List.mem_map, List.mem_map] at ht
    rcases ht with ⟨p, _, rfl⟩ | ⟨f, _, rfl⟩
    · exact (isPart_argToken p).1
    · exact (isPart_flagToken f).1
  have hhandle := handleOf_withNewline h.handle.no_nul hparts
  rw [r.serialize_eq, accepts_iff, htype, hmsg, hfirst]
  constructor
  · rintro ⟨_, hvalid⟩
    exact ValidRequest.no_arg hvalid
  · intro heq
    refine ⟨rfl, h.command.ne_nil, heq, ?_⟩
    change handleOf [] _ ≠ []
    rw [hhandle]
    split
    · simp
    · exact h.handle.ne_nil

/-! ## Publishes -/

/-- **The text of a publish is accepted** when its topic has no `=` in brackets. -/
theorem Publish.accepts_serialize {p : Publish} (h : p.Sendable) :
    Accepts p.serialize .publish ↔ '=' ∉ p.topic := by
  have hbuild : ∀ topic rest, build {} {} (flagToken publishWord :: topic :: rest) = _ :=
    build_publish {} {}
  have htopic : ∀ v : Bytes, (v = p.topic ∨ v = p.topic ++ ['\n']) → ∀ rest,
      (Valid .publish (build {} {} (flagToken publishWord :: flagToken v :: rest)).1.props
        (build {} {} (flagToken publishWord :: flagToken v :: rest)).2 ↔ '=' ∉ p.topic) := by
    intro v hv rest
    have hnul : '\x00' ∉ v := by rcases hv with rfl | rfl <;> simpa using h.topic.no_nul
    have hcapability :
        (build {} {} (flagToken publishWord :: flagToken v :: rest)).2.capability = v := by
      rw [hbuild]
      exact cstr_eq_self hnul
    have hfront : v.head? ≠ some '~' := by
      obtain ⟨c, rest', hcons⟩ := List.exists_cons_of_ne_nil h.topic.ne_nil
      have hno := h.topic.front
      rw [hcons] at hno
      rcases hv with rfl | rfl <;> rw [hcons] <;> simpa using hno
    have hne : v ≠ [] := by
      rcases hv with rfl | rfl
      · exact h.topic.ne_nil
      · simp
    have heq : '=' ∈ v ↔ '=' ∈ p.topic := by rcases hv with rfl | rfl <;> simp
    constructor
    · intro hvalid
      have hno := ValidPublish.no_arg hvalid
      rwa [hcapability, heq] at hno
    · intro hno
      exact ⟨by rwa [hcapability], by rwa [hcapability, heq], by rwa [hcapability]⟩
  rw [p.serialize_eq, accepts_iff, parseNew_eq, (Publish.isRow_text h).tokenize_newline]
  generalize p.args.entries.map argToken ++ p.flags.toList.map flagToken = rest at *
  have htype : ∀ topic rest,
      (build {} {} (flagToken publishWord :: topic :: rest)).1.type = .publish :=
    fun topic rest => by rw [hbuild]
  rw [withNewline_cons (by simp)]
  cases rest with
  | nil => exact (and_iff_right (htype _ _)).trans (htopic _ (Or.inr rfl) [])
  | cons u rest => exact (and_iff_right (htype _ _)).trans (htopic _ (Or.inl rfl) _)


/-! ## Responses -/

/-- What is parsed from a row that begins with the head of a response. -/
theorem parse_response_newline {text handle command : Bytes} {tail : List Token}
    (hrow : IsRow text (handleToken (handle ++ ':' :: command) :: tail)) (htail : tail ≠ [])
    (hcolon : ':' ∉ handle) (hhandle : '\x00' ∉ handle) (hcommand : '\x00' ∉ command)
    (hparts : ∀ t ∈ tail, IsPart t) :
    (parseNew (text ++ ['\n'])).1.type = .response ∧
      (parseNew (text ++ ['\n'])).1.props = propsOf {} (withNewline tail) ∧
      (parseNew (text ++ ['\n'])).2.capability = command ∧
      (parseNew (text ++ ['\n'])).2.handle = handle := by
  have hfirst := buildFirst_response hcolon hhandle hcommand {} {}
  obtain ⟨htype, hprops, hmsg⟩ := parse_row_newline hrow htail (by rw [hfirst]; simp)
  rw [hfirst] at htype hprops hmsg
  refine ⟨htype, hprops, by rw [hmsg]; rfl, ?_⟩
  rw [hmsg]
  exact handleOf_of_not_handle (not_handle_withNewline fun t ht => (hparts t ht).1) handle

/-- The tokens behind the head of an ok response. -/
def Response.tail (r : Response) : List Token :=
  (okWord :: otherFlags r.flags).map flagToken ++ r.args.entries.map argToken

/-- The flags of an ok response that do not stand at the end of its text. -/
def Response.innerFlags (r : Response) : List Bytes :=
  if r.args.entries = [] then (okWord :: otherFlags r.flags).dropLast
  else okWord :: otherFlags r.flags

theorem flagToken_mem_map {w : Bytes} {l : List Bytes} : flagToken w ∈ l.map flagToken ↔ w ∈ l := by
  constructor
  · intro h
    obtain ⟨f, hf, heq⟩ := List.mem_map.mp h
    obtain rfl : f = w := congrArg Token.value heq
    exact hf
  · exact List.mem_map_of_mem

theorem flagToken_not_mem_args {w : Bytes} (l : List (Bytes × Bytes)) :
    flagToken w ∉ l.map argToken := by
  rw [List.mem_map]
  rintro ⟨p, _, heq⟩
  exact absurd (congrArg Token.type heq) (by simp [flagToken, argToken])

theorem Response.mem_innerFlags {r : Response} {w : Bytes} :
    flagToken w ∈ r.tail.dropLast ↔ w ∈ r.innerFlags := by
  unfold tail innerFlags
  split
  · rename_i hargs
    rw [hargs, List.map_nil, List.append_nil, ← List.map_dropLast, flagToken_mem_map]
  · rename_i hargs
    have hne : r.args.entries.map argToken ≠ [] := by simpa using hargs
    rw [List.dropLast_append_of_ne_nil hne, List.mem_append, flagToken_mem_map, ← List.map_dropLast,
      or_iff_left (flagToken_not_mem_args _)]

/-- **The text of an ok response is accepted as such** when it has a command, the word `ok`
does not stand at its end, and no flag `error` stands elsewhere. -/
theorem Response.accepts_serialize {r : Response} (h : r.Sendable) :
    (Accepts r.serialize .response ∧ (parseNew r.serialize).1.props.hasFlagError = false) ↔
      r.command ≠ [] ∧ okWord ∈ r.innerFlags ∧ errorWord ∉ r.innerFlags := by
  have hparts : ∀ t ∈ r.tail, IsPart t := by
    intro t ht
    rw [tail, List.mem_append, List.mem_map, List.mem_map] at ht
    rcases ht with ⟨f, _, rfl⟩ | ⟨p, _, rfl⟩
    · exact isPart_flagToken f
    · exact isPart_argToken p
  obtain ⟨htype, hprops, hcommand, hhandle⟩ := parse_response_newline (Response.isRow_text h)
    (by simp) h.no_colon h.handle_no_nul h.command_no_nul hparts
  rw [← tail] at hprops
  have hok : (parseNew r.serialize).1.props.hasFlagOk = true ↔ okWord ∈ r.innerFlags := by
    rw [r.serialize_eq, hprops, flag_mark_iff note_hasFlagOk rfl]
    exact (flagToken_mem_withNewline (by decide)).trans mem_innerFlags
  have herror : (parseNew r.serialize).1.props.hasFlagError = true ↔ errorWord ∈ r.innerFlags := by
    rw [r.serialize_eq, hprops, flag_mark_iff note_hasFlagError rfl]
    exact (flagToken_mem_withNewline (by decide)).trans mem_innerFlags
  rw [← r.serialize_eq] at htype hcommand hhandle
  rw [accepts_iff, ← herror, ← hok, Bool.not_eq_true]
  constructor
  · rintro ⟨⟨_, hvalid⟩, hno⟩
    have hvalid : ValidResponse _ _ := hvalid
    exact ⟨hcommand ▸ hvalid.command, hvalid.ok_or_error.resolve_right (by simp [hno]), hno⟩
  · rintro ⟨hne, hyes, hno⟩
    refine ⟨⟨htype, ?_⟩, hno⟩
    exact ⟨by rwa [hcommand], by rw [hhandle]; exact h.handle_ne_nil, Or.inl hyes, by simp [hno],
      by simp [hno], by simp [hno]⟩

theorem flagToken_not_mem_fieldTokens {w : Bytes} (k v : Bytes) :
    flagToken w ∉ fieldTokens k v := by
  intro hmem
  unfold fieldTokens at hmem
  split at hmem
  · simp [fieldToken, flagToken] at hmem
  · simp at hmem

theorem ResponseError.isPart_tail (e : ResponseError) : ∀ t ∈ e.tail, IsPart t := by
  intro t ht
  simp only [tail, List.mem_cons, List.mem_append, List.mem_map] at ht
  rcases ht with rfl | ht | ht | ⟨p, _, rfl⟩ | ⟨f, _, rfl⟩
  · exact isPart_flagToken errorWord
  · exact isPart_fieldTokens ht
  · exact isPart_fieldTokens ht
  · exact isPart_argToken p
  · exact isPart_flagToken f

/-- The flags of an error response that do not stand at the end of its text. -/
theorem ResponseError.flagToken_mem_front {e : ResponseError} {w : Bytes} :
    flagToken w ∈ e.tail.dropLast ↔ w = errorWord ∨ w ∈ e.flags := by
  have hconcat : e.tail = (flagToken errorWord :: (fieldTokens codeWord e.code ++
      (fieldTokens whatWord e.what ++ (e.args.entries.map argToken ++
        e.flags.toList.map flagToken)))) ++ [flagToken nodeErrorWord] := by simp [tail]
  have heq : flagToken w = flagToken errorWord ↔ w = errorWord := by simp [flagToken]
  rw [hconcat, List.dropLast_concat, List.mem_cons, List.mem_append, List.mem_append,
    List.mem_append, flagToken_mem_map, SortedSet.mem_toList, heq,
    or_iff_right (flagToken_not_mem_fieldTokens _ _),
    or_iff_right (flagToken_not_mem_fieldTokens _ _), or_iff_right (flagToken_not_mem_args _)]

/-- The keys of the arguments of an error response. -/
theorem ResponseError.exists_key_tail {e : ResponseError} (h : e.Sendable) (key : Bytes) :
    (∃ t ∈ e.tail, t.type = .arg ∧ (argOf t.value).1 = key) ↔
      (e.code ≠ [] ∧ codeWord = key) ∨ (e.what ≠ [] ∧ whatWord = key) ∨
        ∃ p ∈ e.args.entries, p.1 = key := by
  have herror :
      ¬((flagToken errorWord).type = .arg ∧ (argOf (flagToken errorWord).value).1 = key) := by
    simp [flagToken]
  simp only [tail, List.mem_cons, List.mem_append, or_and_right, exists_or, exists_eq_left,
    exists_key_field isWord_codeWord.isKey.no_eq, exists_key_field isWord_whatWord.isKey.no_eq,
    exists_key_args (fun p hp => (h.message.args p hp).no_eq), not_exists_key_flags, herror,
    false_or, or_false]

/-- **The text of an error response is accepted as such** when it has a command, a code and
a text, and no flag `ok`. -/
theorem ResponseError.accepts_serialize {e : ResponseError} (h : e.Sendable) :
    (Accepts e.serialize .response ∧ (parseNew e.serialize).1.props.hasFlagError = true) ↔
      e.command ≠ [] ∧ e.code ≠ [] ∧ e.what ≠ [] ∧ okWord ∉ e.flags := by
  have hparts := e.isPart_tail
  obtain ⟨htype, hprops, hcommand, hhandle⟩ := parse_response_newline (ResponseError.isRow_text h)
    (by simp [tail]) h.no_colon h.handle_no_nul h.command_no_nul hparts
  rw [← e.serialize_eq] at htype hprops hcommand hhandle
  have hok : (parseNew e.serialize).1.props.hasFlagOk = true ↔ okWord ∈ e.flags := by
    rw [hprops, flag_mark_iff note_hasFlagOk rfl]
    exact ((flagToken_mem_withNewline (by decide)).trans flagToken_mem_front).trans
      (or_iff_right (by decide))
  have herror : (parseNew e.serialize).1.props.hasFlagError = true := by
    rw [hprops, flag_mark_iff note_hasFlagError rfl]
    exact (flagToken_mem_withNewline (by decide)).mpr (flagToken_mem_front.mpr (Or.inl rfl))
  have hno : ∀ key, key = codeWord ∨ key = whatWord → ¬∃ p ∈ e.args.entries, p.1 = key := by
    rintro key hkey ⟨p, hp, heq⟩
    rcases hkey with rfl | rfl
    · exact (h.own p hp).1 heq
    · exact (h.own p hp).2 heq
  have hne : codeWord ≠ whatWord := by decide
  have hcode : (parseNew e.serialize).1.props.hasArgCode = true ↔ e.code ≠ [] := by
    rw [hprops, arg_mark_iff note_hasArgCode rfl,
      exists_key_withNewline fun t ht => (hparts t ht).2, exists_key_tail h, or_iff_left]
    · simp
    · rintro (⟨_, heq⟩ | hex)
      · exact hne heq.symm
      · exact hno _ (Or.inl rfl) hex
  have hwhat : (parseNew e.serialize).1.props.hasArgWhat = true ↔ e.what ≠ [] := by
    rw [hprops, arg_mark_iff note_hasArgWhat rfl,
      exists_key_withNewline fun t ht => (hparts t ht).2, exists_key_tail h,
      or_iff_right fun heq => hne heq.2, or_iff_left (hno _ (Or.inr rfl))]
    simp
  rw [accepts_iff, ← hok, ← hcode, ← hwhat]
  constructor
  · rintro ⟨⟨_, hvalid⟩, _⟩
    have hvalid : ValidResponse _ _ := hvalid
    exact ⟨hcommand ▸ hvalid.command, hvalid.code herror, hvalid.what herror,
      fun hyes => hvalid.not_both ⟨hyes, herror⟩⟩
  · rintro ⟨hcmd, hc, hw, hnok⟩
    refine ⟨⟨htype, ?_⟩, herror⟩
    exact ⟨by rwa [hcommand], by rw [hhandle]; exact h.handle_ne_nil, Or.inr herror,
      fun hboth => hnok hboth.1, fun _ => hc, fun _ => hw⟩

/-- Without the newline its text is accepted as well. -/
theorem ResponseError.accepts_text {e : ResponseError} (h : e.Sendable) (hcommand : e.command ≠ [])
    (hcode : e.code ≠ []) (hwhat : e.what ≠ []) (hok : okWord ∉ e.flags) :
    Accepts e.text .response := by
  obtain ⟨htype, hmsg⟩ := ResponseError.parse_text h
  have hcapability : (parseNew e.text).2.capability = e.command := by rw [hmsg]
  obtain ⟨t, rest, _, _, htokens, _, _, _, hprops, _⟩ :=
    parse_response htype (by rw [hcapability]; exact hcommand)
  rw [(ResponseError.isRow_text h).tokenize] at htokens
  obtain rfl := (List.cons.inj htokens).2
  have hflags : ∀ w, flagToken w ∈ e.tail → w = errorWord ∨ w ∈ e.flags ∨ w = nodeErrorWord := by
    intro w hw
    rw [tail, List.mem_cons, List.mem_append, List.mem_append, List.mem_append, flagToken_mem_map,
      List.mem_append, SortedSet.mem_toList, List.mem_singleton,
      or_iff_right (flagToken_not_mem_fieldTokens _ _),
      or_iff_right (flagToken_not_mem_fieldTokens _ _),
      or_iff_right (flagToken_not_mem_args _)] at hw
    exact hw.imp_left fun heq => congrArg Token.value heq
  have hno : (parseNew e.text).1.props.hasFlagOk ≠ true := by
    rw [hprops, Ne, flag_mark_iff note_hasFlagOk rfl]
    intro hmem
    rcases hflags okWord hmem with heq | hin | heq
    · exact absurd heq (by decide)
    · exact hok hin
    · exact absurd heq (by decide)
  have herror : (parseNew e.text).1.props.hasFlagError = true := by
    rw [hprops, flag_mark_iff note_hasFlagError rfl]
    exact List.mem_cons_self
  have hfield : ∀ {k v : Bytes}, '=' ∉ k → v ≠ [] → (∀ t ∈ fieldTokens k v, t ∈ e.tail) →
      ∃ t ∈ e.tail, t.type = .arg ∧ (argOf t.value).1 = k := by
    intro k v hk hv hsub
    obtain ⟨t, ht, hkey⟩ := (exists_key_field hk).mpr ⟨hv, rfl⟩
    exact ⟨t, hsub t ht, hkey⟩
  rw [accepts_iff]
  refine ⟨htype, by rwa [hcapability], by rw [hmsg]; exact h.handle_ne_nil, Or.inr herror,
    fun hboth => hno hboth.1, fun _ => ?_, fun _ => ?_⟩
  · rw [hprops, arg_mark_iff note_hasArgCode rfl]
    exact hfield isWord_codeWord.isKey.no_eq hcode fun t ht => by simp [tail, ht]
  · rw [hprops, arg_mark_iff note_hasArgWhat rfl]
    exact hfield isWord_whatWord.isKey.no_eq hwhat fun t ht => by simp [tail, ht]

/-! ## Witnesses -/

/-- Without the newline the text of a witness with a body is accepted. -/
theorem Witness.accepts_text {w : Witness} (h : w.Sendable) (hbody : w.body ≠ []) :
    Accepts w.text .witness := by
  obtain ⟨htype, _⟩ := Witness.parse_text h
  obtain ⟨rest, htokens, hprops, _⟩ := parse_witness htype
  rw [(Witness.isRow_text h).tokenize] at htokens
  obtain rfl := (List.cons.inj htokens).2
  obtain ⟨t, ht, hkey⟩ := (exists_key_field isWord_bodyWord.isKey.no_eq).mpr ⟨hbody, rfl⟩
  rw [accepts_iff]
  refine ⟨htype, ?_⟩
  change (parseNew w.text).1.props.hasArgBody = true
  rw [hprops, arg_mark_iff note_hasArgBody rfl]
  exact ⟨t, List.mem_append_left _ ht, hkey⟩

/-- **The text of a witness is accepted** when it has a body. -/
theorem Witness.accepts_serialize {w : Witness} (h : w.Sendable) :
    Accepts w.serialize .witness ↔ w.body ≠ [] := by
  have hparts : ∀ t ∈ w.tail, IsPart t := by
    intro t ht
    simp only [tail, List.mem_append, List.mem_map] at ht
    rcases ht with ht | ⟨p, _, rfl⟩ | ⟨f, _, rfl⟩
    · exact isPart_fieldTokens ht
    · exact isPart_argToken p
    · exact isPart_flagToken f
  have hfirst : buildFirst {} {} (flagToken witnessWord) =
      ({ type := .witness }, { capability := witnessWord }) := rfl
  by_cases htail : w.tail = []
  · -- the word `witness` is the last one, and with the newline it is a command
    have hbody : w.body = [] := by
      by_contra hne
      simp [tail, fieldTokens, hne] at htail
    have htokens : tokenize (w.text ++ ['\n']) = [⟨witnessWord ++ ['\n'], .none⟩] := by
      rw [(Witness.isRow_text h).tokenize_newline, htail]
      rfl
    rw [w.serialize_eq, accepts_iff, parseNew_eq, htokens]
    have htype : (build {} {} [⟨witnessWord ++ ['\n'], .none⟩]).1.type ≠ .witness := by decide
    exact iff_of_false (fun haccepts => htype haccepts.1) (fun hne => hne hbody)
  · obtain ⟨htype, hprops, _⟩ := parse_row_newline (Witness.isRow_text h) htail
      (by rw [hfirst]; simp)
    rw [hfirst] at htype hprops
    have hbody : (parseNew w.serialize).1.props.hasArgBody = true ↔ w.body ≠ [] := by
      rw [w.serialize_eq, hprops, arg_mark_iff note_hasArgBody rfl,
        exists_key_withNewline fun t ht => (hparts t ht).2]
      simp only [tail, List.mem_append, or_and_right, exists_or,
        exists_key_field isWord_bodyWord.isKey.no_eq,
        exists_key_args (fun p hp => (h.message.args p hp).no_eq), not_exists_key_flags, or_false,
        and_true]
      apply or_iff_left
      rintro ⟨p, hp, heq⟩
      exact h.own p hp heq
    rw [accepts_iff, ← hbody]
    exact and_iff_right (by rw [w.serialize_eq, htype])

end SporeClient.Wire
