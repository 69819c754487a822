/-
  Wire/ReadBack.lean --- messages that `create_from_raw` makes out of their own text again.

  WHAT THIS FILE IS FOR.  A message that comes back was read without loss: its text has no
  NUL and no carriage return before a newline, and a request without a handle was read
  from tokens without a handle.  From this follows that the text is valid without the
  newline at its end when it is valid with it (`Request.ComesBack.accepts_rawInput`).
-/
import SporeClient.Wire.Counting

set_option autoImplicit false

namespace SporeClient.Wire

open SporeClient.Foundation
open SporeClient.Parser

/-! ## Requests -/

/-- `create_from_raw` makes the request out of its own text again. -/
def Request.ComesBack (r : Request) : Prop :=
  ∃ r', Request.createFromRaw r.serialize = some r' ∧ r'.toMessage.SameFields r.toMessage

/-- The fields of a request are those of a first token and the rest. -/
structure Request.ReadFrom (r : Request) (t : Token) (rest : List Token) : Prop where
  first : ∀ p m, buildFirst p m t =
    ({ p with type := .request }, { m with capability := cstr t.value })
  not_handle : t.type ≠ .handle
  command : r.command = cstr t.value
  handle : r.handle = handleOf [] rest
  args : r.args = SortedMap.ofList (argsOf rest)
  flags : r.flags = SortedSet.ofList (flagsOf rest)

section

variable {r : Request}

/-- What is parsed from the text of a request that comes back. -/
theorem Request.ComesBack.readFrom (h : r.ComesBack) :
    ∃ t rest, tokenize (rawInput r.serialize) = t :: rest ∧ r.ReadFrom t rest := by
  obtain ⟨r', hcreate, hsame⟩ := h
  unfold createFromRaw at hcreate
  split at hcreate
  · rename_i htype
    have hparse : parseRaw r.serialize = build { raw := rawInput r.serialize } {}
        (tokenize (rawInput r.serialize)) := rfl
    rw [hparse] at htype hcreate
    obtain ⟨t, rest, htokens, hfirst, hmsg⟩ := build_of_type (p := { raw := rawInput r.serialize })
      (m := {}) (by rw [htype]; simp) (by rw [htype]; simp)
    have hrequest := buildFirst_request (hfirst.trans htype)
    rw [hrequest.2] at hmsg
    obtain rfl := Option.some.inj hcreate
    rw [hmsg, ofParsed_eq] at hsame
    exact ⟨t, rest, htokens, hrequest.2, hrequest.1, hsame.command.symm, hsame.handle.symm,
      by simpa [ParsedMessage.addTokens] using hsame.args.symm,
      by simpa [ParsedMessage.addTokens] using hsame.flags.symm⟩
  · simp at hcreate

/-- The text of a request has the bytes of its fields, and a `~` for the handle. -/
theorem Request.count_serialize (r : Request) {x : Char} (hx : isCounted x = true) :
    r.serialize.count x = r.command.count x + r.handle.count x +
      (if x = '~' ∧ r.handle ≠ [] then 1 else 0) + countFields x r.toMessage := by
  have hspace : ' ' ≠ x := by
    rintro rfl
    simp [isCounted, isGap] at hx
  have hnl : '\n' ≠ x := ((isCounted_iff.mp hx).2.2.2).symm
  rw [← count_fields hx, serialize]
  by_cases hhandle : r.handle = []
  · simp [hhandle, hnl]
  · by_cases htilde : x = '~'
    · subst htilde
      simp only [hhandle, ne_eq, not_false_eq_true, if_true, List.count_append, List.count_cons,
        List.count_nil, beq_iff_eq, hnl, if_false, and_self]
      simp
      omega
    · simp only [hhandle, ne_eq, not_false_eq_true, if_true, List.count_append, List.count_cons,
        List.count_nil, beq_iff_eq, hnl, hspace, Ne.symm htilde, htilde, if_false, false_and]
      omega

/-- **Conservation**: the bytes of the fields, and those of all handles, are in the text. -/
theorem Request.ReadFrom.count_le {t : Token} {rest : List Token} (h : r.ReadFrom t rest)
    (htokens : tokenize (rawInput r.serialize) = t :: rest) {x : Char} (hx : isCounted x = true) :
    r.command.count x + countFields x r.toMessage + countAll x (handlesIn rest) ≤
      (dropCR r.serialize).count x := by
  have hrest : ∀ u ∈ rest, u ∈ tokenize (rawInput r.serialize) := fun u hu =>
    htokens ▸ List.mem_cons_of_mem t hu
  have hfields := countFields_le (x := x) hrest h.args h.flags
  have hcommand : r.command.count x ≤ t.value.count x := by
    rw [h.command]
    exact count_cstr_le x _
  rw [← countIn_rawInput hx, htokens, countIn_cons]
  omega

/-- The handle is one of the handles that were read, or there is none. -/
theorem Request.ReadFrom.handle_count_le {t : Token} {rest : List Token} (h : r.ReadFrom t rest)
    (x : Char) : r.handle.count x ≤ countAll x (handlesIn rest) := by
  have hle := handleOf_count_le x [] rest
  rw [h.handle]
  simpa using hle

/-- No carriage return is lost on the way. -/
theorem Request.ComesBack.noCRLF (hback : r.ComesBack) : NoCRLF r.serialize := by
  obtain ⟨t, rest, htokens, h⟩ := hback.readFrom
  have hcount := h.count_le htokens (x := '\r') rfl
  have hhandle := h.handle_count_le '\r'
  apply noCRLF_of_count_le
  rw [countIn_rawInput rfl, r.count_serialize rfl, if_neg (by simp)]
  omega

/-- No field has a NUL, so the text has none. -/
theorem Request.ComesBack.nul_not_mem (hback : r.ComesBack) : '\x00' ∉ r.serialize := by
  obtain ⟨t, rest, htokens, h⟩ := hback.readFrom
  have hcommand : '\x00' ∉ r.command := by
    rw [h.command]
    exact nul_not_mem_cstr _
  have hhandle : '\x00' ∉ r.handle := by
    rw [h.handle]
    exact nul_not_mem_handleOf (by simp) rest
  have hfields := countFields_nul h.args h.flags
  apply List.count_eq_zero.mp
  rw [r.count_serialize rfl, hfields, List.count_eq_zero.mpr hcommand,
    List.count_eq_zero.mpr hhandle, if_neg (by simp)]

/-- No argument was read that is not in the map. -/
theorem Request.ReadFrom.args_mem {t : Token} {rest : List Token} (h : r.ReadFrom t rest)
    (htokens : tokenize (rawInput r.serialize) = t :: rest) :
    ∀ q ∈ argsOf rest, q ∈ r.args.entries := by
  have hrest : ∀ u ∈ rest, u ∈ tokenize (rawInput r.serialize) := fun u hu =>
    htokens ▸ List.mem_cons_of_mem t hu
  have hargs : r.args.entries ⊆ argsOf rest := fun p hp =>
    SortedMap.mem_of_mem_ofList (h.args ▸ hp)
  have hflags : r.flags.toList ⊆ flagsOf rest := fun f hf =>
    SortedSet.mem_ofList.mp (h.flags ▸ SortedSet.mem_toList.mp hf)
  refine fun q => args_mem_of_count hrest r.args.nodup hargs (SortedSet.nodup_toList r.flags)
    hflags ?_
  -- every `=` of the text is one of the fields, and so is every `=` of the tokens
  have htext := r.count_serialize (x := '=') rfl
  have hcommand : r.command.count '=' ≤ t.value.count '=' := by
    rw [h.command]
    exact count_cstr_le '=' _
  have hhandle := h.handle_count_le '='
  have htotal := countIn_rawInput (x := '=') rfl r.serialize
  rw [htokens, countIn_cons, count_dropCR (by decide), htext, if_neg (by simp), countFields,
    if_pos rfl] at htotal
  omega

/-- A request without a handle was read from tokens without a handle. -/
theorem Request.ReadFrom.handlesIn_eq_nil {t : Token} {rest : List Token} (h : r.ReadFrom t rest)
    (htokens : tokenize (rawInput r.serialize) = t :: rest) (hhandle : r.handle = []) :
    handlesIn rest = [] := by
  have hcount := h.count_le htokens (x := '~') rfl
  rw [count_dropCR (by decide), r.count_serialize rfl, hhandle] at hcount
  simp only [List.count_nil, ne_eq, not_true, and_false, if_false] at hcount
  apply List.eq_nil_iff_forall_not_mem.mpr
  intro v hv
  have hrest : ∀ u ∈ rest, u ∈ tokenize (rawInput r.serialize) := fun u hu =>
    htokens ▸ List.mem_cons_of_mem t hu
  have hfront := tilde_mem_handlesIn hrest hv
  have hpos : 0 < v.count '~' := List.count_pos_iff.mpr (List.mem_of_mem_head? hfront)
  have hle : v.count '~' ≤ countAll '~' (handlesIn rest) :=
    List.single_le_sum (by simp) _ (List.mem_map.mpr ⟨v, hv, rfl⟩)
  omega

/-- One token with a newline in it, and no handle, is no valid message. -/
theorem not_isAccepted_of_single {message : Bytes} {t : Token} (ht : tokenize message = [t])
    (hhandle : t.type ≠ .handle) (hnewline : '\n' ∈ t.value) : ¬IsAccepted message := by
  have hword : t.value ≠ witnessWord ∧ t.value ≠ publishWord := by
    constructor <;> (intro heq; rw [heq] at hnewline; exact absurd hnewline (by decide))
  have hfirst : buildFirst {} {} t = ({ type := .request }, { capability := cstr t.value }) := by
    unfold buildFirst
    cases htype : t.type with
    | arg => rfl
    | handle => exact absurd htype hhandle
    | none => simp only [if_neg hword.1, if_neg hword.2]
  have hbuild := build_eq (p := {}) (m := {}) (t := t) [] (by rw [hfirst]; simp)
  rw [isAccepted_iff, parseNew_eq, ht, hbuild, hfirst]
  exact fun h => h.handle rfl

/-- **A request that comes back is valid without the newline at its end** when it is valid
with it. -/
theorem Request.ComesBack.accepts_rawInput (hback : r.ComesBack)
    (haccepted : IsAccepted r.serialize) : Accepts (rawInput r.serialize) .request := by
  obtain ⟨t, rest, htokens, h⟩ := hback.readFrom
  have hcr := hback.noCRLF
  rw [r.serialize_eq] at hcr
  have htext : rawInput r.serialize = r.text := by rw [r.serialize_eq, rawInput_line hcr]
  obtain ⟨front, v, marks, type, hshort, hlong, huntyped, hmarks⟩ := tokenize_newline r.text
  rw [r.serialize_eq] at haccepted
  have htokens' := htokens
  rw [htext, hshort] at htokens'
  -- the request as it is parsed without the newline
  have hbuild : build {} {} (t :: rest) = _ := build_eq rest (by rw [h.first]; simp)
  rw [accepts_iff, parseNew_eq, htokens, hbuild, h.first]
  cases front with
  | nil =>
      -- one token would have no handle, with the newline or without it
      have ht : (⟨v ++ marks, type⟩ : Token) = t ∧ rest = [] := by
        unfold emit at htokens'
        split at htokens'
        · simp at htokens'
        · simpa using htokens'
      refine absurd haccepted (not_isAccepted_of_single hlong ?_ (by simp))
      rw [← ht.1] at h
      exact h.not_handle
  | cons u front =>
      obtain ⟨rfl, hrest⟩ : u = t ∧ front ++ emit ⟨v ++ marks, type⟩ = rest := by
        simpa using htokens'
      have hbuild' : build {} {} (u :: (front ++ [⟨v ++ '\n' :: marks, type⟩])) = _ :=
        build_eq _ (by rw [h.first]; simp)
      rw [isAccepted_iff, parseNew_eq, hlong, List.cons_append, hbuild', h.first] at haccepted
      have hvalid : ValidRequest _ := haccepted
      refine ⟨rfl, hvalid.command, hvalid.no_arg, fun hnone => ?_⟩
      -- no handle was read without the newline, so none is read with it
      have hnil := h.handlesIn_eq_nil htokens (h.handle.trans hnone)
      apply hvalid.handle
      have hlast : handlesIn (front ++ [⟨v ++ '\n' :: marks, type⟩]) = [] := by
        rw [← hrest, handlesIn, List.filterMap_append, List.append_eq_nil_iff] at hnil
        rw [handlesIn, List.filterMap_append, hnil.1]
        unfold emit at hnil
        split at hnil
        · rename_i hv
          rw [huntyped (List.append_eq_nil_iff.mp hv).1]
          rfl
        · by_cases htype : type = .handle
          · simp [htype] at hnil
          · simp [htype]
      rcases handleOf_cases [] (front ++ [⟨v ++ '\n' :: marks, type⟩]) with ⟨_, heq⟩ | ⟨w, hw, _⟩
      · exact heq
      · rw [hlast] at hw
        simp at hw

end

/-! ## Publishes -/

/-- `create_from_raw` makes the publish out of its own text again. -/
def Publish.ComesBack (p : Publish) : Prop :=
  ∃ p', Publish.createFromRaw p.serialize = some p' ∧ p'.toMessage.SameFields p.toMessage ∧
    p'.topic = p.topic

/-- The fields of a publish are those of a topic and the rest. -/
structure Publish.ReadFrom (p : Publish) (topic : Token) (rest : List Token) : Prop where
  topic_eq : p.topic = cstr topic.value
  args : p.args = SortedMap.ofList (argsOf rest)
  flags : p.flags = SortedSet.ofList (flagsOf rest)

section

variable {p : Publish}

/-- What is parsed from the text of a publish that comes back: its first word alone, or a
topic and the rest. -/
theorem Publish.ComesBack.readFrom (h : p.ComesBack) :
    (tokenize (rawInput p.serialize) = [flagToken publishWord] ∧
      p.serialize = publishWord ++ ['\n']) ∨
      ∃ topic rest, tokenize (rawInput p.serialize) = flagToken publishWord :: topic :: rest ∧
        p.ReadFrom topic rest := by
  obtain ⟨p', hcreate, hsame, htopic⟩ := h
  unfold createFromRaw at hcreate
  split at hcreate
  · rename_i htype
    obtain rfl := Option.some.inj hcreate
    rw [ofParsed_eq] at hsame htopic
    rw [parseRaw, parseNew_eq] at htype hsame htopic
    simp only at htype hsame htopic
    cases htokens : tokenize (rawInput p.serialize) with
    | nil =>
        rw [htokens] at htype
        simp [build, buildLoop] at htype
    | cons t rest =>
        rw [htokens] at htype hsame htopic
        have hfirst : (buildFirst {} {} t).1.type = .publish := by
          rw [← htype]
          exact (buildLoop_type (Nat.le_refl 1) _ _ rest).symm
        obtain rfl := buildFirst_publish hfirst
        cases rest with
        | nil =>
            refine Or.inl ⟨rfl, ?_⟩
            have hnone : p.topic = [] ∧ p.args = ∅ ∧ p.flags = ∅ :=
              ⟨htopic.symm, hsame.args.symm, hsame.flags.symm⟩
            rw [serialize, hnone.1, hnone.2.1, hnone.2.2]
            rfl
        | cons topic rest =>
            rw [build_publish] at hsame htopic
            exact Or.inr ⟨topic, rest, rfl, htopic.symm,
              by simpa [ParsedMessage.addTokens] using hsame.args.symm,
              by simpa [ParsedMessage.addTokens] using hsame.flags.symm⟩
  · simp at hcreate

/-- The text of a publish has the bytes of its fields. -/
theorem Publish.count_serialize (p : Publish) {x : Char} (hx : isCounted x = true) :
    p.serialize.count x =
      publishWord.count x + p.topic.count x + countFields x p.toMessage := by
  have hspace : ' ' ≠ x := by
    rintro rfl
    simp [isCounted, isGap] at hx
  have hnl : '\n' ≠ x := ((isCounted_iff.mp hx).2.2.2).symm
  rw [← count_fields hx, serialize]
  by_cases htopic : p.topic = []
  · simp [htopic, hnl]
  · simp only [htopic, ne_eq, not_false_eq_true, if_true, List.count_append, List.count_cons,
      List.count_nil, beq_iff_eq, hnl, hspace, if_false]
    omega

/-- No carriage return is lost on the way. -/
theorem Publish.ComesBack.noCRLF (hback : p.ComesBack) : NoCRLF p.serialize := by
  rcases hback.readFrom with ⟨_, htext⟩ | ⟨topic, rest, htokens, h⟩
  · rw [htext]
    decide
  · have hrest : ∀ u ∈ rest, u ∈ tokenize (rawInput p.serialize) := fun u hu => by
      rw [htokens]
      exact List.mem_cons_of_mem _ (List.mem_cons_of_mem _ hu)
    have hfields := countFields_le (x := '\r') hrest h.args h.flags
    have htopic : p.topic.count '\r' ≤ topic.value.count '\r' := by
      rw [h.topic_eq]
      exact count_cstr_le '\r' _
    apply noCRLF_of_count_le
    rw [htokens, countIn_cons, countIn_cons, p.count_serialize rfl]
    have hword : (flagToken publishWord).value.count '\r' = publishWord.count '\r' := rfl
    omega

/-- No field has a NUL, so the text has none. -/
theorem Publish.ComesBack.nul_not_mem (hback : p.ComesBack) : '\x00' ∉ p.serialize := by
  rcases hback.readFrom with ⟨_, htext⟩ | ⟨topic, rest, _, h⟩
  · rw [htext]
    decide
  · have htopic : '\x00' ∉ p.topic := by
      rw [h.topic_eq]
      exact nul_not_mem_cstr _
    have hfields := countFields_nul h.args h.flags
    apply List.count_eq_zero.mp
    rw [p.count_serialize rfl, hfields, List.count_eq_zero.mpr htopic]
    decide

/-- A topic is as good without a newline in it. -/
theorem topic_without_newline {m : ParsedMessage} (h : ValidPublish m) {v marks : Bytes}
    (hcapability : m.capability = v ++ '\n' :: marks) (hne : v ++ marks ≠ [])
    (hmarks : ∀ c ∈ marks, isCloser c = true) :
    v ++ marks ≠ [] ∧ '=' ∉ v ++ marks ∧ (v ++ marks).head? ≠ some '~' := by
  have harg := h.no_arg
  have hhandle := h.no_handle
  rw [hcapability] at harg hhandle
  refine ⟨hne, fun hmem => harg ?_, ?_⟩
  · rcases List.mem_append.mp hmem with hmem | hmem
    · exact List.mem_append_left _ hmem
    · exact List.mem_append_right _ (List.mem_cons_of_mem _ hmem)
  · cases v with
    | cons c v => simpa using hhandle
    | nil =>
        intro hhead
        have hcloser := hmarks '~' (List.mem_of_mem_head? hhead)
        simp [isCloser] at hcloser

/-- **A publish that comes back is valid without the newline at its end** when it is valid
with it. -/
theorem Publish.ComesBack.accepts_rawInput (hback : p.ComesBack)
    (haccepted : IsAccepted p.serialize) : Accepts (rawInput p.serialize) .publish := by
  have hcr := hback.noCRLF
  rw [p.serialize_eq] at hcr
  have htext : rawInput p.serialize = p.text := by rw [p.serialize_eq, rawInput_line hcr]
  rcases hback.readFrom with ⟨_, hword⟩ | ⟨topic, rest, htokens, h⟩
  · rw [hword] at haccepted
    exact absurd haccepted (by decide)
  · obtain ⟨front, v, marks, type, hshort, hlong, huntyped, hmarks⟩ := tokenize_newline p.text
    have hnul : '\x00' ∉ p.text ++ ['\n'] := p.serialize_eq ▸ hback.nul_not_mem
    rw [p.serialize_eq] at haccepted
    have htokens' := htokens
    rw [htext, hshort] at htokens'
    have hbuild : build {} {} (flagToken publishWord :: topic :: rest) = _ :=
      build_publish {} {} topic rest
    rw [accepts_iff, parseNew_eq, htokens, hbuild]
    refine ⟨rfl, ?_⟩
    cases front with
    | nil =>
        unfold emit at htokens'
        split at htokens' <;> simp at htokens'
    | cons u front =>
        obtain ⟨rfl, hrest⟩ : u = flagToken publishWord ∧
            front ++ emit ⟨v ++ marks, type⟩ = topic :: rest := by simpa using htokens'
        cases front with
        | nil =>
            -- the topic is the last token, and the newline belongs to it
            obtain ⟨hne, rfl⟩ : v ++ marks ≠ [] ∧ (⟨v ++ marks, type⟩ : Token) = topic := by
              unfold emit at hrest
              split at hrest
              · simp at hrest
              · rename_i hne
                exact ⟨hne, (List.cons.inj hrest).1⟩
            have hbuild' :
                build {} {} (flagToken publishWord :: ⟨v ++ '\n' :: marks, type⟩ :: []) = _ :=
              build_publish {} {} ⟨v ++ '\n' :: marks, type⟩ []
            have hno : '\x00' ∉ v ++ '\n' :: marks :=
              not_mem_of_tokenize (t := ⟨v ++ '\n' :: marks, type⟩) rfl rfl hnul
                (by rw [hlong]; simp)
            have hno' : '\x00' ∉ v ++ marks := fun hmem => hno (by
              rcases List.mem_append.mp hmem with hmem | hmem
              · exact List.mem_append_left _ hmem
              · exact List.mem_append_right _ (List.mem_cons_of_mem _ hmem))
            rw [isAccepted_iff, parseNew_eq, hlong, List.cons_append, List.nil_append, hbuild']
              at haccepted
            have hvalid : ValidPublish _ := haccepted
            have hvalid' := topic_without_newline hvalid (v := v) (by
              simp [ParsedMessage.addTokens, cstr_eq_self hno]) hne hmarks
            exact ⟨by simpa [ParsedMessage.addTokens, cstr_eq_self hno'] using hvalid'.1,
              by simpa [ParsedMessage.addTokens, cstr_eq_self hno'] using hvalid'.2.1,
              by simpa [ParsedMessage.addTokens, cstr_eq_self hno'] using hvalid'.2.2⟩
        | cons u front =>
            obtain ⟨rfl, _⟩ : u = topic ∧ front ++ emit ⟨v ++ marks, type⟩ = rest := by
              simpa using hrest
            have hbuild' : build {} {} (flagToken publishWord :: u ::
                (front ++ [⟨v ++ '\n' :: marks, type⟩])) = _ := build_publish {} {} u _
            rw [isAccepted_iff, parseNew_eq, hlong, List.cons_append, List.cons_append, hbuild']
              at haccepted
            have hvalid : ValidPublish _ := haccepted
            exact ⟨hvalid.topic, hvalid.no_arg, hvalid.no_handle⟩

end

end SporeClient.Wire
