/-
  Client/Relayed.lean --- which messages are relayed unchanged.

  WHAT THIS FILE IS FOR.  `Client/Relay.lean` shows that a message that can be written as it
  is comes back from its text.  For the other direction let its names (what stands before
  the arguments, the keys and the flags) be fit to be written.  Counting shows that a relayed
  message was read without loss and that each of its arguments was read once, so the values
  are read back in the order in which they were written (`read_values`), and each of them can
  be written.  `Outgoing.relayed_iff` has both directions.
-/
import SporeClient.Client.Relay
import SporeClient.Wire.Decode
import SporeClient.Wire.TakenFields

set_option autoImplicit false

namespace SporeClient.Client

open SporeClient.Foundation
open SporeClient.Parser
open SporeClient.Wire

/-! ## Arguments, flags and names -/

/-- What all kinds of messages have. -/
def Outgoing.message : Outgoing → Message
  | .request r => r.toMessage
  | .response r => r.toMessage
  | .responseError e => e.toMessage
  | .witness w => w.toMessage
  | .publish p => p.toMessage

/-- A field of its own, which is left out when it is empty. -/
def ownArg (k v text : Bytes) : List WrittenArg := if v ≠ [] then [⟨k, v, text⟩] else []

/-- The fields that are written as arguments before the arguments. -/
def Outgoing.ownArgs : Outgoing → List WrittenArg
  | .responseError e =>
      ownArg codeWord e.code e.code ++ ownArg whatWord e.what ('"' :: e.what ++ ['"'])
  | .witness w => ownArg bodyWord w.body ('"' :: w.body ++ ['"'])
  | .request _ | .response _ | .publish _ => []

/-- The arguments of a message in the order in which they are written. -/
def Outgoing.written (m : Outgoing) : List WrittenArg :=
  m.ownArgs ++ m.message.args.entries.map .encoded

/-- The arguments as they are read. -/
def Outgoing.pairs (m : Outgoing) : List (Bytes × Bytes) := m.written.map WrittenArg.pair

/-- The flags that `serialize` adds. -/
def Outgoing.added : Outgoing → List Bytes
  | .response _ => [okWord]
  | .responseError _ => [errorWord, nodeErrorWord]
  | .request _ | .witness _ | .publish _ => []

/-- The flags of the message itself. -/
def Outgoing.ownFlags (m : Outgoing) : List Bytes :=
  m.message.flags.toList.filter fun f => !m.added.contains f

/-- What names the message, without the words and marks around it. -/
def Outgoing.names : Outgoing → Bytes
  | .request r => r.command ++ r.handle
  | .response r => r.command ++ r.handle
  | .responseError e => e.command ++ e.handle
  | .witness _ => []
  | .publish p => p.topic

/-- What is written before the arguments. -/
def Outgoing.front : Outgoing → Bytes
  | .request r => r.command ++ (if r.handle ≠ [] then ' ' :: '~' :: r.handle else [])
  | .response r =>
      responseHead r.handle r.command ++ serializeFlags (okWord :: otherFlags r.flags)
  | .responseError e => responseHead e.handle e.command ++ ' ' :: errorWord
  | .witness _ => witnessWord
  | .publish p => publishWord ++ (if p.topic ≠ [] then ' ' :: p.topic else [])

/-- What is written behind them. -/
def Outgoing.back : Outgoing → Bytes
  | .request r => serializeFlags r.flags.toList
  | .response _ => []
  | .responseError e => serializeFlags (e.flags.toList ++ [nodeErrorWord])
  | .witness w => serializeFlags w.flags.toList
  | .publish p => serializeFlags p.flags.toList

theorem forall_ownArg {P : WrittenArg → Prop} {k v text : Bytes} (h : P ⟨k, v, text⟩) :
    ∀ a ∈ ownArg k v text, P a := by
  unfold ownArg
  split
  · simpa using h
  · simp

/-- What holds of a code without quotes and of a text and a body in double quotes holds of
all fields that are written as arguments. -/
theorem Outgoing.forall_ownArgs {P : WrittenArg → Prop} (hcode : ∀ v, P ⟨codeWord, v, v⟩)
    (hwhat : ∀ v, P ⟨whatWord, v, '"' :: v ++ ['"']⟩)
    (hbody : ∀ v, P ⟨bodyWord, v, '"' :: v ++ ['"']⟩) (m : Outgoing) : ∀ a ∈ m.ownArgs, P a := by
  cases m with
  | responseError e =>
      rw [ownArgs, List.forall_mem_append]
      exact ⟨forall_ownArg (hcode e.code), forall_ownArg (hwhat e.what)⟩
  | witness w => exact forall_ownArg (hbody w.body)
  | request r => simp [ownArgs]
  | response r => simp [ownArgs]
  | publish p => simp [ownArgs]

theorem bytes_ownArg (k v text : Bytes) :
    (ownArg k v text).flatMap WrittenArg.bytes =
      if v ≠ [] then ' ' :: (k ++ '=' :: text) else [] := by
  unfold ownArg
  split <;> simp [WrittenArg.bytes]

/-- The text of a message is its front, its arguments and what is behind them. -/
theorem Outgoing.serialize_split (m : Outgoing) :
    m.serialize = m.front ++ (m.written.flatMap WrittenArg.bytes ++ m.back) ++ ['\n'] := by
  rw [written, List.flatMap_append, bytes_encoded]
  cases m with
  | request r => simp [serialize, Request.serialize, front, ownArgs, message, back, serializeArgs]
  | response r =>
      rw [serialize, Response.serialize, front, ownArgs, message, back]
      simp [serializeArgs, serializeFlags, otherFlags]
  | responseError e =>
      simp only [serialize, ResponseError.serialize, front, ownArgs, message, back,
        List.flatMap_append, bytes_ownArg, serializeFlags, serializeArgs]
      simp [nodeErrorWord]
  | witness w =>
      simp only [serialize, Witness.serialize, front, ownArgs, message, back, bytes_ownArg,
        serializeArgs]
      simp
  | publish p => simp [serialize, Publish.serialize, front, ownArgs, message, back, serializeArgs]

/-! ## Keys -/

/-- No key is written twice. -/
theorem Outgoing.CreatedFrom.keys_nodup {m : Outgoing} {raw : Bytes} (h : m.CreatedFrom raw) :
    (m.pairs.map Prod.fst).Nodup := by
  have hmap : m.pairs.map Prod.fst = m.ownArgs.map WrittenArg.key ++ m.message.args.keys := by
    simp [pairs, written, WrittenArg.pair, WrittenArg.encoded, SortedMap.keys, Function.comp_def]
  have hkeys := m.message.args.keys_nodup
  have hown : ∀ k v text, (ownArg k v text).map WrittenArg.key = if v ≠ [] then [k] else [] := by
    intro k v text
    unfold ownArg
    split <;> rfl
  rw [hmap]
  cases m with
  | request r => exact hkeys
  | response r => exact hkeys
  | publish p => exact hkeys
  | responseError e =>
      have hnot := ResponseError.createFromRaw_own h
      have hcode : codeWord ∉ e.args.keys := fun hin => by
        obtain ⟨p, hp, heq⟩ := List.mem_map.mp hin
        exact (hnot p hp).1 heq
      have hwhat : whatWord ∉ e.args.keys := fun hin => by
        obtain ⟨p, hp, heq⟩ := List.mem_map.mp hin
        exact (hnot p hp).2 heq
      have hne : codeWord ≠ whatWord := by decide
      rw [ownArgs, List.map_append, hown, hown, message]
      split <;> split <;> simp_all [message]
  | witness w =>
      have hbody : bodyWord ∉ w.args.keys := fun hin => by
        obtain ⟨p, hp, heq⟩ := List.mem_map.mp hin
        exact Witness.createFromRaw_own h p hp heq
      rw [ownArgs, hown, message]
      split <;> simp_all [message]

/-! ## Reading -/

/-- The tokens in front of the arguments that are taken by themselves. -/
def Outgoing.headLength : Outgoing → Nat
  | .publish _ => 2
  | .request _ | .response _ | .responseError _ | .witness _ => 1

/-- The fields of a message are those of the tokens in front and the rest. -/
structure Outgoing.ReadFrom (m : Outgoing) (front rest : List Token) : Prop where
  tokens : tokenize (rawInput m.serialize) = front ++ rest
  length : front.length ≤ m.headLength
  names : ∀ x, m.names.count x ≤ countIn x front + countAll x (handlesIn rest)
  args : m.pairs ⊆ argsOf rest
  flags : m.ownFlags ⊆ flagsOf rest

section

variable {added flags : List Bytes} {args : List (Bytes × Bytes)} {command handle raw : Bytes}
  {map : ArgMap} {set : FlagSet} {m : Message}

/-- What is in the map was read. -/
theorem SameUpTo.args_subset
    (h : SameUpTo added ⟨command, handle, SortedMap.ofList args, set, raw⟩ m) :
    m.args.entries ⊆ args := fun p hp => by
  rw [← h.args] at hp
  exact SortedMap.mem_of_mem_ofList hp

/-- What is in the set was read, but for what is added. -/
theorem SameUpTo.flags_subset
    (h : SameUpTo added ⟨command, handle, map, SortedSet.ofList flags, raw⟩ m) :
    (m.flags.toList.filter fun f => !added.contains f) ⊆ flags := fun f hf => by
  obtain ⟨hf, hno⟩ := List.mem_filter.mp hf
  have hin := (h.flags f (by simpa using hno)).mpr (SortedSet.mem_toList.mp hf)
  exact SortedSet.mem_ofList.mp hin

end

/-- A field of its own is the last value of its key. -/
theorem ownArg_subset {k v text : Bytes} {l : List (Bytes × Bytes)} (h : lastOf k [] l = v) :
    (ownArg k v text).map WrittenArg.pair ⊆ l := by
  unfold ownArg
  split
  · rename_i hv
    intro p hp
    obtain rfl : p = (k, v) := by simpa [WrittenArg.pair] using hp
    rw [← h] at hv ⊢
    exact (lastOf_cases k [] l).resolve_right fun hnone => hv hnone.2
  · simp

theorem Outgoing.pairs_eq (m : Outgoing) :
    m.pairs = m.ownArgs.map WrittenArg.pair ++ m.message.args.entries := by
  simp [pairs, written, WrittenArg.pair, WrittenArg.encoded, Function.comp_def]

/-- The fields of a message are those of a parsed one. -/
structure Outgoing.HasFieldsOf (m : Outgoing) (p : ParserState × ParsedMessage) : Prop where
  type : p.1.type = .publish → m.headLength = 2
  names : ∀ x, m.names.count x ≤ p.2.capability.count x + p.2.handle.count x
  args : m.pairs ⊆ p.2.args
  flags : m.ownFlags ⊆ p.2.flags

/-- **What is read from the text of a relayed message** has its fields. -/
theorem Outgoing.Relayed.hasFieldsOf {m : Outgoing} (h : m.Relayed) :
    m.HasFieldsOf (parseRaw m.serialize) := by
  obtain ⟨_, m', hcreated, hsame⟩ := h
  obtain ⟨p, hparsed⟩ : ∃ p, parseRaw m.serialize = p := ⟨_, rfl⟩
  rw [hparsed]
  cases m with
  | request r =>
      obtain ⟨r', rfl⟩ : ∃ r', m' = .request r' := by
        cases m' <;> first | exact ⟨_, rfl⟩ | exact hsame.elim
      obtain ⟨htype, hr⟩ := Option.ite_none_right_eq_some.mp hcreated
      rw [hparsed] at htype hr
      have hsame : SameUpTo [] r'.toMessage r.toMessage := hsame
      rw [← Option.some.inj hr, Request.ofParsed_eq] at hsame
      refine ⟨fun hpublish => absurd (htype.symm.trans hpublish) (by decide), fun x => ?_, ?_,
        hsame.flags_subset⟩
      · rw [names, List.count_append, ← hsame.command, ← hsame.handle]
      · rw [pairs_eq]
        exact hsame.args_subset
  | response r =>
      obtain ⟨r', rfl⟩ : ∃ r', m' = .response r' := by
        cases m' <;> first | exact ⟨_, rfl⟩ | exact hsame.elim
      obtain ⟨htype, hr⟩ := Option.ite_none_right_eq_some.mp hcreated
      rw [hparsed] at htype hr
      have hsame : SameUpTo [okWord] r'.toMessage r.toMessage := hsame
      rw [← Option.some.inj hr, Response.ofParsed_eq] at hsame
      refine ⟨fun hpublish => absurd (htype.symm.trans hpublish) (by decide), fun x => ?_, ?_,
        hsame.flags_subset⟩
      · rw [names, List.count_append, ← hsame.command, ← hsame.handle]
      · rw [pairs_eq]
        exact hsame.args_subset
  | responseError e =>
      obtain ⟨e', rfl⟩ : ∃ e', m' = .responseError e' := by
        cases m' <;> first | exact ⟨_, rfl⟩ | exact hsame.elim
      obtain ⟨htype, he⟩ := Option.ite_none_right_eq_some.mp hcreated
      rw [hparsed] at htype he
      have hsame : SameUpTo [errorWord, nodeErrorWord] e'.toMessage e.toMessage ∧
        e'.code = e.code ∧ e'.what = e.what := hsame
      obtain ⟨hmessage, hcode, hwhat⟩ := hsame
      rw [← Option.some.inj he, ResponseError.ofParsed_toMessage] at hmessage
      rw [← Option.some.inj he, ResponseError.ofParsed, ResponseError.takeFields_code] at hcode
      rw [← Option.some.inj he, ResponseError.ofParsed, ResponseError.takeFields_what] at hwhat
      refine ⟨fun hpublish => absurd (htype.symm.trans hpublish) (by decide), fun x => ?_, ?_,
        hmessage.flags_subset⟩
      · rw [names, List.count_append, ← hmessage.command, ← hmessage.handle]
      · rw [pairs_eq, ownArgs, List.map_append, List.append_subset, List.append_subset]
        exact ⟨⟨ownArg_subset hcode, ownArg_subset hwhat⟩,
          List.Subset.trans hmessage.args_subset List.filter_sublist.subset⟩
  | witness w =>
      obtain ⟨w', rfl⟩ : ∃ w', m' = .witness w' := by
        cases m' <;> first | exact ⟨_, rfl⟩ | exact hsame.elim
      obtain ⟨htype, hw⟩ := Option.ite_none_right_eq_some.mp hcreated
      rw [hparsed] at htype hw
      have hsame : SameUpTo [] w'.toMessage w.toMessage ∧ w'.body = w.body := hsame
      obtain ⟨hmessage, hbody⟩ := hsame
      have hlast : ∀ raw, (Witness.ofParsed p.2 raw).body = lastOf bodyWord [] p.2.args :=
        fun _ => Witness.takeArgs_body _ _
      rw [← Option.some.inj hw, Witness.ofParsed_toMessage] at hmessage
      rw [← Option.some.inj hw, hlast] at hbody
      refine ⟨fun hpublish => absurd (htype.symm.trans hpublish) (by decide),
        fun x => Nat.zero_le _, ?_, hmessage.flags_subset⟩
      · rw [pairs_eq, ownArgs, List.append_subset]
        exact ⟨ownArg_subset hbody,
          List.Subset.trans hmessage.args_subset List.filter_sublist.subset⟩
  | publish b =>
      obtain ⟨b', rfl⟩ : ∃ b', m' = .publish b' := by
        cases m' <;> first | exact ⟨_, rfl⟩ | exact hsame.elim
      obtain ⟨_, hb⟩ := Option.ite_none_right_eq_some.mp hcreated
      rw [hparsed] at hb
      have hsame : SameUpTo [] b'.toMessage b.toMessage ∧ b'.topic = b.topic := hsame
      rw [← Option.some.inj hb, Publish.ofParsed_eq] at hsame
      refine ⟨fun _ => rfl, fun x => ?_, ?_, hsame.1.flags_subset⟩
      · rw [names, ← hsame.2]
        exact Nat.le_add_right _ _
      · rw [pairs_eq]
        exact hsame.1.args_subset

/-- **What a relayed message was read from.** -/
theorem Outgoing.Relayed.readFrom {m : Outgoing} (h : m.Relayed) :
    ∃ front rest, m.ReadFrom front rest := by
  obtain ⟨htype, hnames, hargs, hflags⟩ := h.hasFieldsOf
  obtain ⟨front, rest, htokens, hlength, hargsOf, hflagsOf, hcount⟩ :=
    parse_parts (rawInput m.serialize)
  refine ⟨front, rest, htokens, ?_, fun x => (hnames x).trans (hcount x), ?_, ?_⟩
  · rcases hlength with hone | ⟨htwo, hpublish⟩
    · cases m <;> simp only [headLength] <;> omega
    · rw [htwo, htype hpublish]
  · exact hargsOf ▸ hargs
  · exact hflagsOf ▸ hflags

/-! ## Counting -/

/-- Written arguments have the bytes of their keys and values, and an `=` each. -/
theorem count_written {x : Char} (hspace : x ≠ ' ') {l : List WrittenArg}
    (h : ∀ a ∈ l, a.text.count x = a.value.count x) :
    (l.flatMap WrittenArg.bytes).count x = countArgs x (l.map WrittenArg.pair) +
      if x = '=' then (l.map WrittenArg.pair).length else 0 := by
  induction l with
  | nil => simp [countArgs]
  | cons a rest ih =>
      have hrest := ih fun b hb => h b (List.mem_cons_of_mem a hb)
      have ha := h a List.mem_cons_self
      have harg : a.bytes.count x =
          a.key.count x + a.value.count x + if x = '=' then 1 else 0 := by
        simp only [WrittenArg.bytes, List.count_append, List.count_cons, beq_iff_eq, hspace.symm,
          if_false, ha, eq_comm (a := x)]
        omega
      rw [List.flatMap_cons, List.count_append, hrest, harg]
      simp only [countArgs, List.map_cons, List.sum_cons, List.length_cons, WrittenArg.pair]
      split <;> omega

/-- No encoding adds a byte that is counted. -/
theorem Outgoing.count_text {x : Char} (hx : isCounted x = true) (m : Outgoing) :
    ∀ a ∈ m.written, a.text.count x = a.value.count x := by
  have hquote : ∀ v : Bytes, ('"' :: v ++ ['"']).count x = v.count x := fun v => by
    have hne : '"' ≠ x := by
      rintro rfl
      exact absurd hx (by decide)
    simp [hne]
  rw [written, List.forall_mem_append, List.forall_mem_map]
  exact ⟨forall_ownArgs (fun _ => rfl) hquote hquote m, fun p _ => count_encodeValue hx p.2⟩

/-- The marks and words that `serialize` writes. -/
def marks : Bytes :=
  ':' :: '~' :: (okWord ++ errorWord ++ nodeErrorWord ++ witnessWord ++ publishWord)

theorem countAll_filter {x : Char} {p : Bytes → Bool} {l : List Bytes}
    (h : ∀ f ∈ l, p f = false → x ∉ f) : countAll x (l.filter p) = countAll x l := by
  induction l with
  | nil => rfl
  | cons f rest ih =>
      have hrest := ih fun g hg => h g (List.mem_cons_of_mem f hg)
      by_cases hp : p f = true
      · rw [List.filter_cons_of_pos hp, countAll_cons, countAll_cons, hrest]
      · have hf := List.count_eq_zero.mpr (h f List.mem_cons_self (by simpa using hp))
        rw [List.filter_cons_of_neg hp, countAll_cons, hrest, hf, Nat.zero_add]

/-- The flags that `serialize` adds do not count. -/
theorem Outgoing.count_ownFlags {x : Char} (hmarks : x ∉ marks) (m : Outgoing) :
    countAll x m.ownFlags = countAll x m.message.flags.toList := by
  apply countAll_filter
  intro f _ hf hin
  have hadded : f ∈ m.added := by simpa using hf
  refine hmarks ?_
  cases m with
  | response r =>
      rw [added, List.mem_singleton] at hadded
      simp [marks, ← hadded, hin]
  | responseError e =>
      simp only [added, List.mem_cons, List.not_mem_nil, or_false] at hadded
      rcases hadded with rfl | rfl
      · simp [marks, hin]
      · simp [marks, hin]
  | request r => simp [added] at hadded
  | witness w => simp [added] at hadded
  | publish p => simp [added] at hadded

/-- Around the arguments stand the names and the flags. -/
theorem Outgoing.count_around {x : Char} (hx : isCounted x = true) (hmarks : x ∉ marks)
    (m : Outgoing) :
    m.front.count x + m.back.count x = m.names.count x + countAll x m.ownFlags := by
  have hspace : ' ' ≠ x := by
    rintro rfl
    exact absurd hx (by decide)
  obtain ⟨hcolon, htilde, hok, herror, hnode, hwitness, hpublish⟩ :
      ':' ≠ x ∧ '~' ≠ x ∧ okWord.count x = 0 ∧ errorWord.count x = 0 ∧
        nodeErrorWord.count x = 0 ∧ witnessWord.count x = 0 ∧ publishWord.count x = 0 := by
    simp only [marks, List.mem_cons, List.mem_append, not_or] at hmarks
    simp only [List.count_eq_zero]
    tauto
  have hhead : ∀ handle command : Bytes,
      (responseHead handle command).count x = command.count x + handle.count x := by
    intro handle command
    unfold responseHead
    split
    · simp only [List.cons_append, List.count_cons, List.count_append, beq_iff_eq, htilde, hcolon,
        if_false]
      omega
    · rename_i hnil
      rw [of_not_not hnil, List.count_nil, Nat.add_zero]
  have hfilter := m.count_ownFlags hmarks
  cases m with
  | request r =>
      rw [hfilter, front, back, names, message, count_serializeFlags hx]
      split
      · simp [hspace, htilde]
      · rename_i hnil
        simp [of_not_not hnil]
  | response r =>
      rw [ownFlags, front, back, names, added, message, List.count_append, hhead,
        count_serializeFlags hx, List.count_append, countAll_cons, hok]
      simp [otherFlags]
  | responseError e =>
      rw [hfilter, front, back, names, message, List.count_append, hhead, List.count_cons,
        herror, count_serializeFlags hx, List.count_append]
      simp [hspace, countAll, hnode]
  | witness w =>
      rw [hfilter, front, back, names, message, count_serializeFlags hx, hwitness, List.count_nil]
  | publish p =>
      rw [hfilter, front, back, names, message, count_serializeFlags hx, List.count_append,
        hpublish]
      split
      · simp [hspace]
      · rename_i hnil
        simp [of_not_not hnil]

/-- The text of a message has the bytes of its names, arguments and flags. -/
theorem Outgoing.count_serialize {x : Char} (hx : isCounted x = true) (hmarks : x ∉ marks)
    (m : Outgoing) :
    m.serialize.count x = m.names.count x + countArgs x m.pairs +
      (if x = '=' then m.pairs.length else 0) + countAll x m.ownFlags := by
  have hspace : x ≠ ' ' := by
    rintro rfl
    exact absurd hx (by decide)
  have hnl : x ≠ '\n' := (isCounted_iff.mp hx).2.2.2
  have haround := m.count_around hx hmarks
  have hwritten := count_written hspace (m.count_text hx)
  have hline : (['\n'] : Bytes).count x = 0 := List.count_eq_zero.mpr (by simpa using hnl)
  rw [serialize_split, List.count_append, List.count_append, List.count_append, hwritten, hline,
    pairs]
  omega

/-! ## Reading without loss -/

section

variable {m : Outgoing} {front rest : List Token}

theorem Outgoing.ReadFrom.mem_tokens (h : m.ReadFrom front rest) :
    ∀ t ∈ rest, t ∈ tokenize (rawInput m.serialize) := fun _ ht => by
  rw [h.tokens]
  exact List.mem_append_right front ht

theorem Outgoing.nodup_ownFlags (m : Outgoing) : m.ownFlags.Nodup :=
  (SortedSet.nodup_toList m.message.flags).filter _

/-- **Conservation**: the text has no byte that was not read. -/
theorem Outgoing.ReadFrom.count_le (h : m.ReadFrom front rest) (hpairs : m.pairs.Nodup) {x : Char}
    (hx : isCounted x = true) (hmarks : x ∉ marks) :
    m.serialize.count x ≤ countIn x (tokenize (rawInput m.serialize)) := by
  have hnames := h.names x
  have hread := count_read_le h.mem_tokens hpairs h.args m.nodup_ownFlags h.flags x
  rw [m.count_serialize hx hmarks, h.tokens, countIn_append]
  omega

/-- No carriage return is lost on the way. -/
theorem Outgoing.ReadFrom.noCRLF (h : m.ReadFrom front rest) (hpairs : m.pairs.Nodup) :
    NoCRLF m.serialize :=
  noCRLF_of_count_le (h.count_le hpairs rfl (by decide))

/-- Nothing else was read than the arguments of the message. -/
theorem Outgoing.ReadFrom.args_mem (h : m.ReadFrom front rest) (hpairs : m.pairs.Nodup) :
    ∀ q ∈ argsOf rest, q ∈ m.pairs := by
  refine fun q => args_mem_of_count h.mem_tokens hpairs h.args m.nodup_ownFlags h.flags ?_
  have hnames := h.names '='
  have htext := m.count_serialize (x := '=') rfl (by decide)
  have htotal := countIn_rawInput (x := '=') rfl m.serialize
  rw [h.tokens, countIn_append, count_dropCR (by decide), htext, if_pos rfl] at htotal
  omega

/-- What is read has no NUL. -/
theorem Outgoing.ReadFrom.nul_not_mem (h : m.ReadFrom front rest) (hnames : '\x00' ∉ m.names) :
    '\x00' ∉ m.serialize := by
  have hargs : countArgs '\x00' m.pairs = 0 := List.sum_eq_zero fun n hn => by
    obtain ⟨p, hp, rfl⟩ := List.mem_map.mp hn
    obtain ⟨hkey, hvalue⟩ := nul_not_mem_argsOf (h.args hp)
    simp only [List.count_eq_zero.mpr hkey, List.count_eq_zero.mpr hvalue, Nat.add_zero]
  have hflags : countAll '\x00' m.ownFlags = 0 := List.sum_eq_zero fun n hn => by
    obtain ⟨f, hf, rfl⟩ := List.mem_map.mp hn
    exact List.count_eq_zero.mpr (nul_not_mem_flagsOf (h.flags hf))
  apply List.count_eq_zero.mp
  rw [m.count_serialize rfl (by decide), hargs, hflags, List.count_eq_zero.mpr hnames,
    if_neg (by decide)]

end

/-! ## Names that can be written -/

/-- The handle and the command of a response can be written by themselves. -/
structure IsResponseHead (handle command : Bytes) : Prop where
  handle_ne_nil : handle ≠ []
  no_colon : ':' ∉ handle
  solid : solid headBad .outside (handle ++ ':' :: command) = true
  handle_no_nul : '\x00' ∉ handle
  command_no_nul : '\x00' ∉ command

/-- What stands before the arguments can be written by itself. -/
def Outgoing.HeadNamed : Outgoing → Prop
  | .request r =>
      IsBare r.command ∧ r.command ≠ witnessWord ∧ r.command ≠ publishWord ∧ IsHandle r.handle
  | .response r => IsResponseHead r.handle r.command
  | .responseError e => IsResponseHead e.handle e.command
  | .witness _ => True
  | .publish p => IsBare p.topic

/-- The names of a message can be written by themselves: what stands before the arguments,
the keys and the flags. -/
structure Outgoing.Named (m : Outgoing) : Prop where
  head : m.HeadNamed
  keys : ∀ p ∈ m.message.args.entries, IsKey p.1
  flags : ∀ f ∈ m.message.flags.toList, IsBare f

section

variable {m : Outgoing}

/-- The head of a response is one piece. -/
theorem IsResponseHead.isRow {handle command : Bytes} (h : IsResponseHead handle command) :
    IsRow (responseHead handle command) [handleToken (handle ++ ':' :: command)] := by
  let head : Piece := ⟨'~' :: (handle ++ ':' :: command), handleToken (handle ++ ':' :: command),
    lexes_handle h.solid, by simp [handleToken]⟩
  exact ⟨head, [], by simp [head, responseHead, h.handle_ne_nil], rfl⟩

/-- In front of the arguments the text is a row. -/
theorem Outgoing.Named.isRow_front (h : m.Named) :
    ∃ tokens, IsRow m.front tokens ∧ m.headLength ≤ tokens.length := by
  have hhead := h.head
  cases m with
  | request r =>
      obtain ⟨hcommand, _, _, hhandle⟩ := hhead
      let command : Piece := ⟨r.command, flagToken r.command,
        lexes_solid hcommand.solid hcommand.front, hcommand.ne_nil⟩
      let handle : Piece := ⟨'~' :: r.handle, handleToken r.handle, lexes_handle hhandle.solid,
        by simp [handleToken]⟩
      refine ⟨_, ⟨command, [handle], ?_, rfl⟩, by simp [headLength]⟩
      simp [front, command, handle, hhandle.ne_nil]
  | response r =>
      have hbare : ∀ f ∈ okWord :: otherFlags r.flags, IsBare f := by
        intro f hf
        rcases List.mem_cons.mp hf with rfl | hf
        · exact isWord_okWord.isBare
        · exact h.flags f (List.mem_of_mem_filter hf)
      obtain ⟨flags, hflags, _⟩ := exists_row_flags hbare
      obtain ⟨head, pieces, hrow, htokens⟩ := IsResponseHead.isRow hhead
      refine ⟨_, ⟨head, pieces ++ flags, ?_, rfl⟩, by simp [headLength]⟩
      rw [front, row_append, hflags, hrow, List.append_assoc]
  | responseError e =>
      let error : Piece := ⟨errorWord, flagToken errorWord, isWord_errorWord.lexes,
        isWord_errorWord.ne_nil⟩
      exact ⟨_, (IsResponseHead.isRow hhead).concat error, by simp [headLength]⟩
  | witness w =>
      let head : Piece := ⟨witnessWord, flagToken witnessWord, isWord_witnessWord.lexes,
        isWord_witnessWord.ne_nil⟩
      exact ⟨_, ⟨head, [], by simp [front, head], rfl⟩, by simp [headLength]⟩
  | publish p =>
      have htopic : IsBare p.topic := hhead
      let head : Piece := ⟨publishWord, flagToken publishWord, isWord_publishWord.lexes,
        isWord_publishWord.ne_nil⟩
      let topic : Piece := ⟨p.topic, flagToken p.topic, lexes_solid htopic.solid htopic.front,
        htopic.ne_nil⟩
      refine ⟨_, ⟨head, [topic], ?_, rfl⟩, by simp [headLength]⟩
      simp [front, head, topic, htopic.ne_nil]

/-- A name has no NUL. -/
theorem Outgoing.Named.nul_not_mem (h : m.Named) : '\x00' ∉ m.names := by
  have hhead := h.head
  cases m with
  | request r => simp [names, hhead.1.no_nul, hhead.2.2.2.no_nul]
  | response r =>
      have hhead : IsResponseHead r.handle r.command := hhead
      simp [names, hhead.handle_no_nul, hhead.command_no_nul]
  | responseError e =>
      have hhead : IsResponseHead e.handle e.command := hhead
      simp [names, hhead.handle_no_nul, hhead.command_no_nul]
  | witness w => simp [names]
  | publish p =>
      have hhead : IsBare p.topic := hhead
      simp [names, hhead.no_nul]

/-- The keys of all arguments can be written by themselves. -/
theorem Outgoing.Named.isKey (h : m.Named) : ∀ a ∈ m.written, IsKey a.key := by
  rw [written, List.forall_mem_append, List.forall_mem_map]
  exact ⟨forall_ownArgs (fun _ => isWord_codeWord.isKey) (fun _ => isWord_whatWord.isKey)
    (fun _ => isWord_bodyWord.isKey) m, h.keys⟩

/-- Behind the arguments comes a space, or nothing. -/
theorem Outgoing.separated_back (m : Outgoing) : Separated m.back := by
  cases m with
  | response r => exact Or.inl rfl
  | request r => exact separated_flags _
  | responseError e => exact separated_flags _
  | witness w => exact separated_flags _
  | publish p => exact separated_flags _

/-- A block has no carriage return before a newline when the text has none. -/
theorem Outgoing.noCRLF_value (hline : NoCRLF m.serialize) :
    ∀ p ∈ m.message.args.entries, '\n' ∈ p.2 → NoCRLF (p.2 ++ ['\n']) := by
  intro p hp
  obtain ⟨before, after, hentries⟩ := List.append_of_mem hp
  apply (noCRLF_encodeValue p.2).mp
  intro hin
  refine hline (hin.trans ?_)
  rw [serialize_split, written, List.flatMap_append, bytes_encoded, hentries]
  refine ⟨m.front ++ (m.ownArgs.flatMap WrittenArg.bytes ++
    (before.flatMap fun p => serializeArg p.1 p.2)) ++ ' ' :: p.1 ++ ['='],
    (after.flatMap fun p => serializeArg p.1 p.2) ++ m.back ++ ['\n'], ?_⟩
  simp [serializeArg]

/-- Behind each value that is read back the lexer is outside everything. -/
theorem Outgoing.closes (hline : NoCRLF m.serialize) : ∀ a ∈ m.written, a.Closes := by
  have hquoted : ∀ k v : Bytes, WrittenArg.Closes ⟨k, v, '"' :: v ++ ['"']⟩ := by
    rintro k v ⟨rest, hrest, hvalue⟩
    exact ⟨v, carries_quoted (Or.inl rfl) (quoted_of_tokenText hrest hvalue).1⟩
  have hbare : ∀ k v : Bytes, WrittenArg.Closes ⟨k, v, v⟩ := by
    rintro k v ⟨rest, hrest, hvalue⟩
    exact ⟨v, carries_solid (solid_of_plain hrest hvalue).1⟩
  rw [written, List.forall_mem_append, List.forall_mem_map]
  exact ⟨forall_ownArgs (hbare codeWord) (hquoted whatWord) (hquoted bodyWord) m,
    fun p hp => WrittenArg.closes_encoded (m.noCRLF_value hline p hp)⟩

/-- **The arguments of a relayed message are read back where they were written.** -/
theorem Outgoing.Relayed.readsBack {raw : Bytes} (hcreated : m.CreatedFrom raw) (hnamed : m.Named)
    (h : m.Relayed) : NoCRLF m.serialize ∧ ∀ a ∈ m.written, a.ReadsBack := by
  obtain ⟨front, rest, hread⟩ := h.readFrom
  have hkeys := hcreated.keys_nodup
  have hpairs : m.pairs.Nodup := List.Nodup.of_map Prod.fst hkeys
  have hline := hread.noCRLF hpairs
  have hnul := hread.nul_not_mem hnamed.nul_not_mem
  have htext := m.serialize_split
  refine ⟨hline, ?_⟩
  obtain ⟨tokens, hrow, hlength⟩ := hnamed.isRow_front
  have htokens := hread.tokens
  rw [htext] at hline hnul
  rw [htext, rawInput_line hline] at htokens
  apply read_values hrow (hread.length.trans hlength) m.separated_back hnamed.isKey
    (m.closes (htext ▸ hline)) (fun hmem => hnul (List.mem_append_left _ hmem))
  intro a ha v hv
  rw [htokens, List.drop_left] at hv
  have hin : (a.key, v) ∈ m.pairs := hread.args_mem hpairs _ hv
  exact congrArg Prod.snd (List.inj_on_of_nodup_map hkeys hin (List.mem_map_of_mem ha) rfl)

/-! ## What is read back can be written -/

/-- A field that is left out has nothing to be read. -/
theorem ownArg_readsBack {k v text : Bytes} (h : ∀ a ∈ ownArg k v text, a.ReadsBack) :
    v = [] ∨ WrittenArg.ReadsBack ⟨k, v, text⟩ := by
  by_cases hv : v = []
  · exact Or.inl hv
  · rw [ownArg, if_pos hv, List.forall_mem_singleton] at h
    exact Or.inr h

/-- A field in double quotes that is read back. -/
theorem quoted_of_ownArg {k v : Bytes} (h : ∀ a ∈ ownArg k v ('"' :: v ++ ['"']), a.ReadsBack) :
    '"' ∉ v ∧ isBlock v = false := by
  rcases ownArg_readsBack h with rfl | ⟨rest, hrest, hvalue⟩
  · exact ⟨by simp, rfl⟩
  · exact quoted_of_tokenText hrest hvalue

/-- A field without quotes that is read back. -/
theorem solid_of_ownArg {k v : Bytes} (h : ∀ a ∈ ownArg k v v, a.ReadsBack) :
    solid isGap .outside v = true ∧ isBlock v = false := by
  rcases ownArg_readsBack h with rfl | ⟨rest, hrest, hvalue⟩
  · exact ⟨rfl, rfl⟩
  · exact solid_of_plain hrest hvalue

/-- The arguments and flags of a relayed message can be written. -/
theorem Outgoing.Named.sendable_message (hnamed : m.Named) (hline : NoCRLF m.serialize)
    (hnul : ∀ p ∈ m.message.args.entries, '\x00' ∉ p.2) (h : ∀ a ∈ m.written, a.ReadsBack) :
    m.message.Sendable := by
  rw [written, List.forall_mem_append, List.forall_mem_map] at h
  refine ⟨fun p hp => IsArg.of_isKey (hnamed.keys p hp) ⟨?_, hnul p hp⟩, hnamed.flags⟩
  exact (h.2 p hp).encodable (m.noCRLF_value hline p hp)

/-- **A relayed message whose names can be written can be written.** -/
theorem Outgoing.Relayed.writable {raw : Bytes} (hcreated : m.CreatedFrom raw) (hnamed : m.Named)
    (h : m.Relayed) : m.Writable := by
  obtain ⟨hline, hback⟩ := h.readsBack hcreated hnamed
  obtain ⟨front, rest, hread⟩ := h.readFrom
  have hnul : ∀ p ∈ m.pairs, '\x00' ∉ p.2 := fun p hp => (nul_not_mem_argsOf (hread.args hp)).2
  rw [pairs_eq, List.forall_mem_append] at hnul
  have hmessage := hnamed.sendable_message hline hnul.2 hback
  have hown : ∀ a ∈ m.ownArgs, a.ReadsBack := fun a ha => hback a (List.mem_append_left _ ha)
  have hownNul : ∀ {k v text : Bytes},
      (∀ p ∈ (ownArg k v text).map WrittenArg.pair, '\x00' ∉ p.2) → '\x00' ∉ v := by
    intro k v text hno
    by_cases hv : v = []
    · simp [hv]
    · simpa [ownArg, hv, WrittenArg.pair] using hno
  have hhead := hnamed.head
  refine ⟨?_, ?_, ?_⟩
  · cases m with
    | request r =>
        obtain ⟨hcommand, hwitness, hpublish, hhandle⟩ := hhead
        exact ⟨hmessage, hcommand, hwitness, hpublish, hhandle⟩
    | response r =>
        obtain ⟨hhandle, hcolon, hsolid, hnul, hnul'⟩ := hhead
        exact ⟨hmessage, hhandle, hcolon, hsolid, hnul, hnul'⟩
    | responseError e =>
        obtain ⟨hhandle, hcolon, hsolid, hcommandNul, hhandleNul⟩ := hhead
        rw [ownArgs, List.forall_mem_append] at hown
        rw [ownArgs, List.map_append, List.forall_mem_append] at hnul
        exact ⟨hmessage, hhandle, hcolon, hsolid, hcommandNul, hhandleNul,
          solid_of_ownArg hown.1, hownNul hnul.1.1, quoted_of_ownArg hown.2, hownNul hnul.1.2,
          ResponseError.createFromRaw_own hcreated⟩
    | witness w =>
        exact ⟨hmessage, quoted_of_ownArg hown, hownNul hnul.1,
          Witness.createFromRaw_own hcreated⟩
    | publish p => exact ⟨hmessage, hhead⟩
  · exact (m.noCRLF_serialize.mp hline).1
  · exact (m.noCRLF_serialize.mp hline).2

end

/-- **Which received messages are relayed unchanged**: one that can be written as it is if
and only if it is complete, and one whose names can be written by themselves if and only if
it can be written as it is and is complete. -/
theorem Outgoing.relayed_iff {m : Outgoing} {raw : Bytes} (hcreated : m.CreatedFrom raw) :
    (m.Writable → (m.Relayed ↔ m.Complete)) ∧
      (m.Named → (m.Relayed ↔ m.Writable ∧ m.Complete)) := by
  refine ⟨fun h => h.relayed_iff_complete hcreated, fun hnamed => ⟨fun h => ?_, ?_⟩⟩
  · have hwritable := h.writable hcreated hnamed
    exact ⟨hwritable, (hwritable.relayed_iff_complete hcreated).mp h⟩
  · rintro ⟨hwritable, hcomplete⟩
    exact (hwritable.relayed_iff_complete hcreated).mpr hcomplete

/-- A request with one argument and one flag, as it is received. -/
def receivedRequest : Request :=
  ⟨{ command := ['c'], handle := ['h'], args := SortedMap.ofList [(['k'], ['v'])]
     flags := SortedSet.ofList [['f']], raw := "c ~h f k=v".toList }⟩

theorem relayed_receivedRequest : (Outgoing.request receivedRequest).Relayed := by
  have hcreated : (Outgoing.request receivedRequest).CreatedFrom "c ~h f k=v".toList := by
    change Request.createFromRaw _ = _
    decide
  have hhandle : IsHandle receivedRequest.handle := ⟨by decide, by decide, by decide⟩
  have hnamed : (Outgoing.request receivedRequest).Named :=
    { head := ⟨by decide, by decide, by decide, hhandle⟩
      keys := by decide
      flags := by decide }
  have hwritable : (Outgoing.request receivedRequest).Writable :=
    { sendable := { message := ⟨by decide, by decide⟩
                    command := by decide
                    not_witness := by decide
                    not_publish := by decide
                    handle := hhandle }
      parts := by decide
      last := by decide }
  have hcomplete : (Outgoing.request receivedRequest).Complete := by
    change '=' ∉ _
    decide
  exact ((Outgoing.relayed_iff hcreated).2 hnamed).mpr ⟨hwritable, hcomplete⟩

/-- A body with double quotes, taken out of single quotes. -/
def quotedBody : Witness :=
  ⟨{ raw := "witness body='say \"hi\"'".toList }, "say \"hi\"".toList⟩

/-- **Not every accepted message is relayed unchanged**: a witness writes its body between
double quotes, whatever is in it. -/
theorem not_all_relayed :
    ¬∀ (raw : Bytes) (m : Outgoing), m.AcceptsAs raw → m.CreatedFrom raw → m.Relayed := by
  intro h
  have hcreated : Witness.createFromRaw quotedBody.raw = some quotedBody := by decide
  have haccepted : Accepts quotedBody.raw .witness := by decide
  obtain ⟨_, m', hagain, hsame⟩ := h quotedBody.raw (.witness quotedBody) haccepted hcreated
  have hother : (Witness.createFromRaw quotedBody.serialize).map Witness.body =
      some "say hi".toList := by decide
  cases m' with
  | witness w =>
      have hw : Witness.createFromRaw quotedBody.serialize = some w := hagain
      rw [hw, Option.map_some, Option.some.injEq, hsame.2] at hother
      exact absurd hother (by decide)
  | request r => exact hsame
  | response r => exact hsame
  | responseError e => exact hsame
  | publish p => exact hsame

end SporeClient.Client
