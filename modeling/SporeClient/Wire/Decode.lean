/-
  Wire/Decode.lean --- a request comes back from its text exactly when its values are
  encodable.

  WHAT THIS FILE IS FOR.  `Wire/RoundTrip.lean` shows that a request with encodable values
  comes back.  For the other direction a place has to be found at which the lexer is in
  step with what was written.  No argument was read that is not in the map
  (`Request.ReadFrom.args_mem`), so the token at the first value has that value, which is
  encodable by `encodable_of_tokenText`; so the lexer is in step behind it, and so on
  (`read_values`).
-/
import SporeClient.Wire.ReadValues
import SporeClient.Wire.ReadBack

set_option autoImplicit false

namespace SporeClient.Wire

open SporeClient.Foundation
open SporeClient.Parser

/-! ## Requests of words -/

/-- A request all of whose parts but the values are words; the values are free of NUL. -/
structure Request.OfWords (r : Request) : Prop where
  command : IsWord r.command
  not_witness : r.command ≠ witnessWord
  not_publish : r.command ≠ publishWord
  handle : IsWord r.handle
  keys : ∀ p ∈ r.args.entries, IsWord p.1
  flags : ∀ f ∈ r.flags.toList, IsWord f
  no_nul : ∀ p ∈ r.args.entries, '\x00' ∉ p.2

section

variable {r : Request}

theorem separated_flags (flags : List Bytes) : Separated (serializeFlags flags) := by
  cases flags with
  | nil => exact Or.inl rfl
  | cons f rest => exact Or.inr rfl

/-- Every value of a request that comes back is encodable. -/
theorem Request.ComesBack.encodable (hback : r.ComesBack) (h : r.OfWords)
    (hlines : ∀ p ∈ r.args.entries, '\n' ∈ p.2 → NoCRLF (p.2 ++ ['\n'])) :
    ∀ p ∈ r.args.entries, IsEncodable p.2 := by
  have hcr := hback.noCRLF
  have hnul := hback.nul_not_mem
  obtain ⟨t, rest, htokens, hread⟩ := hback.readFrom
  have hin := hread.args_mem htokens
  rw [r.serialize_eq] at hcr hnul
  rw [r.serialize_eq, rawInput_line hcr] at htokens
  let command : Piece := ⟨r.command, flagToken r.command, h.command.lexes, h.command.ne_nil⟩
  let handle : Piece := ⟨'~' :: r.handle, handleToken r.handle, lexes_handle h.handle.solid,
    by simp [handleToken]⟩
  have hrow : IsRow (r.command ++ ' ' :: '~' :: r.handle)
      [flagToken r.command, handleToken r.handle] :=
    ⟨command, [handle], by simp [command, handle], rfl⟩
  have htext : r.text = r.command ++ ' ' :: '~' :: r.handle ++
      ((r.args.entries.map WrittenArg.encoded).flatMap WrittenArg.bytes ++
        serializeFlags r.flags.toList) := by
    rw [bytes_encoded, text, if_pos h.handle.ne_nil, serializeArgs]
    simp
  rw [htext] at hnul htokens
  have hall := read_values hrow (n := 1) (by simp) (separated_flags r.flags.toList)
    (List.forall_mem_map.mpr fun p hp => (h.keys p hp).isKey)
    (List.forall_mem_map.mpr fun p hp => WrittenArg.closes_encoded (hlines p hp))
    (fun hmem => hnul (List.mem_append_left _ hmem))
    (List.forall_mem_map.mpr fun p hp v hv => by
      rw [htokens, List.drop_one] at hv
      exact SortedMap.value_unique (hin _ hv) hp)
  exact fun p hp => (hall _ (List.mem_map_of_mem hp)).encodable (hlines p hp)

end

/-! ## Carriage returns on the wire -/

theorem noCRLF_of_no_newline {text : Bytes} (h : '\n' ∉ text) : NoCRLF text := fun hin =>
  h (hin.subset (by simp))

theorem noCRLF_encodeValue (v : Bytes) :
    NoCRLF (encodeValue v) ↔ ('\n' ∈ v → NoCRLF (v ++ ['\n'])) := by
  by_cases hnl : '\n' ∈ v
  · have hblock : blockText v = ['<', '<', '\n'] ++ (v ++ ['\n']) ++ closeMark := by
      simp [blockText, block, openMark]
    have hfront : NoCRLF ['<', '<', '\n'] := by decide
    have hback : NoCRLF ['>', '>'] := by decide
    rw [encodeValue_of_newline hnl, hblock, noCRLF_append, noCRLF_append]
    simp [hfront, hback, hnl, closeMark]
  · have hencoded : '\n' ∉ encodeValue v := by
      unfold encodeValue
      rw [if_neg hnl]
      split
      · simp [hnl]
      · split
        · simp [hnl]
        · exact hnl
    simp [noCRLF_of_no_newline hencoded, hnl]

theorem noCRLF_serializeArgs {args : List (Bytes × Bytes)} (hkeys : ∀ p ∈ args, IsWord p.1) :
    NoCRLF (args.flatMap fun p => serializeArg p.1 p.2) ↔
      ∀ p ∈ args, '\n' ∈ p.2 → NoCRLF (p.2 ++ ['\n']) := by
  induction args with
  | nil => simp [noCRLF_of_not_mem]
  | cons p rest ih =>
      have hrest := ih fun q hq => hkeys q (List.mem_cons_of_mem _ hq)
      have hhead : (rest.flatMap fun p => serializeArg p.1 p.2).head? ≠ some '\n' := by
        cases rest with
        | nil => simp
        | cons q rest => simp [serializeArg]
      have hword : '\r' ∉ p.1 := (hkeys p List.mem_cons_self).not_mem rfl
      have hkey : NoCRLF ((' ' :: p.1) ++ ['=']) := noCRLF_of_not_mem (by simp [hword])
      have harg : serializeArg p.1 p.2 = ((' ' :: p.1) ++ ['=']) ++ encodeValue p.2 := by
        simp [serializeArg]
      have hlast : ((' ' :: p.1) ++ ['=']).getLast? ≠ some '\r' := by
        rw [List.getLast?_concat]
        simp
      rw [List.flatMap_cons, noCRLF_append, harg, noCRLF_append, noCRLF_encodeValue, hrest,
        List.forall_mem_cons]
      tauto

/-- The encoding ends with a carriage return when the value does and is written as it is. -/
theorem getLast?_encodeValue (v : Bytes) :
    (encodeValue v).getLast? = some '\r' ↔
      v.getLast? = some '\r' ∧ ¬('\n' ∈ v ∨ '"' ∈ v ∨ ' ' ∈ v ∨ '\t' ∈ v) := by
  have hquoted : ∀ q : Char, q ≠ '\r' → (q :: v ++ [q]).getLast? ≠ some '\r' := fun q hq => by
    rw [List.getLast?_concat]
    simpa using hq
  unfold encodeValue
  by_cases hnl : '\n' ∈ v
  · have hblock : ['<', '<', '\n'] ++ v ++ ['\n', '>', '>'] =
        (['<', '<', '\n'] ++ v ++ ['\n', '>']) ++ ['>'] := by simp
    rw [if_pos hnl, hblock, List.getLast?_concat]
    simp [hnl]
  · by_cases hq : '"' ∈ v
    · rw [if_neg hnl, if_pos hq]
      simpa [hq] using hquoted '\'' (by decide)
    · by_cases hsp : ' ' ∈ v ∨ '\t' ∈ v
      · rw [if_neg hnl, if_neg hq, if_pos hsp]
        simpa [hsp] using hquoted '"' (by decide)
      · simp [hnl, hq, hsp]

/-- **What a request must be like to come back**: its values are encodable, and its text
does not end with a carriage return, which only the last value can bring about, when no
flag follows and it is written as it is. -/
structure Request.Decodable (r : Request) : Prop where
  values : ∀ p ∈ r.args.entries, IsEncodable p.2
  last : r.flags.toList = [] → ∀ p, r.args.entries.getLast? = some p →
    p.2.getLast? = some '\r' → '\n' ∈ p.2 ∨ '"' ∈ p.2 ∨ ' ' ∈ p.2 ∨ '\t' ∈ p.2

section

variable {r : Request}

/-- The text ends with a carriage return when the last value is there and does so. -/
theorem Request.OfWords.last_iff (h : r.OfWords) :
    r.text.getLast? = some '\r' ↔
      r.flags.toList = [] ∧ ∃ p, r.args.entries.getLast? = some p ∧
        (encodeValue p.2).getLast? = some '\r' := by
  have hlast : ∀ (front w : Bytes), '\r' ∉ w → w ≠ [] → (front ++ w).getLast? ≠ some '\r' := by
    intro front w hw hne heq
    rw [List.getLast?_append_of_ne_nil _ hne] at heq
    exact hw (List.mem_of_getLast? heq)
  rcases List.eq_nil_or_concat r.flags.toList with hflags | ⟨fs, f, hflags⟩
  · rcases List.eq_nil_or_concat r.args.entries with hargs | ⟨ps, p, hargs⟩
    · -- the handle is last
      have htext : r.text = (r.command ++ [' ', '~']) ++ r.handle := by
        simp [text, h.handle.ne_nil, serializeArgs, serializeFlags, hflags, hargs]
      rw [htext, iff_false_left (hlast _ _ (h.handle.not_mem rfl) h.handle.ne_nil)]
      simp [hargs]
    · -- an argument is last
      have htext : r.text = (r.command ++ [' ', '~'] ++ r.handle ++
          (ps.flatMap fun p => serializeArg p.1 p.2) ++ ' ' :: p.1 ++ ['=']) ++
          encodeValue p.2 := by
        simp [text, h.handle.ne_nil, serializeArgs, serializeFlags, hflags, hargs, serializeArg]
      rw [htext, hargs, List.concat_eq_append, List.getLast?_concat]
      cases hencoded : encodeValue p.2 with
      | nil =>
          rw [List.append_nil, List.getLast?_concat]
          simp [hencoded]
      | cons c e =>
          rw [List.getLast?_append_of_ne_nil _ (by simp)]
          simp [hflags, hencoded]
  · -- a flag is last
    have hf : IsWord f := h.flags f (by rw [hflags]; simp)
    have htext : r.text = (r.command ++ [' ', '~'] ++ r.handle ++ serializeArgs r.args ++
        serializeFlags fs ++ [' ']) ++ f := by
      simp [text, h.handle.ne_nil, serializeFlags, hflags]
    rw [htext, iff_false_left (hlast _ _ (hf.not_mem rfl) hf.ne_nil)]
    simp [hflags]

/-- No carriage return is taken away from the text. -/
theorem Request.OfWords.noCRLF_iff (h : r.OfWords) :
    NoCRLF r.serialize ↔
      (∀ p ∈ r.args.entries, '\n' ∈ p.2 → NoCRLF (p.2 ++ ['\n'])) ∧
        ¬r.text.getLast? = some '\r' := by
  have hflags : '\r' ∉ serializeFlags r.flags.toList := fun hmem => by
    obtain ⟨f, hf, hin⟩ := List.mem_flatMap.mp hmem
    rcases List.mem_cons.mp hin with heq | hin
    · simp at heq
    · exact (h.flags f hf).not_mem rfl hin
  have hhead : '\r' ∉ r.command ++ ([' ', '~'] ++ r.handle) := by
    simp [h.command.not_mem (show wordChar '\r' = false from rfl),
      h.handle.not_mem (show wordChar '\r' = false from rfl)]
  have hspace : (serializeFlags r.flags.toList).head? ≠ some '\n' := by
    cases r.flags.toList with
    | nil => simp [serializeFlags]
    | cons f rest => simp [serializeFlags]
  have hheadLast : (r.command ++ ([' ', '~'] ++ r.handle)).getLast? ≠ some '\r' := fun heq =>
    hhead (List.mem_of_getLast? heq)
  have hnewline : NoCRLF ['\n'] := by decide
  rw [serialize_eq, noCRLF_append]
  have htext : NoCRLF r.text ↔ ∀ p ∈ r.args.entries, '\n' ∈ p.2 → NoCRLF (p.2 ++ ['\n']) := by
    rw [text, if_pos h.handle.ne_nil, noCRLF_append, noCRLF_append, serializeArgs,
      noCRLF_serializeArgs h.keys]
    have hf := noCRLF_of_not_mem hflags
    have hh := noCRLF_of_not_mem hhead
    tauto
  rw [htext]
  simp [hnewline]

/-- **A request of words comes back from its text exactly when it is decodable.** -/
theorem Request.comesBack_iff (h : r.OfWords) : r.ComesBack ↔ r.Decodable := by
  constructor
  · intro hback
    have hcr := (h.noCRLF_iff).mp hback.noCRLF
    refine ⟨hback.encodable h hcr.1, fun hflags p hp hlast => ?_⟩
    by_contra hplain
    exact hcr.2 (h.last_iff.mpr ⟨hflags, p, hp, (getLast?_encodeValue p.2).mpr ⟨hlast, hplain⟩⟩)
  · intro hdec
    have hlines : ∀ p ∈ r.args.entries, '\n' ∈ p.2 → NoCRLF (p.2 ++ ['\n']) := fun p hp hnl => by
      have henc := hdec.values p hp
      rw [IsEncodable, if_pos hnl] at henc
      exact henc.2
    have hlast : ¬r.text.getLast? = some '\r' := fun hlast => by
      obtain ⟨hflags, p, hp, hencoded⟩ := h.last_iff.mp hlast
      obtain ⟨hv, hplain⟩ := (getLast?_encodeValue p.2).mp hencoded
      exact hplain (hdec.last hflags p hp hv)
    have hsend : r.Sendable :=
      { message :=
          { args := fun p hp => .of_isKey (h.keys p hp).isKey ⟨hdec.values p hp, h.no_nul p hp⟩
            flags := fun f hf => (h.flags f hf).isBare }
        command := h.command.isBare
        not_witness := h.not_witness
        not_publish := h.not_publish
        handle := h.handle.isHandle }
    exact ⟨_, Request.createFromRaw_serialize hsend (h.noCRLF_iff.mpr ⟨hlines, hlast⟩),
      ⟨rfl, rfl, rfl, rfl⟩⟩

end

/-- A request with a value of each encoding: as it is, in double quotes, in single quotes
and in a block. -/
def fourEncodings : Request :=
  ⟨{ command := ['c'], handle := ['h'], flags := SortedSet.ofList [['f']]
     args := SortedMap.ofList
      [(['i'], ['[', '\'', ']']), (['j'], ['a', ' ', '\'']), (['k'], ['"', ' ', '<', '<']),
        (['l'], ['\'', '\n', '<', '<'])] }⟩

theorem fourEncodings_ofWords : fourEncodings.OfWords where
  command := by decide
  not_witness := by decide
  not_publish := by decide
  handle := by decide
  keys := by decide
  flags := by decide
  no_nul := by decide

/-- It comes back, as it is decodable. -/
theorem fourEncodings_comesBack : fourEncodings.OfWords ∧ fourEncodings.ComesBack :=
  ⟨fourEncodings_ofWords, (Request.comesBack_iff fourEncodings_ofWords).mpr
    ⟨by decide, fun h => absurd h (by decide)⟩⟩

/-- A request whose value is a single quote, which `serializeArg` writes as it is. -/
def singleQuote : Request :=
  ⟨{ command := ['c'], handle := ['h'], args := SortedMap.ofList [(['k'], ['\''])] }⟩

/-- Not every request of words comes back: the lexer takes the quote for the start of a
quoted text. -/
theorem not_all_come_back : ¬∀ r : Request, r.OfWords → r.ComesBack := by
  intro h
  obtain ⟨r', hcreate, hsame⟩ := h singleQuote
    ⟨by decide, by decide, by decide, by decide, by decide, by decide, by decide⟩
  have hread : Request.createFromRaw singleQuote.serialize =
      some ⟨{ command := ['c'], handle := ['h'], args := SortedMap.ofList [(['k'], [])]
              raw := singleQuote.serialize }⟩ := by decide
  rw [hread] at hcreate
  obtain rfl := Option.some.inj hcreate
  exact absurd hsame.args (by decide)

end SporeClient.Wire
