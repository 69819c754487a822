/-
  Wire/Counting.lean --- counting bytes on their way from a message to its text and back.

  WHAT THIS FILE IS FOR.  A byte that no encoding adds and the lexer does not leave out
  stands in the text of a message as often as in its fields, and in the fields of what is
  read from a text at most as often as in the text.  So a message that comes back was read
  without loss: no carriage return was taken away, no argument was read twice, no handle
  was overwritten.
-/
import SporeClient.Wire.RoundTrip

set_option autoImplicit false

namespace SporeClient.Wire

open SporeClient.Foundation
open SporeClient.Parser

/-- Bytes that are neither added by an encoding nor left out or added by the lexer. -/
def isCounted (x : Char) : Bool := !isGap x && !isCloser x && x != '<' && x != '\n'

theorem isCounted_iff {x : Char} :
    isCounted x = true ↔ isGap x = false ∧ isCloser x = false ∧ x ≠ '<' ∧ x ≠ '\n' := by
  simp [isCounted, and_assoc]

/-! ## Fields -/

/-- How often `x` stands in keys and values. -/
def countArgs (x : Char) (args : List (Bytes × Bytes)) : Nat :=
  (args.map fun p => p.1.count x + p.2.count x).sum

/-- How often `x` stands in texts. -/
def countAll (x : Char) (l : List Bytes) : Nat := (l.map fun f => f.count x).sum

/-- How often `x` stands in the arguments and flags of a message, with the `=` of each
argument. -/
def countFields (x : Char) (m : Message) : Nat :=
  countArgs x m.args.entries + (if x = '=' then m.args.entries.length else 0) +
    countAll x m.flags.toList

theorem countAll_cons (x : Char) (f : Bytes) (l : List Bytes) :
    countAll x (f :: l) = f.count x + countAll x l := by simp [countAll]

/-- A byte that is in no field is not counted, and the other way round. -/
theorem countFields_eq_zero {x : Char} {m : Message} (hx : x ≠ '=')
    (hargs : ∀ p ∈ m.args.entries, x ∉ p.1 ∧ x ∉ p.2) (hflags : ∀ f ∈ m.flags.toList, x ∉ f) :
    countFields x m = 0 := by
  have hargs' : countArgs x m.args.entries = 0 := List.sum_eq_zero fun n hn => by
    obtain ⟨p, hp, rfl⟩ := List.mem_map.mp hn
    simp [List.count_eq_zero.mpr (hargs p hp).1, List.count_eq_zero.mpr (hargs p hp).2]
  have hflags' : countAll x m.flags.toList = 0 := List.sum_eq_zero fun n hn => by
    obtain ⟨f, hf, rfl⟩ := List.mem_map.mp hn
    exact List.count_eq_zero.mpr (hflags f hf)
  rw [countFields, hargs', hflags', if_neg hx]

/-! ## Texts -/

/-- A byte that no encoding adds or takes away. -/
theorem count_encodeValue {x : Char} (hx : isCounted x = true) (v : Bytes) :
    (encodeValue v).count x = v.count x := by
  obtain ⟨hgap, hcloser, hlt, hnl⟩ := isCounted_iff.mp hx
  have hne : x ≠ ' ' ∧ x ≠ '"' ∧ x ≠ '\'' := by simpa [isGap, not_or, and_assoc] using hgap
  have hgt : x ≠ ']' ∧ x ≠ '}' ∧ x ≠ '>' := by simpa [isCloser, not_or, and_assoc] using hcloser
  unfold encodeValue
  split
  · simp [hlt.symm, hgt.2.2.symm, hnl.symm]
  · split
    · simp [hne.2.2.symm]
    · split
      · simp [hne.2.1.symm]
      · rfl

/-- The arguments on the wire have the bytes of their keys and values, and an `=` each. -/
theorem count_serializeArgs {x : Char} (hx : isCounted x = true) (args : List (Bytes × Bytes)) :
    (args.flatMap fun p => serializeArg p.1 p.2).count x =
      countArgs x args + if x = '=' then args.length else 0 := by
  have hspace : ' ' ≠ x := by
    rintro rfl
    simp [isCounted, isGap] at hx
  induction args with
  | nil => simp [countArgs]
  | cons p rest ih =>
      have harg : (serializeArg p.1 p.2).count x =
          p.1.count x + p.2.count x + if x = '=' then 1 else 0 := by
        simp only [serializeArg, List.count_append, List.count_cons, beq_iff_eq, hspace, if_false,
          count_encodeValue hx, eq_comm (a := x)]
        omega
      rw [List.flatMap_cons, List.count_append, ih, harg]
      simp only [countArgs, List.map_cons, List.sum_cons, List.length_cons]
      split <;> omega

theorem count_serializeFlags {x : Char} (hx : isCounted x = true) (flags : List Bytes) :
    (serializeFlags flags).count x = countAll x flags := by
  have hspace : ' ' ≠ x := by
    rintro rfl
    simp [isCounted, isGap] at hx
  induction flags with
  | nil => rfl
  | cons f rest ih =>
      have hcons : serializeFlags (f :: rest) = ' ' :: (f ++ serializeFlags rest) := rfl
      rw [hcons, List.count_cons, List.count_append, ih, countAll_cons]
      simp [hspace]

/-- The row of arguments and flags has the bytes of the fields. -/
theorem count_fields {x : Char} (hx : isCounted x = true) (m : Message) :
    (serializeArgs m.args ++ serializeFlags m.flags.toList).count x = countFields x m := by
  rw [List.count_append, serializeArgs, count_serializeArgs hx, count_serializeFlags hx]
  rfl

/-! ## Tokens -/

/-- The handles among the tokens, with their `~`. -/
def handlesIn (tokens : List Token) : List Bytes :=
  tokens.filterMap fun t => if t.type = .handle then some t.value else none

/-- A C string has no byte that the bytes have not. -/
theorem count_cstr_le (x : Char) (v : Bytes) : (cstr v).count x ≤ v.count x :=
  (List.takeWhile_sublist _).count_le x

/-- What is read from tokens has no byte that the tokens have not, and each argument used
up an `=`. -/
theorem count_parts_le {x : Char} {tokens : List Token}
    (h : ∀ t ∈ tokens, t.type = .arg → '=' ∈ t.value) :
    countArgs x (argsOf tokens) + (if x = '=' then (argsOf tokens).length else 0) +
        countAll x (flagsOf tokens) + countAll x (handlesIn tokens) ≤
      countIn x tokens := by
  induction tokens with
  | nil => simp [countArgs, argsOf, countAll, flagsOf, handlesIn]
  | cons t rest ih =>
      have hrest := ih fun u hu => h u (List.mem_cons_of_mem _ hu)
      rw [argsOf_cons, flagsOf_cons, countIn_cons, handlesIn, List.filterMap_cons]
      rw [handlesIn] at hrest
      cases htype : t.type with
      | arg =>
          obtain ⟨key, val, hvalue, hargOf⟩ := argOf_split (h t List.mem_cons_self htype)
          have hkey := count_cstr_le x key
          have hval : (cstr (stripBlock val)).count x ≤ val.count x :=
            Nat.le_trans (count_cstr_le x _) ((stripBlock_sublist val).count_le x)
          have htotal : t.value.count x = key.count x + val.count x + if x = '=' then 1 else 0 := by
            rw [hvalue, List.count_append, List.count_cons]
            simp only [beq_iff_eq, eq_comm (a := '=')]
            omega
          rw [hargOf, htotal]
          simp only [countArgs, List.map_cons, List.sum_cons, List.length_cons, reduceCtorEq,
            if_false, if_true]
          unfold countArgs at hrest
          split
          · rename_i hx
            rw [if_pos hx] at hrest
            omega
          · rename_i hx
            rw [if_neg hx] at hrest
            omega
      | handle =>
          simp only [reduceCtorEq, if_false, if_true, countAll_cons]
          omega
      | none =>
          have hflag := count_cstr_le x t.value
          simp only [reduceCtorEq, if_false, if_true, countAll_cons]
          omega

/-- What is read from a token has no NUL. -/
theorem nul_not_mem_argsOf {tokens : List Token} {p : Bytes × Bytes} (h : p ∈ argsOf tokens) :
    '\x00' ∉ p.1 ∧ '\x00' ∉ p.2 := by
  obtain ⟨t, _, heq⟩ := List.mem_filterMap.mp h
  split at heq
  · rw [← Option.some.inj heq]
    exact ⟨nul_not_mem_cstr _, nul_not_mem_cstr _⟩
  · simp at heq

theorem nul_not_mem_flagsOf {tokens : List Token} {f : Bytes} (h : f ∈ flagsOf tokens) :
    '\x00' ∉ f := by
  obtain ⟨t, _, heq⟩ := List.mem_filterMap.mp h
  split at heq
  · rw [← Option.some.inj heq]
    exact nul_not_mem_cstr _
  · simp at heq

/-- The fields of a message that is made from tokens have no NUL. -/
theorem countFields_nul {m : Message} {tokens : List Token}
    (hargs : m.args = SortedMap.ofList (argsOf tokens))
    (hflags : m.flags = SortedSet.ofList (flagsOf tokens)) : countFields '\x00' m = 0 := by
  apply countFields_eq_zero (by decide)
  · intro p hp
    rw [hargs] at hp
    exact nul_not_mem_argsOf (SortedMap.mem_of_mem_ofList hp)
  · intro f hf
    rw [hflags] at hf
    exact nul_not_mem_flagsOf (SortedSet.mem_ofList.mp hf)

/-- A handle without the `~` in front is read from one of the handles. -/
theorem handleOf_cases (h : Bytes) (tokens : List Token) :
    (handlesIn tokens = [] ∧ handleOf h tokens = h) ∨
      ∃ v ∈ handlesIn tokens, handleOf h tokens = cstr (v.drop 1) := by
  induction tokens generalizing h with
  | nil => exact Or.inl ⟨rfl, rfl⟩
  | cons t rest ih =>
      have hcons : handleOf h (t :: rest) =
          handleOf (if t.type = .handle then cstr (t.value.drop 1) else h) rest := rfl
      rw [hcons]
      rcases ih (if t.type = .handle then cstr (t.value.drop 1) else h)
        with ⟨hnil, heq⟩ | ⟨v, hv, heq⟩
      · rw [heq]
        by_cases htype : t.type = .handle
        · rw [if_pos htype]
          exact Or.inr ⟨t.value, by simp [handlesIn, htype], rfl⟩
        · rw [if_neg htype]
          exact Or.inl ⟨by simpa [handlesIn, htype] using hnil, rfl⟩
      · refine Or.inr ⟨v, ?_, heq⟩
        rw [handlesIn, List.filterMap_cons]
        split
        · exact hv
        · exact List.mem_cons_of_mem _ hv

theorem handleOf_count_le (x : Char) (h : Bytes) (tokens : List Token) :
    (handleOf h tokens).count x ≤ h.count x + countAll x (handlesIn tokens) := by
  rcases handleOf_cases h tokens with ⟨_, heq⟩ | ⟨v, hv, heq⟩
  · rw [heq]
    omega
  · have hle : (cstr (v.drop 1)).count x ≤ v.count x :=
      (count_cstr_le x _).trans ((List.drop_sublist 1 v).count_le x)
    have hin : v.count x ≤ countAll x (handlesIn tokens) :=
      List.single_le_sum (by simp) _ (List.mem_map.mpr ⟨v, hv, rfl⟩)
    rw [heq]
    omega

/-- The first token has the bytes of the command and the handle that are made of it. -/
theorem buildFirst_count_le (x : Char) (p : ParserState) (t : Token) :
    (buildFirst p {} t).2.capability.count x + (buildFirst p {} t).2.handle.count x ≤
      t.value.count x := by
  have hall := count_cstr_le x t.value
  unfold buildFirst
  cases t.type with
  | arg => simpa using hall
  | handle =>
      have hdrop := (List.drop_sublist 1 t.value).count_le x
      cases hsplit : splitFirst ':' (t.value.drop 1) with
      | none => simpa using (count_cstr_le x _).trans hdrop
      | some ab =>
          obtain ⟨hvalue, _⟩ := splitFirst_eq_some hsplit
          rw [hvalue, List.count_append, List.count_cons] at hdrop
          have ha := count_cstr_le x ab.1
          have hb := count_cstr_le x ab.2
          simp only
          omega
  | none =>
      simp only
      split
      · simpa using hall
      · split
        · simp
        · simpa using hall

/-- The first token makes no arguments and no flags. -/
theorem buildFirst_empty (p : ParserState) (m : ParsedMessage) (t : Token) :
    (buildFirst p m t).2.args = m.args ∧ (buildFirst p m t).2.flags = m.flags := by
  unfold buildFirst
  cases t.type with
  | arg => exact ⟨rfl, rfl⟩
  | handle =>
      simp only
      split <;> exact ⟨rfl, rfl⟩
  | none =>
      simp only
      split
      · exact ⟨rfl, rfl⟩
      · split <;> exact ⟨rfl, rfl⟩

/-- **What a text is parsed to**: in front one token, or the two of a publish, and then the
arguments, flags and handles of the rest. -/
theorem parse_parts (text : Bytes) :
    ∃ front rest, tokenize text = front ++ rest ∧
      (front.length ≤ 1 ∨ front.length = 2 ∧ (parseNew text).1.type = .publish) ∧
      (parseNew text).2.args = argsOf rest ∧ (parseNew text).2.flags = flagsOf rest ∧
      ∀ x, (parseNew text).2.capability.count x + (parseNew text).2.handle.count x ≤
        countIn x front + countAll x (handlesIn rest) := by
  rw [parseNew_eq]
  cases htokens : tokenize text with
  | nil => exact ⟨[], [], rfl, Or.inl (by simp), rfl, rfl, fun x => by simp [build, buildLoop]⟩
  | cons t rest =>
      by_cases htype : (buildFirst {} {} t).1.type = .publish
      · obtain rfl := buildFirst_publish htype
        cases rest with
        | nil =>
            exact ⟨[⟨publishWord, .none⟩], [], rfl, Or.inl (by simp), rfl, rfl,
              fun x => Nat.zero_le _⟩
        | cons topic rest =>
            rw [build_publish]
            refine ⟨[⟨publishWord, .none⟩, topic], rest, rfl, Or.inr ⟨rfl, rfl⟩, rfl, rfl,
              fun x => ?_⟩
            have htopic := count_cstr_le x topic.value
            have hhandle := handleOf_count_le x [] rest
            simp only [ParsedMessage.addTokens, countIn_cons, List.count_nil] at hhandle ⊢
            omega
      · have hempty := buildFirst_empty {} {} t
        rw [build_eq rest htype]
        refine ⟨[t], rest, rfl, Or.inl (by simp), ?_, ?_, fun x => ?_⟩
        · simp only [ParsedMessage.addTokens, hempty.1, List.nil_append]
        · simp only [ParsedMessage.addTokens, hempty.2, List.nil_append]
        · have hfirst := buildFirst_count_le x {} t
          have hhandle := handleOf_count_le x (buildFirst {} {} t).2.handle rest
          simp only [ParsedMessage.addTokens, countIn_cons, countIn_nil] at hhandle ⊢
          omega

theorem nul_not_mem_handleOf {h : Bytes} (hnul : '\x00' ∉ h) (tokens : List Token) :
    '\x00' ∉ handleOf h tokens := by
  rcases handleOf_cases h tokens with ⟨_, heq⟩ | ⟨v, _, heq⟩
  · rwa [heq]
  · rw [heq]
    exact nul_not_mem_cstr _

/-- Every handle has its `~`. -/
theorem tilde_mem_handlesIn {message : Bytes} {tokens : List Token}
    (h : ∀ t ∈ tokens, t ∈ tokenize message) {v : Bytes} (hv : v ∈ handlesIn tokens) :
    v.head? = some '~' := by
  obtain ⟨t, ht, heq⟩ := List.mem_filterMap.mp hv
  split at heq
  · rename_i htype
    rw [← Option.some.inj heq]
    exact tilde_front_of_handle (h t ht) htype
  · simp at heq

/-- What an argument weighs, added up. -/
theorem sum_weights (x : Char) (l : List (Bytes × Bytes)) :
    (l.map fun p => p.1.count x + p.2.count x + if x = '=' then 1 else 0).sum =
      countArgs x l + if x = '=' then l.length else 0 := by
  induction l with
  | nil => simp [countArgs]
  | cons p l ih =>
      rw [List.map_cons, List.sum_cons, ih]
      simp only [countArgs, List.map_cons, List.sum_cons, List.length_cons]
      split <;> omega

section

variable {message : Bytes} {tokens : List Token} {args : List (Bytes × Bytes)} {flags : List Bytes}

/-- Arguments and flags that were read have no byte that the tokens have not; the bytes of
handles are spare. -/
theorem count_read_le (h : ∀ t ∈ tokens, t ∈ tokenize message) (hargsNodup : args.Nodup)
    (hargs : args ⊆ argsOf tokens) (hflagsNodup : flags.Nodup) (hflags : flags ⊆ flagsOf tokens)
    (x : Char) :
    countArgs x args + (if x = '=' then args.length else 0) + countAll x flags +
      countAll x (handlesIn tokens) ≤ countIn x tokens := by
  have hparts := count_parts_le (x := x) fun t ht => eq_mem_of_arg (h t ht)
  have hmap := sum_le_of_subset hargsNodup hargs
    fun p => p.1.count x + p.2.count x + if x = '=' then 1 else 0
  rw [sum_weights, sum_weights] at hmap
  have hset : countAll x flags ≤ countAll x (flagsOf tokens) :=
    sum_le_of_subset hflagsNodup hflags _
  omega

/-- **Nothing else was read** when every `=` of the tokens is one of these. -/
theorem args_mem_of_count (h : ∀ t ∈ tokens, t ∈ tokenize message) (hargsNodup : args.Nodup)
    (hargs : args ⊆ argsOf tokens) (hflagsNodup : flags.Nodup) (hflags : flags ⊆ flagsOf tokens)
    (hcount : countIn '=' tokens ≤ countArgs '=' args + args.length + countAll '=' flags +
      countAll '=' (handlesIn tokens)) {q : Bytes × Bytes} (hq : q ∈ argsOf tokens) :
    q ∈ args := by
  have hparts := count_parts_le (x := '=') fun t ht => eq_mem_of_arg (h t ht)
  have hset : countAll '=' flags ≤ countAll '=' (flagsOf tokens) :=
    sum_le_of_subset hflagsNodup hflags _
  refine mem_of_subset_of_weight hargsNodup hargs
    (w := fun p => p.1.count '=' + p.2.count '=' + if '=' = '=' then 1 else 0)
    (fun p => Nat.succ_pos _) ?_ hq
  rw [sum_weights, sum_weights, if_pos rfl, if_pos rfl]
  rw [if_pos rfl] at hparts
  omega

end

/-- The fields of a message that is made from tokens have no byte that the tokens have
not. -/
theorem countFields_le {x : Char} {message : Bytes} {tokens : List Token}
    (h : ∀ t ∈ tokens, t ∈ tokenize message) {m : Message}
    (hargs : m.args = SortedMap.ofList (argsOf tokens))
    (hflags : m.flags = SortedSet.ofList (flagsOf tokens)) :
    countFields x m + countAll x (handlesIn tokens) ≤ countIn x tokens :=
  count_read_le h m.args.nodup (fun _ hp => SortedMap.mem_of_mem_ofList (hargs ▸ hp))
    (SortedSet.nodup_toList m.flags)
    (fun _ hf => SortedSet.mem_ofList.mp (hflags ▸ SortedSet.mem_toList.mp hf)) x

/-! ## Raw texts -/

theorem count_dropCR {x : Char} (hx : x ≠ '\r') (raw : Bytes) :
    (dropCR raw).count x = raw.count x := by
  induction raw with
  | nil => rfl
  | cons c rest ih =>
      rw [dropCR]
      split
      · rename_i hc
        rw [ih, List.count_cons, hc.1]
        simp [Ne.symm hx]
      · rw [List.count_cons, List.count_cons, ih]

theorem dropCR_sublist (raw : Bytes) : (dropCR raw).Sublist raw := by
  induction raw with
  | nil => exact List.Sublist.refl []
  | cons c rest ih =>
      rw [dropCR]
      split
      · exact ih.trans (List.sublist_cons_self c rest)
      · exact ih.cons_cons c

/-- A carriage return before a newline is lost. -/
theorem count_dropCR_lt {raw : Bytes} (h : ¬NoCRLF raw) :
    (dropCR raw).count '\r' < raw.count '\r' := by
  induction raw with
  | nil => exact absurd (noCRLF_of_not_mem (by simp)) h
  | cons c rest ih =>
      rw [dropCR]
      split
      · rename_i hc
        have hrest := (dropCR_sublist rest).count_le '\r'
        rw [List.count_cons, hc.1]
        simp only [beq_self_eq_true, if_true]
        omega
      · rename_i hc
        have hrest := ih fun hno => h (by
          rw [NoCRLF, pair_infix_cons, not_or]
          exact ⟨hc, hno⟩)
        rw [List.count_cons, List.count_cons]
        omega

theorem count_trimBack {x : Char} (hx : x ≠ '\n') (s : Bytes) :
    (trimBack s).count x = s.count x := by
  unfold trimBack
  split
  · rename_i h
    obtain ⟨r, rfl⟩ := List.getLast?_eq_some_iff.mp h
    simp [Ne.symm hx]
  · rfl

/-- The tokens of what `parseRaw` parses have the bytes of the raw text without its
carriage returns. -/
theorem countIn_rawInput {x : Char} (hx : isCounted x = true) (raw : Bytes) :
    countIn x (tokenize (rawInput raw)) = (dropCR raw).count x := by
  obtain ⟨hgap, hcloser, _, hnl⟩ := isCounted_iff.mp hx
  rw [count_tokenize hgap hcloser, rawInput, count_trimBack hnl]

/-- **Nothing is lost** when the tokens have as many carriage returns as the raw text. -/
theorem noCRLF_of_count_le {raw : Bytes}
    (h : raw.count '\r' ≤ countIn '\r' (tokenize (rawInput raw))) :
    NoCRLF raw := by
  by_contra hno
  have hlost := count_dropCR_lt hno
  rw [countIn_rawInput rfl] at h
  omega

end SporeClient.Wire
