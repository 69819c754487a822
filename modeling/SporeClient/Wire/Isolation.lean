/-
  Wire/Isolation.lean --- the value of one argument and the rest of a publish.

  WHAT THIS FILE IS FOR.  Two publishes that differ in the value of one key are written,
  and read with `create_from_raw`.  The rest of what is read should be the same for both:
  the topic, the keys, the other values, the flags.  A value is `Contained` when its own
  piece of the text, read by itself, is read to its end and makes nothing but arguments
  with its own key.  Contained values do not interfere (`isIsolated_of_contained`), and a
  value that is not contained does so in some publish (`contained_iff`).
-/
import SporeClient.Wire.Decode

set_option autoImplicit false

namespace SporeClient.Wire

open SporeClient.Foundation
open SporeClient.Parser

/-! ## Publishes that are the same but for one value -/

/-- The two publishes have the same topic, keys and flags, and the same values but for the
key `k`. -/
structure SameBut (k : Bytes) (a b : Publish) : Prop where
  topic : a.topic = b.topic
  keys : ∀ x, x ∈ a.args.keys ↔ x ∈ b.args.keys
  values : ∀ x, x ≠ k → a.args.find? x = b.args.find? x
  flags : a.flags = b.flags

/-- The topic, the keys and the flags are words, and no value has a NUL. -/
structure Publish.OfWords (p : Publish) : Prop where
  topic : IsWord p.topic
  keys : ∀ q ∈ p.args.entries, IsWord q.1
  flags : ∀ f ∈ p.flags.toList, IsWord f
  no_nul : ∀ q ∈ p.args.entries, '\x00' ∉ q.2

/-- What is read from the texts of two publishes is the same but for the value of `k`. -/
def IsIsolated (k : Bytes) (p p' : Publish) : Prop :=
  ∃ a b, Publish.createFromRaw p.serialize = some a ∧
    Publish.createFromRaw p'.serialize = some b ∧ SameBut k a b

/-! ## Contained values -/

/-- The tokens are arguments with the key `k`; handles, which a publish does not use, are
let pass. -/
def OnlyKey (k : Bytes) (tokens : List Token) : Prop :=
  ∀ t ∈ tokens, t.type ≠ .none ∧ (t.type = .arg → (argOf t.value).1 = k)

instance (k : Bytes) (tokens : List Token) : Decidable (OnlyKey k tokens) :=
  inferInstanceAs (Decidable (∀ _ ∈ _, _))

/-- The text is read to the end of what it opens, and to nothing but arguments with the
key `k`. -/
structure StaysIn (k text : Bytes) : Prop where
  ends : Mode.outside.after text none = .outside
  only : OnlyKey k (tokenize text)

/-- Read by itself, as `parseRaw` leaves it, the text of the argument stays in it. -/
def Contained (k v : Bytes) : Prop := StaysIn k (k ++ '=' :: dropCR (encodeValue v))

/-- The text in front of the argument with the key `k`. -/
def Publish.front (p : Publish) (k : Bytes) : Bytes :=
  publishWord ++ ' ' :: p.topic ++
    (p.args.entries.takeWhile fun q => q.1 ≠ k).flatMap fun q => serializeArg q.1 q.2

/-- The lexer is outside everything in front of the argument with the key `k`. -/
def Publish.Reaches (p : Publish) (k : Bytes) : Prop :=
  Mode.outside.after (dropCR (p.front k)) none = .outside

/-! ## The raw text in parts -/

theorem dropCR_append {a b : Bytes} (h : ¬(a.getLast? = some '\r' ∧ b.head? = some '\n')) :
    dropCR (a ++ b) = dropCR a ++ dropCR b := by
  induction a with
  | nil => rfl
  | cons c rest ih =>
      cases rest with
      | nil =>
          have hno : ¬(c = '\r' ∧ b.head? = some '\n') := fun hc => h ⟨by simp [hc.1], hc.2⟩
          simp [dropCR, hno]
      | cons d rest =>
          have hrest := ih (by simpa using h)
          rw [List.cons_append, dropCR, dropCR, hrest]
          by_cases hc : c = '\r' ∧ d = '\n'
          · simp [hc]
          · simp [hc]

theorem dropCR_ne_nil {a : Bytes} (h : a ≠ []) : dropCR a ≠ [] := by
  induction a with
  | nil => exact absurd rfl h
  | cons c rest ih =>
      rw [dropCR]
      split
      · rename_i hc
        apply ih
        rintro rfl
        simp at hc
      · simp

theorem trimBack_append {a b : Bytes} (h : b ≠ []) : trimBack (a ++ b) = a ++ trimBack b := by
  have hlast : (a ++ b).getLast? = b.getLast? := by
    obtain ⟨r, c, rfl⟩ := (List.eq_nil_or_concat' b).resolve_left h
    simp
  unfold trimBack
  rw [hlast]
  split
  · rw [List.dropLast_append_of_ne_nil h]
  · rfl

/-- What follows a text that is not cut in the middle of a line ending. -/
theorem rawInput_append {a b : Bytes} (hb : b ≠ [])
    (h : ¬(a.getLast? = some '\r' ∧ b.head? = some '\n')) :
    rawInput (a ++ b) = dropCR a ++ rawInput b := by
  rw [rawInput, dropCR_append h, trimBack_append (dropCR_ne_nil hb), rawInput]

/-- The key of an argument is left as it is. -/
theorem dropCR_arg {k : Bytes} (hk : IsWord k) (front rest : Bytes) :
    dropCR (front ++ ' ' :: (k ++ '=' :: rest)) =
      dropCR front ++ ' ' :: (k ++ '=' :: dropCR rest) := by
  have hkey : dropCR (' ' :: k ++ ['=']) = ' ' :: k ++ ['='] :=
    dropCR_eq_self (noCRLF_of_not_mem (by simp [hk.not_mem (c := '\r') rfl]))
  have hsplit : ' ' :: (k ++ '=' :: rest) = ' ' :: k ++ ['='] ++ rest := by simp
  have hend : ¬((' ' :: k ++ ['=']).getLast? = some '\r' ∧ rest.head? = some '\n') := by
    rw [List.getLast?_concat]
    simp
  rw [dropCR_append (by simp), hsplit, dropCR_append hend, hkey]
  simp

/-! ## Staying in -/

/-- Without the carriage return at its end a text stays in as well. -/
theorem StaysIn.of_cr {k text : Bytes} (h : StaysIn k (text ++ ['\r'])) :
    StaysIn k text := by
  obtain ⟨front, v, marks, type, htokens, hlonger, _, hmarks⟩ := tokenize_lineEnd (Or.inr rfl) text
  have hends := h.ends
  rw [Mode.after_lineEnd (Or.inr rfl) (m := .outside) trivial] at hends
  refine ⟨hends, fun t ht => ?_⟩
  have honly := h.only
  rw [hlonger] at honly
  rw [htokens] at ht
  rcases List.mem_append.mp ht with ht | ht
  · exact honly t (List.mem_append_left _ ht)
  · have hlast := honly ⟨v ++ '\r' :: marks, type⟩ (by simp)
    obtain rfl : t = ⟨v ++ marks, type⟩ := by
      unfold emit at ht
      split at ht
      · simp at ht
      · exact List.mem_singleton.mp ht
    refine ⟨hlast.1, fun harg => ?_⟩
    have heq : '=' ∈ v := by
      have hmem : '=' ∈ v ++ marks :=
        eq_mem_of_arg (htokens ▸ List.mem_append_right front ht) harg
      apply (List.mem_append.mp hmem).resolve_right
      intro hin
      simpa [isCloser] using hmarks _ hin
    obtain ⟨key, val, rfl, hkey⟩ := List.eq_append_cons_of_mem heq
    have hsame := hlast.2 harg
    simp only [List.append_assoc, List.cons_append, argOf_append hkey] at hsame ⊢
    exact hsame

/-- The first token of an argument is one. -/
theorem tokenize_key {k : Bytes} (hk : IsWord k) (rest : Bytes) :
    ∃ more, tokenize (k ++ '=' :: rest) = ⟨k ++ '=' :: tokenText .outside rest, .arg⟩ :: more := by
  have heq : ∀ next, (⟨.outside, ⟨k, .none⟩, []⟩ : Lexer).step '=' next =
      ⟨.outside, ⟨k ++ ['='], .arg⟩, []⟩ := fun _ => by simp [Lexer.step, Mode.step, Token.keep]
  obtain ⟨more, hmore⟩ := Lexer.finish_arg .outside (k ++ ['=']) (by simp) [] rest
  refine ⟨more, ?_⟩
  rw [tokenize_eq, Lexer.read_append, List.head?_cons, Option.some_or, hk.lexes [] _ (by decide),
    Lexer.read_cons, heq, hmore]
  simp

theorem tokenize_word {w : Bytes} (h : IsWord w) : tokenize w = [flagToken w] :=
  tokenize_row ⟨w, flagToken w, h.lexes, h.ne_nil⟩ [] |>.symm ▸ by simp

/-! ## The text of a publish around one of its arguments -/

/-- The arguments behind it, and the flags. -/
def backText (args : List (Bytes × Bytes)) (flags : FlagSet) : Bytes :=
  (args.flatMap fun q => serializeArg q.1 q.2) ++ serializeFlags flags.toList

theorem backText_cases (args : List (Bytes × Bytes)) (flags : FlagSet) :
    backText args flags = [] ∨ ∃ b, backText args flags = ' ' :: b := by
  unfold backText
  cases args with
  | nil =>
      cases flags.toList with
      | nil => exact Or.inl rfl
      | cons f rest => exact Or.inr ⟨_, rfl⟩
  | cons q rest => exact Or.inr ⟨_, rfl⟩

/-- The tokens of what is behind the argument. -/
def backTokens (args : List (Bytes × Bytes)) (flags : FlagSet) : List Token :=
  match backText args flags with
  | [] => []
  | _ :: b => tokenize (rawInput (b ++ ['\n']))

section

variable {p : Publish} {k v : Bytes} {before behind : List (Bytes × Bytes)}

theorem front_eq (hentries : p.args.entries = before ++ (k, v) :: behind)
    (hbefore : ∀ q ∈ before, q.1 ≠ k) :
    p.front k = publishWord ++ ' ' :: p.topic ++ before.flatMap fun q => serializeArg q.1 q.2 := by
  have htake : (p.args.entries.takeWhile fun q => q.1 ≠ k) = before := by
    rw [hentries, List.takeWhile_append_of_pos fun q hq => by simpa using hbefore q hq]
    simp
  rw [Publish.front, htake]

theorem serialize_around (htopic : p.topic ≠ [])
    (hentries : p.args.entries = before ++ (k, v) :: behind) (hbefore : ∀ q ∈ before, q.1 ≠ k) :
    p.serialize =
      p.front k ++ ' ' :: (k ++ '=' :: encodeValue v) ++ (backText behind p.flags ++ ['\n']) := by
  rw [front_eq hentries hbefore, Publish.serialize, if_pos htopic, serializeArgs, hentries,
    backText]
  simp [serializeArg]

/-- The front of such a publish has the word `publish` and the topic in front. -/
theorem tokenize_front (hp : p.OfWords)
    (hentries : p.args.entries = before ++ (k, v) :: behind) (hbefore : ∀ q ∈ before, q.1 ≠ k) :
    ∃ rest, tokenize (dropCR (p.front k)) = flagToken publishWord :: flagToken p.topic :: rest := by
  have hhead : dropCR (publishWord ++ ' ' :: p.topic) = publishWord ++ ' ' :: p.topic :=
    dropCR_eq_self (noCRLF_of_not_mem (by simp [publishWord, hp.topic.not_mem (c := '\r') rfl]))
  have hpublish : ∀ rest, tokenize (publishWord ++ ' ' :: rest) =
      flagToken publishWord :: tokenize rest := fun rest => by
    rw [tokenize_cut isWord_publishWord.lexes.after, tokenize_word isWord_publishWord]
    rfl
  rw [front_eq hentries hbefore]
  rcases before with _ | ⟨q, before⟩
  · exact ⟨[], by rw [List.flatMap_nil, List.append_nil, hhead, hpublish, tokenize_word hp.topic]⟩
  · rw [List.flatMap_cons, serializeArg, dropCR_append (by simp), hhead, List.append_assoc,
      List.cons_append, hpublish]
    obtain ⟨r, hr⟩ : ∃ r, dropCR (' ' :: q.1 ++ '=' :: encodeValue q.2 ++
        before.flatMap fun q => serializeArg q.1 q.2) = ' ' :: r := by
      rw [List.cons_append, List.cons_append, dropCR, if_neg (by simp)]
      exact ⟨_, rfl⟩
    rw [hr, tokenize_cut hp.topic.lexes.after, tokenize_word hp.topic]
    exact ⟨_, rfl⟩

/-- What the argument becomes at the end of a text. -/
theorem staysIn_last (hv : Contained k v) :
    StaysIn k (k ++ '=' :: rawInput (encodeValue v ++ ['\n'])) := by
  have hline : dropCR ['\n'] = ['\n'] := rfl
  by_cases hcr : (encodeValue v).getLast? = some '\r'
  · -- a carriage return at the end is part of the line ending
    obtain ⟨y, hy⟩ := List.getLast?_eq_some_iff.mp hcr
    have hraw : rawInput (encodeValue v ++ ['\n']) = dropCR y := by
      have hend : dropCR ['\r', '\n'] = ['\n'] := rfl
      rw [rawInput, hy, List.append_assoc, dropCR_append (by simp)]
      simp [hend, trimBack]
    have hlonger : k ++ '=' :: dropCR (encodeValue v) = k ++ '=' :: dropCR y ++ ['\r'] := by
      have hend : dropCR ['\r'] = ['\r'] := rfl
      rw [hy, dropCR_append (by simp), hend]
      simp
    rw [hraw]
    rw [Contained, hlonger] at hv
    exact hv.of_cr
  · have hraw : rawInput (encodeValue v ++ ['\n']) = dropCR (encodeValue v) := by
      rw [rawInput, dropCR_append (by simp [hcr]), hline]
      simp [trimBack]
    rw [hraw]
    exact hv

/-- **A contained value is read to its own arguments**, between the tokens of what is in
front of it and of what is behind it. -/
theorem exists_own (hp : p.OfWords) (hk : IsWord k)
    (hentries : p.args.entries = before ++ (k, v) :: behind) (hbefore : ∀ q ∈ before, q.1 ≠ k)
    (hreach : p.Reaches k) (hv : Contained k v) :
    ∃ own, tokenize (rawInput p.serialize) =
        tokenize (dropCR (p.front k)) ++ own ++ backTokens behind p.flags ∧
      OnlyKey k own ∧ ∃ t ∈ own, t.type = .arg := by
  have hfirst : ∀ w, ∃ t ∈ tokenize (k ++ '=' :: w), t.type = .arg := fun w => by
    obtain ⟨more, hmore⟩ := tokenize_key hk w
    exact ⟨_, hmore ▸ List.mem_cons_self, rfl⟩
  rw [serialize_around hp.topic.ne_nil hentries hbefore]
  rcases backText_cases behind p.flags with hback | ⟨b, hback⟩
  · -- the argument is the last part of the text
    refine ⟨tokenize (k ++ '=' :: rawInput (encodeValue v ++ ['\n'])), ?_, (staysIn_last hv).only,
      hfirst _⟩
    have hend : ¬((p.front k ++ ' ' :: k ++ ['=']).getLast? = some '\r' ∧
        (encodeValue v ++ ['\n']).head? = some '\n') := by
      rw [List.getLast?_concat]
      simp
    have hparts : p.front k ++ ' ' :: (k ++ '=' :: encodeValue v) ++ ([] ++ ['\n']) =
        p.front k ++ ' ' :: k ++ ['='] ++ (encodeValue v ++ ['\n']) := by simp
    have hkey : dropCR (p.front k ++ ' ' :: k ++ ['=']) =
        dropCR (p.front k) ++ ' ' :: (k ++ ['=']) := by
      have hnil : dropCR [] = [] := rfl
      simpa [hnil] using dropCR_arg hk (p.front k) []
    rw [backTokens, hback, hparts, rawInput_append (by simp) hend, hkey, List.append_assoc,
      List.cons_append, List.append_assoc, List.singleton_append, tokenize_cut hreach,
      List.append_nil]
  · refine ⟨tokenize (k ++ '=' :: dropCR (encodeValue v)), ?_, hv.only, hfirst _⟩
    have hspace : rawInput (' ' :: b ++ ['\n']) = ' ' :: rawInput (b ++ ['\n']) :=
      rawInput_append (a := [' ']) (by simp) (by simp)
    rw [backTokens, hback, rawInput_append (by simp) (by simp), dropCR_arg hk, hspace,
      List.append_assoc, List.cons_append, tokenize_cut hreach, tokenize_cut hv.ends,
      List.append_assoc]

end

/-- **Contained values in front of a key** let the lexer reach it. -/
theorem reaches_of_contained {p : Publish} {k : Bytes} (hp : p.OfWords)
    (h : ∀ q ∈ p.args.entries.takeWhile fun q => q.1 ≠ k, Contained q.1 q.2) : p.Reaches k := by
  have hargs : ∀ (l : List (Bytes × Bytes)) (a : Bytes), (∀ q ∈ l, IsWord q.1 ∧ Contained q.1 q.2) →
      Mode.outside.after (dropCR a) none = .outside →
        Mode.outside.after (dropCR (a ++ l.flatMap fun q => serializeArg q.1 q.2)) none =
          .outside := by
    intro l
    induction l with
    | nil => exact fun a _ ha => by simpa using ha
    | cons q rest ih =>
        intro a hl ha
        have hq := hl q List.mem_cons_self
        have hsplit : a ++ (q :: rest).flatMap (fun q => serializeArg q.1 q.2) =
            a ++ ' ' :: (q.1 ++ '=' :: encodeValue q.2) ++
              rest.flatMap fun q => serializeArg q.1 q.2 := by simp [serializeArg]
        rw [hsplit]
        refine ih _ (fun r hr => hl r (List.mem_cons_of_mem _ hr)) ?_
        rw [dropCR_arg hq.1, Mode.after_cut ha]
        exact hq.2.ends
  have hhead : dropCR (publishWord ++ ' ' :: p.topic) = publishWord ++ ' ' :: p.topic :=
    dropCR_eq_self (noCRLF_of_not_mem (by simp [publishWord, hp.topic.not_mem (c := '\r') rfl]))
  refine hargs _ _ (fun q hq => ⟨hp.keys q ((List.takeWhile_sublist _).subset hq), h q hq⟩) ?_
  rw [hhead, Mode.after_cut isWord_publishWord.lexes.after]
  exact hp.topic.lexes.after

/-! ## Reading the tokens -/

/-- What is read from a text with these tokens. -/
theorem createFromRaw_of_tokens {raw topic : Bytes} {rest : List Token} (hnul : '\x00' ∉ topic)
    (h : tokenize (rawInput raw) = flagToken publishWord :: flagToken topic :: rest) :
    Publish.createFromRaw raw = some ⟨⟨[], [], SortedMap.ofList (argsOf rest),
      SortedSet.ofList (flagsOf rest), raw⟩, topic⟩ := by
  have hbuild := build_publish { raw := rawInput raw } {} (flagToken topic) rest
  have hparse : parseRaw raw = build { raw := rawInput raw } {} (tokenize (rawInput raw)) := rfl
  have hword : flagToken publishWord = ⟨publishWord, .none⟩ := rfl
  rw [h, hword, hbuild] at hparse
  rw [Publish.createFromRaw, hparse, if_pos rfl, Publish.ofParsed_eq]
  simp [ParsedMessage.addTokens, flagToken, cstr_eq_self hnul]

/-- Arguments with one key. -/
theorem argsOf_onlyKey {k : Bytes} (hk : '\x00' ∉ k) {own : List Token} (h : OnlyKey k own) :
    ∀ q ∈ argsOf own, q.1 = k := by
  intro q hq
  obtain ⟨t, ht, heq⟩ := List.mem_filterMap.mp hq
  split at heq
  · rename_i harg
    rw [← Option.some.inj heq, (h t ht).2 harg]
    exact cstr_eq_self hk
  · simp at heq

theorem flagsOf_onlyKey {k : Bytes} {own : List Token} (h : OnlyKey k own) : flagsOf own = [] := by
  apply List.filterMap_eq_nil_iff.mpr
  intro t ht
  rw [if_neg (h t ht).1]

/-- **Tokens of one key** do not change what is read of the others. -/
theorem sameBut_of_own {k : Bytes} (hk : '\x00' ∉ k) {front own own' back : List Token}
    (h : OnlyKey k own) (h' : OnlyKey k own') (hfirst : ∃ t ∈ own, t.type = .arg)
    (hfirst' : ∃ t ∈ own', t.type = .arg) (raw raw' topic : Bytes) :
    SameBut k
      ⟨⟨[], [], SortedMap.ofList (argsOf (front ++ own ++ back)),
        SortedSet.ofList (flagsOf (front ++ own ++ back)), raw⟩, topic⟩
      ⟨⟨[], [], SortedMap.ofList (argsOf (front ++ own' ++ back)),
        SortedSet.ofList (flagsOf (front ++ own' ++ back)), raw'⟩, topic⟩ := by
  have hkeys : ∀ tokens, OnlyKey k tokens → (∃ t ∈ tokens, t.type = .arg) →
      ∀ x, x ∈ (argsOf tokens).map Prod.fst ↔ x = k := by
    intro tokens honly ⟨t, ht, harg⟩ x
    constructor
    · intro hx
      obtain ⟨q, hq, rfl⟩ := List.mem_map.mp hx
      exact argsOf_onlyKey hk honly q hq
    · rintro rfl
      have hmem : (cstr (argOf t.value).1, cstr (argOf t.value).2) ∈ argsOf tokens :=
        List.mem_filterMap.mpr ⟨t, ht, if_pos harg⟩
      exact List.mem_map.mpr ⟨_, hmem, argsOf_onlyKey hk honly _ hmem⟩
  refine ⟨rfl, fun x => ?_, fun x hx => ?_, ?_⟩
  · simp only [SortedMap.mem_keys_ofList_iff, argsOf_append, List.map_append, List.mem_append,
      hkeys own h hfirst, hkeys own' h' hfirst']
  · simp only [argsOf_append]
    rw [SortedMap.find?_ofList_middle (argsOf_onlyKey hk h) hx,
      SortedMap.find?_ofList_middle (argsOf_onlyKey hk h') hx]
  · simp only [flagsOf_append, flagsOf_onlyKey h, flagsOf_onlyKey h']

/-! ## Contained values do not interfere -/

/-- Two publishes that differ in one value have the same arguments before and behind it. -/
theorem SameBut.entries {k v v' : Bytes} {p p' : Publish} (h : SameBut k p p')
    (hv : p.args.find? k = some v) (hv' : p'.args.find? k = some v') :
    ∃ before behind, p.args.entries = before ++ (k, v) :: behind ∧
      p'.args.entries = before ++ (k, v') :: behind ∧ ∀ q ∈ before, q.1 ≠ k := by
  have hinsert : p'.args = p.args.insert k v' := by
    apply SortedMap.ext_mem
    intro q
    rw [SortedMap.mem_insert]
    by_cases hq : q.1 = k
    · constructor
      · intro hmem
        have hpair : (k, q.2) ∈ p'.args.entries := hq ▸ hmem
        have hval := SortedMap.value_unique hpair (SortedMap.find?_eq_some_iff.mp hv')
        exact Or.inl (Prod.ext hq hval)
      · rintro (rfl | ⟨_, hne⟩)
        · exact SortedMap.find?_eq_some_iff.mp hv'
        · exact absurd hq hne
    · have hsame := h.values q.1 hq
      have hleft := SortedMap.find?_eq_some_iff (m := p.args) (k := q.1) (v := q.2)
      rw [hsame, SortedMap.find?_eq_some_iff] at hleft
      rw [show q ∈ p'.args.entries ↔ q ∈ p.args.entries from hleft]
      constructor
      · exact fun hmem => Or.inr ⟨hmem, hq⟩
      · rintro (rfl | ⟨hmem, _⟩)
        · exact absurd rfl hq
        · exact hmem
  obtain ⟨before, behind, hentries⟩ := List.append_of_mem (SortedMap.find?_eq_some_iff.mp hv)
  have hbefore : ∀ q ∈ before, q.1 < k := by
    have hsorted := p.args.sorted
    rw [hentries] at hsorted
    exact fun q hq => (List.pairwise_append.mp hsorted).2.2 q hq (k, v) List.mem_cons_self
  refine ⟨before, behind, hentries, ?_, fun q hq => (hbefore q hq).ne⟩
  rw [hinsert]
  change SortedMap.insertEntry k v' p.args.entries = _
  rw [hentries, SortedMap.insertEntry_same v v' hbefore]

/-- **Contained values do not interfere**: two publishes that differ in one value, contained
in both, are read to publishes that differ in that value only. -/
theorem isIsolated_of_contained {k v v' : Bytes} {p p' : Publish} (hk : IsWord k) (hp : p.OfWords)
    (hp' : p'.OfWords) (h : SameBut k p p') (hv : p.args.find? k = some v)
    (hv' : p'.args.find? k = some v') (hreach : p.Reaches k) (hin : Contained k v)
    (hin' : Contained k v') : IsIsolated k p p' := by
  obtain ⟨before, behind, hentries, hentries', hbefore⟩ := h.entries hv hv'
  have hfront : p'.front k = p.front k := by
    rw [front_eq hentries hbefore, front_eq hentries' hbefore, h.topic]
  obtain ⟨own, htokens, honly, hfirst⟩ := exists_own hp hk hentries hbefore hreach hin
  obtain ⟨own', htokens', honly', hfirst'⟩ :=
    exists_own hp' hk hentries' hbefore (by rw [Publish.Reaches, hfront]; exact hreach) hin'
  obtain ⟨front, hhead⟩ := tokenize_front hp hentries hbefore
  rw [hhead, List.cons_append, List.cons_append] at htokens
  rw [hfront, hhead, List.cons_append, List.cons_append, ← h.flags] at htokens'
  have hnul := hk.not_mem (c := '\x00') rfl
  refine ⟨_, _, createFromRaw_of_tokens (hp.topic.not_mem rfl) htokens,
    createFromRaw_of_tokens (hp.topic.not_mem rfl) htokens', ?_⟩
  exact sameBut_of_own hnul honly honly' hfirst hfirst' _ _ _

/-- A value that comes back is contained. -/
theorem contained_of_isEncodable {k v : Bytes} (hk : IsWord k) (hv : IsEncodable v) :
    Contained k v := by
  have hline : NoCRLF (encodeValue v) := by
    rw [noCRLF_encodeValue]
    intro hnl
    unfold IsEncodable at hv
    rw [if_pos hnl] at hv
    exact hv.2
  have hlexes := lexes_arg hk.solid (carries_encodeValue hv)
  rw [Contained, dropCR_eq_self hline]
  refine ⟨hlexes.after, ?_⟩
  rw [show tokenize (k ++ '=' :: encodeValue v) = [⟨k ++ '=' :: carried v, .arg⟩] from
    (tokenize_row ⟨_, _, hlexes, by simp⟩ [] |>.symm ▸ by simp)]
  intro t ht
  obtain rfl := List.mem_singleton.mp ht
  exact ⟨by simp, fun _ => by rw [argOf_append (hk.not_mem rfl)]⟩

/-! ## A value that is not contained interferes -/

/-- A flag that is longer than `n` bytes. -/
def longFlag (n : Nat) : Bytes := List.replicate (n + 1) 'f'

/-- A publish with one argument and such a flag. -/
def probe (k v : Bytes) (n : Nat) : Publish :=
  { args := (∅ : ArgMap).insert k v, flags := (∅ : FlagSet).add (longFlag n), topic := ['t'] }

theorem mem_longFlag {n : Nat} {c : Char} (h : c ∈ longFlag n) : c = 'f' :=
  List.eq_of_mem_replicate h

theorem isWord_longFlag (n : Nat) : IsWord (longFlag n) :=
  ⟨by simp [longFlag], fun c hc => by rw [mem_longFlag hc]; rfl⟩

section

variable {k v : Bytes}

theorem probe_ofWords (hk : IsWord k) (hv : '\x00' ∉ v) (n : Nat) : (probe k v n).OfWords := by
  have hentries : (probe k v n).args.entries = [(k, v)] := rfl
  have hflags : (probe k v n).flags.toList = [longFlag n] := rfl
  refine ⟨show IsWord ['t'] by decide, ?_, ?_, ?_⟩
  · simpa [hentries] using hk
  · simpa [hflags] using isWord_longFlag n
  · simpa [hentries] using hv

theorem probe_find? (k v : Bytes) (n : Nat) : (probe k v n).args.find? k = some v :=
  SortedMap.find?_eq_some_iff.mpr (SortedMap.mem_insert.mpr (Or.inl rfl))

theorem probe_reaches (k v : Bytes) (n : Nat) : (probe k v n).Reaches k := by
  have hentries : (probe k v n).args.entries = [] ++ (k, v) :: [] := rfl
  rw [Publish.Reaches, front_eq hentries (by simp)]
  change Mode.outside.after (dropCR (publishWord ++ ' ' :: ['t'] ++ [])) none = .outside
  decide

theorem probe_sameBut (k v v' : Bytes) (n : Nat) : SameBut k (probe k v n) (probe k v' n) := by
  refine ⟨rfl, fun x => Iff.rfl, fun x hx => Option.ext fun w => ?_, rfl⟩
  rw [SortedMap.find?_eq_some_iff, SortedMap.find?_eq_some_iff]
  have hentries : ∀ v, (probe k v n).args.entries = [(k, v)] := fun _ => rfl
  simp [hentries, hx]

/-- The tokens of such a publish. -/
theorem tokenize_probe (hk : IsWord k) (v : Bytes) (n : Nat) :
    tokenize (rawInput (probe k v n).serialize) = flagToken publishWord :: flagToken ['t'] ::
      tokenize (k ++ '=' :: dropCR (encodeValue v) ++ ' ' :: longFlag n) := by
  have hback : backText [] (probe k v n).flags = ' ' :: longFlag n := by
    have hflags : (probe k v n).flags.toList = [longFlag n] := rfl
    simp [backText, hflags, serializeFlags]
  have hline : rawInput (' ' :: longFlag n ++ ['\n']) = ' ' :: longFlag n :=
    rawInput_line (noCRLF_of_not_mem (by simp [(isWord_longFlag n).not_mem (c := '\r') rfl]))
  have hentries : (probe k v n).args.entries = [] ++ (k, v) :: [] := rfl
  have hfront : (probe k v n).front k = publishWord ++ ' ' :: ['t'] ++ [] :=
    front_eq hentries (by simp)
  have hhead : dropCR (publishWord ++ ' ' :: ['t'] ++ []) = publishWord ++ ' ' :: ['t'] := rfl
  have htokens : tokenize (publishWord ++ ' ' :: ['t']) =
      [flagToken publishWord, flagToken ['t']] := rfl
  rw [serialize_around (by simp [probe]) hentries (by simp), hback,
    rawInput_append (by simp) (by simp), dropCR_arg hk, hfront, hhead, hline,
    List.append_assoc, List.cons_append, tokenize_cut (by decide), htokens]
  rfl

/-- Inside of something a space and the bytes of a long flag are kept. -/
theorem read_inside {m : Mode} (hm : m.Proper) (hout : m ≠ .outside) {text : Bytes}
    (h : ∀ c ∈ text, c = ' ' ∨ c = 'f') (t : Token) (d : List Token) :
    (⟨m, t, d⟩ : Lexer).read text none = ⟨m, ⟨t.value ++ text, t.type⟩, d⟩ := by
  have hstep : ∀ c, c = ' ' ∨ c = 'f' → ∀ next, m.step c next = (m, .keep) := by
    intro c hc next
    cases m with
    | outside => exact absurd rfl hout
    | quote q => rcases hc with rfl | rfl <;> rcases hm with rfl | rfl <;> simp [Mode.step]
    | bracket b n =>
        rcases hc with rfl | rfl <;> rcases hm.1 with rfl | rfl <;> simp [Mode.step, closer]
    | block => rcases hc with rfl | rfl <;> simp [Mode.step]
  induction text generalizing t with
  | nil => simp
  | cons c rest ih =>
      have hc := hstep c (h c List.mem_cons_self) (rest.head?.or none)
      have hread : (⟨m, t, d⟩ : Lexer).step c (rest.head?.or none) =
          ⟨m, ⟨t.value ++ [c], t.type⟩, d⟩ := by
        simp only [Lexer.step, hc]
        simp [Token.keep, hout]
      rw [Lexer.read_cons, hread, ih fun c hc => h c (List.mem_cons_of_mem _ hc)]
      simp

/-- A long flag is no token of a text that is not longer. -/
theorem longFlag_not_mem {text : Bytes} {n : Nat} (hn : text.length ≤ n) {t : Token}
    (ht : t.value.count 'f' ≤ text.count 'f') : t.value ≠ longFlag n := by
  intro heq
  have hcount : (longFlag n).count 'f' = n + 1 := List.count_replicate_self
  have hle := List.count_le_length (a := 'f') (l := text)
  rw [heq, hcount] at ht
  omega

/-- **A text that does not end outside swallows the flag behind it.** -/
theorem longFlag_swallowed {text : Bytes} {n : Nat} (hn : text.length ≤ n)
    (hout : Mode.outside.after text none ≠ .outside) :
    ∀ t ∈ tokenize (text ++ ' ' :: longFlag n), t.value ≠ longFlag n := by
  have hnext : ({} : Lexer).read text (some ' ') = ({} : Lexer).read text none :=
    Lexer.read_neutral (by decide) (by decide) {} text
  have hcount := Lexer.count_read (x := 'f') rfl text
  have hmode := Lexer.read_mode {} text none
  have hproper : (({} : Lexer).read text none).mode.Proper := by
    rw [hmode]
    exact Mode.after_proper (m := .outside) trivial text none
  rw [tokenize_eq, Lexer.read_append, List.head?_cons, Option.some_or, hnext]
  generalize ({} : Lexer).read text none = s at hcount hmode hproper ⊢
  obtain ⟨m, t, d⟩ := s
  have hm : m ≠ .outside := by
    rintro rfl
    exact hout hmode.symm
  rw [read_inside hproper hm (by simp [longFlag]), Lexer.finish]
  intro u hu
  rcases List.mem_append.mp hu with hu | hu
  · have hin : u.value.count 'f' ≤ countIn 'f' d :=
      List.single_le_sum (by simp) _ (List.mem_map.mpr ⟨u, hu, rfl⟩)
    refine longFlag_not_mem hn (hin.trans ?_)
    simp only at hcount
    omega
  · -- the token that goes on has a space in it
    obtain rfl : u = ⟨t.value ++ ' ' :: longFlag n ++ m.closing, t.type⟩ := by
      unfold emit at hu
      split at hu
      · simp at hu
      · exact List.mem_singleton.mp hu
    intro heq
    have hspace : ' ' ∈ longFlag n := by
      rw [← heq]
      simp
    exact absurd (mem_longFlag hspace) (by decide)

/-- The key of an argument without NUL is taken as it is. -/
theorem cstr_key {text : Bytes} (htext : '\x00' ∉ text) {t : Token} (ht : t ∈ tokenize text)
    (harg : t.type = .arg) : cstr (argOf t.value).1 = (argOf t.value).1 := by
  obtain ⟨key, y, hvalue, hkey⟩ := List.eq_append_cons_of_mem (eq_mem_of_arg ht harg)
  have hno : '\x00' ∉ t.value := not_mem_of_tokenize rfl rfl htext ht
  rw [hvalue, argOf_append hkey]
  refine cstr_eq_self fun hin => hno ?_
  rw [hvalue]
  exact List.mem_append_left _ hin

/-- What is read behind the topic when a value leaves a publish like this alone: arguments
with the key `k`, and the flag. -/
theorem fields_of_probe (hk : IsWord k) {n : Nat} {tokens : List Token}
    (htokens : tokenize (k ++ '=' :: dropCR (encodeValue v) ++ ' ' :: longFlag n) = tokens)
    (h : IsIsolated k (probe k v n) (probe k [] n)) :
    (∀ x, x ∈ (argsOf tokens).map Prod.fst ↔ x = k) ∧
      ∀ x, x ∈ flagsOf tokens ↔ x = longFlag n := by
  obtain ⟨a, b, ha, hb, hsame⟩ := h
  have hflag := isWord_longFlag n
  have hempty : tokenize (k ++ '=' :: dropCR (encodeValue []) ++ ' ' :: longFlag n) =
      [⟨k ++ '=' :: [], .arg⟩, flagToken (longFlag n)] := by
    have hrow := tokenize_row ⟨k ++ '=' :: [], ⟨k ++ '=' :: [], .arg⟩,
      lexes_arg hk.solid (show Carries [] [] from carries_solid rfl), by simp⟩
      [⟨longFlag n, flagToken (longFlag n), hflag.lexes, hflag.ne_nil⟩]
    have hnil : dropCR (encodeValue []) = [] := rfl
    simpa [hnil] using hrow
  have hprobe := tokenize_probe hk v n
  have hprobe' := tokenize_probe hk [] n
  rw [htokens] at hprobe
  rw [hempty] at hprobe'
  rw [createFromRaw_of_tokens (by decide) hprobe] at ha
  rw [createFromRaw_of_tokens (by decide) hprobe'] at hb
  obtain rfl := Option.some.inj ha
  obtain rfl := Option.some.inj hb
  constructor
  · intro x
    have hiff := hsame.keys x
    simp only [SortedMap.mem_keys_ofList_iff] at hiff
    rw [hiff]
    simp [argsOf, argOf_append (hk.not_mem (c := '=') rfl),
      cstr_eq_self (hk.not_mem (c := '\x00') rfl), flagToken]
  · intro x
    have hset := congrArg (fun s : FlagSet => x ∈ s) hsame.flags
    simp only [SortedSet.mem_ofList, eq_iff_iff] at hset
    rw [hset]
    simp [flagsOf, flagToken, cstr_eq_self (hflag.not_mem (c := '\x00') rfl)]

/-- When the long flag is read, the text before it ends outside. -/
theorem ends_of_longFlag {text : Bytes} (hno : '\x00' ∉ text)
    (h : longFlag text.length ∈ flagsOf (tokenize (text ++ ' ' :: longFlag text.length))) :
    Mode.outside.after text none = .outside := by
  by_contra hout
  obtain ⟨t, ht, heq⟩ := List.mem_filterMap.mp h
  split at heq
  · apply longFlag_swallowed (Nat.le_refl _) hout t ht
    have hnul : '\x00' ∉ text ++ ' ' :: longFlag text.length := by
      simp [hno, (isWord_longFlag text.length).not_mem (c := '\x00') rfl]
    rw [← Option.some.inj heq, cstr_eq_self (not_mem_of_tokenize rfl rfl hnul ht)]
  · simp at heq

/-- **A value that interferes with no such publish is contained.** -/
theorem contained_of_probe (hk : IsWord k) (hv : '\x00' ∉ v)
    (h : ∀ n, IsIsolated k (probe k v n) (probe k [] n)) : Contained k v := by
  have hno : '\x00' ∉ k ++ '=' :: dropCR (encodeValue v) := by
    have hencoded : '\x00' ∉ encodeValue v := by
      rw [← List.count_eq_zero, count_encodeValue rfl, List.count_eq_zero]
      exact hv
    have hdropped : '\x00' ∉ dropCR (encodeValue v) := fun hin =>
      hencoded ((dropCR_sublist _).subset hin)
    simp [hk.not_mem (c := '\x00') rfl, hdropped]
  obtain ⟨hkeys, hflags⟩ := fields_of_probe hk rfl (h (k ++ '=' :: dropCR (encodeValue v)).length)
  rw [Contained]
  generalize k ++ '=' :: dropCR (encodeValue v) = text at hno hkeys hflags ⊢
  have hends := ends_of_longFlag hno ((hflags _).mpr rfl)
  rw [tokenize_cut hends (longFlag text.length)] at hkeys hflags
  refine ⟨hends, fun t ht => ⟨fun hnone => ?_, fun harg => ?_⟩⟩
  · -- a flag that was not sent
    have hmem : t.value ∈ flagsOf (tokenize text ++ tokenize (longFlag text.length)) := by
      rw [flagsOf_append]
      refine List.mem_append_left _ (List.mem_filterMap.mpr ⟨t, ht, ?_⟩)
      rw [if_pos hnone, cstr_eq_self (not_mem_of_tokenize rfl rfl hno ht)]
    have hin : t.value.count 'f' ≤ countIn 'f' (tokenize text) :=
      List.single_le_sum (by simp) _ (List.mem_map.mpr ⟨t, ht, rfl⟩)
    rw [count_tokenize rfl rfl] at hin
    exact longFlag_not_mem (Nat.le_refl _) hin ((hflags _).mp hmem)
  · -- a key that was not sent
    apply (hkeys _).mp
    rw [argsOf_append, List.map_append]
    refine List.mem_append_left _
      (List.mem_map.mpr ⟨(cstr (argOf t.value).1, cstr (argOf t.value).2), ?_, ?_⟩)
    · exact List.mem_filterMap.mpr ⟨t, ht, if_pos harg⟩
    · exact cstr_key hno ht harg

end

/-- **A value is contained if and only if it interferes with nothing**, wherever the lexer
reaches its key and whatever contained value it is compared with. -/
theorem contained_iff {k v : Bytes} (hk : IsWord k) (hv : '\x00' ∉ v) :
    Contained k v ↔
      ∀ p p' : Publish, p.OfWords → p'.OfWords → SameBut k p p' → p.args.find? k = some v →
        p.Reaches k → (∃ v', p'.args.find? k = some v' ∧ Contained k v') → IsIsolated k p p' := by
  constructor
  · rintro hin p p' hp hp' hsame hfind hreach ⟨v', hfind', hin'⟩
    exact isIsolated_of_contained hk hp hp' hsame hfind hfind' hreach hin hin'
  · intro h
    apply contained_of_probe hk hv
    intro n
    exact h (probe k v n) (probe k [] n) (probe_ofWords hk hv n) (probe_ofWords hk (by simp) n)
      (probe_sameBut k v [] n) (probe_find? k v n) (probe_reaches k v n)
      ⟨[], probe_find? k [] n, contained_of_isEncodable hk (by decide)⟩

/-- Words, spaces and an apostrophe in them leave the rest alone. -/
theorem isIsolated_spaced :
    IsIsolated ['k'] (probe ['k'] "it's so".toList 0) (probe ['k'] ['v'] 0) := by
  have hcontained : Contained ['k'] "it's so".toList := ⟨by decide, by decide⟩
  refine (contained_iff (by decide) (by decide)).mp hcontained _ _
    (probe_ofWords (by decide) (by decide) 0) (probe_ofWords (by decide) (by decide) 0)
    (probe_sameBut _ _ _ 0) (probe_find? _ _ 0) (probe_reaches _ _ 0) ⟨['v'], probe_find? _ _ 0, ?_⟩
  exact ⟨by decide, by decide⟩

/-- A publish with an apostrophe for a value, and a flag. -/
def apostrophePublish : Publish :=
  { args := (∅ : ArgMap).insert ['k'] ['\''], flags := (∅ : FlagSet).add ['f'], topic := ['t'] }

/-- The same with a letter for a value. -/
def letterPublish : Publish :=
  { args := (∅ : ArgMap).insert ['k'] ['v'], flags := (∅ : FlagSet).add ['f'], topic := ['t'] }

/-- The apostrophe opens quotes, and the flag is read as a part of the value. -/
theorem not_all_isolated :
    ¬∀ (k : Bytes) (p p' : Publish), p.OfWords → p'.OfWords → SameBut k p p' →
      k ∈ p.args.keys → IsIsolated k p p' := by
  intro h
  have hsame : SameBut ['k'] apostrophePublish letterPublish := probe_sameBut ['k'] ['\''] ['v'] 0
  obtain ⟨a, b, ha, hb, hread⟩ := h ['k'] apostrophePublish letterPublish
    ⟨by decide, by decide, by decide, by decide⟩ ⟨by decide, by decide, by decide, by decide⟩ hsame
    (by decide)
  have hleft : (Publish.createFromRaw apostrophePublish.serialize).map (fun a => a.flags) =
      some ∅ := by
    decide
  have hright : (Publish.createFromRaw letterPublish.serialize).map (fun b => b.flags) =
      some ((∅ : FlagSet).add ['f']) := by decide
  rw [ha, Option.map_some, Option.some.injEq] at hleft
  rw [hb, Option.map_some, Option.some.injEq] at hright
  have hflags := hread.flags
  rw [hleft, hright] at hflags
  exact absurd hflags (by decide)

end SporeClient.Wire
