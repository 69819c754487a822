/-
  Wire/Literal.lean --- values written into the text of a message.

  WHAT THIS FILE IS FOR.  A command is often typed by hand: brackets, blocks and quotes
  are how a value with spaces is written.  What they hold should arrive as it stands,
  whatever is around it.  Brackets and blocks keep this (`yieldsArg_literal`).  Quotes do
  not quite: the tokenizer leaves them out, so that `build` takes what they held for a
  block when it has the marks of one (`yieldsArg_quoted_iff`).
-/
import SporeClient.Wire.Encoding
import Mathlib.Data.List.Infix

set_option autoImplicit false

namespace SporeClient.Wire

open SporeClient.Foundation
open SporeClient.Parser

/-! ## An argument in the middle of a message -/

/-- Written between `pre` and `post`, the text is one argument with this key and value, and
changes nothing else: not the tokens of `pre` and of `post`, and not what `build` makes of
them. -/
structure YieldsArg (pre text post key value : Bytes) : Prop where
  tokens : ∃ t : Token, t.type = .arg ∧
    tokenize (pre ++ ' ' :: text ++ ' ' :: post) = tokenize pre ++ t :: tokenize post
  message : ∃ back, (parseNew (pre ++ ' ' :: post)).2.args = (parseNew pre).2.args ++ back ∧
    (parseNew (pre ++ ' ' :: text ++ ' ' :: post)).2 =
      { (parseNew (pre ++ ' ' :: post)).2 with
        args := (parseNew pre).2.args ++ (key, value) :: back }

/-- What is behind a space outside everything, and behind two tokens, adds its tokens. -/
theorem parseNew_append {pre : Bytes} (hpre : endsInside pre = .none)
    (htwo : 2 ≤ (tokenize pre).length) (rest : Bytes) :
    (parseNew (pre ++ ' ' :: rest)).2 = (parseNew pre).2.addTokens (tokenize rest) := by
  have hcut := tokenize_cut ((endsInside_none_iff pre).mp hpre) rest
  rw [parseNew_eq, parseNew_eq pre, hcut]
  exact build_append htwo {} {} _

section
variable {pre post key text value : Bytes}

/-- A piece between two texts is one token. -/
theorem tokenize_between (hpre : endsInside pre = .none) {t : Token} (hlex : Lexes text t)
    (ht : t.value ≠ []) (post : Bytes) :
    tokenize (text ++ ' ' :: post) = t :: tokenize post ∧
      tokenize (pre ++ ' ' :: text ++ ' ' :: post) = tokenize pre ++ t :: tokenize post := by
  have hpiece : tokenize text = [t] := by
    have hrow := tokenize_row ⟨text, t, hlex, ht⟩ []
    rwa [row_nil, List.append_nil] at hrow
  have hback : tokenize (text ++ ' ' :: post) = t :: tokenize post := by
    rw [tokenize_cut hlex.after, hpiece]
    rfl
  refine ⟨hback, ?_⟩
  rw [List.append_assoc, List.cons_append, tokenize_cut ((endsInside_none_iff pre).mp hpre), hback]

/-- **What an argument becomes**: its key, and what it carries without the marks of a
block. -/
theorem yieldsArg_of_carries (hkey : IsWord key) (hpre : endsInside pre = .none)
    (htwo : 2 ≤ (tokenize pre).length) (h : Carries text value) (hnul : '\x00' ∉ value)
    (post : Bytes) : YieldsArg pre (key ++ '=' :: text) post key (stripBlock value) := by
  have hlex := lexes_arg hkey.isKey.solid h
  obtain ⟨hback, hwhole⟩ := tokenize_between hpre hlex (by simp) post
  have harg := argOf_append hkey.isKey.no_eq value
  have hvalue : cstr (stripBlock value) = stripBlock value :=
    cstr_eq_self fun hmem => hnul ((stripBlock_sublist value).subset hmem)
  refine ⟨⟨_, rfl, hwhole⟩, argsOf (tokenize post), ?_, ?_⟩
  · rw [parseNew_append hpre htwo]
    rfl
  · rw [List.append_assoc, List.cons_append, parseNew_append hpre htwo, parseNew_append hpre htwo,
      hback]
    simp [ParsedMessage.addTokens, argsOf_cons, flagsOf_cons, harg, hvalue,
      cstr_eq_self hkey.isKey.no_nul, handleOf]

end

/-! ## Brackets and blocks -/

/-- A text in brackets: it begins with `b`, ends with the bracket that closes `b`, and only
there are as many closed as opened.  Brackets of the other kind do not count. -/
structure IsBracketed (b : Char) (w : Bytes) : Prop where
  kind : b = '[' ∨ b = '{'
  front : w.head? = some b
  back : w.getLast? = some (closer b)
  first : ∀ p ∈ w.inits, p ≠ [] → (p.count b = p.count (closer b) ↔ p = w)

instance (b : Char) (w : Bytes) : Decidable (IsBracketed b w) :=
  decidable_of_iff
    ((b = '[' ∨ b = '{') ∧ w.head? = some b ∧ w.getLast? = some (closer b) ∧
      ∀ p ∈ w.inits, p ≠ [] → (p.count b = p.count (closer b) ↔ p = w))
    ⟨fun h => ⟨h.1, h.2.1, h.2.2.1, h.2.2.2⟩, fun h => ⟨h.1, h.2, h.3, h.4⟩⟩

/-- Inside brackets to a depth, a text that first comes to depth 0 at its end. -/
theorem solid_bracket {bad : Char → Bool} {b : Char} (hb : b = '[' ∨ b = '{') {n : Nat}
    {w : Bytes} (hn : 0 < n) (hne : w ≠ [])
    (h : ∀ p, p <+: w → p ≠ [] → (n + p.count b = p.count (closer b) ↔ p = w)) :
    solid bad (.bracket b n) w = true := by
  have hcloser := closer_ne hb
  induction w generalizing n with
  | nil => exact absurd rfl hne
  | cons c rest ih =>
      have hfirst := h [c] (by simp) (by simp)
      have hrest : ∀ p, p <+: rest → p ≠ [] →
          (n + (c :: p).count b = (c :: p).count (closer b) ↔ p = rest) := by
        intro p hp _
        rw [h (c :: p) (List.cons_prefix_cons.mpr ⟨rfl, hp⟩) (by simp)]
        simp
      rw [solid]
      simp only [Mode.step]
      by_cases hopen : c = b
      · subst hopen
        have hdeeper : rest ≠ [] := by
          rintro rfl
          simp [hcloser.symm] at hfirst
        rw [if_pos rfl]
        apply ih (Nat.succ_pos n) hdeeper
        intro p hp hpne
        rw [← hrest p hp hpne, List.count_cons_self, List.count_cons_of_ne hcloser.symm]
        omega
      · rw [if_neg hopen]
        by_cases hclose : c = closer b
        · subst hclose
          simp only [List.count_singleton_self, List.count_cons_of_ne hopen, List.count_nil,
            List.cons.injEq, true_and] at hfirst
          rw [if_pos rfl]
          by_cases hlast : n - 1 = 0
          · obtain rfl : [] = rest := hfirst.mp (by omega)
            simp [hlast, solid]
          · have hmore : rest ≠ [] := by
              rintro rfl
              exact hlast (by have := hfirst.mpr rfl; omega)
            rw [if_neg hlast]
            apply ih (Nat.pos_of_ne_zero hlast) hmore
            intro p hp hpne
            rw [← hrest p hp hpne, List.count_cons_self, List.count_cons_of_ne hopen]
            omega
        · have hmore : rest ≠ [] := by
            rintro rfl
            simp [hopen, hclose] at hfirst
            omega
          rw [if_neg hclose]
          apply ih hn hmore
          intro p hp hpne
          rw [← hrest p hp hpne, List.count_cons_of_ne hopen, List.count_cons_of_ne hclose]

theorem IsBracketed.solid {b : Char} {w : Bytes} (h : IsBracketed b w) :
    solid isGap .outside w = true := by
  obtain ⟨rest, rfl⟩ := List.head?_eq_some_iff.mp h.front
  have hcloser := closer_ne h.kind
  have hgap : isGap b = false := by rcases h.kind with rfl | rfl <;> rfl
  have hstep : Mode.outside.step b rest.head? = (.bracket b 1, .keep) := by
    rcases h.kind with rfl | rfl <;> simp [Mode.step]
  have hmore : rest ≠ [] := by
    rintro rfl
    have hone := h.first [b] (by simp) (by simp)
    simp [hcloser.symm] at hone
  rw [Parser.solid, hgap, hstep]
  apply solid_bracket h.kind Nat.one_pos hmore
  intro p hp _
  have hinit := h.first (b :: p)
    ((List.mem_inits _ _).mpr (List.cons_prefix_cons.mpr ⟨rfl, hp⟩)) (by simp)
  rw [List.count_cons_self, List.count_cons_of_ne hcloser.symm, List.cons.injEq] at hinit
  rw [Nat.add_comm, hinit]
  simp

/-- `build` takes no brackets away. -/
theorem IsBracketed.isBlock {b : Char} {w : Bytes} (h : IsBracketed b w) : isBlock w = false := by
  obtain ⟨rest, rfl⟩ := List.head?_eq_some_iff.mp h.front
  rcases h.kind with rfl | rfl <;> simp [Parser.isBlock]

/-- A block that ends at its first `>>` is solid. -/
theorem solid_blockText {v : Bytes} (h : ¬closeMark <:+: v) :
    solid isGap .outside (blockText v) = true := by
  have hbody : ¬closeMark <:+: ('\n' :: v ++ ['\n']) ++ ['>'] := by
    rw [List.append_assoc, List.cons_append, closeMark, pair_infix_cons, pair_infix_append]
    rintro (⟨hc, _⟩ | hv | htail | ⟨_, hhead⟩)
    · simp at hc
    · exact h hv
    · simp [pair_infix_cons] at htail
    · simp at hhead
  exact solid_block_marks hbody

theorem stripBlock_blockText (v : Bytes) : stripBlock (blockText v) = v := by
  rw [blockText, stripBlock_block]
  simp [trimFront, trimBack]

/-- **Brackets and blocks are taken as they stand**, whatever is around them. -/
theorem yieldsArg_literal (pre key post : Bytes) (hkey : IsWord key)
    (hpre : endsInside pre = .none) (htwo : 2 ≤ (tokenize pre).length) :
    (∀ b w, IsBracketed b w → '\x00' ∉ w → YieldsArg pre (key ++ '=' :: w) post key w) ∧
      ∀ v, ¬closeMark <:+: v → '\x00' ∉ v →
        YieldsArg pre (key ++ '=' :: openMark ++ ['\n'] ++ v ++ ['\n'] ++ closeMark) post key
          v := by
  constructor
  · intro b w hw hnul
    have harg := yieldsArg_of_carries hkey hpre htwo (carries_solid hw.solid) hnul post
    rwa [stripBlock_of_not hw.isBlock] at harg
  · intro v hv hnul
    have hmarks : '\x00' ∉ blockText v := by simp [blockText, block, openMark, closeMark, hnul]
    have harg := yieldsArg_of_carries hkey hpre htwo (carries_solid (solid_blockText hv)) hmarks
      post
    rw [stripBlock_blockText] at harg
    simpa [blockText, block] using harg

/-- A bracketed value with a space, quotes and the other brackets, and a block that begins
with an empty line, behind an open quote that is closed. -/
theorem yieldsArg_literal_route :
    YieldsArg "set ~h \"a b\"".toList "route=[a \" \x7b<< [b]]".toList "<<x".toList "route".toList
        "[a \" \x7b<< [b]]".toList ∧
      YieldsArg "set ~h \"a b\"".toList "route=<<\n\n>\n>>".toList "<<x".toList "route".toList
        "\n>".toList := by
  obtain ⟨hbracket, hblock⟩ := yieldsArg_literal "set ~h \"a b\"".toList "route".toList
    "<<x".toList (by decide) (by decide) (by decide)
  exact ⟨hbracket '[' "[a \" \x7b<< [b]]".toList (by decide) (by decide),
    hblock "\n>".toList (by decide) (by decide)⟩

/-! ## Quotes -/

/-- The marks of a block are taken away with their text. -/
theorem stripBlock_ne {v : Bytes} (h : isBlock v = true) : stripBlock v ≠ v := by
  intro heq
  obtain ⟨body, rfl⟩ := (isBlock_iff v).mp h
  have hlen := congrArg List.length heq
  have hle := ((trimBack_sublist (trimFront body)).trans (trimFront_sublist body)).length_le
  rw [stripBlock_block] at hlen
  simp only [block, openMark, closeMark, List.length_append, List.length_cons,
    List.length_nil] at hlen
  omega

/-- **Quotes hold what stands in them**, if and only if that has not the marks of a block. -/
theorem yieldsArg_quoted_iff (pre key w post : Bytes) {q : Char} (hkey : IsWord key)
    (hpre : endsInside pre = .none) (htwo : 2 ≤ (tokenize pre).length) (hq : q = '"' ∨ q = '\'')
    (hw : q ∉ w) (hnul : '\x00' ∉ w) :
    YieldsArg pre (key ++ '=' :: q :: w ++ [q]) post key w ↔ isBlock w = false := by
  have htext : key ++ '=' :: q :: w ++ [q] = key ++ '=' :: (q :: w ++ [q]) := by simp
  have harg := yieldsArg_of_carries hkey hpre htwo (carries_quoted hq hw) hnul post
  rw [htext]
  constructor
  · intro h
    obtain ⟨_, _, hvalue⟩ := harg.message
    obtain ⟨_, _, hw⟩ := h.message
    have hargs := congrArg ParsedMessage.args (hvalue.symm.trans hw)
    have hpair := List.head_eq_of_cons_eq (List.append_cancel_left hargs)
    by_contra hblock
    exact stripBlock_ne (by simpa using hblock) (congrArg Prod.snd hpair)
  · intro hblock
    rwa [stripBlock_of_not hblock] at harg

/-- A quoted text with an `=`, brackets and the other quote arrives. -/
theorem yieldsArg_quoted_say :
    YieldsArg "say ~h".toList "text=\"a=[ 'b'\"".toList "now".toList "text".toList
        "a=[ 'b'".toList :=
  (yieldsArg_quoted_iff "say ~h".toList "text".toList "a=[ 'b'".toList "now".toList (by decide)
    (by decide) (by decide) (Or.inl rfl) (by decide) (by decide)).mpr (by decide)

/-- A quoted text with the marks of a block loses them. -/
theorem not_yieldsArg_marks :
    (IsWord "text".toList ∧ endsInside "say ~h".toList = .none ∧
        2 ≤ (tokenize "say ~h".toList).length ∧ '"' ∉ "<<x>>".toList ∧
        '\x00' ∉ "<<x>>".toList) ∧
      ¬YieldsArg "say ~h".toList "text=\"<<x>>\"".toList "now".toList "text".toList
        "<<x>>".toList ∧
      (parseNew "say ~h text=\"<<x>>\" now".toList).2.args = [("text".toList, "x".toList)] := by
  have hargs : (parseNew "say ~h text=\"<<x>>\" now".toList).2.args =
      [("text".toList, "x".toList)] := by decide
  refine ⟨by decide, fun h => ?_, hargs⟩
  obtain ⟨back, _, hmessage⟩ := h.message
  have htext : "say ~h".toList ++ ' ' :: "text=\"<<x>>\"".toList ++ ' ' :: "now".toList =
      "say ~h text=\"<<x>>\" now".toList := by decide
  have hpre : (parseNew "say ~h".toList).2.args = [] := by decide
  have hsame := congrArg ParsedMessage.args hmessage
  rw [htext, hargs, hpre] at hsame
  exact absurd (congrArg Prod.snd (List.head_eq_of_cons_eq hsame)) (by decide)

end SporeClient.Wire
