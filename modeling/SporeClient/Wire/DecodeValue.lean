/-
  Wire/DecodeValue.lean --- a value that comes back from its encoding is encodable.

  WHAT THIS FILE IS FOR.  `Wire/Encoding.lean` shows that the lexer and the block stripping
  undo the encoding of an encodable value.  Here is the other direction, for one value.
  Let the lexer stand before the encoding of `v`, with a space or the end of the text
  behind it.  When what it makes of it strips to `v`, then `v` is encodable
  (`encodable_of_tokenText`), whichever of the four encodings was chosen.
-/
import SporeClient.Parser.TokenText
import SporeClient.Wire.RoundTrip

set_option autoImplicit false

namespace SporeClient.Wire

open SporeClient.Foundation
open SporeClient.Parser

/-! ## One value -/

/-- What follows a piece: nothing, or the space before the next one. -/
def Separated (rest : Bytes) : Prop := rest = [] ∨ rest.head? = some ' '

theorem Separated.neutral {rest : Bytes} (h : Separated rest) : Neutral rest.head? := by
  rcases h with rfl | h
  · decide
  · rw [h]
    decide

theorem Separated.leadingQuotes {rest : Bytes} (h : Separated rest) : leadingQuotes rest = 0 := by
  rcases h with rfl | h
  · rfl
  · obtain ⟨r, rfl⟩ := List.head?_eq_some_iff.mp h
    rfl

/-- A mode that adds nothing to a token before a separator is outside everything. -/
theorem Separated.outside {rest : Bytes} (h : Separated rest) {m : Mode} (hm : m.Proper)
    (hquote : ∀ q, m ≠ .quote q) (htext : tokenText m rest = []) : m = .outside := by
  cases m with
  | outside => rfl
  | quote q => exact absurd rfl (hquote q)
  | bracket b n =>
      rcases h with rfl | h
      · have hn : n = 0 := by simpa [tokenText, Mode.closing] using htext
        exact absurd hm.2 (by omega)
      · obtain ⟨r, rfl⟩ := List.head?_eq_some_iff.mp h
        rcases hstep : (Mode.bracket b n).step ' ' r.head? with ⟨m', _ | _ | _⟩
        · simp [tokenText_keep hstep] at htext
        · simpa [isQuote] using Mode.step_drop hm hstep
        · exact absurd (Mode.step_cut hstep).1 (by simp)
  | block =>
      rcases h with rfl | h
      · simp [tokenText, Mode.closing] at htext
      · obtain ⟨r, rfl⟩ := List.head?_eq_some_iff.mp h
        have hstep : Mode.block.step ' ' r.head? = (.block, .keep) := by simp [Mode.step]
        simp [tokenText_keep hstep] at htext

/-- What a stripped token can have been: a newline at its front was taken away. -/
theorem stripBlock_eq {o v : Bytes} (h : stripBlock o = v) :
    (o = v ∧ isBlock v = false) ∨
      ∃ n₁ n₂, (n₁ = [] ∧ (v ++ n₂).head? ≠ some '\n' ∨ n₁ = ['\n']) ∧ (n₂ = [] ∨ n₂ = ['\n']) ∧
        o = block (n₁ ++ v ++ n₂) := by
  cases hb : isBlock o with
  | false =>
      rw [stripBlock_of_not hb] at h
      exact Or.inl ⟨h, h ▸ hb⟩
  | true =>
      obtain ⟨body, rfl⟩ := (isBlock_iff o).mp hb
      rw [stripBlock_block] at h
      have hfront : ∃ n₁, (n₁ = [] ∧ (trimFront body).head? ≠ some '\n' ∨ n₁ = ['\n']) ∧
          body = n₁ ++ trimFront body := by
        unfold trimFront
        split
        · rename_i hhead
          obtain ⟨r, rfl⟩ := List.head?_eq_some_iff.mp hhead
          exact ⟨['\n'], Or.inr rfl, rfl⟩
        · rename_i hhead
          exact ⟨[], Or.inl ⟨rfl, hhead⟩, rfl⟩
      have hback : ∀ s : Bytes, ∃ n₂, (n₂ = [] ∨ n₂ = ['\n']) ∧ s = trimBack s ++ n₂ := by
        intro s
        unfold trimBack
        split
        · rename_i hlast
          obtain ⟨r, rfl⟩ := List.getLast?_eq_some_iff.mp hlast
          exact ⟨['\n'], Or.inr rfl, by simp⟩
        · exact ⟨[], Or.inl rfl, by simp⟩
      obtain ⟨n₁, hn₁, hbody⟩ := hfront
      obtain ⟨n₂, hn₂, hrest⟩ := hback (trimFront body)
      refine Or.inr ⟨n₁, n₂, ?_, hn₂, ?_⟩
      · rw [← h, ← hrest]
        exact hn₁
      · rw [← h, List.append_assoc, ← hrest, ← hbody]

/-- Without block marks: the token is the value, and the value is no block. -/
theorem eq_of_strip {m : Mode} (hm : m.Proper) {v sfx rest : Bytes} (hlen : sfx.length ≤ 1)
    (hrest : Separated rest) (h : stripBlock (tokenText m (v ++ sfx ++ rest)) = v) :
    tokenText m (v ++ sfx ++ rest) = v ∧ isBlock v = false := by
  rcases stripBlock_eq h with h | ⟨n₁, n₂, hn₁, hn₂, h⟩
  · exact h
  · refine absurd h (tokenText_ne_block hm hlen hrest ?_ ?_)
    · rcases hn₁ with ⟨rfl, _⟩ | rfl <;> simp
    · rcases hn₂ with rfl | rfl <;> simp

/-- A value written as it is. -/
theorem solid_of_plain {v rest : Bytes} (hrest : Separated rest)
    (h : stripBlock (tokenText .outside (v ++ rest)) = v) :
    solid isGap .outside v = true ∧ isBlock v = false := by
  have htext : v ++ rest = v ++ [] ++ rest := by simp
  rw [htext] at h
  obtain ⟨heq, hblock⟩ := eq_of_strip (m := .outside) trivial (by simp) hrest h
  have hrepeat : tokenText .outside (v ++ rest) = v ++ [] := by simpa using heq
  obtain ⟨m, hm, hquote, hend, hsolid⟩ := solid_of_tokenText (m := .outside) trivial (by simp)
    hrest.leadingQuotes hrest.neutral hrepeat
  exact ⟨hsolid (hrest.outside hm hquote hend), hblock⟩

/-- A value written in quotes. -/
theorem not_block_of_quoted {q : Char} (hq : q = '"' ∨ q = '\'') {v rest : Bytes}
    (hrest : Separated rest) (h : stripBlock (tokenText .outside (q :: v ++ [q] ++ rest)) = v) :
    tokenText (.quote q) (v ++ [q] ++ rest) = v ∧ isBlock v = false := by
  have hstep : ∀ next, Mode.outside.step q next = (.quote q, .drop) := fun next => by
    rcases hq with rfl | rfl <;> simp [Mode.step]
  have hopen : tokenText .outside (q :: v ++ [q] ++ rest) =
      tokenText (.quote q) (v ++ [q] ++ rest) := tokenText_drop (hstep _)
  rw [hopen] at h
  exact eq_of_strip (m := .quote q) hq (by simp) hrest h

/-- Inside quotes the bytes before the next quote are kept. -/
theorem tokenText_quote {q : Char} {p : Bytes} (h : q ∉ p) (rest : Bytes) :
    tokenText (.quote q) (p ++ q :: rest) = p ++ tokenText .outside rest := by
  induction p with
  | nil =>
      have hstep : (Mode.quote q).step q rest.head? = (.outside, .drop) := by simp [Mode.step]
      exact tokenText_drop hstep
  | cons c p ih =>
      have hc : c ≠ q := fun heq => h (heq ▸ List.mem_cons_self)
      have hp : q ∉ p := fun hmem => h (List.mem_cons_of_mem _ hmem)
      have hstep : (Mode.quote q).step c (p ++ q :: rest).head? = (.quote q, .keep) := by
        simp [Mode.step, hc]
      rw [List.cons_append, tokenText_keep hstep, ih hp, List.cons_append]

/-- A quoted value that comes back does not have its quote in it. -/
theorem quote_not_mem {q : Char} (hq : q = '"' ∨ q = '\'') {v rest : Bytes}
    (hrest : Separated rest) (h : tokenText (.quote q) (v ++ [q] ++ rest) = v) : q ∉ v := by
  intro hmem
  obtain ⟨p, r, rfl, hp⟩ := List.eq_append_cons_of_mem hmem
  have hsplit : p ++ q :: r ++ [q] ++ rest = p ++ q :: (r ++ [q] ++ rest) := by simp
  rw [hsplit, tokenText_quote hp, List.append_cancel_left_eq] at h
  -- behind the quote in `v` the token would have to begin with as many quotes as `v` does
  have hisQuote : isQuote q = true := by rcases hq with rfl | rfl <;> rfl
  have hfront := congrArg leadingQuotes h
  rw [leadingQuotes_cons, if_pos hisQuote] at hfront
  have hsource : leadingQuotes (r ++ [q] ++ rest) ≤ leadingQuotes r + 1 := by
    rw [leadingQuotes_append hrest.leadingQuotes]
    clear h hsplit hfront hmem
    induction r with
    | nil => simp [leadingQuotes, hisQuote]
    | cons c r ih =>
        rw [List.cons_append, leadingQuotes_cons, leadingQuotes_cons]
        split
        · omega
        · omega
  have hlt := quotes_lt (l := r ++ [q] ++ rest) (by
    have hle := quotes_le (m := .outside) trivial (r ++ [q] ++ rest)
    omega)
  omega

/-- A block up to its first `>>` is kept. -/
theorem tokenText_block {p : Bytes} (h : ¬closeMark <:+: p ++ ['>']) (rest : Bytes) :
    tokenText .block (p ++ '>' :: '>' :: rest) = p ++ '>' :: '>' :: tokenText .outside rest := by
  induction p with
  | nil =>
      have hclose : Mode.block.step '>' ('>' :: rest).head? = (.outside, .keep) := by
        simp [Mode.step]
      have hplain : Mode.outside.step '>' rest.head? = (.outside, .keep) := by simp [Mode.step]
      rw [List.nil_append, tokenText_keep hclose, tokenText_keep hplain, List.nil_append]
  | cons c p ih =>
      rw [List.cons_append, closeMark, pair_infix_cons, not_or] at h
      have hnext : (p ++ ['>']).head? = (p ++ '>' :: '>' :: rest).head? := by cases p <;> rfl
      rw [hnext] at h
      have hstep : Mode.block.step c (p ++ '>' :: '>' :: rest).head? = (.block, .keep) := by
        simp only [Mode.step, if_neg h.1]
      rw [List.cons_append, tokenText_keep hstep, ih h.2, List.cons_append]

/-- What the lexer makes of a block and what follows it. -/
theorem tokenText_openMark {p : Bytes} (h : ¬closeMark <:+: p ++ ['>']) (rest : Bytes) :
    tokenText .outside (openMark ++ (p ++ '>' :: '>' :: rest)) =
      openMark ++ (p ++ '>' :: '>' :: tokenText .outside rest) := by
  have hopen : ∀ r : Bytes, Mode.outside.step '<' ('<' :: r).head? = (.block, .keep) := fun r => by
    simp [Mode.step]
  have hkeep : ∀ r : Bytes, Mode.block.step '<' r.head? = (.block, .keep) := fun r => by
    simp [Mode.step]
  have hmark : ∀ r : Bytes, openMark ++ r = '<' :: '<' :: r := fun _ => rfl
  rw [hmark, tokenText_keep (hopen _), tokenText_keep (hkeep _), tokenText_block h]
  rfl

/-- A newline outside quotes is kept. -/
theorem tokenText_newline {m : Mode} (hquote : ∀ q, m ≠ .quote q) (rest : Bytes) :
    (tokenText m ('\n' :: rest)).head? = some '\n' := by
  have hkeep := (m.step_keep (c := '\n') hquote (fun _ => rfl) rest.head?).1
  rcases hstep : m.step '\n' rest.head? with ⟨m', a⟩
  rw [hstep] at hkeep
  obtain rfl : a = .keep := hkeep
  rw [tokenText_keep hstep]
  rfl

/-- Two texts with the same front, one of them with a newline before the mark at its end:
the front ends before that newline. -/
theorem cut_before_newline {v p q o : Bytes} (h₁ : v ++ '\n' :: closeMark = p ++ '>' :: '>' :: q)
    (h₂ : v ++ closeMark = p ++ '>' :: '>' :: o) :
    ∃ c, q = c ++ '\n' :: closeMark ∧ o = c ++ closeMark := by
  have hp : ∀ x : Bytes, p ++ '>' :: '>' :: x = (p ++ closeMark) ++ x := fun x => by
    simp [closeMark]
  rw [hp] at h₁ h₂
  rcases List.append_eq_append_iff.mp h₁ with ⟨a, hpa, ha⟩ | ⟨c, hv, hq⟩
  · -- what is left of the front stands in both tails
    rw [hpa, List.append_assoc, List.append_cancel_left_eq] at h₂
    cases a with
    | nil => exact ⟨[], by simpa using ha.symm, by simpa using h₂.symm⟩
    | cons d a =>
        rw [List.cons_append] at ha h₂
        have hd : d = '\n' := (List.cons.inj ha).1.symm
        simp [closeMark, hd] at h₂
  · rw [hv, List.append_assoc, List.append_cancel_left_eq] at h₂
    exact ⟨c, hq, h₂.symm⟩

/-- A value written in a block. -/
theorem solid_of_blockText {v rest : Bytes} (hrest : Separated rest)
    (h : stripBlock (tokenText .outside (blockText v ++ rest)) = v) :
    solid isGap .outside (blockText v) = true := by
  -- the body with the closing mark, cut at its first `>>`
  have hclose : closeMark <:+: ('\n' :: v ++ ['\n']) ++ closeMark :=
    pair_infix_middle ('\n' :: v ++ ['\n']) []
  obtain ⟨p, q, hbody, hp⟩ := exists_first_pair hclose
  have htext : blockText v = openMark ++ (p ++ '>' :: '>' :: q) := by
    rw [← hbody, blockText, block, List.append_assoc]
  obtain ⟨p', rfl⟩ : ∃ p', p = '\n' :: p' := by
    cases p with
    | nil => simp [closeMark] at hbody
    | cons c p' => exact ⟨p', by rw [(List.cons.inj hbody).1]⟩
  have htoken : tokenText .outside (blockText v ++ rest) =
      openMark ++ ('\n' :: p' ++ '>' :: '>' :: tokenText .outside (q ++ rest)) := by
    have happ : blockText v ++ rest = openMark ++ ('\n' :: p' ++ '>' :: '>' :: (q ++ rest)) := by
      rw [htext]
      simp
    rw [happ, tokenText_openMark hp]
  have hvp : v ++ '\n' :: closeMark = p' ++ '>' :: '>' :: q := by simpa using hbody
  rw [htoken] at h
  rcases stripBlock_eq h with ⟨h, _⟩ | ⟨n₁, n₂, hn₁, hn₂, h⟩
  · -- the token is not the value itself: its first `>>` would be in two places
    exfalso
    rw [← h] at hvp
    have hp₁ : ¬['>', '>'] <:+: p' ++ ['>'] := fun hin => hp (by
      rw [List.cons_append, pair_infix_cons]
      exact Or.inr hin)
    have hp₂ : ¬['>', '>'] <:+: ('<' :: '<' :: '\n' :: p') ++ ['>'] := by
      simp only [List.cons_append, pair_infix_cons]
      simpa using hp₁
    have hsame := first_pair_unique hp₂ hp₁ (by simpa [openMark] using hvp)
    have hlen := congrArg List.length hsame
    simp only [List.length_cons] at hlen
    omega
  · have hmarks : '\n' :: p' ++ '>' :: '>' :: tokenText .outside (q ++ rest) =
        n₁ ++ v ++ n₂ ++ closeMark := by
      have heq := h
      rw [block, List.append_assoc openMark] at heq
      exact List.append_cancel_left heq
    rcases hn₁ with ⟨rfl, hhead⟩ | rfl
    · -- the newline behind the opening mark would have been taken away
      exfalso
      cases hvn : v ++ n₂ with
      | nil =>
          rw [List.nil_append, hvn] at hmarks
          simp [closeMark] at hmarks
      | cons c r =>
          rw [List.nil_append, hvn] at hmarks
          rw [hvn] at hhead
          exact hhead (by rw [← (List.cons.inj hmarks).1]; rfl)
    · have hrest' : p' ++ '>' :: '>' :: tokenText .outside (q ++ rest) = v ++ n₂ ++ closeMark := by
        simpa using hmarks
      rcases hn₂ with rfl | rfl
      · -- the newline before the closing mark was kept, so the token has it
        exfalso
        have hend : v ++ closeMark = p' ++ '>' :: '>' :: tokenText .outside (q ++ rest) := by
          rw [hrest', List.append_nil]
        obtain ⟨c, hq, ho⟩ := cut_before_newline hvp hend
        rw [hq, List.append_assoc] at ho
        have hneutral : Neutral ('\n' :: closeMark ++ rest).head? :=
          show Neutral (some '\n') by decide
        obtain ⟨m, _, hquote, htail, _⟩ := solid_of_tokenText (m := .outside) trivial (by simp)
          (by rfl) hneutral ho
        have hnewline := tokenText_newline hquote (closeMark ++ rest)
        rw [List.cons_append] at htail
        rw [htail] at hnewline
        simp [closeMark] at hnewline
      · -- the token is the whole encoding
        have hq : tokenText .outside (q ++ rest) = q ++ [] := by
          have heq : p' ++ '>' :: '>' :: tokenText .outside (q ++ rest) =
              p' ++ '>' :: '>' :: q := by
            rw [hrest', ← hvp]
            simp
          simpa using heq
        obtain ⟨m, hm, hquote, hend, hsolid⟩ := solid_of_tokenText (m := .outside) trivial (by simp)
          hrest.leadingQuotes hrest.neutral hq
        have hqsolid := hsolid (hrest.outside hm hquote hend)
        rw [htext]
        have hopen : solid isGap .outside (openMark ++ ('\n' :: p' ++ '>' :: '>' :: q)) =
            solid isGap .block ('\n' :: p' ++ '>' :: '>' :: q) := by
          simp [openMark, solid, Mode.step, isGap]
        rw [hopen, solid_block q hp]
        simpa [solid, Mode.step, isGap] using hqsolid

/-- **A value that comes back is encodable.**  The lexer stands before its encoding, and a
separator is behind it. -/
theorem encodable_of_tokenText {v rest : Bytes} (hrest : Separated rest)
    (hcr : '\n' ∈ v → NoCRLF (v ++ ['\n']))
    (h : stripBlock (tokenText .outside (encodeValue v ++ rest)) = v) : IsEncodable v := by
  unfold IsEncodable
  unfold encodeValue at h
  by_cases hnl : '\n' ∈ v
  · rw [if_pos hnl] at h ⊢
    have hblock : ['<', '<', '\n'] ++ v ++ ['\n', '>', '>'] = blockText v := by
      simp [blockText, block, openMark, closeMark]
    rw [hblock] at h
    exact ⟨solid_of_blockText hrest h, hcr hnl⟩
  · rw [if_neg hnl] at h ⊢
    by_cases hq : '"' ∈ v
    · rw [if_pos hq] at h ⊢
      obtain ⟨htext, hblock⟩ := not_block_of_quoted (Or.inr rfl) hrest h
      exact ⟨quote_not_mem (Or.inr rfl) hrest htext, hblock⟩
    · rw [if_neg hq] at h ⊢
      by_cases hsp : ' ' ∈ v ∨ '\t' ∈ v
      · rw [if_pos hsp] at h ⊢
        exact (not_block_of_quoted (Or.inl rfl) hrest h).2
      · rw [if_neg hsp] at h ⊢
        exact solid_of_plain hrest h

end SporeClient.Wire
