/-
  Wire/Rejoin.lean --- texts that differ by the newline behind a `<<`.

  WHAT THIS FILE IS FOR.  `listen` leaves out the newline behind a line that closes a
  block and opens another, and `parseRaw` keeps it.  Nothing comes of it when the newline
  stands right behind the `<<` of an argument, where `build` takes it away again, and what
  follows does not begin with another.  Two texts that differ by such a newline have the
  same tokens but for it (`tokenize_rejoined`), and tokens like that are built into the same
  message (`build_alike`).
-/
import SporeClient.Wire.Encoding
import Mathlib.Data.List.Forall2

set_option autoImplicit false

namespace SporeClient.Wire

open SporeClient.Foundation
open SporeClient.Parser

/-! ## Tokens of a text in two parts -/

/-- What follows a finished token: nothing, or a space. -/
def IsTail (text : Bytes) : Prop := text = [] ∨ text.head? = some ' '

theorem IsTail.neutral {text : Bytes} (h : IsTail text) : Neutral text.head? := by
  rcases h with rfl | h
  · decide
  · rw [h]
    decide

/-- A token ends where a tail begins. -/
theorem Lexer.finish_tail (t : Token) (d : List Token) {text : Bytes} (h : IsTail text) :
    ((⟨.outside, t, d⟩ : Lexer).read text none).finish = d ++ emit t ++ tokenize text := by
  rw [tokenize_eq]
  rcases h with rfl | h
  · simp [Lexer.finish, Mode.closing, emit]
  · obtain ⟨rest, rfl⟩ := List.head?_eq_some_iff.mp h
    have hcut : ∀ (t : Token) (d : List Token) next, (⟨.outside, t, d⟩ : Lexer).step ' ' next =
        ⟨.outside, {}, d ++ emit t⟩ := fun _ _ _ => rfl
    have hstart : ({} : Lexer).read (' ' :: rest) none = ({} : Lexer).read rest none := by
      rw [Lexer.read_cons]
      exact congrArg (fun s : Lexer => s.read rest none) (hcut {} [] _)
    rw [hstart, Lexer.read_cons, hcut, Lexer.finish_tokens]

/-- The tokens of a text that ends outside everything come first. -/
theorem tokenize_tail {text tail : Bytes} (h : Mode.outside.after text none = .outside)
    (htail : IsTail tail) : tokenize (text ++ tail) = tokenize text ++ tokenize tail := by
  have hnext : ({} : Lexer).read text (tail.head?.or none) = ({} : Lexer).read text none :=
    Lexer.read_neutral (by simpa using htail.neutral) (by decide) {} text
  have hmode : (({} : Lexer).read text none).mode = .outside := by rw [Lexer.read_mode]; exact h
  rw [tokenize_eq, Lexer.read_append, hnext, tokenize_eq text]
  generalize ({} : Lexer).read text none = s at hmode ⊢
  obtain ⟨m, t, d⟩ := s
  obtain rfl : m = .outside := hmode
  rw [Lexer.finish_tail t d htail]
  simp [Lexer.finish, Mode.closing]

/-- A key and a block that ends at its first `>>` are one token. -/
theorem tokenize_blockArg {key body tail : Bytes} (hkey : IsKey key)
    (hbody : ¬closeMark <:+: body ++ ['>']) (htail : IsTail tail) :
    tokenize (' ' :: key ++ '=' :: block body ++ tail) =
      ⟨key ++ '=' :: block body, .arg⟩ :: tokenize tail := by
  have hlex : Lexes (key ++ '=' :: block body) ⟨key ++ '=' :: block body, .arg⟩ :=
    lexes_arg hkey.solid (carries_solid (solid_block_marks hbody))
  have hcut : ∀ next, (⟨.outside, {}, []⟩ : Lexer).step ' ' next = ⟨.outside, {}, []⟩ :=
    fun _ => rfl
  have htext : ' ' :: key ++ '=' :: block body ++ tail =
      ' ' :: (key ++ '=' :: block body ++ tail) := by simp
  have hneutral : Neutral (tail.head?.or none) := by simpa using htail.neutral
  rw [tokenize_eq, htext, Lexer.read_cons, hcut, Lexer.read_append, hlex [] _ hneutral,
    Lexer.finish_tail _ _ htail]
  simp [emit]

/-! ## Tokens that are built alike -/

/-- Two tokens from which `build` takes the same. -/
inductive Token.Alike : Token → Token → Prop
  | refl (t : Token) : Token.Alike t t
  | arg {key v w : Bytes} (hkey : '=' ∉ key) (h : stripBlock v = stripBlock w) :
      Token.Alike ⟨key ++ '=' :: v, .arg⟩ ⟨key ++ '=' :: w, .arg⟩

theorem Token.Alike.note {t u : Token} (h : Token.Alike t u) (props : Props) :
    props.note t = props.note u := by
  cases h with
  | refl t => rfl
  | arg hkey h => simp only [Props.note, argOf_append hkey]

theorem Token.Alike.addTokens {t u : Token} (h : Token.Alike t u) (m : ParsedMessage) :
    m.addTokens [t] = m.addTokens [u] := by
  cases h with
  | refl t => rfl
  | arg hkey h => simp [ParsedMessage.addTokens, handleOf, argsOf, flagsOf, argOf_append hkey, h]

theorem propsOf_alike {a b : List Token} (h : List.Forall₂ Token.Alike a b) (props : Props) :
    propsOf props a = propsOf props b := by
  induction h generalizing props with
  | nil => rfl
  | @cons t u a b htu _ ih =>
      have hcons : ∀ (t : Token) l, propsOf props (t :: l) = propsOf (props.note t) l :=
        fun _ _ => rfl
      rw [hcons, hcons, htu.note, ih]

theorem addTokens_alike {a b : List Token} (h : List.Forall₂ Token.Alike a b)
    (m : ParsedMessage) : m.addTokens a = m.addTokens b := by
  induction h generalizing m with
  | nil => rfl
  | @cons t u a b htu _ ih =>
      rw [ParsedMessage.addTokens_cons, htu.addTokens, ih, ← ParsedMessage.addTokens_cons]

theorem alike_append (c : List Token) {a b : List Token} (h : List.Forall₂ Token.Alike a b) :
    List.Forall₂ Token.Alike (c ++ a) (c ++ b) :=
  List.rel_append (List.forall₂_same.mpr fun t _ => .refl t) h

/-- **Tokens alike are built alike**, when they follow others that have a `<`: the type and
the topic are then settled. -/
theorem build_alike {a b b' : List Token} (ha : 0 < countIn '<' a)
    (h : List.Forall₂ Token.Alike b b') (p : ParserState) (m : ParsedMessage) :
    build p m (a ++ b) = build p m (a ++ b') := by
  cases a with
  | nil => simp at ha
  | cons t a =>
      rw [List.cons_append, List.cons_append]
      by_cases htype : (buildFirst p m t).1.type = .publish
      · -- a publish: its first token has no `<`, so there is a topic
        obtain rfl := buildFirst_publish htype
        cases a with
        | nil => simp [publishWord] at ha
        | cons topic a =>
            have hrest := alike_append a h
            rw [List.cons_append, List.cons_append, build_publish, build_publish,
              propsOf_alike hrest, addTokens_alike hrest]
      · have hrest := alike_append a h
        rw [build_eq _ htype, build_eq _ htype, propsOf_alike hrest, addTokens_alike hrest]

/-! ## The newline behind a `<<` -/

/-- The body of a block behind whose `<<` a newline makes no difference: it has no `>>`,
and it does not begin with a newline, unless it is one. -/
structure IsCleanBody (body : Bytes) : Prop where
  no_close : ¬closeMark <:+: body ++ ['>']
  front : body = ['\n'] ∨ body.head? ≠ some '\n'

instance (body : Bytes) : Decidable (IsCleanBody body) :=
  decidable_of_iff (¬closeMark <:+: body ++ ['>'] ∧ (body = ['\n'] ∨ body.head? ≠ some '\n'))
    ⟨fun h => ⟨h.1, h.2⟩, fun h => ⟨h.1, h.2⟩⟩

/-- `build` takes the newline away again. -/
theorem IsCleanBody.stripBlock_newline {body : Bytes} (h : IsCleanBody body) :
    stripBlock (block ('\n' :: body)) = stripBlock (block body) := by
  rw [stripBlock_block, stripBlock_block]
  rcases h.front with rfl | h
  · rfl
  · have hfront : trimFront body = body := by rw [trimFront, if_neg h]
    rw [hfront]
    rfl

/-- Texts with the same tokens but for what `build` takes away. -/
def TextAlike (a b : Bytes) : Prop := List.Forall₂ Token.Alike (tokenize a) (tokenize b)

theorem TextAlike.refl (a : Bytes) : TextAlike a a := List.forall₂_same.mpr fun t _ => .refl t

/-- **The newline behind the `<<` of an argument.**  The tokens of what is before it are
the same, and those from it on are alike. -/
theorem tokenize_rejoined {front key body N D : Bytes}
    (hfront : Mode.outside.after front none = .outside) (hkey : IsKey key)
    (hbody : IsCleanBody body) (hN : IsTail N) (hD : IsTail D) (h : TextAlike N D) :
    ∃ b b', tokenize (front ++ (' ' :: key ++ '=' :: block ('\n' :: body) ++ N)) =
        tokenize front ++ b ∧
      tokenize (front ++ (' ' :: key ++ '=' :: block body ++ D)) = tokenize front ++ b' ∧
      List.Forall₂ Token.Alike b b' := by
  have hnewline : ¬closeMark <:+: ('\n' :: body) ++ ['>'] := by
    rw [List.cons_append, closeMark, pair_infix_cons, not_or]
    exact ⟨by simp, hbody.no_close⟩
  have htail : ∀ rest, IsTail (' ' :: key ++ '=' :: rest) := fun _ => Or.inr rfl
  refine ⟨_, _, tokenize_tail hfront (by simpa using htail _),
    tokenize_tail hfront (by simpa using htail _), ?_⟩
  rw [tokenize_blockArg hkey hnewline hN, tokenize_blockArg hkey hbody.no_close hD]
  exact .cons (.arg hkey.no_eq hbody.stripBlock_newline) h

end SporeClient.Wire
