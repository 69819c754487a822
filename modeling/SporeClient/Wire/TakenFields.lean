/-
  Wire/TakenFields.lean --- the fields `code`, `what` and `body`, read back.

  WHAT THIS FILE IS FOR.  What an object gets for one of these fields is the value of one
  of the arguments with its name, and so of a token.  When the value is what was sent, the
  token tells what the lexer made of the text behind the `=`: a field in double quotes had
  no such quote in it and was no block (`quoted_of_tokenText`).
-/
import SporeClient.Wire.DecodeValue
import SporeClient.Wire.OwnFields

set_option autoImplicit false

namespace SporeClient.Wire

open SporeClient.Foundation
open SporeClient.Parser

/-! ## From the object to the tokens -/

/-- The value a key has last in a list, or `v` when it has none. -/
def lastOf (key v : Bytes) (l : List (Bytes × Bytes)) : Bytes :=
  l.foldl (fun v p => if p.1 = key then p.2 else v) v

theorem lastOf_cons (key v : Bytes) (p : Bytes × Bytes) (l : List (Bytes × Bytes)) :
    lastOf key v (p :: l) = lastOf key (if p.1 = key then p.2 else v) l := rfl

/-- The last value of a key is the value of one of the arguments, or there is none. -/
theorem lastOf_cases (key v : Bytes) (l : List (Bytes × Bytes)) :
    (key, lastOf key v l) ∈ l ∨ (∀ p ∈ l, p.1 ≠ key) ∧ lastOf key v l = v := by
  induction l generalizing v with
  | nil => exact Or.inr ⟨by simp, rfl⟩
  | cons p rest ih =>
      rw [lastOf_cons]
      rcases ih (if p.1 = key then p.2 else v) with hmem | ⟨hnone, heq⟩
      · exact Or.inl (List.mem_cons_of_mem p hmem)
      · rw [heq]
        by_cases hp : p.1 = key
        · rw [if_pos hp, ← hp]
          exact Or.inl List.mem_cons_self
        · rw [if_neg hp]
          refine Or.inr ⟨fun q hq => ?_, rfl⟩
          rcases List.mem_cons.mp hq with rfl | hq
          · exact hp
          · exact hnone q hq

theorem lastOf_mem {key : Bytes} {l : List (Bytes × Bytes)} (h : ∃ p ∈ l, p.1 = key) (v : Bytes) :
    (key, lastOf key v l) ∈ l := by
  obtain ⟨p, hp, hkey⟩ := h
  exact (lastOf_cases key v l).resolve_right fun hnone => hnone.1 p hp hkey

theorem Witness.takeArgs_body (w : Witness) (l : List (Bytes × Bytes)) :
    (Witness.takeArgs w l).body = lastOf bodyWord w.body l := by
  induction l generalizing w with
  | nil => rfl
  | cons p rest ih =>
      rw [takeArgs, lastOf_cons]
      split
      · exact ih _
      · exact ih _

theorem ResponseError.takeFields_code (e : ResponseError) (l : List (Bytes × Bytes)) :
    (ResponseError.takeFields e l).code = lastOf codeWord e.code l := by
  induction l generalizing e with
  | nil => rfl
  | cons p rest ih =>
      rw [takeFields, lastOf_cons]
      split
      · exact ih _
      · split <;> exact ih _

theorem ResponseError.takeFields_what (e : ResponseError) (l : List (Bytes × Bytes)) :
    (ResponseError.takeFields e l).what = lastOf whatWord e.what l := by
  induction l generalizing e with
  | nil => rfl
  | cons p rest ih =>
      rw [takeFields, lastOf_cons]
      split
      · rename_i hcode
        have hne : p.1 ≠ whatWord := by
          rw [hcode]
          decide
        rw [if_neg hne]
        exact ih _
      · split <;> exact ih _

/-- An argument without NUL is read from a token that has its key before the `=`. -/
theorem exists_token_of_arg {message : Bytes} (hnul : '\x00' ∉ message) {t : Token}
    {rest : List Token} (htokens : tokenize message = t :: rest) {p : Bytes × Bytes}
    (h : p ∈ argsOf rest) : ∃ y, ⟨p.1 ++ '=' :: y, .arg⟩ ∈ rest ∧ stripBlock y = p.2 := by
  obtain ⟨u, hu, hp⟩ := List.mem_filterMap.mp h
  have hmem : u ∈ tokenize message := htokens ▸ List.mem_cons_of_mem t hu
  split at hp
  · rename_i harg
    obtain rfl := Option.some.inj hp
    obtain ⟨k, y, hvalue, hk⟩ := List.eq_append_cons_of_mem (eq_mem_of_arg hmem harg)
    have hno : '\x00' ∉ u.value := not_mem_of_tokenize rfl rfl hnul hmem
    have hargOf : argOf u.value = (k, stripBlock y) := by
      rw [hvalue, argOf_append hk]
    have hkey : '\x00' ∉ k := fun hin => hno (by rw [hvalue]; exact List.mem_append_left _ hin)
    have hval : '\x00' ∉ stripBlock y := fun hin => hno (by
      rw [hvalue]
      exact List.mem_append_right _ (List.mem_cons_of_mem _ ((stripBlock_sublist y).subset hin)))
    rw [hargOf, cstr_eq_self hkey, cstr_eq_self hval]
    obtain ⟨value, type⟩ := u
    obtain rfl : type = .arg := harg
    obtain rfl : value = k ++ '=' :: y := hvalue
    exact ⟨y, hu, rfl⟩
  · simp at hp

/-- **The last value of a key that `validate` has seen** is the value of one of the tokens. -/
theorem exists_token_of_key {message : Bytes} (hnul : '\x00' ∉ message) {t : Token}
    {rest : List Token} (htokens : tokenize message = t :: rest) {key : Bytes}
    (hkey : '\x00' ∉ key) (h : ∃ u ∈ rest, u.type = .arg ∧ (argOf u.value).1 = key) (v : Bytes) :
    ∃ y, ⟨key ++ '=' :: y, .arg⟩ ∈ rest ∧ stripBlock y = lastOf key v (argsOf rest) := by
  obtain ⟨u, hu, harg, hu₁⟩ := h
  have hin : ∃ p ∈ argsOf rest, p.1 = key := by
    refine ⟨(cstr (argOf u.value).1, cstr (argOf u.value).2), ?_, ?_⟩
    · exact List.mem_filterMap.mpr ⟨u, hu, if_pos harg⟩
    · rw [hu₁]
      exact cstr_eq_self hkey
  exact exists_token_of_arg hnul htokens (lastOf_mem hin v)

/-! ## From the tokens to the text -/

/-- What a token holds is among the bytes of the text. -/
theorem count_token_le {message : Bytes} {t u : Token} {rest : List Token}
    (htokens : tokenize message = t :: rest) (hu : u ∈ rest) {x : Char} (hgap : isGap x = false)
    (hcloser : isCloser x = false) : t.value.count x + u.value.count x ≤ message.count x := by
  have hin : u.value.count x ≤ countIn x rest :=
    List.single_le_sum (by simp) _ (List.mem_map.mpr ⟨u, hu, rfl⟩)
  rw [← count_tokenize hgap hcloser message, htokens, countIn_cons]
  omega

/-- Two tokens of a list hold no more than the whole list. -/
theorem count_pair_le {x : Char} {tokens : List Token} {u v : Token} (hu : u ∈ tokens)
    (hv : v ∈ tokens) (hne : u ≠ v) : u.value.count x + v.value.count x ≤ countIn x tokens := by
  have hsum : countIn x tokens = u.value.count x + countIn x (tokens.erase u) := by
    rw [← countIn_cons]
    exact ((List.perm_cons_erase hu).map fun t => t.value.count x).sum_eq
  have hin : v.value.count x ≤ countIn x (tokens.erase u) :=
    List.single_le_sum (by simp) _
      (List.mem_map.mpr ⟨v, (List.mem_erase_of_ne hne.symm).mpr hv, rfl⟩)
  omega

/-- **A field in double quotes** that comes back has no double quote in it and is no block. -/
theorem quoted_of_tokenText {v rest : Bytes} (hrest : Separated rest)
    (h : stripBlock (tokenText .outside ('"' :: v ++ ['"'] ++ rest)) = v) :
    '"' ∉ v ∧ isBlock v = false := by
  obtain ⟨heq, hblock⟩ := not_block_of_quoted (Or.inl rfl) hrest h
  exact ⟨quote_not_mem (Or.inl rfl) hrest heq, hblock⟩

end SporeClient.Wire
