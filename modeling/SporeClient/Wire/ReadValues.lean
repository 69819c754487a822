/-
  Wire/ReadValues.lean --- the values of a message, read in the order they were written.

  WHAT THIS FILE IS FOR.  Between the names in front and the flags behind, the text of a
  message is a row of arguments, each of them a key, an `=` and the value in some written
  form (`WrittenArg`).  When no other value was read for any of the keys, the lexer is in
  step with what was written from the first argument to the last (`read_values`).  That no
  other value was read is shown by counting: each argument uses up an `=`
  (`args_mem_of_count`).
-/
import SporeClient.Wire.Counting
import SporeClient.Wire.DecodeValue

set_option autoImplicit false

namespace SporeClient.Wire

open SporeClient.Foundation
open SporeClient.Parser

/-! ## Arguments as they are written -/

/-- A written argument: its key, its value and the text behind the `=`. -/
structure WrittenArg where
  key : Bytes
  value : Bytes
  text : Bytes

namespace WrittenArg

/-- An argument that `serializeArg` writes. -/
def encoded (p : Bytes × Bytes) : WrittenArg := ⟨p.1, p.2, encodeValue p.2⟩

/-- The bytes of the argument, with the space in front of it. -/
def bytes (a : WrittenArg) : Bytes := ' ' :: (a.key ++ '=' :: a.text)

/-- The argument as it is read. -/
def pair (a : WrittenArg) : Bytes × Bytes := (a.key, a.value)

/-- The lexer, before the text of the value, makes the value of it. -/
def ReadsBack (a : WrittenArg) : Prop :=
  ∃ rest, Separated rest ∧ stripBlock (tokenText .outside (a.text ++ rest)) = a.value

/-- Behind a value that is read back the lexer is outside everything. -/
def Closes (a : WrittenArg) : Prop := a.ReadsBack → ∃ carried, Carries a.text carried

end WrittenArg

theorem bytes_encoded (l : List (Bytes × Bytes)) :
    (l.map WrittenArg.encoded).flatMap WrittenArg.bytes =
      l.flatMap fun p => serializeArg p.1 p.2 := by
  simp [List.flatMap_map, WrittenArg.bytes, WrittenArg.encoded, serializeArg]

/-- A value that is read back from its encoding is encodable. -/
theorem WrittenArg.ReadsBack.encodable {p : Bytes × Bytes}
    (hcr : '\n' ∈ p.2 → NoCRLF (p.2 ++ ['\n'])) (h : (WrittenArg.encoded p).ReadsBack) :
    IsEncodable p.2 := by
  obtain ⟨rest, hrest, hvalue⟩ := h
  exact encodable_of_tokenText hrest hcr hvalue

theorem WrittenArg.closes_encoded {p : Bytes × Bytes} (hcr : '\n' ∈ p.2 → NoCRLF (p.2 ++ ['\n'])) :
    (WrittenArg.encoded p).Closes := fun h => ⟨_, carries_encodeValue (h.encodable hcr)⟩

theorem separated_written {l : List WrittenArg} {tail : Bytes} (h : Separated tail) :
    Separated (l.flatMap WrittenArg.bytes ++ tail) := by
  cases l with
  | nil => exact h
  | cons a rest => exact Or.inr rfl

/-- **In step up to the last argument.**  Behind a row of pieces stand arguments for whose
keys no other values were read.  Then each value is read back where it was written. -/
theorem read_values {front : Bytes} {tokens : List Token} (hrow : IsRow front tokens) {n : Nat}
    (hn : n ≤ tokens.length) {l : List WrittenArg} {tail : Bytes} (htail : Separated tail)
    (hkeys : ∀ a ∈ l, IsKey a.key) (hcloses : ∀ a ∈ l, a.Closes)
    (hnul : '\x00' ∉ front ++ (l.flatMap WrittenArg.bytes ++ tail))
    (hvalues : ∀ a ∈ l, ∀ v,
      (a.key, v) ∈ argsOf ((tokenize (front ++ (l.flatMap WrittenArg.bytes ++ tail))).drop n) →
        v = a.value) :
    ∀ a ∈ l, a.ReadsBack := by
  induction l generalizing front tokens with
  | nil => simp
  | cons a l ih =>
      have hkey := hkeys a List.mem_cons_self
      have hrest : Separated (l.flatMap WrittenArg.bytes ++ tail) := separated_written htail
      obtain ⟨more, hmore⟩ := hrow.tokenize_arg hkey
        (a.text ++ (l.flatMap WrittenArg.bytes ++ tail))
      have htext : front ++ ((a :: l).flatMap WrittenArg.bytes ++ tail) =
          front ++ ' ' :: (a.key ++ '=' ::
            (a.text ++ (l.flatMap WrittenArg.bytes ++ tail))) := by
        simp [WrittenArg.bytes]
      rw [htext] at hnul hvalues
      -- what the token at this place holds was read for the key
      have hback : a.ReadsBack := by
        refine ⟨_, hrest, hvalues a List.mem_cons_self _ ?_⟩
        have hmem : (⟨a.key ++ '=' :: tokenText .outside
            (a.text ++ (l.flatMap WrittenArg.bytes ++ tail)), .arg⟩ : Token) ∈
              (tokenize (front ++ ' ' :: (a.key ++ '=' ::
                (a.text ++ (l.flatMap WrittenArg.bytes ++ tail))))).drop n := by
          rw [hmore, List.drop_append_of_le_length hn]
          exact List.mem_append_right _ List.mem_cons_self
        have hno := not_mem_of_tokenize rfl rfl hnul (List.mem_of_mem_drop hmem)
        refine List.mem_filterMap.mpr ⟨_, hmem, ?_⟩
        rw [if_pos rfl, argOf_append hkey.no_eq, cstr_eq_self hkey.no_nul, cstr_eq_self]
        exact fun hin => hno
          (List.mem_append_right _ (List.mem_cons_of_mem _ ((stripBlock_sublist _).subset hin)))
      obtain ⟨carried, hcarries⟩ := hcloses a List.mem_cons_self hback
      let piece : Piece := ⟨a.key ++ '=' :: a.text, ⟨a.key ++ '=' :: carried, .arg⟩,
        lexes_arg hkey.solid hcarries, by simp⟩
      have hfront : front ++ ' ' :: (a.key ++ '=' ::
          (a.text ++ (l.flatMap WrittenArg.bytes ++ tail))) =
            front ++ ' ' :: piece.text ++ (l.flatMap WrittenArg.bytes ++ tail) := by
        simp [piece]
      rw [hfront] at hnul hvalues
      have hlonger : n ≤ (tokens ++ [piece.token]).length := by
        rw [List.length_append]
        omega
      have hall := ih (hrow.concat piece) hlonger (fun b hb => hkeys b (List.mem_cons_of_mem a hb))
        (fun b hb => hcloses b (List.mem_cons_of_mem a hb)) hnul
        fun b hb => hvalues b (List.mem_cons_of_mem a hb)
      intro b hb
      rcases List.mem_cons.mp hb with rfl | hb
      · exact hback
      · exact hall b hb

end SporeClient.Wire
