/-
  Wire/Encoding.lean --- which argument values `serializeArg` writes so that they can be
  read back.

  WHAT THIS FILE IS FOR.  `serializeArg` looks at a value and chooses one of four
  encodings; the lexer and the block stripping of `build` undo it, for some values.
  `IsEncodable` says which: the value has no byte that its encoding cannot protect, and it
  is not itself of the form that `build` strips.  `carries_encodeValue` and
  `stripBlock_carried` are the two halves of reading such a value back.
-/
import SporeClient.Parser.BuildSpec
import SporeClient.Parser.Blocks
import SporeClient.Wire.FromRaw

set_option autoImplicit false

namespace SporeClient.Wire

open SporeClient.Foundation
open SporeClient.Parser

/-! ## Stripping blocks -/

/-- A value between block marks. -/
def block (body : Bytes) : Bytes := openMark ++ body ++ closeMark

theorem isBlock_block (body : Bytes) : isBlock (block body) = true := by
  simp [isBlock, block, openMark, closeMark]

/-- A block that ends at its first `>>` is solid. -/
theorem solid_block_marks {body : Bytes} (h : ¬closeMark <:+: body ++ ['>']) :
    solid isGap .outside (block body) = true := by
  have hopen : solid isGap .outside (block body) =
      solid isGap .block (body ++ '>' :: '>' :: []) := by
    simp [block, openMark, closeMark, solid, Mode.step, isGap]
  rw [hopen, solid_block [] h]
  rfl

/-- The values that `build` strips are those between block marks. -/
theorem isBlock_iff (v : Bytes) : isBlock v = true ↔ ∃ body, v = block body := by
  constructor
  · intro h
    simp only [isBlock, Bool.and_eq_true, decide_eq_true_eq, beq_iff_eq] at h
    obtain ⟨⟨hlen, hfront⟩, hback⟩ := h
    refine ⟨(v.drop 2).take (v.length - 4), ?_⟩
    have hmid : (v.drop 2).take (v.length - 4) ++ v.drop (v.length - 2) = v.drop 2 := by
      have hdrop : (v.drop 2).drop (v.length - 4) = v.drop (v.length - 2) := by
        rw [List.drop_drop]
        congr 1
        omega
      rw [← hdrop, List.take_append_drop]
    rw [hback] at hmid
    calc v = v.take 2 ++ v.drop 2 := (List.take_append_drop 2 v).symm
      _ = block ((v.drop 2).take (v.length - 4)) := by
        rw [hfront, block, openMark, closeMark, List.append_assoc, hmid]
  · rintro ⟨body, rfl⟩
    exact isBlock_block body

/-- What is left of a stripped value. -/
theorem stripBlock_block (body : Bytes) : stripBlock (block body) = trimBack (trimFront body) := by
  have hlen : (block body).length - 4 = body.length := by
    simp [block, openMark, closeMark]
  have hdrop : (block body).drop 2 = body ++ ['>', '>'] := by simp [block, openMark, closeMark]
  rw [stripBlock, if_pos (isBlock_block body), hdrop, hlen, List.take_left]

theorem stripBlock_of_not {v : Bytes} (h : isBlock v = false) : stripBlock v = v := by
  simp [stripBlock, h]

theorem trimFront_sublist (s : Bytes) : (trimFront s).Sublist s := by
  unfold trimFront
  split
  · exact List.tail_sublist s
  · exact List.Sublist.refl s

theorem trimBack_sublist (s : Bytes) : (trimBack s).Sublist s := by
  unfold trimBack
  split
  · exact List.dropLast_sublist s
  · exact List.Sublist.refl s

/-- Stripping only takes away. -/
theorem stripBlock_sublist (v : Bytes) : (stripBlock v).Sublist v := by
  unfold stripBlock
  split
  · exact ((trimBack_sublist _).trans (trimFront_sublist _)).trans
      ((List.take_sublist _ _).trans (List.drop_sublist _ _))
  · exact List.Sublist.refl v

/-! ## Encodable values -/

/-- No carriage return stands before a newline. -/
def NoCRLF (text : Bytes) : Prop := ¬['\r', '\n'] <:+: text

instance (text : Bytes) : Decidable (NoCRLF text) := inferInstanceAs (Decidable (¬_))

/-- The text that the encoding of a value with a newline puts on the wire. -/
def blockText (v : Bytes) : Bytes := block ('\n' :: v ++ ['\n'])

/-- The values that can be read back.  In a block: no carriage return before a newline
(the one at the end of the block counts), and after the first `>>` nothing that a text
outside a block may not have.  In quotes: not the quote itself, and not a text that
`build` takes for a block.  As they are: neither. -/
def IsEncodable (v : Bytes) : Prop :=
  if '\n' ∈ v then solid isGap .outside (blockText v) = true ∧ NoCRLF (v ++ ['\n'])
  else if '"' ∈ v then '\'' ∉ v ∧ isBlock v = false
  else if ' ' ∈ v ∨ '\t' ∈ v then isBlock v = false
  else solid isGap .outside v = true ∧ isBlock v = false

instance (v : Bytes) : Decidable (IsEncodable v) := by
  unfold IsEncodable
  infer_instance

/-- What the lexer makes of the encoding of a value. -/
def carried (v : Bytes) : Bytes := if '\n' ∈ v then blockText v else v

theorem encodeValue_of_newline {v : Bytes} (h : '\n' ∈ v) : encodeValue v = blockText v := by
  simp [encodeValue, h, blockText, block, openMark, closeMark]

/-- The lexer reads the encoding of an encodable value. -/
theorem carries_encodeValue {v : Bytes} (h : IsEncodable v) :
    Carries (encodeValue v) (carried v) := by
  unfold IsEncodable at h
  by_cases hnl : '\n' ∈ v
  · rw [if_pos hnl] at h
    rw [encodeValue_of_newline hnl, carried, if_pos hnl]
    exact carries_solid h.1
  · rw [if_neg hnl] at h
    rw [carried, if_neg hnl]
    unfold encodeValue
    rw [if_neg hnl]
    by_cases hq : '"' ∈ v
    · rw [if_pos hq] at h ⊢
      exact carries_quoted (Or.inr rfl) h.1
    · rw [if_neg hq] at h ⊢
      by_cases hsp : ' ' ∈ v ∨ '\t' ∈ v
      · rw [if_pos hsp]
        exact carries_quoted (Or.inl rfl) hq
      · rw [if_neg hsp] at h ⊢
        exact carries_solid h.1

/-- `build` gives a value back that it does not take for a block. -/
theorem stripBlock_carried {v : Bytes} (h : '\n' ∉ v → isBlock v = false) :
    stripBlock (carried v) = v := by
  unfold carried
  by_cases hnl : '\n' ∈ v
  · rw [if_pos hnl, blockText, stripBlock_block]
    simp [trimFront, trimBack]
  · rw [if_neg hnl]
    exact stripBlock_of_not (h hnl)

/-- Only in a block a value may have the form of one. -/
theorem IsEncodable.not_block {v : Bytes} (h : IsEncodable v) (hnl : '\n' ∉ v) :
    isBlock v = false := by
  unfold IsEncodable at h
  rw [if_neg hnl] at h
  split at h
  · exact h.2
  · split at h
    · exact h
    · exact h.2

end SporeClient.Wire
