/-
  Client/Handshake.lean --- which answers `Client::handshake` of `spore_c/source/client.cpp`
  takes for a yes.

  WHAT THIS FILE IS FOR.  The daemon answers with a line, `OK` or the reason why not.  The
  handshake reads at most 63 bytes of it, takes what it has read as a C string and pops the
  line ending.  A NUL cuts the line short, and 63 bytes need not hold the end of the line:
  `Misread` are the answers for which this shows.  On all the others an answer is taken for
  a yes iff it is `OK` and carriage returns, and is read up to its newline and no further.
-/
import SporeClient.Client.Connection

set_option autoImplicit false

namespace SporeClient.Client

open SporeClient.Foundation
open SporeClient.Parser

/-! ## Lines -/

/-- A text without a newline at the front of a line and more is at the front of the line. -/
theorem prefix_line {p line rest : Bytes} (hp : '\n' ∉ p) :
    p <+: line ++ '\n' :: rest ↔ p <+: line := by
  constructor
  · intro h
    rcases Nat.le_total p.length line.length with hlen | hlen
    · exact List.prefix_of_prefix_length_le h (List.prefix_append line _) hlen
    · have hline : line <+: p :=
        List.prefix_of_prefix_length_le (List.prefix_append line _) h hlen
      obtain ⟨tail, rfl⟩ := hline
      cases tail with
      | nil => simp
      | cons c tail =>
          obtain ⟨rfl, _⟩ := List.cons_prefix_cons.mp ((List.prefix_append_right_inj line).mp h)
          simp at hp
  · exact fun h => h.trans (List.prefix_append line _)

/-! ## The bounded read -/

/-- **What the loop reads**: a line with its newline, when there is room for it; the bytes
there is room for, when the line is longer; nothing, when the stream ends before either. -/
theorem readAnswer_cases (room : Nat) (stream : Bytes) :
    (∃ line rest, '\n' ∉ line ∧ line.length < room ∧ stream = line ++ '\n' :: rest ∧
        readAnswer room stream = some (line ++ ['\n'], rest)) ∨
      (∃ line rest, '\n' ∉ line ∧ line.length = room ∧ stream = line ++ rest ∧
        readAnswer room stream = some (line, rest)) ∨
      ('\n' ∉ stream ∧ stream.length < room ∧ readAnswer room stream = none) := by
  induction room generalizing stream with
  | zero => exact Or.inr (Or.inl ⟨[], stream, by simp, rfl, rfl, rfl⟩)
  | succ room ih =>
      cases stream with
      | nil => exact Or.inr (Or.inr ⟨by simp, Nat.succ_pos room, rfl⟩)
      | cons c stream =>
          by_cases hc : c = '\n'
          · exact Or.inl ⟨[], stream, by simp, Nat.succ_pos room, by simp [hc],
              by simp [readAnswer, hc]⟩
          have hread : readAnswer (room + 1) (c :: stream) =
              (readAnswer room stream).map fun p => (c :: p.1, p.2) := by simp [readAnswer, hc]
          rw [hread]
          have hcons : ∀ {line : Bytes}, '\n' ∉ line → '\n' ∉ c :: line := by
            intro line hline
            simp [hline, Ne.symm hc]
          rcases ih stream with ⟨line, rest, hline, hlen, rfl, hsome⟩ |
            ⟨line, rest, hline, hlen, rfl, hsome⟩ | ⟨hline, hlen, hnone⟩
          · exact Or.inl ⟨c :: line, rest, hcons hline, Nat.succ_lt_succ hlen, rfl, by simp [hsome]⟩
          · exact Or.inr (Or.inl ⟨c :: line, rest, hcons hline, congrArg Nat.succ hlen, rfl,
              by simp [hsome]⟩)
          · exact Or.inr (Or.inr ⟨hcons hline, Nat.succ_lt_succ hlen, by simp [hnone]⟩)

/-! ## A yes -/

/-- `OK` and carriage returns. -/
def okLine (k : Nat) : Bytes := ['O', 'K'] ++ List.replicate k '\r'

theorem newline_not_mem_okLine (k : Nat) : '\n' ∉ okLine k := by
  simp [okLine, List.mem_replicate]

theorem nul_not_mem_okLine (k : Nat) : '\x00' ∉ okLine k := by
  simp [okLine, List.mem_replicate]

@[simp] theorem length_okLine (k : Nat) : (okLine k).length = k + 2 := by
  simp only [okLine, List.length_append, List.length_replicate, List.length_cons, List.length_nil]
  omega

theorem popLineEnd_newline (text : Bytes) : popLineEnd (text ++ ['\n']) = popLineEnd text :=
  List.rdropWhile_concat_pos _ _ _ (by simp)

/-- Of a text without newlines, carriage returns are popped. -/
theorem popLineEnd_eq_ok_iff {text : Bytes} (h : '\n' ∉ text) :
    popLineEnd text = ['O', 'K'] ↔ ∃ k, text = okLine k := by
  constructor
  · induction text using List.reverseRecOn with
    | nil => simp [popLineEnd]
    | append_singleton text c ih =>
        intro hok
        by_cases hc : c = '\r'
        · have hpop : popLineEnd (text ++ [c]) = popLineEnd text :=
            List.rdropWhile_concat_pos _ _ _ (by simp [hc])
          obtain ⟨k, rfl⟩ := ih (fun hmem => h (by simp [hmem])) (hpop ▸ hok)
          exact ⟨k + 1, by simp [okLine, hc, List.replicate_succ']⟩
        · have hnl : c ≠ '\n' := fun hnl => h (by simp [hnl])
          have hpop : popLineEnd (text ++ [c]) = text ++ [c] :=
            List.rdropWhile_concat_neg _ _ _ (by simp [hc, hnl])
          exact ⟨0, by rw [hpop] at hok; simpa [okLine] using hok⟩
  · rintro ⟨k, rfl⟩
    induction k with
    | zero => decide
    | succ k ih =>
        rw [← ih fun hmem => newline_not_mem_okLine k hmem]
        have hline : okLine (k + 1) = okLine k ++ ['\r'] := by
          simp [okLine, List.replicate_succ']
        rw [hline]
        exact List.rdropWhile_concat_pos _ _ _ (by simp)

/-- The bytes that are taken for a yes: `OK` and carriage returns, or these, a NUL and
anything. -/
def ReadsOk (line : Bytes) : Prop :=
  ∃ k, line = okLine k ∨ okLine k ++ ['\x00'] <+: line

theorem cstr_append_nul {front : Bytes} (h : '\x00' ∉ front) (back : Bytes) :
    cstr (front ++ '\x00' :: back) = front := by
  have hfront : ∀ c ∈ front, decide (c ≠ '\x00') = true := by
    intro c hc
    have hne : c ≠ '\x00' := fun heq => h (heq ▸ hc)
    simpa using hne
  rw [cstr, List.takeWhile_append_of_pos hfront]
  simp

theorem popLineEnd_cstr_iff {line : Bytes} (h : '\n' ∉ line) :
    popLineEnd (cstr line) = ['O', 'K'] ↔ ReadsOk line := by
  have hcstr : '\n' ∉ cstr line := fun hmem => h (List.takeWhile_subset _ hmem)
  rw [popLineEnd_eq_ok_iff hcstr]
  apply exists_congr
  intro k
  by_cases hnul : '\x00' ∈ line
  · obtain ⟨front, back, rfl, hfront⟩ := List.eq_append_cons_of_mem hnul
    rw [cstr_append_nul hfront]
    constructor
    · rintro rfl
      exact Or.inr ⟨back, by simp⟩
    · rintro (hline | ⟨tail, hline⟩)
      · exact absurd (hline ▸ hnul) (nul_not_mem_okLine k)
      · rw [List.append_assoc, List.singleton_append] at hline
        exact (first_unique (nul_not_mem_okLine k) hfront hline).1.symm
  · rw [cstr_eq_self hnul]
    constructor
    · exact Or.inl
    · rintro (hline | hinit)
      · exact hline
      · exact absurd (hinit.subset (by simp)) hnul

/-- The newline at the end of a line is popped, or cut off by a NUL before it. -/
theorem popLineEnd_cstr_newline (line : Bytes) :
    popLineEnd (cstr (line ++ ['\n'])) = popLineEnd (cstr line) := by
  by_cases hnul : '\x00' ∈ line
  · obtain ⟨front, back, rfl, hfront⟩ := List.eq_append_cons_of_mem hnul
    rw [List.append_assoc, List.cons_append, cstr_append_nul hfront, cstr_append_nul hfront]
  · rw [cstr_eq_self hnul, cstr_eq_self (by simp [hnul]), popLineEnd_newline]

/-! ## Exactness -/

/-- The stream begins with a line that is `OK` and carriage returns, and this is what
follows it. -/
def SaysOk (stream rest : Bytes) : Prop := ∃ k, stream = okLine k ++ '\n' :: rest

/-- On this answer the handshake sets no error iff its first line is `OK` and carriage
returns, and then it leaves unread what follows that line. -/
def HandshakeExact (c : Connection) (written : Nat) (stream : Bytes) : Prop :=
  ((c.handshake (some written) stream).hasError = false ↔ ∃ rest, SaysOk stream rest) ∧
    ((c.handshake (some written) stream).hasError = false →
      SaysOk stream (c.handshake (some written) stream).unread)

/-- The answers that are misread: `OK` and as many carriage returns as there is room for;
and `OK`, carriage returns and a NUL, all within this room, unless the stream ends before the
room is filled and has no newline. -/
def Misread (stream : Bytes) : Prop :=
  okLine 61 <+: stream ∨
    (∃ k ≤ 60, okLine k ++ ['\x00'] <+: stream) ∧ (63 ≤ stream.length ∨ '\n' ∈ stream)

/-- A stream that says yes begins with a line, and this is the one. -/
theorem saysOk_iff {line rest : Bytes} (h : '\n' ∉ line) (back : Bytes) :
    SaysOk (line ++ '\n' :: rest) back ↔ (∃ k, line = okLine k) ∧ back = rest := by
  constructor
  · rintro ⟨k, hk⟩
    obtain ⟨hline, hrest⟩ := first_unique h (newline_not_mem_okLine k) hk
    exact ⟨⟨k, hline⟩, hrest.symm⟩
  · rintro ⟨⟨k, rfl⟩, rfl⟩
    exact ⟨k, rfl⟩

theorem not_saysOk {stream back : Bytes} (h : '\n' ∉ stream) : ¬SaysOk stream back := by
  rintro ⟨k, rfl⟩
  simp at h

section
variable {c : Connection} {stream buf rest : Bytes}

/-- No answer: an error. -/
theorem Connection.handshake_none (written : Nat) (h : readAnswer 63 stream = none) :
    (c.handshake (some written) stream).hasError = true := by
  simp only [handshake, h]
  rfl

/-- An answer: no error iff it reads `OK`. -/
theorem Connection.handshake_some (hc : c.hasError = false) (written : Nat)
    (h : readAnswer 63 stream = some (buf, rest)) :
    ((c.handshake (some written) stream).hasError = false ↔
        popLineEnd (cstr buf) = ['O', 'K']) ∧
      (c.handshake (some written) stream).unread = rest := by
  simp only [handshake, h]
  by_cases hok : popLineEnd (cstr buf) = ['O', 'K']
  · simp only [hok, ne_eq, not_true_eq_false, if_false]
    exact ⟨iff_of_true hc trivial, trivial⟩
  · simp only [ne_eq, hok, not_false_eq_true, if_true, iff_false]
    exact ⟨(nomatch ·), rfl⟩

end

theorem okLine_of_le {j k : Nat} (h : j ≤ k) : okLine j <+: okLine k := by
  obtain ⟨d, rfl⟩ := Nat.exists_eq_add_of_le h
  exact ⟨List.replicate d '\r', by simp [okLine, List.replicate_append_replicate]⟩

theorem newline_not_mem_okNul (k : Nat) : '\n' ∉ okLine k ++ ['\x00'] := by
  simp [newline_not_mem_okLine]

/-- A line that fits is misread when it has a NUL behind `OK` and carriage returns. -/
theorem misread_line {line rest : Bytes} (hlen : line.length < 63) :
    Misread (line ++ '\n' :: rest) ↔ ∃ k, okLine k ++ ['\x00'] <+: line := by
  rw [Misread, prefix_line (newline_not_mem_okLine 61)]
  constructor
  · rintro (hp | ⟨⟨k, _, hp⟩, _⟩)
    · have hle := hp.length_le
      rw [length_okLine] at hle
      omega
    · exact ⟨k, (prefix_line (newline_not_mem_okNul k)).mp hp⟩
  · rintro ⟨k, hp⟩
    have hle := hp.length_le
    rw [List.length_append, length_okLine, List.length_singleton] at hle
    exact Or.inr ⟨⟨k, by omega, (prefix_line (newline_not_mem_okNul k)).mpr hp⟩, Or.inr (by simp)⟩

/-- Of a longer line the bytes that were read count. -/
theorem misread_full {line rest : Bytes} (hlen : line.length = 63) :
    Misread (line ++ rest) ↔ ReadsOk line := by
  have hfront : ∀ {p : Bytes}, p.length ≤ 63 → (p <+: line ++ rest ↔ p <+: line) := by
    intro p hp
    exact ⟨fun h => List.prefix_of_prefix_length_le h (List.prefix_append line rest) (hlen ▸ hp),
      fun h => h.trans (List.prefix_append line rest)⟩
  constructor
  · rintro (hp | ⟨⟨k, hk, hp⟩, _⟩)
    · have hline := (hfront (by simp)).mp hp
      exact ⟨61, Or.inl (hline.eq_of_length (by simp [hlen])).symm⟩
    · exact ⟨k, Or.inr ((hfront (by simp; omega)).mp hp)⟩
  · rintro ⟨k, rfl | hp⟩
    · obtain rfl : k = 61 := by simpa using hlen
      exact Or.inl (List.prefix_append _ rest)
    · have hle := hp.length_le
      rw [List.length_append, length_okLine, List.length_singleton] at hle
      exact Or.inr ⟨⟨k, by omega, hp.trans (List.prefix_append line rest)⟩, Or.inl (by simp [hlen])⟩

/-- **The handshake is exact on the answers that are not misread, and on no others.** -/
theorem handshakeExact_iff {c : Connection} (hc : c.hasError = false) (written : Nat)
    (stream : Bytes) : HandshakeExact c written stream ↔ ¬Misread stream := by
  rcases readAnswer_cases 63 stream with ⟨line, rest, hline, hlen, rfl, hread⟩ |
    ⟨line, rest, hline, hlen, rfl, hread⟩ | ⟨hline, hlen, hread⟩
  · -- a line that fits: only a NUL can make it read as a yes when it is none
    obtain ⟨herror, hunread⟩ := c.handshake_some hc written hread
    have hapart : (∃ k, line = okLine k) → ¬∃ k, okLine k ++ ['\x00'] <+: line := by
      rintro ⟨k, rfl⟩ ⟨j, hj⟩
      exact nul_not_mem_okLine k (hj.subset (by simp))
    rw [HandshakeExact, herror, hunread, popLineEnd_cstr_newline, popLineEnd_cstr_iff hline,
      misread_line hlen, ReadsOk, exists_or]
    simp only [saysOk_iff hline, and_true, exists_and_left, exists_eq]
    constructor
    · rintro ⟨hyes, _⟩ hnul
      exact hapart (hyes.mp (Or.inr hnul)) hnul
    · intro hnul
      have hyes := or_iff_left (a := ∃ k, line = okLine k) hnul
      exact ⟨hyes, hyes.mp⟩
  · -- a longer line: a yes leaves the rest of the line unread
    obtain ⟨herror, hunread⟩ := c.handshake_some hc written hread
    have hnot : ¬SaysOk (line ++ rest) rest := by
      rintro ⟨k, hk⟩
      have hcut : line = okLine k ++ ['\n'] :=
        List.append_cancel_right (hk.trans (by simp : _ = okLine k ++ ['\n'] ++ rest))
      exact hline (hcut ▸ by simp)
    have hreads : (∃ back, SaysOk (line ++ rest) back) → ReadsOk line := by
      rintro ⟨back, k, hk⟩
      have hinit : line <+: okLine k :=
        (prefix_line hline).mp (hk ▸ List.prefix_append line rest)
      have hle := hinit.length_le
      rw [length_okLine, hlen] at hle
      have hok : okLine 61 <+: line :=
        List.prefix_of_prefix_length_le (okLine_of_le (by omega)) hinit (by simp [hlen])
      exact ⟨61, Or.inl (hok.eq_of_length (by simp [hlen])).symm⟩
    rw [HandshakeExact, herror, hunread, popLineEnd_cstr_iff hline, misread_full hlen]
    constructor
    · intro hexact hread
      exact hnot (hexact.2 hread)
    · intro hread
      exact ⟨iff_of_false hread (mt hreads hread), fun h => absurd h hread⟩
  · -- the stream ends: an error, and no line
    have herror : (c.handshake (some written) stream).hasError = true :=
      c.handshake_none written hread
    have hmisread : ¬Misread stream := by
      rintro (hp | ⟨_, hlong | hmem⟩)
      · have hle := hp.length_le
        rw [length_okLine] at hle
        omega
      · omega
      · exact hline hmem
    simp [HandshakeExact, herror, hmisread, not_saysOk hline]

/-- A yes with a carriage return, and something behind it. -/
theorem handshakeExact_yes :
    HandshakeExact (.new .linux ['n']) 2 ['O', 'K', '\r', '\n', 'S'] := by
  refine (handshakeExact_iff (c := .new .linux ['n']) rfl 2 _).mpr ?_
  rintro (hlong | ⟨⟨k, _, hcut⟩, _⟩)
  · exact absurd hlong.length_le (by decide)
  · have hnul : '\x00' ∈ ['O', 'K', '\r', '\n', 'S'] := hcut.subset (by simp)
    exact absurd hnul (by decide)

/-- **Two answers that are misread**: a line with a NUL is taken for a yes, and a line of more
than 63 bytes is read in part. -/
theorem not_handshakeExact :
    ¬HandshakeExact (.new .linux ['n']) 2 ['O', 'K', '\x00', 'x', '\n'] ∧
      ¬HandshakeExact (.new .linux ['n']) 2 (okLine 62 ++ ['\n', 'S']) := by
  constructor
  · intro h
    obtain ⟨rest, hsays⟩ := h.1.mp (by decide)
    have hline : '\n' ∉ ['O', 'K', '\x00', 'x'] := by decide
    obtain ⟨⟨k, hk⟩, _⟩ := (saysOk_iff hline rest).mp hsays
    exact nul_not_mem_okLine k (hk ▸ by decide)
  · intro h
    have hsays := (saysOk_iff (newline_not_mem_okLine 62) _).mp (h.2 (by decide))
    exact absurd hsays.2 (by decide)

end SporeClient.Client
