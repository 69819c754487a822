/-
  Client/Relay.lean --- sending on what was received.

  WHAT THIS FILE IS FOR.  A client that relays a message makes an object of its text with
  `create_from_raw` and sends the serialized text of the object.  `Outgoing.Relayed` says
  that this text is again accepted and gives the same message.  The objects are not all
  that can be built by hand: what they hold came out of quotes, brackets and blocks, and
  `serialize` does not put all of it back.  A message that can be written as it is
  (`Outgoing.Writable`) is relayed exactly when it is complete.
-/
import SporeClient.Client.Send
import SporeClient.Wire.Accepting

set_option autoImplicit false

namespace SporeClient.Client

open SporeClient.Foundation
open SporeClient.Parser
open SporeClient.Wire

/-! ## Relaying -/

/-- The message was made from `raw` by the `create_from_raw` of its kind. -/
def Outgoing.CreatedFrom (raw : Bytes) : Outgoing → Prop
  | .request r => Request.createFromRaw raw = some r
  | .response r => Response.createFromRaw raw = some r
  | .responseError e => ResponseError.createFromRaw raw = some e
  | .witness w => Witness.createFromRaw raw = some w
  | .publish p => Publish.createFromRaw raw = some p

/-- `parse` and `validate` accept the text as a message of the same kind.  A response with
the flag `error` is an error response, any other is an ok response. -/
def Outgoing.AcceptsAs (text : Bytes) : Outgoing → Prop
  | .request _ => Accepts text .request
  | .response _ => Accepts text .response ∧ (parseNew text).1.props.hasFlagError = false
  | .responseError _ => Accepts text .response ∧ (parseNew text).1.props.hasFlagError = true
  | .witness _ => Accepts text .witness
  | .publish _ => Accepts text .publish

/-- Two messages have the same fields, and the same flags but for those in `added`. -/
structure SameUpTo (added : List Bytes) (a b : Message) : Prop where
  command : a.command = b.command
  handle : a.handle = b.handle
  args : a.args = b.args
  flags : ∀ f, f ∉ added → (f ∈ a.flags ↔ f ∈ b.flags)

/-- Two messages are of one kind and the same, up to the flags that `serialize` adds. -/
def Outgoing.SameMessage : Outgoing → Outgoing → Prop
  | .request a, .request b => SameUpTo [] a.toMessage b.toMessage
  | .response a, .response b => SameUpTo [okWord] a.toMessage b.toMessage
  | .responseError a, .responseError b =>
      SameUpTo [errorWord, nodeErrorWord] a.toMessage b.toMessage ∧ a.code = b.code ∧
        a.what = b.what
  | .witness a, .witness b => SameUpTo [] a.toMessage b.toMessage ∧ a.body = b.body
  | .publish a, .publish b => SameUpTo [] a.toMessage b.toMessage ∧ a.topic = b.topic
  | _, _ => False

/-- **Relaying does not change the message**: its serialized text is accepted as the same
kind, and `create_from_raw` makes the same message of it. -/
def Outgoing.Relayed (m : Outgoing) : Prop :=
  m.AcceptsAs m.serialize ∧ ∃ m' : Outgoing, m'.CreatedFrom m.serialize ∧ m'.SameMessage m

/-! ## What can be written -/

/-- The parts of a message can be written as they are. -/
def Outgoing.Sendable : Outgoing → Prop
  | .request r => r.Sendable
  | .response r => r.Sendable
  | .responseError e => e.Sendable
  | .witness w => w.Sendable
  | .publish p => p.Sendable

/-- The arguments in their written form. -/
def argParts (args : ArgMap) : List Bytes :=
  args.entries.map fun p => p.1 ++ '=' :: encodeValue p.2

/-- A field that is left out when it is empty. -/
def fieldPart (k v text : Bytes) : List Bytes := if v ≠ [] then [k ++ '=' :: text] else []

/-- The written parts of a message, which stand between the spaces of its text. -/
def Outgoing.parts : Outgoing → List Bytes
  | .request r =>
      r.command :: ((if r.handle ≠ [] then ['~' :: r.handle] else []) ++
        (argParts r.args ++ r.flags.toList))
  | .response r =>
      responseHead r.handle r.command :: okWord ::
        (r.flags.toList.filter (· ≠ okWord) ++ argParts r.args)
  | .responseError e =>
      responseHead e.handle e.command :: errorWord :: (fieldPart codeWord e.code e.code ++
        (fieldPart whatWord e.what ('"' :: e.what ++ ['"']) ++
          (argParts e.args ++ (e.flags.toList ++ [nodeErrorWord]))))
  | .witness w =>
      witnessWord :: (fieldPart bodyWord w.body ('"' :: w.body ++ ['"']) ++
        (argParts w.args ++ w.flags.toList))
  | .publish p =>
      publishWord :: ((if p.topic ≠ [] then [p.topic] else []) ++
        (argParts p.args ++ p.flags.toList))

/-- A message whose text is read back part by part: the parts can be written as they are,
and no carriage return of them stands before a newline. -/
structure Outgoing.Writable (m : Outgoing) : Prop where
  sendable : m.Sendable
  parts : ∀ part ∈ m.parts, NoCRLF part
  last : ∀ part, m.parts.getLast? = some part → part.getLast? ≠ some '\r'

/-- A message with everything that `validate` asks for.  The word `ok` at the end of a text
is not seen, as the newline belongs to it. -/
def Outgoing.Complete : Outgoing → Prop
  | .request r => '=' ∉ r.command
  | .response r => r.command ≠ [] ∧ okWord ∈ r.innerFlags ∧ errorWord ∉ r.innerFlags
  | .responseError e => e.command ≠ [] ∧ e.code ≠ [] ∧ e.what ≠ [] ∧ okWord ∉ e.flags
  | .witness w => w.body ≠ []
  | .publish p => '=' ∉ p.topic

/-! ## Carriage returns -/

/-- Parts with a space in front of each. -/
def spaced (parts : List Bytes) : Bytes := parts.flatMap fun p => ' ' :: p

theorem spaced_cons (p : Bytes) (rest : List Bytes) :
    spaced (p :: rest) = ' ' :: (p ++ spaced rest) := rfl

theorem spaced_append (a b : List Bytes) : spaced (a ++ b) = spaced a ++ spaced b := by
  simp [spaced]

theorem spaced_argParts (args : ArgMap) : spaced (argParts args) = serializeArgs args := by
  simp [spaced, argParts, serializeArgs, serializeArg, List.flatMap_map]

theorem spaced_fieldPart (k v text : Bytes) :
    spaced (fieldPart k v text) = if v ≠ [] then ' ' :: k ++ '=' :: text else [] := by
  unfold fieldPart
  split <;> simp [spaced]

theorem spaced_flags (l : List Bytes) : spaced l = serializeFlags l := rfl

/-- The text of a message is its parts and a newline. -/
theorem Outgoing.spaced_parts (m : Outgoing) :
    spaced m.parts ++ ['\n'] = ' ' :: m.serialize := by
  cases m with
  | request r =>
      have hhandle : spaced (if r.handle ≠ [] then ['~' :: r.handle] else []) =
          if r.handle ≠ [] then [' ', '~'] ++ r.handle else [] := by split <;> simp [spaced]
      rw [parts, spaced_cons, spaced_append, spaced_append, hhandle, spaced_argParts, spaced_flags]
      simp [serialize, Request.serialize]
  | response r =>
      rw [parts, spaced_cons, spaced_cons, spaced_append, spaced_argParts, spaced_flags]
      simp [serialize, Response.serialize]
  | responseError e =>
      rw [parts, spaced_cons, spaced_cons, spaced_append, spaced_append, spaced_append,
        spaced_append, spaced_fieldPart, spaced_fieldPart, spaced_argParts, spaced_flags]
      simp [serialize, ResponseError.serialize, spaced, nodeErrorWord]
  | witness w =>
      rw [parts, spaced_cons, spaced_append, spaced_append, spaced_fieldPart, spaced_argParts,
        spaced_flags]
      simp [serialize, Witness.serialize]
  | publish p =>
      have htopic : spaced (if p.topic ≠ [] then [p.topic] else []) =
          if p.topic ≠ [] then ' ' :: p.topic else [] := by split <;> simp [spaced]
      rw [parts, spaced_cons, spaced_append, spaced_append, htopic, spaced_argParts, spaced_flags]
      simp [serialize, Publish.serialize]

/-- No carriage return stands before a newline exactly when none does in a part and the last
part does not end in one. -/
theorem noCRLF_spaced {parts : List Bytes} :
    NoCRLF (spaced parts ++ ['\n']) ↔ (∀ part ∈ parts, NoCRLF part) ∧
      ∀ part, parts.getLast? = some part → part.getLast? ≠ some '\r' := by
  induction parts with
  | nil => simp [spaced, show NoCRLF ['\n'] by decide]
  | cons p rest ih =>
      have hspace : NoCRLF (' ' :: (p ++ (spaced rest ++ ['\n']))) ↔
          NoCRLF (p ++ (spaced rest ++ ['\n'])) := by
        rw [NoCRLF, pair_infix_cons, not_or]
        exact and_iff_right (by simp)
      rw [spaced_cons, List.cons_append, List.append_assoc, hspace, noCRLF_append, ih,
        List.forall_mem_cons]
      cases rest with
      | nil => simp [spaced]
      | cons q rest =>
          have hhead : (spaced (q :: rest) ++ ['\n']).head? ≠ some '\n' := by simp [spaced_cons]
          rw [List.getLast?_cons_cons]
          tauto

/-- Nothing of such a message is taken for the end of a line. -/
theorem Outgoing.noCRLF_serialize (m : Outgoing) :
    NoCRLF m.serialize ↔ (∀ part ∈ m.parts, NoCRLF part) ∧
      ∀ part, m.parts.getLast? = some part → part.getLast? ≠ some '\r' := by
  have hspace : NoCRLF (' ' :: m.serialize) ↔ NoCRLF m.serialize := by
    rw [NoCRLF, pair_infix_cons, not_or]
    exact and_iff_right (by simp)
  rw [← hspace, ← m.spaced_parts, noCRLF_spaced]

theorem Outgoing.Writable.noCRLF {m : Outgoing} (h : m.Writable) : NoCRLF m.serialize :=
  m.noCRLF_serialize.mpr ⟨h.parts, h.last⟩

/-! ## Messages that are relayed -/

/-- What a witness does not have. -/
theorem Witness.createFromRaw_bare {raw : Bytes} {w : Witness}
    (h : Witness.createFromRaw raw = some w) : w.command = [] ∧ w.handle = [] := by
  obtain ⟨_, hw⟩ := Option.ite_none_right_eq_some.mp h
  rw [← Option.some.inj hw, Witness.ofParsed_toMessage]
  exact ⟨rfl, rfl⟩

/-- What a publish does not have. -/
theorem Publish.createFromRaw_bare {raw : Bytes} {p : Publish}
    (h : Publish.createFromRaw raw = some p) : p.command = [] ∧ p.handle = [] := by
  obtain ⟨_, hp⟩ := Option.ite_none_right_eq_some.mp h
  rw [← Option.some.inj hp, Publish.ofParsed_eq]
  exact ⟨rfl, rfl⟩

/-- Every message that can be written as it is comes back from its text. -/
theorem Outgoing.Writable.comesBack {m : Outgoing} {raw : Bytes} (hcreated : m.CreatedFrom raw)
    (h : m.Writable) : ∃ m' : Outgoing, m'.CreatedFrom m.serialize ∧ m'.SameMessage m := by
  have hline := h.noCRLF
  have hsend := h.sendable
  cases m with
  | request r =>
      have hsend : r.Sendable := hsend
      refine ⟨.request _, Request.createFromRaw_serialize hsend hline, ?_⟩
      exact ⟨rfl, rfl, rfl, fun _ _ => Iff.rfl⟩
  | response r =>
      have hsend : r.Sendable := hsend
      refine ⟨.response _, Response.createFromRaw_serialize hsend hline, rfl, rfl, rfl, ?_⟩
      intro f hf
      rw [SortedSet.mem_add]
      exact or_iff_right (by simpa using hf)
  | responseError e =>
      have hsend : e.Sendable := hsend
      refine ⟨.responseError _, ResponseError.createFromRaw_serialize hsend hline,
        ⟨rfl, rfl, rfl, ?_⟩, rfl, rfl⟩
      intro f hf
      simp only [List.mem_cons, List.not_mem_nil, or_false, not_or] at hf
      rw [SortedSet.mem_ofList, ResponseError.sentFlags, List.mem_cons, List.mem_append,
        List.mem_singleton, SortedSet.mem_toList, or_iff_right hf.1, or_iff_left hf.2]
  | witness w =>
      have hsend : w.Sendable := hsend
      obtain ⟨hcommand, hhandle⟩ := Witness.createFromRaw_bare hcreated
      refine ⟨.witness _, Witness.createFromRaw_serialize hsend hline, ?_, rfl⟩
      exact ⟨hcommand.symm, hhandle.symm, rfl, fun _ _ => Iff.rfl⟩
  | publish p =>
      have hsend : p.Sendable := hsend
      obtain ⟨hcommand, hhandle⟩ := Publish.createFromRaw_bare hcreated
      refine ⟨.publish _, Publish.createFromRaw_serialize hsend hline, ?_, rfl⟩
      exact ⟨hcommand.symm, hhandle.symm, rfl, fun _ _ => Iff.rfl⟩

/-- Its text is accepted when the message is complete. -/
theorem Outgoing.acceptsAs_serialize_iff {m : Outgoing} (h : m.Sendable) :
    m.AcceptsAs m.serialize ↔ m.Complete := by
  cases m with
  | request r => exact Request.accepts_serialize h
  | response r => exact Response.accepts_serialize h
  | responseError e => exact ResponseError.accepts_serialize h
  | witness w => exact Witness.accepts_serialize h
  | publish p => exact Publish.accepts_serialize h

/-- A received message that can be written as it is is relayed unchanged if and only if it
is complete. -/
theorem Outgoing.Writable.relayed_iff_complete {m : Outgoing} {raw : Bytes} (h : m.Writable)
    (hcreated : m.CreatedFrom raw) : m.Relayed ↔ m.Complete := by
  rw [Outgoing.Relayed, Outgoing.acceptsAs_serialize_iff h.sendable]
  exact and_iff_left (h.comesBack hcreated)

end SporeClient.Client
