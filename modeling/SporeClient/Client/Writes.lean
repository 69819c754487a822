/-
  Client/Writes.lean --- what a send that reports success has put on the wire.

  WHAT THIS FILE IS FOR.  `writeRaw` writes the text and then a newline.  It looks at
  neither count, and a newline that fails leaves the text without an end.  So a send can
  report success without its whole frame (`not_all_wholeFrame`), and a later one can be
  merged with what an earlier one left.  In the runs of `Tidy` attempts neither happens.
-/
import SporeClient.Client.Send
import SporeClient.Foundation.Runs

set_option autoImplicit false

namespace SporeClient.Client

open SporeClient.Foundation
open SporeClient.Parser
open SporeClient.Wire

/-- `Client::hasError`. -/
def ClientState.hasError (c : ClientState) : Bool := c.errorCode != ""

/-- `Client::sendRaw`. -/
def Sender.sendRaw (s : Sender) (data : Bytes) (o₁ o₂ : WriteOutcome) : Sender :=
  let s : Sender := { s with client := { s.client with errorCode := "", errorWhat := "" } }
  if !s.client.connected then
    { s with client := s.client.error "NotConnected" "client is not connected" }
  else s.writeRaw data o₁ o₂

/-! ## Attempts -/

/-- A call of one of the six send functions; `none` is a null handle. -/
inductive SendCall where
  | send (r : Option Request)
  | sendResponse (r : Option Response)
  | sendResponseError (e : Option ResponseError)
  | sendWitness (w : Option Witness)
  | sendPublish (p : Option Publish)
  | sendRaw (data : Bytes)
  deriving DecidableEq

/-- What the call hands to `writeRaw`. -/
def SendCall.payload : SendCall → Option Bytes
  | .send r => r.map fun r => cstr r.serialize
  | .sendResponse r => r.map fun r => cstr r.serialize
  | .sendResponseError e => e.map fun e => cstr e.serialize
  | .sendWitness w => w.map fun w => cstr w.serialize
  | .sendPublish p => p.map fun p => cstr p.serialize
  | .sendRaw data => some data

/-- A call and the outcomes of its two writes. -/
structure SendAttempt where
  call : SendCall
  first : WriteOutcome
  second : WriteOutcome
  deriving DecidableEq

/-- What a call makes of the client and the stream of its socket. -/
def Sender.attempt (s : Sender) (a : SendAttempt) : Sender :=
  match a.call with
  | .send r => s.send r a.first a.second
  | .sendResponse r => s.sendResponse r a.first a.second
  | .sendResponseError e => s.sendResponseError e a.first a.second
  | .sendWitness w => s.sendWitness w a.first a.second
  | .sendPublish p => s.sendPublish p a.first a.second
  | .sendRaw data => s.sendRaw data a.first a.second

/-- Calls are ordered by `writeMu`. -/
def Sender.Step (s : Sender) (a : SendAttempt) (t : Sender) : Prop := t = s.attempt a

/-! ## Whole frames -/

/-- The stream is empty or ends with a newline. -/
def AtLineStart (stream : Bytes) : Prop := stream = [] ∨ stream.getLast? = some '\n'

instance (stream : Bytes) : Decidable (AtLineStart stream) := inferInstanceAs (Decidable (_ ∨ _))

/-- A call after which no error is set has put its payload and a newline on the wire, at
the start of a line. -/
def WholeFrame (s : Sender) (a : SendAttempt) (t : Sender) : Prop :=
  t.client.hasError = false →
    ∃ payload, a.call.payload = some payload ∧ t.stream = s.stream ++ payload ++ ['\n'] ∧
      AtLineStart s.stream

/-- Two writes that leave no frame cut: the first one fails, or both are complete, or the
second one fails and what the first one wrote ends a line. -/
def TidyWrites (payload : Bytes) : WriteOutcome → WriteOutcome → Prop
  | none, _ => True
  | some k, some j => payload.length ≤ k ∧ 1 ≤ j
  | some k, none => AtLineStart (payload.take k)

/-- An attempt whose writes leave no frame cut. -/
def SendAttempt.Tidy (a : SendAttempt) : Prop :=
  ∀ payload, a.call.payload = some payload → TidyWrites payload a.first a.second

theorem AtLineStart.append {a b : Bytes} (ha : AtLineStart a) (hb : AtLineStart b) :
    AtLineStart (a ++ b) := by
  rcases hb with rfl | hb
  · rwa [List.append_nil]
  · right
    rw [List.getLast?_append, hb]
    rfl

/-- What a call does on a connected client: a null handle is an error, anything else is
written. -/
theorem Sender.attempt_eq {s : Sender} (hc : s.client.connected = true) (a : SendAttempt) :
    (a.call.payload = none ∧ (s.attempt a).client.hasError = true ∧
        (s.attempt a).stream = s.stream ∧ (s.attempt a).client.connected = true) ∨
      ∃ payload, a.call.payload = some payload ∧
        s.attempt a =
          ({ s with
              client := { s.client with errorCode := "", errorWhat := "" } } : Sender).writeRaw
            payload a.first a.second := by
  have htext : ∀ (arg : String) (text : Bytes), text ≠ [] →
      s.sendText arg (some text) a.first a.second =
        ({ s with client := { s.client with errorCode := "", errorWhat := "" } } : Sender).writeRaw
          (cstr text) a.first a.second := by
    intro arg text hne
    simp [sendText, hc, hne]
  have hnull : ∀ arg : String,
      (s.sendText arg none a.first a.second).client.hasError = true ∧
        (s.sendText arg none a.first a.second).stream = s.stream ∧
        (s.sendText arg none a.first a.second).client.connected = true := by
    intro arg
    simp [sendText, hc, ClientState.error, ClientState.hasError]
  obtain ⟨call, first, second⟩ := a
  cases call with
  | sendRaw data => exact Or.inr ⟨data, rfl, by simp [attempt, sendRaw, hc]⟩
  | send r =>
      cases r with
      | none => exact Or.inl ⟨rfl, hnull "hRequest"⟩
      | some r => exact Or.inr ⟨_, rfl, htext "hRequest" _ (Outgoing.request r).serialize_ne_nil⟩
  | sendResponse r =>
      cases r with
      | none => exact Or.inl ⟨rfl, hnull "hResponse"⟩
      | some r => exact Or.inr ⟨_, rfl, htext "hResponse" _ (Outgoing.response r).serialize_ne_nil⟩
  | sendResponseError e =>
      cases e with
      | none => exact Or.inl ⟨rfl, hnull "hError"⟩
      | some e =>
          exact Or.inr ⟨_, rfl, htext "hError" _ (Outgoing.responseError e).serialize_ne_nil⟩
  | sendWitness w =>
      cases w with
      | none => exact Or.inl ⟨rfl, hnull "hWitness"⟩
      | some w => exact Or.inr ⟨_, rfl, htext "hWitness" _ (Outgoing.witness w).serialize_ne_nil⟩
  | sendPublish p =>
      cases p with
      | none => exact Or.inl ⟨rfl, hnull "hPublish"⟩
      | some p => exact Or.inr ⟨_, rfl, htext "hPublish" _ (Outgoing.publish p).serialize_ne_nil⟩

theorem Sender.attempt_connected {s : Sender} (hc : s.client.connected = true)
    (a : SendAttempt) : (s.attempt a).client.connected = true := by
  rcases s.attempt_eq hc a with ⟨_, _, _, hconnected⟩ | ⟨payload, _, heq⟩
  · exact hconnected
  · rw [heq]
    unfold writeRaw
    split
    · exact hc
    · split <;> exact hc

/-- **One attempt**: from the start of a line a tidy attempt ends at the start of a line,
and when it reports success its frame is whole. -/
theorem Sender.attempt_tidy {s : Sender} (hc : s.client.connected = true)
    (hline : AtLineStart s.stream) {a : SendAttempt} (ha : a.Tidy) :
    (s.attempt a).client.connected = true ∧ AtLineStart (s.attempt a).stream ∧
      WholeFrame s a (s.attempt a) := by
  rcases s.attempt_eq hc a with ⟨_, herror, hstream, hconnected⟩ | ⟨payload, hpayload, heq⟩
  · exact ⟨hconnected, by rwa [hstream], fun hok => by simp [herror] at hok⟩
  · have htidy := ha payload hpayload
    rw [heq]
    cases hfirst : a.first with
    | none =>
        -- nothing is written, and the error is set
        refine ⟨hc, hline, fun hok => ?_⟩
        simp [writeRaw, ClientState.error, ClientState.hasError] at hok
    | some k =>
        cases hsecond : a.second with
        | none =>
            rw [hfirst, hsecond] at htidy
            refine ⟨hc, hline.append htidy, fun hok => ?_⟩
            simp [writeRaw, ClientState.error, ClientState.hasError] at hok
        | some j =>
            rw [hfirst, hsecond] at htidy
            have hstream : s.stream ++ payload.take k ++ ['\n'].take j =
                s.stream ++ payload ++ ['\n'] := by
              rw [List.take_of_length_le htidy.1, List.take_of_length_le (by simpa using htidy.2)]
            refine ⟨hc, ?_, fun _ => ⟨payload, hpayload, hstream, hline⟩⟩
            change AtLineStart (s.stream ++ payload.take k ++ ['\n'].take j)
            rw [hstream]
            exact Or.inr (by simp)

/-- **Tidy is what it takes**: an attempt from the start of a line that is not tidy reports
a frame that is not whole, or leaves the stream in the middle of a line. -/
theorem Sender.attempt_tidy_iff {s : Sender} (hc : s.client.connected = true)
    (hline : AtLineStart s.stream) (a : SendAttempt) :
    a.Tidy ↔ WholeFrame s a (s.attempt a) ∧ AtLineStart (s.attempt a).stream := by
  constructor
  · intro ha
    obtain ⟨_, hline', hwhole⟩ := s.attempt_tidy hc hline ha
    exact ⟨hwhole, hline'⟩
  · rintro ⟨hwhole, hline'⟩ payload hpayload
    rcases s.attempt_eq hc a with ⟨hnone, _⟩ | ⟨payload', hpayload', heq⟩
    · simp [hnone] at hpayload
    · obtain rfl : payload = payload' := Option.some.inj (hpayload.symm.trans hpayload')
      rw [heq] at hwhole hline'
      cases hfirst : a.first with
      | none => trivial
      | some k =>
          cases hsecond : a.second with
          | none =>
              rw [hfirst, hsecond] at hline'
              have hline' : AtLineStart (s.stream ++ payload.take k) := hline'
              rcases List.eq_nil_or_concat (payload.take k) with hnil | ⟨l, c, hconcat⟩
              · exact Or.inl hnil
              · rw [List.concat_eq_append] at hconcat
                rw [TidyWrites, hconcat]
                rw [hconcat] at hline'
                apply Or.inr
                rcases hline' with hnil | hlast
                · simp at hnil
                · simpa using hlast
          | some j =>
              rw [hfirst, hsecond] at hwhole
              obtain ⟨payload', hpayload', hstream, _⟩ := hwhole (by
                simp [writeRaw, ClientState.hasError])
              obtain rfl : payload = payload' := Option.some.inj (hpayload.symm.trans hpayload')
              have hstream : s.stream ++ payload.take k ++ ['\n'].take j =
                  s.stream ++ payload ++ ['\n'] := hstream
              have hlength := congrArg List.length hstream
              simp only [List.length_append, List.length_take, List.length_cons, List.length_nil]
                at hlength
              exact ⟨by omega, by omega⟩

/-- **Runs of tidy attempts**: every call that reports success has put a whole frame on the
wire, and nothing of an earlier one is merged with it. -/
theorem Sender.eachStep_of_tidy {s : Sender} (hc : s.client.connected = true)
    (hline : AtLineStart s.stream) {l : List SendAttempt} (h : ∀ a ∈ l, a.Tidy) :
    EachStep Sender.Step s l WholeFrame ∧
      ∀ pre u, pre <+: l → Run Sender.Step s pre u →
        u.client.connected = true ∧ AtLineStart u.stream := by
  let I : Sender → Prop := fun s => s.client.connected = true ∧ AtLineStart s.stream
  have hkeep : ∀ s a t, I s → Sender.Step s a t → a.Tidy → I t := by
    rintro s a _ ⟨hc, hline⟩ rfl ha
    obtain ⟨hc', hline', _⟩ := s.attempt_tidy hc hline ha
    exact ⟨hc', hline'⟩
  have htidy : EachStep Sender.Step s l fun _ a _ => a.Tidy := fun pre a _ _ hpre _ _ =>
    h a (hpre.subset (by simp))
  have hreached : ∀ pre u, pre <+: l → Run Sender.Step s pre u → I u := fun pre u hpre hrun =>
    htidy.reached (I := I) ⟨hc, hline⟩ hkeep hpre hrun
  refine ⟨fun pre a u v hpre hrun hstep => ?_, hreached⟩
  obtain ⟨hcu, hlineu⟩ := hreached pre u ((List.prefix_append _ _).trans hpre) hrun
  obtain rfl := hstep
  exact (u.attempt_tidy hcu hlineu (h a (hpre.subset (by simp)))).2.2

/-- A send of nothing, with both writes complete. -/
def probe : SendAttempt := ⟨.sendRaw [], some 0, some 1⟩

theorem probe_tidy : probe.Tidy := by
  intro payload hpayload
  obtain rfl := Option.some.inj hpayload
  exact ⟨Nat.le_refl 0, Nat.le_refl 1⟩

theorem Sender.attempt_probe {s : Sender} (hc : s.client.connected = true) :
    (s.attempt probe).client.hasError = false := by
  simp [attempt, probe, sendRaw, writeRaw, hc, ClientState.hasError]

/-- **Success means a whole frame in exactly the runs of tidy attempts**: when every attempt
is tidy, each call that reports success has put its whole frame on the wire, and so has a
complete send at any later time; and when this is so, every attempt is tidy. -/
theorem Sender.eachStep_wholeFrame_iff {s : Sender} (hc : s.client.connected = true)
    (hline : AtLineStart s.stream) (l : List SendAttempt) :
    (∀ pre, pre <+: l → EachStep Sender.Step s (pre ++ [probe]) WholeFrame) ↔
      ∀ a ∈ l, a.Tidy := by
  constructor
  · intro h
    suffices htidy : ∀ pre, pre <+: l → ∀ a ∈ pre, a.Tidy from htidy l (List.prefix_refl l)
    intro pre
    induction pre using List.reverseRecOn with
    | nil => simp
    | append_singleton pre a ih =>
        intro hpre b hb
        have hold := ih ((List.prefix_append _ _).trans hpre)
        rcases List.mem_append.mp hb with hb | hb
        · exact hold b hb
        · rw [List.mem_singleton.mp hb]
          have htotal : ∀ s a, ∃ t, Sender.Step s a t := fun s a => ⟨s.attempt a, rfl⟩
          obtain ⟨u, hu⟩ : ∃ u, Run Sender.Step s pre u := Run.exists_of_total htotal pre
          obtain ⟨hcu, hlineu⟩ :=
            (Sender.eachStep_of_tidy hc hline hold).2 pre u (List.prefix_refl _) hu
          have hsteps := h (pre ++ [a]) hpre
          have hwhole := hsteps pre a u _ (List.prefix_append _ _) hu rfl
          refine (u.attempt_tidy_iff hcu hlineu a).mpr ⟨hwhole, ?_⟩
          -- the probe reports success, so it began at the start of a line
          obtain ⟨_, _, _, hstart⟩ := hsteps (pre ++ [a]) probe (u.attempt a) _
            (List.prefix_refl _) (hu.step rfl) rfl (attempt_probe (u.attempt_connected hcu a))
          exact hstart
  · intro h pre hpre
    refine (Sender.eachStep_of_tidy hc hline fun a ha => ?_).1
    rcases List.mem_append.mp ha with ha | ha
    · exact h a (hpre.subset ha)
    · rw [List.mem_singleton.mp ha]
      exact probe_tidy

/-- A request of one word and a handle. -/
def pingRequest : Request := ⟨{ command := ['c'], handle := ['h'] }⟩

/-- An attempt whose first write fails, then a complete one. -/
def retry : List SendAttempt :=
  [⟨.send (some pingRequest), none, some 1⟩, ⟨.send (some pingRequest), some 5, some 1⟩]

theorem Sender.eachStep_wholeFrame_retry :
    EachStep Sender.Step ⟨{ connected := true }, []⟩ (retry ++ [probe]) WholeFrame := by
  refine (Sender.eachStep_wholeFrame_iff rfl (Or.inl rfl) retry).mpr ?_ retry (List.prefix_refl _)
  intro a ha payload hpayload
  simp only [retry, List.mem_cons, List.not_mem_nil, or_false] at ha
  rcases ha with rfl | rfl
  · trivial
  · obtain rfl := Option.some.inj hpayload
    exact ⟨by decide, by decide⟩

/-- **Success is reported for a frame that is cut**: the first write takes two of the five
bytes. -/
theorem not_all_wholeFrame :
    ¬∀ (s : Sender) (a : SendAttempt), s.client.connected = true → AtLineStart s.stream →
      WholeFrame s a (s.attempt a) := by
  intro h
  obtain ⟨payload, hpayload, hstream, _⟩ := h ⟨{ connected := true }, []⟩
    ⟨.send (some pingRequest), some 2, some 1⟩ rfl (Or.inl rfl) (by decide)
  obtain rfl := Option.some.inj hpayload
  exact absurd hstream (by decide)

end SporeClient.Client
