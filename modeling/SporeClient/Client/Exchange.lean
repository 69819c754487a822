/-
  Client/Exchange.lean --- two clients, one of which answers from its callbacks.

  WHAT THIS FILE IS FOR.  `listen` calls the handlers on its own thread, and a handler may
  send before it returns; the next read comes after that.  So the client that answers has a
  thread that reads and sends in turn, beside threads that only send.  Its handlers are the
  parameter `reply`: what they send for an event.  Over both streams, whatever the order of
  the moves, the answers that arrive are those to the first messages of the other client, in
  their order (`Exchange.replies`).
-/
import SporeClient.Client.Channel
import SporeClient.Client.Reply

set_option autoImplicit false

namespace SporeClient.Client

open SporeClient.Foundation
open SporeClient.Parser
open SporeClient.Wire

/-! ## The exchange -/

/-- The stream to the client that answers, the stream back, and what the handlers have yet
to send for the last read. -/
structure Exchange (ι κ : Type) where
  there : Channel ι
  back : Channel κ
  todo : List Outgoing

/-- A move on one of the two streams. -/
inductive ExchangeMove (ι κ : Type) where
  | there (a : ChannelMove ι)
  | back (a : ChannelMove κ)

/-- The moves on the stream to the client that answers. -/
def thereMoves {ι κ : Type} (moves : List (ExchangeMove ι κ)) : List (ChannelMove ι) :=
  moves.filterMap fun
    | .there a => some a
    | .back _ => none

/-- The moves on the stream back. -/
def backMoves {ι κ : Type} (moves : List (ExchangeMove ι κ)) : List (ChannelMove κ) :=
  moves.filterMap fun
    | .there _ => none
    | .back a => some a

section

variable {ι κ : Type} [DecidableEq ι] [DecidableEq κ]

/-- Nothing has been sent. -/
def Exchange.start : Exchange ι κ := ⟨Channel.start, Channel.start, []⟩

/-- The moves of both clients, in any order.  The thread `me` is in `listen`. -/
inductive Exchange.Step (me : κ) (reply : Event → List Outgoing) :
    Exchange ι κ → ExchangeMove ι κ → Exchange ι κ → Prop
  | ask {x : Exchange ι κ} {a : SendMove ι} {u : Channel ι}
      (h : Channel.Step true x.there (.source a) u) :
      Step me reply x (.there (.source a)) { x with there := u }
  /-- The next read, when all handlers have returned. -/
  | hear {x : Exchange ι κ} {chunk : Chunk} {u : Channel ι}
      (hidle : x.back.source.phase me = .idle) (htodo : x.todo = [])
      (h : Channel.Step true x.there (.take chunk) u) :
      Step me reply x (.there (.take chunk))
        { x with
            there := u
            todo := (u.delivered.drop x.there.delivered.length).flatMap reply }
  /-- A handler sends. -/
  | say {x : Exchange ι κ} {m : Outgoing} {rest : List Outgoing} {u : Channel κ}
      (htodo : x.todo = m :: rest)
      (h : Channel.Step true x.back (.source (.call me m.call)) u) :
      Step me reply x (.back (.source (.call me m.call))) { x with back := u, todo := rest }
  /-- Any other move on the stream back: the thread `me` begins no send of its own. -/
  | other {x : Exchange ι κ} {a : ChannelMove κ} {u : Channel κ}
      (ha : ∀ call, a ≠ .source (.call me call)) (h : Channel.Step true x.back a u) :
      Step me reply x (.back a) { x with back := u }

variable {me : κ} {reply : Event → List Outgoing} {moves : List (ExchangeMove ι κ)}
  {x : Exchange ι κ}

/-- Each stream alone is a channel. -/
theorem Exchange.run_channels (h : Run (Exchange.Step me reply) Exchange.start moves x) :
    Run (Channel.Step true) Channel.start (thereMoves moves) x.there ∧
      Run (Channel.Step true) Channel.start (backMoves moves) x.back := by
  induction h with
  | start => exact ⟨.start, .start⟩
  | step _ hstep ih =>
      rw [thereMoves, backMoves, List.filterMap_append, List.filterMap_append]
      obtain ⟨hthere, hback⟩ := ih
      cases hstep with
      | ask h => exact ⟨hthere.step h, by simpa [backMoves] using hback⟩
      | hear _ _ h => exact ⟨hthere.step h, by simpa [backMoves] using hback⟩
      | say _ h => exact ⟨by simpa [thereMoves] using hthere, hback.step h⟩
      | other _ h => exact ⟨by simpa [thereMoves] using hthere, hback.step h⟩

/-- A read makes the events before it no fewer. -/
theorem Channel.delivered_mono {ch : Channel ι} {a : ChannelMove ι} {u : Channel ι}
    (h : Channel.Step true ch a u) : ch.delivered <+: u.delivered := by
  cases h with
  | source _ => exact List.prefix_refl _
  | take _ =>
      rw [Channel.delivered, Channel.delivered, eventsOf_eq_scan, eventsOf_eq_scan]
      exact (listenReader.scan_begins _ (by simp)).filterMap _

/-- **What the handlers send**: the sends of `me` and what it has yet to send are the
answers to the events delivered so far, in order. -/
theorem Exchange.calls_me (h : Run (Exchange.Step me reply) Exchange.start moves x) :
    Threads.callsOf me (sourceMoves (backMoves moves)) ++ x.todo.map Outgoing.call =
      (x.there.delivered.flatMap reply).map Outgoing.call := by
  have hskip : ∀ {a : ChannelMove κ}, (∀ call, a ≠ .source (.call me call)) →
      Threads.callsOf me (sourceMoves [a]) = [] := by
    intro a ha
    cases a with
    | take chunk => rfl
    | source a =>
        cases a with
        | call i call =>
            have hi : i ≠ me := fun hi => ha call (by rw [hi])
            simp [sourceMoves, Threads.callsOf, hi]
        | lock i call => rfl
        | act i o => rfl
        | unlock i => rfl
  induction h with
  | start => rfl
  | @step _ s _ a _ hstep ih =>
      have happend : ∀ moves : List (ExchangeMove ι κ),
          Threads.callsOf me (sourceMoves (backMoves (moves ++ [a]))) =
            Threads.callsOf me (sourceMoves (backMoves moves)) ++
              Threads.callsOf me (sourceMoves (backMoves [a])) := by
        intro moves
        rw [backMoves, List.filterMap_append, sourceMoves_append, Threads.callsOf_append]
        rfl
      rw [happend]
      cases hstep with
      | @ask a u h =>
          have hdelivered : u.delivered = s.there.delivered := by
            cases h with
            | source _ => rfl
          simpa [backMoves, sourceMoves, Threads.callsOf, hdelivered] using ih
      | @hear chunk u _ htodo h =>
          obtain ⟨new, hnew⟩ := Channel.delivered_mono h
          rw [htodo] at ih
          simp only [List.map_nil, List.append_nil] at ih
          simp [backMoves, sourceMoves, Threads.callsOf, ← hnew, ← ih]
      | @say m rest u htodo h =>
          rw [htodo] at ih
          simpa [backMoves, sourceMoves, Threads.callsOf] using ih
      | @other a u ha h =>
          have hnone := hskip ha
          simpa [backMoves, hnone] using ih

/-! ## Answers that are sent -/

/-- The first write takes the whole text. -/
def Sent.Complete {κ : Type} (x : Sent κ) : Prop :=
  ∀ o rest, x.results = o :: rest → ∃ k, o = some k ∧ (x.job.payload.getD []).length ≤ k

/-- Every send is of a plain message, and its text is written as a whole. -/
def CompleteSends {κ : Type} (moves : List (SendMove κ)) : Prop :=
  ∀ x ∈ Threads.served moves, Sent.Complete x ∧ ∃ m : Outgoing, x.job = m.call ∧ m.IsPlain

theorem CompleteSends.plain {κ : Type} {moves : List (SendMove κ)} (h : CompleteSends moves) :
    PlainSends moves := by
  intro x hx
  obtain ⟨hcomplete, hplain⟩ := h x hx
  refine ⟨fun k rest hk => ?_, hplain⟩
  obtain ⟨j, hj, hle⟩ := hcomplete _ _ hk
  obtain rfl := Option.some.inj hj
  exact hle

/-- A send that has come to its end has written its text. -/
theorem Sent.Complete.written {κ : Type} {x : Sent κ} (h : x.Complete) {stream : Bytes}
    (hend : (writeCode.exec x.job x.results stream).2 = none) : x.written = true := by
  obtain ⟨i, call, results⟩ := x
  rcases results with _ | ⟨o, rest⟩
  · simp at hend
  · obtain ⟨k, rfl, _⟩ := h o rest rfl
    rfl

/-- The texts that have been written in a run and the threads that wrote them, in the order
of the lock. -/
def textsOf {κ : Type} (moves : List (SendMove κ)) : List (κ × Outgoing) :=
  ((Threads.served moves).filter Sent.written).filterMap fun x =>
    x.job.message.map fun m => (x.thread, m)

theorem map_textsOf {κ : Type} (moves : List (SendMove κ)) :
    (textsOf moves).map Prod.snd = messagesOf moves := by
  rw [textsOf, messagesOf, List.map_filterMap]
  congr 1
  funext x
  cases x.job.message <;> rfl

/-- The texts of one thread. -/
theorem filter_textsOf (me : κ) (moves : List (SendMove κ)) :
    ((textsOf moves).filter fun p => p.1 = me).map Prod.snd =
      ((((Threads.served moves).filter Sent.written).filter fun x => x.thread = me).map
        Threads.Served.job).filterMap SendCall.message := by
  rw [textsOf]
  induction (Threads.served moves).filter Sent.written with
  | nil => rfl
  | cons x done ih =>
      cases hm : x.job.message with
      | none =>
          by_cases hme : x.thread = me <;> simp [hm, hme, ih]
      | some m =>
          by_cases hme : x.thread = me <;> simp [hm, hme, ih]

/-- Only the send that has the lock may not have written its text. -/
theorem filter_written_begins {t : Senders κ} {stream : Bytes} {moves : List (SendMove κ)}
    (h : Run (Senders.Step true) (Threads.start stream) moves t) (hsends : CompleteSends moves) :
    (Threads.served moves).filter Sent.written <+: Threads.served moves ∧
      ((∀ i, ¬(t.phase i).Holds) →
        (Threads.served moves).filter Sent.written = Threads.served moves) := by
  have hserial := Threads.serialized_of_run (Senders.run_enters h)
  have hdone : ∀ done, (∀ x ∈ done, x ∈ Threads.served moves) →
      Threads.AllEnd writeCode done stream → done.filter Sent.written = done := by
    intro done hmem hend
    refine List.filter_eq_self.mpr fun x hx => ?_
    obtain ⟨s', hs'⟩ := hend.exists_end writeCode x hx
    exact (hsends x (hmem x hx)).1.written hs'
  cases hholder : t.holder with
  | none =>
      have hall := hdone _ (fun _ hx => hx)
        (by have hend := hserial.free hholder; rwa [served_enters] at hend)
      exact ⟨by rw [hall], fun _ => hall⟩
  | some i =>
      obtain ⟨done, job, results, hserved, hend, _⟩ := hserial.held i hholder
      rw [served_enters] at hserved
      have hall := hdone done (fun x hx => hserved ▸ List.mem_append_left _ hx) hend
      refine ⟨?_, fun hnone => absurd ((hserial.holds i).mpr hholder) (hnone i)⟩
      rw [hserved, List.filter_append, hall, List.prefix_append_right_inj]
      rw [List.filter_singleton]
      cases Sent.written ⟨i, job, results⟩ <;> simp

/-! ## Answers that arrive -/

/-- The calls that send these messages, read back. -/
theorem filterMap_message (ms : List Outgoing) :
    (ms.map Outgoing.call).filterMap SendCall.message = ms := by
  have hsome : SendCall.message ∘ Outgoing.call = some := funext Outgoing.message_call
  rw [List.filterMap_map, hsome, List.filterMap_some]

/-- A connected client refuses no message. -/
theorem filter_passes (ms : List Outgoing) :
    (ms.map Outgoing.call).filter (SendCall.passes true) = ms.map Outgoing.call := by
  refine List.filter_eq_self.mpr fun call hcall => ?_
  obtain ⟨m, _, rfl⟩ := List.mem_map.mp hcall
  simp [SendCall.passes]

/-- The texts that `me` has written are the first answers to what has been delivered, and
all of them when `me` has sent them all. -/
theorem Exchange.texts_me (h : Run (Exchange.Step me reply) Exchange.start moves x)
    (hsends : CompleteSends (sourceMoves (backMoves moves))) :
    ((textsOf (sourceMoves (backMoves moves))).filter fun p => p.1 = me).map Prod.snd <+:
        x.there.delivered.flatMap reply ∧
      (x.todo = [] → x.back.source.phase me = .idle → (∀ i, ¬(x.back.source.phase i).Holds) →
        ((textsOf (sourceMoves (backMoves moves))).filter fun p => p.1 = me).map Prod.snd =
          x.there.delivered.flatMap reply) := by
  have hback := Piped.run_source (Exchange.run_channels h).2
  obtain ⟨hwritten, hall⟩ := filter_written_begins hback hsends
  have hcalls := Exchange.calls_me h
  obtain ⟨said, unsaid, hsplit, hsaid, hunsaid⟩ := List.map_eq_append_iff.mp hcalls.symm
  -- the sends of `me` that took the lock are the first of its calls
  have hjobs := (Threads.serialized_of_run (Senders.run_enters hback)).calls me
  rw [callsOf_enters, served_enters, ← hsaid, filter_passes] at hjobs
  rw [filter_textsOf, hsplit]
  refine ⟨?_, fun htodo hidle hfree => ?_⟩
  · have hprefix : (((Threads.served (sourceMoves (backMoves moves))).filter
        Sent.written).filter fun x => x.thread = me).map Threads.Served.job <+:
          said.map Outgoing.call := by
      rw [hjobs]
      exact ((hwritten.filter _).map _).trans (List.prefix_append _ _)
    have hmessages := hprefix.filterMap SendCall.message
    rw [filterMap_message] at hmessages
    exact hmessages.trans (List.prefix_append _ _)
  · rw [hidle, Phase.pending, List.append_nil] at hjobs
    rw [htodo, List.map_nil, List.map_eq_nil_iff] at hunsaid
    rw [hall hfree, ← hjobs, filterMap_message, hunsaid, List.append_nil]

/-- **Answers arrive in the order of what they answer.**  The threads of one client send
plain messages; the other client listens, and its handlers send `reply e` for an event `e`
while other threads of it send, too.  At every time the first client has been called for the
first texts of the stream back, each once; those that the handlers sent are the answers to
the first messages that it sent itself, in the order in which it sent them.  When nothing
is left to be sent and read, every message has all its answers. -/
theorem Exchange.replies {c : ClientState} (hc : c.connected = true)
    (h : Run (Exchange.Step me reply) Exchange.start moves x)
    (hthere : PlainSends (sourceMoves (thereMoves moves)))
    (hback : CompleteSends (sourceMoves (backMoves moves))) :
    ∃ now later, textsOf (sourceMoves (backMoves moves)) = now ++ later ∧
      (c.listen x.back.taken).2 = (now.map fun p => p.2.received).flatMap c.handlers.invoke ∧
      (now.filter fun p => p.1 = me).map Prod.snd <+:
        (messagesOf (sourceMoves (thereMoves moves))).flatMap (reply ∘ Outgoing.received) ∧
      (x.there.got Chunk.bytes = x.there.source.shared → x.todo = [] →
        x.back.source.phase me = .idle → (∀ i, ¬(x.back.source.phase i).Holds) →
        x.back.got Chunk.bytes = x.back.source.shared → later = [] ∧
          (now.filter fun p => p.1 = me).map Prod.snd =
            (messagesOf (sourceMoves (thereMoves moves))).flatMap (reply ∘ Outgoing.received)) := by
  obtain ⟨hrunThere, hrunBack⟩ := Exchange.run_channels h
  obtain ⟨hdelivered, hheard⟩ := Channel.delivered_begins hrunThere hthere.framed
  obtain ⟨⟨rest, hrest⟩, hread⟩ := Channel.delivered_begins hrunBack hback.plain.framed
  obtain ⟨htexts, hsaid⟩ := Exchange.texts_me h hback
  have hanswers : x.there.delivered.flatMap reply <+:
      (messagesOf (sourceMoves (thereMoves moves))).flatMap (reply ∘ Outgoing.received) := by
    obtain ⟨later, hlater⟩ := hdelivered
    have hall := congrArg (fun es => es.flatMap reply) hlater
    simp only [List.flatMap_append, List.flatMap_map] at hall
    exact ⟨_, hall⟩
  rw [← map_textsOf, List.map_map] at hrest hread
  obtain ⟨now, later, hsplit, hnow, hlater⟩ := List.map_eq_append_iff.mp hrest.symm
  have hlisten : (c.listen x.back.taken).2 = x.back.delivered.flatMap c.handlers.invoke := by
    simp [ClientState.listen, hc, Channel.delivered]
  have hnowMe : (now.filter fun p => p.1 = me).map Prod.snd <+:
      ((textsOf (sourceMoves (backMoves moves))).filter fun p => p.1 = me).map Prod.snd := by
    rw [hsplit, List.filter_append, List.map_append]
    exact List.prefix_append _ _
  refine ⟨now, later, hsplit, by rw [hlisten, ← hnow]; rfl,
    (hnowMe.trans htexts).trans hanswers, fun hgot htodo hidle hfree hgotBack => ?_⟩
  have hnone : later = [] := by
    have heq := hread hgotBack
    rw [hsplit, List.map_append, ← hnow] at heq
    simpa using heq
  refine ⟨hnone, ?_⟩
  rw [hnone, List.append_nil] at hsplit
  rw [← hsplit, hsaid htodo hidle hfree, hheard hgot, List.flatMap_map]
  rfl

end

/-- Handlers that answer every request. -/
def answerRequests : Event → List Outgoing
  | .request r => [.response (answer r)]
  | _ => []

/-- The answer to the request `c ~h`. -/
def pingAnswer : Outgoing := .response (answer pingRequest)

/-- A request is sent, heard and answered, and the answer is read. -/
def askAndAnswer : List (ExchangeMove Unit Unit) :=
  [.there (.source (.call () (.send (some pingRequest)))),
    .there (.source (.lock () (.send (some pingRequest)))), .there (.source (.act () (some 5))),
    .there (.take ⟨['c', ' ', '~', 'h', '\n'], by decide, by decide⟩),
    .back (.source (.call () pingAnswer.call)), .back (.source (.lock () pingAnswer.call)),
    .back (.source (.act () (some 8))),
    .back (.take ⟨['~', 'h', ':', 'c', ' ', 'o', 'k', '\n'], by decide, by decide⟩)]

theorem run_askAndAnswer : ∃ x : Exchange Unit Unit,
    x.back.taken = [⟨['~', 'h', ':', 'c', ' ', 'o', 'k', '\n'], by decide, by decide⟩] ∧
      Run (Exchange.Step () answerRequests) Exchange.start askAndAnswer x := by
  have hasked : Run (Exchange.Step () answerRequests) Exchange.start (askAndAnswer.take 3) _ :=
    .step (.step (.step .start (.ask (.source (.passed rfl (.call rfl)))))
      (.ask (.source (.goesOn (by simp [Move.GoesOn]) (.lock rfl rfl)))))
      (.ask (.source (.goesOn (by simp [Move.GoesOn]) (.act rfl _))))
  have hheard : Run (Exchange.Step () answerRequests) Exchange.start (askAndAnswer.take 4) _ :=
    .step hasked (.hear rfl rfl (.take (by decide)))
  have hsaid : Run (Exchange.Step () answerRequests) Exchange.start (askAndAnswer.take 5) _ :=
    .step hheard (.say (show _ = pingAnswer :: [] by decide) (.source (.passed rfl (.call rfl))))
  have hanswered : Run (Exchange.Step () answerRequests) Exchange.start (askAndAnswer.take 7) _ :=
    .step (.step hsaid
      (.other (by simp) (.source (.goesOn (by simp [Move.GoesOn]) (.lock rfl rfl)))))
      (.other (by simp) (.source (.goesOn (by simp [Move.GoesOn]) (.act rfl _))))
  exact ⟨_, rfl, .step hanswered (.other (by simp) (.take (by decide)))⟩

/-- The answer arrives. -/
theorem Exchange.replies_one : ∃ (x : Exchange Unit Unit) (now later : List (Unit × Outgoing)),
    textsOf (sourceMoves (backMoves askAndAnswer)) = now ++ later ∧
      (oneOfEach.listen x.back.taken).2 =
        (now.map fun p => p.2.received).flatMap oneOfEach.handlers.invoke := by
  obtain ⟨x, _, hrun⟩ := run_askAndAnswer
  have hback : CompleteSends (sourceMoves (backMoves askAndAnswer)) := by
    intro y hy
    obtain rfl : y = ⟨(), pingAnswer.call, [some 8]⟩ := List.mem_singleton.mp hy
    refine ⟨fun o rest hk => ⟨8, (List.cons.inj hk).1.symm, by decide⟩, pingAnswer, rfl, ?_⟩
    exact ⟨⟨by decide, by decide, by decide⟩, by decide, by decide, by decide, by decide⟩
  obtain ⟨now, later, hsplit, hcalls, _⟩ :=
    Exchange.replies (c := oneOfEach) rfl hrun (plainSends_ping (i := ()) rfl) hback
  exact ⟨x, now, later, hsplit, hcalls⟩

end SporeClient.Client
