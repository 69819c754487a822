/-
  Go/Session.lean --- a program that connects, listens and disconnects, again and again.

  WHAT THIS FILE IS FOR.  The bytes of the daemon are read by two functions: `handshake`
  takes the answer byte by byte, `listen` takes what comes behind it.  The daemon does not
  wait in between, so the first messages may be in one packet with the answer.  In every
  session the handlers are called with each message of the daemon once and in order,
  wherever the packets end, and nothing of one session is seen in another
  (`GoClient.sessions_deliver`).
-/
import SporeClient.Client.Handshake
import SporeClient.Client.Plain
import SporeClient.Client.Reentry
import SporeClient.Go.Client

set_option autoImplicit false

namespace SporeClient.Client

open SporeClient.Foundation
open SporeClient.Parser

/-! ## The answer -/

/-- A line that fits is read with its newline, and no byte behind it. -/
theorem readAnswer_line {line : Bytes} (hline : '\n' ∉ line) {room : Nat}
    (hlen : line.length < room) (rest : Bytes) :
    readAnswer room (line ++ '\n' :: rest) = some (line ++ ['\n'], rest) := by
  induction line generalizing room with
  | nil =>
      obtain ⟨room, rfl⟩ := Nat.exists_eq_succ_of_ne_zero (Nat.ne_of_gt hlen)
      simp [readAnswer]
  | cons c line ih =>
      obtain ⟨room, rfl⟩ := Nat.exists_eq_succ_of_ne_zero (Nat.ne_of_gt (Nat.zero_lt_of_lt hlen))
      obtain ⟨hc, hline⟩ := not_or.mp (List.mem_cons.not.mp hline)
      have hrest := ih hline (Nat.lt_of_succ_lt_succ hlen)
      simp [readAnswer, Ne.symm hc, hrest]

/-- **A yes that fits**: the client is connected, and what is behind the answer is unread. -/
theorem Connection.connect_ok (c : Connection) (fd k : Nat) {j : Nat} (hj : j ≤ 60)
    (early : Bytes) :
    let d := c.connect (.accepted fd (some k) (okLine j ++ '\n' :: early))
    d.isConnected = true ∧ d.unread = early ∧ d.client.handlers = c.client.handlers := by
  let start : Connection :=
    { c.clearError with opened := fd :: c.opened, socketFd := some fd, stream := [] }
  have hread : readAnswer 63 (okLine j ++ '\n' :: early) = some (okLine j ++ ['\n'], early) :=
    readAnswer_line (newline_not_mem_okLine j) (by rw [length_okLine]; omega) early
  have hok : popLineEnd (cstr (okLine j ++ ['\n'])) = ['O', 'K'] := by
    rw [popLineEnd_cstr_newline, cstr_eq_self (nul_not_mem_okLine j),
      popLineEnd_eq_ok_iff (newline_not_mem_okLine j)]
    exact ⟨j, rfl⟩
  obtain ⟨hyes, hunread⟩ := start.handshake_some rfl k hread
  have herror := hyes.mpr hok
  intro d
  have hd : d = { start.handshake (some k) (okLine j ++ '\n' :: early) with
      client := { (start.handshake (some k) (okLine j ++ '\n' :: early)).client with
        connected := true } } := by
    refine (c.connect_accepted fd (some k) _).trans (if_neg ?_)
    exact Bool.not_eq_true _ ▸ herror
  rw [hd]
  exact ⟨rfl, hunread, start.handshake_handlers (some k) _⟩

end SporeClient.Client

namespace SporeClient.Go

open SporeClient.Foundation
open SporeClient.Client
open SporeClient.Parser

/-! ## Sessions -/

/-- A session: the daemon sends `answer` until the handshake is over, and `later` after that;
the program sends, listens until the daemon sends no more, and disconnects.  Behind its
answer the daemon has sent these messages. -/
structure Session where
  fd : Nat
  written : Nat
  answer : Bytes
  later : Bytes
  sends : List SendAttempt
  reads : List Chunk
  messages : List Outgoing

namespace Session

def connect (p : Session) : MethodCall := .connect (.accepted p.fd (some p.written) p.answer)

/-- The calls of the program. -/
def calls (p : Session) : List MethodCall :=
  p.connect :: (p.sends.map .send ++ [.listen p.reads, .disconnect])

/-- The daemon says `OK`, in a line that fits into the buffer of the handshake and is
complete before its timeout, and then sends plain messages; they may begin in `answer`. -/
def Fair (p : Session) : Prop :=
  (∃ j ≤ 60, okLine j ++ ['\n'] <+: p.answer ∧
    p.answer ++ p.later = okLine j ++ '\n' :: p.messages.flatMap Outgoing.wire) ∧
  ∀ m ∈ p.messages, m.IsPlain

end Session

namespace GoClient

/-- The client after calls. -/
def after (c : GoClient) (l : List MethodCall) : GoClient := l.foldl (fun c a => (c.call a).1) c

theorem results_append (c : GoClient) (l l' : List MethodCall) :
    c.results (l ++ l') = c.results l ++ (c.after l).results l' := by
  induction l generalizing c with
  | nil => rfl
  | cons a l ih => exact congrArg ((c.call a).2 :: ·) (ih (c.call a).1)

theorem after_append (c : GoClient) (l l' : List MethodCall) :
    c.after (l ++ l') = (c.after l).after l' := by simp [after]

/-- In each of the sessions the reads of `Listen` return what the handshake has left unread,
and then what the daemon sends later. -/
def Reads (c : GoClient) : List Session → Prop
  | [] => True
  | p :: ps =>
      (p.reads.map Chunk.bytes).flatten =
          (c.after (p.connect :: p.sends.map .send)).h.unread ++ p.later ∧
        (c.after p.calls).Reads ps

/-- Sends call no handler, and leave the connection, the handlers and what is unread. -/
theorem after_sends (c : GoClient) (sends : List SendAttempt) :
    (c.results (sends.map .send)).flatMap MethodResult.callbacks = [] ∧
      (c.after (sends.map .send)).h.isConnected = c.h.isConnected ∧
      (c.after (sends.map .send)).h.unread = c.h.unread ∧
      (c.after (sends.map .send)).h.client.handlers = c.h.client.handlers := by
  induction sends generalizing c with
  | nil => exact ⟨rfl, rfl, rfl, rfl⟩
  | cons a sends ih =>
      obtain ⟨hcallbacks, hconnected, hunread, hhandlers⟩ := ih (c.send a).1
      exact ⟨hcallbacks, hconnected.trans (c.h.attempt_client_connected a), hunread,
        hhandlers.trans (c.h.attempt_handlers a)⟩

/-- Plain messages are delivered to a client that is connected. -/
theorem listen_messages {c : GoClient} (hc : c.h.isConnected = true) {reads : List Chunk}
    {ms : List Outgoing} (hreads : (reads.map Chunk.bytes).flatten = ms.flatMap Outgoing.wire)
    (hplain : ∀ m ∈ ms, m.IsPlain) :
    (c.listen reads).2.callbacks =
      (ms.map Outgoing.received).flatMap c.h.client.handlers.invoke := by
  obtain ⟨fs, hwire, hevents⟩ := exists_frames fun m hm => (hplain m hm).exists_frame
  have hlisten : (c.listen reads).2.callbacks = (c.h.client.listen reads).2 := by
    simp [listen, hc, Connection.listen]
  rw [hlisten, listen_of_frames hc (hreads.trans hwire), hevents]

/-- The answer of the daemon connects the client; what it leaves unread and what comes later
are the messages. -/
theorem connect_fair {c : GoClient} (hc : c.h.isConnected = false) {p : Session} (hp : p.Fair) :
    ∃ d : GoClient, c.call p.connect = (d, ⟨error d, []⟩) ∧ d.h.isConnected = true ∧
      d.h.unread ++ p.later = p.messages.flatMap Outgoing.wire ∧
      d.h.client.handlers = c.h.client.handlers := by
  obtain ⟨⟨j, hj, ⟨early, hanswer⟩, hall⟩, _⟩ := hp
  have hok : p.answer = okLine j ++ '\n' :: early := by rw [← hanswer]; simp
  obtain ⟨hconnected, hunread, hhandlers⟩ := c.h.connect_ok p.fd p.written hj early
  rw [← hok] at hconnected hunread hhandlers
  refine ⟨⟨c.h.connect (.accepted p.fd (some p.written) p.answer)⟩, ?_, hconnected, ?_, hhandlers⟩
  · simp [call, Session.connect, connect, hc]
  · have hrest : okLine j ++ '\n' :: (early ++ p.later) =
        okLine j ++ '\n' :: p.messages.flatMap Outgoing.wire := by
      rw [← hall, hok]
      simp
    rw [hunread]
    exact List.tail_eq_of_cons_eq (List.append_cancel_left hrest)

/-- `Listen` and `Disconnect` of a client that is connected. -/
theorem listen_disconnect {c : GoClient} (hc : c.h.isConnected = true) (reads : List Chunk) :
    (c.results [.listen reads, .disconnect]).flatMap MethodResult.callbacks =
        (c.listen reads).2.callbacks ∧
      (c.after [.listen reads, .disconnect]).h.isConnected = false ∧
      (c.after [.listen reads, .disconnect]).h.client.handlers = c.h.client.handlers := by
  have hc' : c.h.client.connected = true := hc
  obtain ⟨hstill, hhandlers⟩ : (c.h.listen reads).1.isConnected = true ∧
      (c.h.listen reads).1.client.handlers = c.h.client.handlers := by
    simp [Connection.listen, ClientState.listen, Connection.isConnected, hc']
  have hlisten : c.listen reads = (⟨(c.h.listen reads).1⟩,
      ⟨error ⟨(c.h.listen reads).1⟩, (c.h.listen reads).2⟩) := by
    simp [listen, hc]
  have hdisconnect : (⟨(c.h.listen reads).1⟩ : GoClient).disconnect =
      (⟨(c.h.listen reads).1.disconnect⟩, ⟨error ⟨(c.h.listen reads).1.disconnect⟩, []⟩) := by
    simp [disconnect, hstill]
  have hafter : c.after [.listen reads, .disconnect] = ⟨(c.h.listen reads).1.disconnect⟩ := by
    simp [after, call, hlisten, hdisconnect]
  rw [hafter]
  refine ⟨by simp [results, call, hlisten, hdisconnect], Connection.disconnect_isConnected _, ?_⟩
  exact (Connection.disconnect_handlers _).trans hhandlers

/-- **One session** calls the handlers with its messages, and leaves the client as free to
connect as it was. -/
theorem session_delivers {c : GoClient} (hc : c.h.isConnected = false) {p : Session}
    (hp : p.Fair) (hreads : c.Reads [p]) :
    (c.results p.calls).flatMap MethodResult.callbacks =
        (p.messages.map Outgoing.received).flatMap c.h.client.handlers.invoke ∧
      (c.after p.calls).h.isConnected = false ∧
      (c.after p.calls).h.client.handlers = c.h.client.handlers := by
  obtain ⟨d, hconnect, hconnected, hmessages, hhandlers⟩ := connect_fair hc hp
  obtain ⟨hquiet, hstill, hunread, hsame⟩ := after_sends d p.sends
  obtain ⟨e, he⟩ : ∃ e, d.after (p.sends.map .send) = e := ⟨_, rfl⟩
  have hbegin : c.after (p.connect :: p.sends.map .send) = e :=
    (congrArg (fun x : GoClient × MethodResult => x.1.after (p.sends.map .send)) hconnect).trans he
  have hfirst : (c.results (p.connect :: p.sends.map .send)).flatMap MethodResult.callbacks =
      [] := by
    rw [results, hconnect]
    exact hquiet
  -- the reads return the rest of the answer and what comes later
  have hbytes : (p.reads.map Chunk.bytes).flatten = p.messages.flatMap Outgoing.wire := by
    rw [hreads.1, hbegin, ← he, hunread, hmessages]
  rw [he] at hstill hsame
  have heconnected : e.h.isConnected = true := hstill.trans hconnected
  obtain ⟨hcallbacks, hfree, hkept⟩ := listen_disconnect heconnected p.reads
  have hcalls : p.calls = (p.connect :: p.sends.map .send) ++ [.listen p.reads, .disconnect] := rfl
  rw [hcalls, results_append, after_append, hbegin, List.flatMap_append, hfirst, hcallbacks,
    listen_messages heconnected hbytes hp.2, hsame, hhandlers]
  exact ⟨rfl, hfree, hkept.trans (hsame.trans hhandlers)⟩

/-- **Every session is delivered.**  A program that connects, sends, listens and disconnects
any number of times has its handlers called with the messages of the daemon, each once, in
order, whatever came in one packet with the answer. -/
theorem sessions_deliver {c : GoClient} (hc : c.h.isConnected = false) {ps : List Session}
    (hps : ∀ p ∈ ps, p.Fair) (hreads : c.Reads ps) :
    (c.results (ps.flatMap Session.calls)).flatMap MethodResult.callbacks =
      ((ps.flatMap Session.messages).map Outgoing.received).flatMap
        c.h.client.handlers.invoke := by
  induction ps generalizing c with
  | nil => rfl
  | cons p ps ih =>
      obtain ⟨hp, hps⟩ := List.forall_mem_cons.mp hps
      obtain ⟨hfirst, hrest⟩ := hreads
      obtain ⟨hdelivers, hfree, hhandlers⟩ := session_delivers hc hp ⟨hfirst, trivial⟩
      rw [List.flatMap_cons, results_append, List.flatMap_append, hdelivers,
        ih hfree hps hrest, hhandlers, List.flatMap_cons, List.map_append, List.flatMap_append]

/-- A session whose message comes with the answer, and one whose message comes in two
packets. -/
theorem sessions_deliver_two :
    let c : GoClient :=
      ⟨{ Connection.new .linux ['n'] with client := { oneOfEach with connected := false } }⟩
    ∃ ps : List Session,
      ps.flatMap Session.messages = [.request pingRequest, .request pingRequest] ∧
      (c.results (ps.flatMap Session.calls)).flatMap MethodResult.callbacks =
        ([.request pingRequest, .request pingRequest].map Outgoing.received).flatMap
          oneOfEach.handlers.invoke := by
  let wire : Bytes := ['c', ' ', '~', 'h', '\n', '\n']
  let first : Session :=
    ⟨3, 2, okLine 1 ++ '\n' :: wire, [], [], [⟨wire, by decide, by decide⟩],
      [.request pingRequest]⟩
  let second : Session :=
    ⟨4, 2, okLine 0 ++ ['\n', 'c'], wire.tail, [],
      [⟨['c'], by decide, by decide⟩, ⟨wire.tail, by decide, by decide⟩], [.request pingRequest]⟩
  have hplain : ∀ m ∈ [Outgoing.request pingRequest], m.IsPlain := by
    intro m hm
    obtain rfl := List.mem_singleton.mp hm
    exact ⟨⟨by decide, by decide, by decide⟩, by decide, by decide, by decide, by decide⟩
  have hfair : ∀ p ∈ [first, second], p.Fair := by
    intro p hp
    simp only [List.mem_cons, List.not_mem_nil, or_false] at hp
    rcases hp with rfl | rfl
    · exact ⟨⟨1, by decide, by decide, by decide⟩, hplain⟩
    · exact ⟨⟨0, by decide, by decide, by decide⟩, hplain⟩
  exact ⟨[first, second], rfl, sessions_deliver rfl hfair ⟨by decide, by decide, trivial⟩⟩

end GoClient

end SporeClient.Go
