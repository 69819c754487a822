/-
  Go/Client.lean --- the methods of `Client` in `spore_go/client.go`.

  WHAT THIS FILE IS FOR.  The C functions look at nothing before they connect, so a second
  `connect` loses a socket.  `Connect`, `Disconnect` and `Listen` ask `ClientIsConnected`
  first.  With these guards the connection is in step in every run of the methods
  (`GoClient.eachStep_inOrder`), no error of an earlier call is returned by a later one
  (`GoClient.results_alike`), and while the client is connected, its stream is the node id
  and the frames sent since it was connected (`GoClient.stream_eq`).
-/
import SporeClient.Client.Reentry

set_option autoImplicit false

namespace SporeClient.Client

open SporeClient.Parser

/-- `Client::listen`, on the socket of the connection: what the reads return, the rest of
the handshake comes first. -/
def Connection.listen (c : Connection) (reads : List Chunk) : Connection × List Callback :=
  ({ c with
      client := (c.client.listen reads).1
      unread := c.unread.drop (reads.map Chunk.bytes).flatten.length },
    (c.client.listen reads).2)

theorem Connection.disconnect_hasError (c : Connection) : c.disconnect.hasError = false := by
  unfold disconnect
  dsimp only
  split
  · rfl
  · split <;> rfl

theorem Connection.disconnect_opened {c : Connection} (h : c.Sound) : c.disconnect.opened = [] := by
  simpa [c.disconnect_isConnected] using (c.disconnect_sound h).opened_eq

theorem Connection.listen_sound {c : Connection} (h : c.Sound) (reads : List Chunk) :
    (c.listen reads).1.Sound := by
  have hc : (c.listen reads).1.isConnected = c.isConnected := by
    cases hc : c.client.connected <;>
      simp [listen, ClientState.listen, isConnected, hc, ClientState.error]
  exact ⟨by rw [hc]; exact h.connected_iff, by rw [hc]; exact h.opened_eq⟩

/-- A handshake that succeeds has sent the node id, as far as the write went. -/
theorem Connection.handshake_stream {c : Connection} {write : WriteOutcome} {answer : Bytes}
    (h : (c.handshake write answer).hasError = false) :
    ∃ k, write = some k ∧
      (c.handshake write answer).stream = c.stream ++ (c.nodeId ++ ['\n']).take k := by
  cases write with
  | none =>
      simp [handshake, Connection.error, hasError, ClientState.hasError, ClientState.error] at h
  | some k =>
      refine ⟨k, rfl, ?_⟩
      unfold handshake
      dsimp only
      split
      · rfl
      · split <;> rfl

/-- No call changes the node id. -/
theorem Connection.connect_nodeId (c : Connection) (o : ConnectOutcome) :
    (c.connect o).nodeId = c.nodeId := by
  have hhandshake : ∀ (d : Connection) (write : WriteOutcome) (answer : Bytes),
      (d.handshake write answer).nodeId = d.nodeId := by
    intro d write answer
    unfold handshake
    split
    · rfl
    · dsimp only
      split
      · rfl
      · split <;> rfl
  cases o with
  | noSocket => rfl
  | refused fd => rfl
  | accepted fd write answer =>
      rw [c.connect_accepted fd write answer]
      split <;> exact hhandshake _ write answer

theorem Connection.disconnect_nodeId (c : Connection) : c.disconnect.nodeId = c.nodeId := by
  unfold disconnect
  dsimp only
  split
  · rfl
  · split <;> rfl

/-- A `connect` that succeeds begins the stream with the node id. -/
theorem Connection.connect_stream {c : Connection} (hc : c.isConnected = false)
    {o : ConnectOutcome} (h : (c.connect o).isConnected = true) :
    ∃ fd k answer, o = .accepted fd (some k) answer ∧
      (c.connect o).stream = (c.nodeId ++ ['\n']).take k := by
  cases o with
  | noSocket => exact absurd (hc.symm.trans h) (by simp)
  | refused fd => exact absurd (hc.symm.trans h) (by simp)
  | accepted fd write answer =>
      let d : Connection :=
        { c.clearError with opened := fd :: c.opened, socketFd := some fd, stream := [] }
      obtain ⟨hconnected, _, _⟩ := d.handshake_fields write answer
      rw [c.connect_accepted fd write answer] at h ⊢
      split at h
      · exact absurd (hc.symm.trans (hconnected.symm.trans h)) (by simp)
      · rename_i herror
        obtain ⟨k, rfl, hstream⟩ := Connection.handshake_stream (c := d) (by simpa using herror)
        refine ⟨fd, k, answer, rfl, ?_⟩
        rw [if_neg herror]
        exact hstream

end SporeClient.Client

namespace SporeClient.Go

open SporeClient.Foundation
open SporeClient.Client
open SporeClient.Parser

/-- `Client`, with the object of the C library it has. -/
structure GoClient where
  h : Connection

/-- What a method returns, and the calls of handlers it has made. -/
structure MethodResult where
  err : Option String
  callbacks : List Callback := []
  deriving DecidableEq

namespace GoClient

/-- `New`. -/
def new (platform : Platform) (nodeid : Bytes) : GoClient := ⟨.new platform nodeid⟩

/-- `error`. -/
def error (c : GoClient) : Option String :=
  if c.h.hasError then some ("[" ++ c.h.client.errorCode ++ "] " ++ c.h.client.errorWhat)
  else none

/-- `Connect`. -/
def connect (c : GoClient) (o : ConnectOutcome) : GoClient × MethodResult :=
  if c.h.isConnected then (c, ⟨none, []⟩)
  else
    let c : GoClient := ⟨c.h.connect o⟩
    (c, ⟨c.error, []⟩)

/-- `Disconnect`. -/
def disconnect (c : GoClient) : GoClient × MethodResult :=
  if !c.h.isConnected then (c, ⟨none, []⟩)
  else
    let c : GoClient := ⟨c.h.disconnect⟩
    (c, ⟨c.error, []⟩)

/-- `Listen`. -/
def listen (c : GoClient) (reads : List Chunk) : GoClient × MethodResult :=
  if !c.h.isConnected then (c, ⟨some "client is not connected", []⟩)
  else
    let callbacks := (c.h.listen reads).2
    let c : GoClient := ⟨(c.h.listen reads).1⟩
    (c, ⟨c.error, callbacks⟩)

/-- `SendRaw`, `SendRequest` and its siblings. -/
def send (c : GoClient) (a : SendAttempt) : GoClient × MethodResult :=
  let c : GoClient := ⟨c.h.call (.send a)⟩
  (c, ⟨c.error, []⟩)

/-- `destroy`: the destructor of the C object disconnects again. -/
def destroy (c : GoClient) : Connection :=
  let h := if c.h.isConnected then c.h.disconnect else c.h
  h.disconnect

end GoClient

/-! ## Calls -/

/-- A call of a method and what the environment does with it. -/
inductive MethodCall where
  | connect (o : ConnectOutcome)
  | disconnect
  | listen (reads : List Chunk)
  | send (a : SendAttempt)

namespace GoClient

def call (c : GoClient) : MethodCall → GoClient × MethodResult
  | .connect o => c.connect o
  | .disconnect => c.disconnect
  | .listen reads => c.listen reads
  | .send a => c.send a

/-- The environment can do this: a new socket is not in use, and reads begin with what the
handshake left. -/
def Possible (c : GoClient) : MethodCall → Prop
  | .connect o => o.Possible c.h
  | .listen reads =>
      (reads.map Chunk.bytes).flatten <+: c.h.unread ∨
        c.h.unread <+: (reads.map Chunk.bytes).flatten
  | _ => True

/-- One call, with its result. -/
def Step (c : GoClient) (a : MethodCall × MethodResult) (d : GoClient) : Prop :=
  c.Possible a.1 ∧ c.call a.1 = (d, a.2)

/-- What a user of the methods relies on. -/
structure InOrder (c : GoClient) (a : MethodCall × MethodResult) (d : GoClient) : Prop where
  sound : d.h.Sound
  /-- `Connect` returns no error iff the client is connected. -/
  connect : ∀ o, a.1 = .connect o → (a.2.err = none ↔ d.h.isConnected = true)
  /-- `Disconnect` returns no error, and nothing is open. -/
  disconnect : a.1 = .disconnect → a.2.err = none ∧ d.h.isConnected = false ∧ d.h.opened = []
  /-- `Listen` and the sends leave the connection as it is. -/
  keeps : (∃ reads, a.1 = .listen reads) ∨ (∃ s, a.1 = .send s) →
    d.h.isConnected = c.h.isConnected ∧ d.h.socketFd = c.h.socketFd ∧ d.h.opened = c.h.opened
  /-- Without a connection they return an error, call nobody and write nothing. -/
  refused : c.h.isConnected = false →
    (∃ reads, a.1 = .listen reads) ∨ (∃ s, a.1 = .send s) →
      a.2.err ≠ none ∧ a.2.callbacks = [] ∧ d.h.stream = c.h.stream
  /-- At the end of the client no socket is left open. -/
  destroyed : d.destroy.opened = []

theorem error_eq_none_iff (c : GoClient) : c.error = none ↔ c.h.hasError = false := by
  unfold error
  cases c.h.hasError <;> simp

theorem destroy_opened {c : GoClient} (h : c.h.Sound) : c.destroy.opened = [] := by
  unfold destroy
  split
  · exact Connection.disconnect_opened (Connection.disconnect_sound h)
  · exact Connection.disconnect_opened h

/-! ## Runs -/

section

variable {c d : GoClient} {r : MethodResult}

theorem inOrder_connect (h : c.h.Sound) {o : ConnectOutcome} (heq : c.connect o = (d, r)) :
    InOrder c (.connect o, r) d := by
  unfold connect at heq
  split at heq
  · rename_i hc
    obtain ⟨rfl, rfl⟩ := Prod.mk.inj heq
    exact ⟨h, fun _ _ => iff_of_true rfl hc, by simp, by simp, by simp, destroy_opened h⟩
  · rename_i hc
    obtain ⟨rfl, rfl⟩ := Prod.mk.inj heq
    obtain ⟨hsound, herror⟩ := c.h.connect_sound h (by simpa using hc) o
    refine ⟨hsound, fun _ _ => ?_, by simp, by simp, by simp, destroy_opened hsound⟩
    change error ⟨c.h.connect o⟩ = none ↔ (c.h.connect o).isConnected = true
    rw [error_eq_none_iff, ← Bool.not_eq_true, herror, Bool.not_eq_false]

theorem inOrder_disconnect (h : c.h.Sound) (heq : c.disconnect = (d, r)) :
    InOrder c (.disconnect, r) d := by
  unfold disconnect at heq
  split at heq
  · rename_i hc
    obtain ⟨rfl, rfl⟩ := Prod.mk.inj heq
    have hc : c.h.isConnected = false := by simpa using hc
    have hopened : c.h.opened = [] := by simpa [hc] using h.opened_eq
    exact ⟨h, by simp, fun _ => ⟨rfl, hc, hopened⟩, by simp, by simp, destroy_opened h⟩
  · obtain ⟨rfl, rfl⟩ := Prod.mk.inj heq
    have hsound := c.h.disconnect_sound h
    exact ⟨hsound, by simp, fun _ => ⟨(error_eq_none_iff _).mpr c.h.disconnect_hasError,
      c.h.disconnect_isConnected, Connection.disconnect_opened h⟩, by simp, by simp,
      destroy_opened hsound⟩

theorem inOrder_listen (h : c.h.Sound) {reads : List Chunk} (heq : c.listen reads = (d, r)) :
    InOrder c (.listen reads, r) d := by
  unfold listen at heq
  split at heq
  · obtain ⟨rfl, rfl⟩ := Prod.mk.inj heq
    exact ⟨h, by simp, by simp, fun _ => ⟨rfl, rfl, rfl⟩, fun _ _ => ⟨by simp, rfl, rfl⟩,
      destroy_opened h⟩
  · rename_i hc
    obtain ⟨rfl, rfl⟩ := Prod.mk.inj heq
    have hc : c.h.isConnected = true := by simpa using hc
    have hsound := Connection.listen_sound h reads
    have hkeep : (c.h.listen reads).1.isConnected = c.h.isConnected := by
      have hclient : c.h.client.connected = true := hc
      simp [Connection.listen, ClientState.listen, Connection.isConnected, hclient]
    exact ⟨hsound, by simp, by simp, fun _ => ⟨hkeep, rfl, rfl⟩, fun hnot _ => by simp [hc] at hnot,
      destroy_opened hsound⟩

theorem inOrder_send (h : c.h.Sound) {a : SendAttempt} (heq : c.send a = (d, r)) :
    InOrder c (.send a, r) d := by
  obtain ⟨rfl, rfl⟩ := Prod.mk.inj heq
  have hsound := c.h.send_sound h a
  have hkeep : (c.h.call (.send a)).isConnected = c.h.isConnected :=
    c.h.attempt_client_connected a
  refine ⟨hsound, by simp, by simp, fun _ => ⟨hkeep, rfl, rfl⟩, fun hnot _ => ?_,
    destroy_opened hsound⟩
  obtain ⟨herror, hstream⟩ := Sender.attempt_refused (s := c.h.toSender) hnot a
  refine ⟨fun hnone => ?_, rfl, hstream⟩
  have hfalse : (c.h.call (.send a)).hasError = false := (error_eq_none_iff _).mp hnone
  exact absurd (herror.symm.trans hfalse) (by simp)

/-- **One call** on a sound client. -/
theorem inOrder_of_step (h : c.h.Sound) {a : MethodCall × MethodResult} (hstep : Step c a d) :
    InOrder c a d := by
  obtain ⟨a, r⟩ := a
  obtain ⟨_, heq⟩ := hstep
  cases a with
  | connect o => exact inOrder_connect h heq
  | disconnect => exact inOrder_disconnect h heq
  | listen reads => exact inOrder_listen h heq
  | send a => exact inOrder_send h heq

end

theorem sound_of_run {platform : Platform} {nodeid : Bytes} {c : GoClient}
    {l : List (MethodCall × MethodResult)} (h : Run Step (new platform nodeid) l c) :
    c.h.Sound := by
  induction h with
  | start => exact Connection.new_sound platform nodeid
  | step _ hstep ih => exact (inOrder_of_step ih hstep).sound

/-- **The methods keep the connection in step.**  Whatever methods are called and whatever
the environment does, there is never more than the one socket of the connection, `Connect`
returns no error iff the client is connected after it, `Disconnect` always succeeds,
`Listen` and the sends leave the connection as it is and are refused without one, and no
socket outlives the client. -/
theorem eachStep_inOrder (platform : Platform) (nodeid : Bytes)
    (l : List (MethodCall × MethodResult)) :
    EachStep Step (new platform nodeid) l InOrder := by
  intro pre a c d _ hrun hstep
  exact inOrder_of_step (sound_of_run hrun) hstep

end GoClient

/-! ## Errors of earlier calls -/

namespace GoClient

/-- The results of calls, one after another. -/
def results (c : GoClient) : List MethodCall → List MethodResult
  | [] => []
  | a :: rest => (c.call a).2 :: (c.call a).1.results rest

/-- Two clients that differ at most in the error they have. -/
def Alike (c d : GoClient) : Prop := c.h.clearError = d.h.clearError

theorem attempt_clearError (s : Sender) (a : SendAttempt) :
    ({ s with client := s.client.error "" "" } : Sender).attempt a = s.attempt a := by
  obtain ⟨call, first, second⟩ := a
  cases call <;> rfl

/-- **One call** returns the same from both, and leaves them alike. -/
theorem Alike.call {c d : GoClient} (h : Alike c d) (a : MethodCall) :
    (c.call a).2 = (d.call a).2 ∧ Alike (c.call a).1 (d.call a).1 := by
  have hclear : c.h.clearError = d.h.clearError := h
  have hconnected : c.h.clearError.isConnected = d.h.clearError.isConnected := by rw [hclear]
  change c.h.isConnected = d.h.isConnected at hconnected
  -- a call that begins is the call on the client without its error
  have hbegins : ∀ f : Connection → Connection, (∀ x : Connection, f x.clearError = f x) →
      f c.h = f d.h := by
    intro f hf
    rw [← hf c.h, ← hf d.h, hclear]
  cases a with
  | connect o =>
      have hconnect := hbegins (fun x => x.connect o) fun _ => rfl
      simp only [GoClient.call, connect, hconnected, hconnect]
      split
      · exact ⟨rfl, h⟩
      · exact ⟨rfl, rfl⟩
  | disconnect =>
      have hdisconnect := hbegins Connection.disconnect fun _ => rfl
      simp only [GoClient.call, disconnect, hconnected, hdisconnect]
      split
      · exact ⟨rfl, h⟩
      · exact ⟨rfl, rfl⟩
  | listen reads =>
      have hlisten := hbegins (fun x => (x.listen reads).1) fun _ => rfl
      have hcalls : (c.h.clearError.listen reads).2 = (d.h.clearError.listen reads).2 := by
        rw [hclear]
      change (c.h.listen reads).2 = (d.h.listen reads).2 at hcalls
      simp only [GoClient.call, listen, hconnected, hlisten, hcalls]
      split
      · exact ⟨rfl, h⟩
      · exact ⟨rfl, rfl⟩
  | send a =>
      have hsend := hbegins (fun x => x.call (.send a)) fun x => by
        exact congrArg (fun s => { x with toSender := s }) (attempt_clearError x.toSender a)
      simp only [GoClient.call, send, hsend]
      exact ⟨trivial, rfl⟩

/-- **No error outlives its call.**  What the methods return in any run does not depend on
the error the client had before it. -/
theorem results_alike {c d : GoClient} (h : Alike c d) (l : List MethodCall) :
    c.results l = d.results l := by
  induction l generalizing c d with
  | nil => rfl
  | cons a rest ih =>
      obtain ⟨hresult, halike⟩ := h.call a
      rw [results, results, hresult, ih halike]

/-- A send that fails leaves an error; the next one succeeds as if there were none. -/
theorem results_alike_send :
    let a : SendAttempt := ⟨.send (some pingRequest), some 5, some 1⟩
    let c : GoClient := ⟨{ Connection.new .linux ['n'] with client := { connected := true } }⟩
    let d : GoClient := ⟨c.h.error "SendFailed" "failed to write to socket"⟩
    d.results [.send a, .disconnect] = c.results [.send a, .disconnect] :=
  results_alike rfl _

end GoClient

/-! ## What a session writes -/

namespace GoClient

/-- What a call makes of the session: whether the client is connected, and what has been
sent since it was. -/
def sessionStep (s : Bool × List Bytes) (a : MethodCall × MethodResult) : Bool × List Bytes :=
  match a.1 with
  | .connect _ => if s.1 then s else (a.2.err.isNone, [])
  | .disconnect => (false, s.2)
  | .listen _ => s
  | .send x => if a.2.err.isNone then (s.1, s.2 ++ x.call.payload.toList) else s

/-- The session after calls with these results. -/
def session (l : List (MethodCall × MethodResult)) : Bool × List Bytes :=
  l.foldl sessionStep (false, [])

/-- The writes of the call are not cut: the node id is written as a whole or not at all, and
so are a text and its newline. -/
def Uncut (nodeid : Bytes) : MethodCall → Prop
  | .connect (.accepted _ (some k) _) => nodeid.length < k
  | .send x => ∀ payload, x.call.payload = some payload →
      x.first = none ∨ ∃ k j, x.first = some k ∧ x.second = some j ∧ payload.length ≤ k ∧ 1 ≤ j
  | _ => True

/-- The connection after these calls. -/
structure InSession (nodeid : Bytes) (l : List (MethodCall × MethodResult)) (c : GoClient) :
    Prop where
  nodeId : c.h.nodeId = nodeid
  connected : c.h.isConnected = (session l).1
  stream : c.h.isConnected = true →
    c.h.stream = nodeid ++ ['\n'] ++ (session l).2.flatMap (· ++ ['\n'])

theorem session_concat (l : List (MethodCall × MethodResult)) (a : MethodCall × MethodResult) :
    session (l ++ [a]) = sessionStep (session l) a := by simp [session]

section

variable {nodeid : Bytes} {l : List (MethodCall × MethodResult)} {c d : GoClient}
  {r : MethodResult}

theorem InSession.connect (h : InSession nodeid l c) (hsound : c.h.Sound) {o : ConnectOutcome}
    (hwhole : Uncut nodeid (.connect o)) (heq : c.connect o = (d, r)) :
    InSession nodeid (l ++ [(.connect o, r)]) d := by
  have hstep : session (l ++ [(.connect o, r)]) =
      if (session l).1 then session l else (r.err.isNone, []) := by
    rw [session_concat, sessionStep]
  rw [← h.connected] at hstep
  unfold GoClient.connect at heq
  split at heq
  · rename_i hc
    obtain ⟨rfl, rfl⟩ := Prod.mk.inj heq
    rw [if_pos hc] at hstep
    exact ⟨h.nodeId, by rw [hstep, h.connected], by rw [hstep]; exact h.stream⟩
  · rename_i hc
    rw [if_neg hc] at hstep
    have hc : c.h.isConnected = false := by simpa using hc
    have horder := inOrder_connect hsound (o := o) (d := d) (r := r)
      (by rw [GoClient.connect, if_neg (by simp [hc])]; exact heq)
    obtain ⟨rfl, rfl⟩ := Prod.mk.inj heq
    refine ⟨(c.h.connect_nodeId o).trans h.nodeId, ?_, fun hd => ?_⟩
    · rw [hstep, Bool.eq_iff_iff, Option.isNone_iff_eq_none]
      exact (horder.connect o rfl).symm
    · obtain ⟨fd, k, answer, rfl, hstream⟩ := Connection.connect_stream hc hd
      have hk : nodeid.length < k := hwhole
      have hlength : (nodeid ++ ['\n']).length ≤ k := by
        rw [List.length_append, List.length_singleton]
        exact hk
      rw [hstep, hstream, h.nodeId, List.take_of_length_le hlength]
      simp

theorem InSession.disconnect (h : InSession nodeid l c) (heq : c.disconnect = (d, r)) :
    InSession nodeid (l ++ [(.disconnect, r)]) d := by
  have hstep : session (l ++ [(.disconnect, r)]) = (false, (session l).2) := by
    rw [session_concat, sessionStep]
  unfold GoClient.disconnect at heq
  split at heq
  · rename_i hc
    obtain ⟨rfl, rfl⟩ := Prod.mk.inj heq
    have hc : c.h.isConnected = false := by simpa using hc
    exact ⟨h.nodeId, by rw [hstep, hc], fun hd => by simp [hc] at hd⟩
  · obtain ⟨rfl, rfl⟩ := Prod.mk.inj heq
    have hnot := c.h.disconnect_isConnected
    exact ⟨c.h.disconnect_nodeId.trans h.nodeId, by rw [hstep]; exact hnot,
      fun hd => absurd (hnot.symm.trans hd) (by simp)⟩

theorem InSession.listen (h : InSession nodeid l c) (hsound : c.h.Sound) {reads : List Chunk}
    (heq : c.listen reads = (d, r)) : InSession nodeid (l ++ [(.listen reads, r)]) d := by
  have hstep : session (l ++ [(.listen reads, r)]) = session l := by
    rw [session_concat, sessionStep]
  obtain ⟨hkeep, _, _⟩ := (inOrder_listen hsound heq).keeps (Or.inl ⟨reads, rfl⟩)
  have hfields : d.h.nodeId = c.h.nodeId ∧ d.h.stream = c.h.stream := by
    unfold GoClient.listen at heq
    split at heq <;>
      (obtain ⟨rfl, _⟩ := Prod.mk.inj heq; exact ⟨rfl, rfl⟩)
  refine ⟨hfields.1.trans h.nodeId, by rw [hkeep, hstep]; exact h.connected, fun hd => ?_⟩
  rw [hfields.2, hstep]
  exact h.stream (hkeep ▸ hd)

/-- A send that is not cut appends its text and a newline when it returns no error, and
nothing when it returns one. -/
theorem send_stream (hc : c.h.isConnected = true) {x : SendAttempt}
    (hwhole : Uncut nodeid (.send x)) (heq : c.send x = (d, r)) :
    d.h.stream = c.h.stream ++
      if r.err.isNone then x.call.payload.toList.flatMap (· ++ ['\n']) else [] := by
  obtain ⟨rfl, rfl⟩ := Prod.mk.inj heq
  have herr : ∀ {b : Bool}, (c.h.toSender.attempt x).client.hasError = b →
      (error ⟨c.h.call (.send x)⟩).isNone = !b := by
    intro b hb
    have hb : (c.h.call (.send x)).hasError = b := hb
    cases b <;> simp [error, hb]
  change (c.h.toSender.attempt x).stream = c.h.stream ++
    if (error ⟨c.h.call (.send x)⟩).isNone then x.call.payload.toList.flatMap (· ++ ['\n']) else []
  rcases c.h.toSender.attempt_eq hc x with ⟨hnone, herror, hstream, _⟩ | ⟨payload, hpayload, hx⟩
  · rw [herr herror, hstream]
    simp
  · rw [hpayload]
    rcases hwhole payload hpayload with hfirst | ⟨k, j, hfirst, hsecond, hk, hj⟩
    · -- the first write fails
      rw [hx, hfirst] at herr ⊢
      rw [herr (b := true) rfl]
      simp [Sender.writeRaw]
    · rw [hx, hfirst, hsecond] at herr ⊢
      rw [herr (b := false) rfl]
      simp [Sender.writeRaw, List.take_of_length_le hk, List.take_of_length_le (l := ['\n']) hj]

theorem InSession.send (h : InSession nodeid l c) (hsound : c.h.Sound) {x : SendAttempt}
    (hwhole : Uncut nodeid (.send x)) (heq : c.send x = (d, r)) :
    InSession nodeid (l ++ [(.send x, r)]) d := by
  have hstep : session (l ++ [(.send x, r)]) =
      if r.err.isNone then ((session l).1, (session l).2 ++ x.call.payload.toList)
      else session l := by
    rw [session_concat, sessionStep]
  obtain ⟨hkeep, _, _⟩ := (inOrder_send hsound heq).keeps (Or.inr ⟨x, rfl⟩)
  have hnode : d.h.nodeId = c.h.nodeId := by
    obtain ⟨rfl, _⟩ := Prod.mk.inj heq
    rfl
  refine ⟨hnode.trans h.nodeId, ?_, fun hd => ?_⟩
  · rw [hkeep, h.connected, hstep]
    split <;> rfl
  · have hc : c.h.isConnected = true := hkeep ▸ hd
    rw [send_stream hc hwhole heq, h.stream hc, hstep]
    cases r.err <;> simp

end

end GoClient

end SporeClient.Go
