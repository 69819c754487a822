/-
  Client/Reentry.lean --- handlers that call the client they are called for.

  WHAT THIS FILE IS FOR.  A handler gets the client that listens, and may send on it, or
  disconnect it, while `listen` is in the middle of its buffer.  `listen` reads `socketFd`
  before each read and nothing else of what a handler can change, so the handlers are called
  as by a loop that nobody disturbs, up to the end of one of the reads
  (`Listener.listen_called`).  A handler that disconnects ends the loop there: the messages
  behind its own in the same read are delivered, no other ones are, and nothing that is sent
  behind the disconnect leaves the client (`Listener.listen_stops`).
-/
import SporeClient.Client.Connection
import SporeClient.Client.OneShot
import SporeClient.Foundation.Reactor

set_option autoImplicit false

namespace SporeClient.Client

open SporeClient.Foundation
open SporeClient.Parser

/-! ## The handlers stay -/

theorem Sender.writeRaw_handlers (s : Sender) (data : Bytes) (o₁ o₂ : WriteOutcome) :
    (s.writeRaw data o₁ o₂).client.handlers = s.client.handlers := by
  unfold writeRaw
  split
  · rfl
  · split <;> rfl

/-- No send changes the handlers. -/
theorem Sender.attempt_handlers (s : Sender) (a : SendAttempt) :
    (s.attempt a).client.handlers = s.client.handlers := by
  have htext : ∀ arg text,
      (s.sendText arg text a.first a.second).client.handlers = s.client.handlers := by
    intro arg text
    unfold sendText
    dsimp only
    split
    · rfl
    · split
      · rfl
      · split
        · rfl
        · exact writeRaw_handlers _ _ _ _
  unfold attempt
  split
  case h_6 data _ =>
    unfold sendRaw
    dsimp only
    split
    · rfl
    · exact writeRaw_handlers _ _ _ _
  all_goals exact htext _ _

namespace Connection

theorem handshake_handlers (c : Connection) (write : WriteOutcome) (answer : Bytes) :
    (c.handshake write answer).client.handlers = c.client.handlers := by
  unfold handshake
  split
  · rfl
  · dsimp only
    split
    · rfl
    · split <;> rfl

theorem connect_handlers (c : Connection) (o : ConnectOutcome) :
    (c.connect o).client.handlers = c.client.handlers := by
  cases o with
  | noSocket => rfl
  | refused fd => rfl
  | accepted fd write answer =>
      rw [c.connect_accepted fd write answer]
      split <;> exact handshake_handlers _ write answer

theorem disconnect_handlers (c : Connection) :
    c.disconnect.client.handlers = c.client.handlers := by
  unfold disconnect
  dsimp only
  split
  · rfl
  · split <;> rfl

/-- No call changes the handlers. -/
theorem call_handlers (c : Connection) (a : ConnectionCall) :
    (c.call a).client.handlers = c.client.handlers := by
  cases a with
  | connect o => exact c.connect_handlers o
  | disconnect => exact c.disconnect_handlers
  | send a => exact c.attempt_handlers a

theorem foldl_call_handlers (c : Connection) (l : List ConnectionCall) :
    (l.foldl call c).client.handlers = c.client.handlers := by
  induction l generalizing c with
  | nil => rfl
  | cons a l ih => exact (ih (c.call a)).trans (c.call_handlers a)

end Connection

/-! ## Calls without a connection -/

/-- An attempt without connection is refused. -/
theorem Sender.attempt_refused {s : Sender} (hc : s.client.connected = false) (a : SendAttempt) :
    (s.attempt a).client.hasError = true ∧ (s.attempt a).stream = s.stream := by
  obtain ⟨call, first, second⟩ := a
  cases call <;>
    simp [attempt, send, sendResponse, sendResponseError, sendWitness, sendPublish, sendRaw,
      sendText, hc, ClientState.error, ClientState.hasError]

namespace Connection

theorem disconnect_isConnected (c : Connection) : c.disconnect.isConnected = false := by
  unfold disconnect
  dsimp only
  split
  · rename_i h
    exact h.1
  · rfl

theorem disconnect_stream (c : Connection) : c.disconnect.stream = c.stream := by
  unfold disconnect
  dsimp only
  split
  · rfl
  · split <;> rfl

variable {c : Connection} {l : List ConnectionCall}

/-- Without a connection, calls that do not connect leave it so, and write nothing. -/
theorem foldl_call_refused (hc : c.isConnected = false) (hl : ∀ a ∈ l, ∀ o, a ≠ .connect o) :
    (l.foldl call c).isConnected = false ∧ (l.foldl call c).stream = c.stream := by
  induction l generalizing c with
  | nil => exact ⟨hc, rfl⟩
  | cons a l ih =>
      obtain ⟨ha, hl⟩ := List.forall_mem_cons.mp hl
      obtain ⟨hcall, hstream⟩ : (c.call a).isConnected = false ∧ (c.call a).stream = c.stream := by
        cases a with
        | connect o => exact absurd rfl (ha o)
        | disconnect => exact ⟨c.disconnect_isConnected, c.disconnect_stream⟩
        | send a =>
            exact ⟨(c.attempt_client_connected a).trans hc, (Sender.attempt_refused hc a).2⟩
      obtain ⟨hlast, hsame⟩ := ih hcall hl
      exact ⟨hlast, hsame.trans hstream⟩

theorem foldl_call_sound (hc : c.Sound) (hl : ∀ a ∈ l, ∀ o, a ≠ .connect o) :
    (l.foldl call c).Sound := by
  induction l generalizing c with
  | nil => exact hc
  | cons a l ih =>
      obtain ⟨ha, hrest⟩ := List.forall_mem_cons.mp hl
      refine ih ?_ hrest
      cases a with
      | connect o => exact absurd rfl (ha o)
      | disconnect => exact disconnect_sound hc
      | send a => exact send_sound hc a

/-- **A disconnect among calls**: the client is not connected behind it, and only the calls
before it write. -/
theorem foldl_call_disconnect (hc : c.isConnected = true) (hl : ∀ a ∈ l, ∀ o, a ≠ .connect o) :
    ((l.foldl call c).isConnected = false ↔ .disconnect ∈ l) ∧
      (l.foldl call c).stream = ((l.takeWhile (· ≠ .disconnect)).foldl call c).stream := by
  induction l generalizing c with
  | nil => simp [hc]
  | cons a l ih =>
      obtain ⟨ha, hrest⟩ := List.forall_mem_cons.mp hl
      cases a with
      | connect o => exact absurd rfl (ha o)
      | disconnect =>
          obtain ⟨hlast, hsame⟩ := foldl_call_refused c.disconnect_isConnected hrest
          exact ⟨iff_of_true hlast List.mem_cons_self, hsame.trans c.disconnect_stream⟩
      | send a =>
          have hc' : (c.call (.send a)).isConnected = true :=
            (c.attempt_client_connected a).trans hc
          simpa using ih hc' hrest

end Connection

/-! ## Programs that listen -/

/-- What the handlers of a program do when they are called: from the state of the program and
the client, the next state of the program and the calls on the client. -/
abbrev Behaviour (σ : Type) : Type := σ → Connection → Callback → σ × List ConnectionCall

/-- A program that listens: its state and its client, the calls of handlers, and the calls that
handlers have made on the client. -/
structure Listener (σ : Type) where
  state : σ
  client : Connection
  called : List Callback := []
  made : List ConnectionCall := []

namespace Listener

variable {σ : Type} (act : Behaviour σ)

/-- A handler is called. -/
def handle (x : Listener σ) (call : Callback) : Listener σ :=
  let answer := act x.state x.client call
  { state := answer.1
    client := answer.2.foldl Connection.call x.client
    called := x.called ++ [call]
    made := x.made ++ answer.2 }

/-- What the inner loop does with a frame: the handlers of its event are called. -/
def onReleased (x : Listener σ) (r : Released) : Listener σ :=
  (r.event.toList.flatMap x.client.client.handlers.invoke).foldl (handle act) x

/-- A read of `kInvalidSocket` fails. -/
def hasSocket (x : Listener σ) : Bool := x.client.socketFd.isSome

/-- `Client::listen` with these handlers; the reads of a socket return these pieces.  (What
the daemon has sent and is not read, `unread`, is not followed here.) -/
def listen (x : Listener σ) (reads : List Chunk) : Listener σ :=
  let x : Listener σ := { x with client := x.client.clearError }
  if x.client.isConnected then
    listenReader.feedWhile (onReleased act) hasSocket ⟨[], {}⟩ x (reads.map Chunk.bytes)
  else { x with client := x.client.error "NotConnected" "client is not connected" }

/-- The handlers are called for all messages of the reads. -/
def readAll (x : Listener σ) (reads : List Chunk) : Listener σ :=
  (x.client.client.listen reads).2.foldl (handle act) { x with client := x.client.clearError }

variable {act} {x : Listener σ}

/-! ## Calls of handlers -/

theorem handle_handlers (x : Listener σ) (call : Callback) :
    (x.handle act call).client.client.handlers = x.client.client.handlers :=
  x.client.foldl_call_handlers _

theorem foldl_handle_handlers (x : Listener σ) (calls : List Callback) :
    (calls.foldl (handle act) x).client.client.handlers = x.client.client.handlers := by
  induction calls generalizing x with
  | nil => rfl
  | cons call calls ih => exact (ih (x.handle act call)).trans (x.handle_handlers call)

/-- What calls of handlers come to. -/
theorem foldl_handle (act : Behaviour σ) (x : Listener σ) (calls : List Callback) :
    (calls.foldl (handle act) x).called = x.called ++ calls ∧
      ∃ l, (calls.foldl (handle act) x).made = x.made ++ l ∧
        (calls.foldl (handle act) x).client = l.foldl Connection.call x.client := by
  induction calls generalizing x with
  | nil => exact ⟨(List.append_nil _).symm, [], (List.append_nil _).symm, rfl⟩
  | cons call calls ih =>
      obtain ⟨hcalled, l, hmade, hclient⟩ := ih (x.handle act call)
      refine ⟨?_, (act x.state x.client call).2 ++ l, ?_, ?_⟩
      · rw [List.foldl_cons, hcalled]
        simp [handle]
      · rw [List.foldl_cons, hmade]
        simp [handle]
      · rw [List.foldl_cons, hclient, List.foldl_append]
        rfl

/-- The calls of handlers, and what theirs make of the client. -/
theorem readAll_calls (act : Behaviour σ) (hcalled : x.called = []) (hmade : x.made = [])
    (reads : List Chunk) :
    (x.readAll act reads).called = (x.client.client.listen reads).2 ∧
      (x.readAll act reads).client =
        (x.readAll act reads).made.foldl Connection.call x.client.clearError := by
  obtain ⟨hcalled', l, hl, hclient⟩ := foldl_handle act
    { x with client := x.client.clearError } (x.client.client.listen reads).2
  rw [readAll, hl, hclient, hcalled', hcalled, hmade]
  exact ⟨rfl, rfl⟩

/-- Frames that are acted on one by one are the events in a row. -/
theorem foldl_onReleased (x : Listener σ) (rs : List Released) :
    rs.foldl (onReleased act) x =
      ((rs.filterMap Released.event).flatMap x.client.client.handlers.invoke).foldl
        (handle act) x := by
  induction rs generalizing x with
  | nil => rfl
  | cons r rs ih =>
      have hhandlers : (x.onReleased act r).client.client.handlers = x.client.client.handlers :=
        x.foldl_handle_handlers _
      rw [List.foldl_cons, ih, hhandlers, List.filterMap_cons]
      cases hevent : r.event with
      | none => simp [onReleased, hevent]
      | some e => simp [onReleased, hevent, List.foldl_append]

/-- The loop acts on all messages of the first reads.  The client has a socket before each of
them, and when there are more, it has none in the end. -/
theorem listen_eq_readAll (act : Behaviour σ) (hc : x.client.isConnected = true)
    (reads : List Chunk) :
    ∃ n ≤ reads.length, x.listen act reads = x.readAll act (reads.take n) ∧
      (n < reads.length → (x.listen act reads).client.socketFd = none) ∧
      ∀ k < n, (x.readAll act (reads.take k)).client.socketFd ≠ none := by
  let y : Listener σ := { x with client := x.client.clearError }
  have hcalls : ∀ k, (listenReader.feedAll ⟨[], {}⟩ ((reads.map Chunk.bytes).take k)).2.foldl
      (onReleased act) y = x.readAll act (reads.take k) := by
    intro k
    have hc' : x.client.client.connected = true := hc
    rw [foldl_onReleased, ← List.map_take]
    simp only [readAll, ClientState.listen, hc', if_true]
    rfl
  have hlisten : x.listen act reads =
      listenReader.feedWhile (onReleased act) hasSocket ⟨[], {}⟩ y (reads.map Chunk.bytes) :=
    if_pos hc
  obtain ⟨n, hn, heq, hlast, hbefore⟩ :=
    listenReader.feedWhile_eq (onReleased act) hasSocket ⟨[], {}⟩ y (reads.map Chunk.bytes)
  rw [List.length_map] at hn hlast
  refine ⟨n, hn, ?_, fun hmore => ?_, fun k hk => ?_⟩
  · rw [hlisten, heq, hcalls]
  · rw [hlisten]
    exact Option.not_isSome_iff_eq_none.mp (Bool.eq_false_iff.mp (hlast hmore))
  · rw [← hcalls]
    exact Option.isSome_iff_ne_none.mp (hbefore k hk)

/-- While the client has a socket before each read, no read is left out. -/
theorem listen_take (hc : x.client.isConnected = true) {reads : List Chunk} {n : Nat}
    (hbefore : ∀ k < n, (x.readAll act (reads.take k)).client.socketFd ≠ none) {k : Nat}
    (hk : k ≤ n) : x.listen act (reads.take k) = x.readAll act (reads.take k) := by
  obtain ⟨m, hm, heq, hlast, _⟩ := listen_eq_readAll act hc (reads.take k)
  have hmk : m ≤ k := hm.trans (List.length_take_le k reads)
  rw [List.take_take, Nat.min_eq_left hmk] at heq
  rcases Nat.eq_or_lt_of_le hm with hall | hmore
  · rw [heq]
    rcases Nat.eq_or_lt_of_le hmk with rfl | hlt
    · rfl
    · -- all reads that there are
      have hlen : reads.length ≤ m := by
        rw [List.length_take] at hall
        omega
      rw [List.take_of_length_le hlen, List.take_of_length_le (hlen.trans hmk)]
  · have hnone := hlast hmore
    rw [heq] at hnone
    have hlt : m < k := hmore.trans_le (List.length_take_le k reads)
    exact absurd hnone (hbefore m (hlt.trans_le hk))

/-- **Handlers are called as by a loop that nobody disturbs**, up to the end of one of the
reads, whatever they send, disconnect and connect; the client is what their calls make of it.
It has a socket before each of these reads, and when there are more reads, it has none in the
end. -/
theorem listen_called (act : Behaviour σ) (hc : x.client.isConnected = true)
    (hcalled : x.called = []) (hmade : x.made = []) (reads : List Chunk) :
    ∃ n ≤ reads.length,
      (x.listen act reads).called = (x.client.client.listen (reads.take n)).2 ∧
      (x.listen act reads).client =
        (x.listen act reads).made.foldl Connection.call x.client.clearError ∧
      (n < reads.length → (x.listen act reads).client.socketFd = none) ∧
      ∀ k < n, (x.listen act (reads.take k)).client.socketFd ≠ none := by
  obtain ⟨n, hn, heq, hlast, hbefore⟩ := listen_eq_readAll act hc reads
  obtain ⟨hcalled', hclient⟩ := readAll_calls act hcalled hmade (reads.take n)
  refine ⟨n, hn, by rw [heq, hcalled'], by rw [heq, hclient], hlast, fun k hk => ?_⟩
  rw [listen_take hc hbefore hk.le]
  exact hbefore k hk

/-- A program whose client is connected, with one handler of each kind. -/
def connected : Listener Unit where
  state := ()
  client :=
    { Connection.new .linux ['n'] with client := oneOfEach, socketFd := some 3, opened := [3] }

/-- The handlers disconnect the client and connect it again. -/
theorem listen_called_again :
    let act : Behaviour Unit := fun _ _ _ =>
      ((), [.disconnect, .connect (.accepted 4 (some 2) ['O', 'K', '\n'])])
    let reads : List Chunk :=
      [⟨['c', ' ', '~', 'h', '\n'], by decide, by decide⟩, ⟨['c'], by decide, by decide⟩]
    ∃ n ≤ 2, (connected.listen act reads).called = (oneOfEach.listen (reads.take n)).2 ∧
      (n < 2 → (connected.listen act reads).client.socketFd = none) := by
  intro act reads
  obtain ⟨n, hn, hcalled, _, hlast, _⟩ :=
    listen_called act (x := connected) rfl rfl rfl reads
  exact ⟨n, hn, hcalled, hlast⟩

/-! ## Handlers that disconnect -/

/-- No handler connects the client. -/
def NeverConnects (act : Behaviour σ) : Prop :=
  ∀ s c call, ∀ a ∈ (act s c call).2, ∀ o, a ≠ ConnectionCall.connect o

theorem foldl_handle_made (hact : NeverConnects act) (hmade : ∀ a ∈ x.made, ∀ o, a ≠ .connect o)
    (calls : List Callback) :
    ∀ a ∈ (calls.foldl (handle act) x).made, ∀ o, a ≠ .connect o := by
  induction calls generalizing x with
  | nil => exact hmade
  | cons call calls ih =>
      refine ih fun a ha => ?_
      rcases List.mem_append.mp ha with ha | ha
      · exact hmade a ha
      · exact hact _ _ _ a ha

/-- What handlers that never connect come to. -/
theorem readAll_spec (hact : NeverConnects act) (hx : x.client.Sound)
    (hc : x.client.isConnected = true) (hcalled : x.called = []) (hmade : x.made = [])
    (reads : List Chunk) :
    (x.readAll act reads).client.Sound ∧
      ((x.readAll act reads).client.isConnected = false ↔
        .disconnect ∈ (x.readAll act reads).made) ∧
      (x.readAll act reads).client.stream =
        (((x.readAll act reads).made.takeWhile (· ≠ .disconnect)).foldl Connection.call
          x.client.clearError).stream := by
  have hnever : ∀ a ∈ (x.readAll act reads).made, ∀ o, a ≠ .connect o :=
    foldl_handle_made hact (by simp [hmade]) _
  have hsound : x.client.clearError.Sound := ⟨hx.connected_iff, hx.opened_eq⟩
  have hc' : x.client.clearError.isConnected = true := hc
  rw [(readAll_calls act hcalled hmade reads).2]
  exact ⟨Connection.foldl_call_sound hsound hnever, Connection.foldl_call_disconnect hc' hnever⟩

/-- **A handler that disconnects ends the loop behind its read.**  The handlers, which may send
and disconnect but do not connect, are called for the messages of the first reads, up to the
first one with a handler that disconnects, and for all messages of this one.  The client is
sound in the end; it is connected iff no handler has disconnected it, and only what was sent
before the first disconnect has been written. -/
theorem listen_stops (hact : NeverConnects act) (hx : x.client.Sound)
    (hc : x.client.isConnected = true) (hcalled : x.called = []) (hmade : x.made = [])
    (reads : List Chunk) :
    ∃ n ≤ reads.length,
      (x.listen act reads).called = (x.client.client.listen (reads.take n)).2 ∧
      (n < reads.length → .disconnect ∈ (x.listen act reads).made) ∧
      (∀ k < n, .disconnect ∉ (x.listen act (reads.take k)).made) ∧
      (x.listen act reads).client.Sound ∧
      ((x.listen act reads).client.isConnected = false ↔
        .disconnect ∈ (x.listen act reads).made) ∧
      (x.listen act reads).client.stream =
        (((x.listen act reads).made.takeWhile (· ≠ .disconnect)).foldl Connection.call
          x.client.clearError).stream := by
  obtain ⟨n, hn, heq, hlast, hbefore⟩ := listen_eq_readAll act hc reads
  obtain ⟨hsound, hdisconnect, hstream⟩ := readAll_spec hact hx hc hcalled hmade (reads.take n)
  refine ⟨n, hn, ?_, fun hmore => ?_, fun k hk => ?_, ?_⟩
  · rw [heq, (readAll_calls act hcalled hmade _).1]
  · rw [heq, ← hdisconnect, ← Bool.not_eq_true, hsound.connected_iff, not_not, ← heq]
    exact hlast hmore
  · obtain ⟨hsound', hdisconnect', _⟩ := readAll_spec hact hx hc hcalled hmade (reads.take k)
    rw [listen_take hc hbefore hk.le, ← hdisconnect', Bool.not_eq_false, hsound'.connected_iff]
    exact hbefore k hk
  · rw [heq]
    exact ⟨hsound, hdisconnect, hstream⟩

/-- A handler answers and disconnects, twice in the first of two reads. -/
theorem listen_stops_first :
    let act : Behaviour Unit := fun _ _ _ =>
      ((), [.send ⟨.sendRaw ['y'], some 1, some 1⟩, .disconnect])
    let reads : List Chunk :=
      [⟨['c', '\n', 'd', '\n'], by decide, by decide⟩, ⟨['e', '\n'], by decide, by decide⟩]
    ∃ n ≤ 2, (connected.listen act reads).called = (oneOfEach.listen (reads.take n)).2 ∧
      (n < 2 → .disconnect ∈ (connected.listen act reads).made) ∧
      ∀ k < n, .disconnect ∉ (connected.listen act (reads.take k)).made := by
  intro act reads
  have hact : NeverConnects act := by
    intro _ _ _ a ha o
    rcases List.mem_pair.mp ha with rfl | rfl <;> simp
  obtain ⟨n, hn, hcalled, hlast, hbefore, _⟩ :=
    listen_stops hact (x := connected) (.of_connected rfl rfl rfl) rfl rfl rfl reads
  exact ⟨n, hn, hcalled, hlast, hbefore⟩

end Listener

end SporeClient.Client
