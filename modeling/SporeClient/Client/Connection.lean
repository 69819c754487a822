/-
  Client/Connection.lean --- `Client::connect`, `Client::handshake` and
  `Client::disconnect` of `spore_c/source/client.cpp`.

  WHAT THIS FILE IS FOR.  `connected`, `socketFd` and the error are three fields that
  every exit of `connect` must keep in step, and the sockets the client has opened must be
  closed again.  `Connection.Sound` says what keeping in step means.  None of the exits
  looks at the connection a client already has (`not_all_sound`); when `connect` is called
  only on clients that are not connected, `Sound` holds after every call.
-/
import SporeClient.Client.Writes
import Mathlib.Data.List.DropRight

set_option autoImplicit false

namespace SporeClient.Client

open SporeClient.Foundation
open SporeClient.Parser

/-! ## Connecting -/

/-- The platform the library is built for, on Windows with the variable `ProgramData`. -/
inductive Platform where
  | apple
  | linux
  | windows (programData : Option String)
  | other
  deriving DecidableEq

/-- `Client::defaultSocketPath`. -/
def defaultSocketPath : Platform → String
  | .apple => "/Library/Application Support/spore-os/spore.sock"
  | .linux => "/var/lib/spore-os/spore.sock"
  | .windows programData =>
      match programData with
      | some base =>
          if base ≠ "" then base ++ "\\spore-os\\spore.sock"
          else "C:\\ProgramData\\spore-os\\spore.sock"
      | none => "C:\\ProgramData\\spore-os\\spore.sock"
  | .other => "/tmp/spore.sock"

/-- A client with its socket.  `socketFd` is `none` for `kInvalidSocket`; `opened` are the
sockets the client has opened and not closed; `unread` is what the daemon has sent and the
handshake has not read. -/
structure Connection extends Sender where
  platform : Platform
  nodeId : Bytes
  socketFd : Option Nat
  opened : List Nat
  unread : Bytes
  deriving DecidableEq

/-- `Client::Client`. -/
def Connection.new (platform : Platform) (nodeId : Bytes) : Connection :=
  { client := {}, stream := [], platform, nodeId, socketFd := none, opened := [], unread := [] }

def Connection.isConnected (c : Connection) : Bool := c.client.connected

def Connection.hasError (c : Connection) : Bool := c.client.hasError

def Connection.error (c : Connection) (code what : String) : Connection :=
  { c with client := c.client.error code what }

/-- `errorCode.clear()` and `errorWhat.clear()`. -/
def Connection.clearError (c : Connection) : Connection := c.error "" ""

/-- The loop that reads the answer byte by byte until a newline, at most `room` bytes: what
it has put into the buffer and what it has left unread, `none` when a read returns nothing. -/
def readAnswer : Nat → Bytes → Option (Bytes × Bytes)
  | 0, rest => some ([], rest)
  | _ + 1, [] => none
  | room + 1, c :: rest =>
      if c = '\n' then some ([c], rest)
      else (readAnswer room rest).map fun p => (c :: p.1, p.2)

/-- The loop that pops newlines and carriage returns. -/
def popLineEnd (response : Bytes) : Bytes := response.rdropWhile fun c => c = '\n' ∨ c = '\r'

/-- `Client::handshake`, with the outcome of its write and the bytes the daemon sends until
it sends no more or the timeout is over. -/
def Connection.handshake (c : Connection) (write : WriteOutcome) (answer : Bytes) : Connection :=
  match write with
  | none => c.error "HandshakeFailed" "failed to send node id"
  | some k =>
      let c : Connection := { c with stream := c.stream ++ (c.nodeId ++ ['\n']).take k }
      match readAnswer 63 answer with
      | none =>
          let c : Connection := { c with unread := [] }
          c.error "HandshakeFailed" "no response from daemon"
      | some (buf, rest) =>
          let c : Connection := { c with unread := rest }
          let response := popLineEnd (cstr buf)
          if response ≠ ['O', 'K'] then c.error "HandshakeFailed" (String.ofList response) else c

/-- What the environment does with a call of `connect`: there is no socket, the connection
is refused, or it is accepted and the handshake begins. -/
inductive ConnectOutcome where
  | noSocket
  | refused (fd : Nat)
  | accepted (fd : Nat) (write : WriteOutcome) (answer : Bytes)
  deriving DecidableEq

/-- `::socket` returns a descriptor that is not in use. -/
def ConnectOutcome.Possible (o : ConnectOutcome) (c : Connection) : Prop :=
  match o with
  | .noSocket => True
  | .refused fd => fd ∉ c.opened
  | .accepted fd _ _ => fd ∉ c.opened

/-- `SPORE_CLOSE`. -/
def Connection.close (c : Connection) (fd : Nat) : Connection :=
  { c with opened := c.opened.erase fd }

/-- `Client::connect`. -/
def Connection.connect (c : Connection) (o : ConnectOutcome) : Connection :=
  let c := c.clearError
  match o with
  | .noSocket => c.error "ConnectFailed" "failed to create socket"
  | .refused fd =>
      let c : Connection := { c with opened := fd :: c.opened }
      (c.close fd).error "ConnectFailed"
        ("failed to connect to daemon at " ++ defaultSocketPath c.platform)
  | .accepted fd write answer =>
      let c : Connection :=
        { c with opened := fd :: c.opened, socketFd := some fd, stream := [] }
      let c := c.handshake write answer
      if c.hasError then { c.close fd with socketFd := none }
      else { c with client := { c.client with connected := true } }

/-- `Client::disconnect`. -/
def Connection.disconnect (c : Connection) : Connection :=
  let c := c.clearError
  if c.isConnected = false ∧ c.socketFd = none then c
  else
    let c : Connection :=
      match c.socketFd with
      | some fd => { c.close fd with socketFd := none }
      | none => c
    { c with client := { c.client with connected := false } }

/-! ## Calls -/

/-- A call on a client and what the environment does with it. -/
inductive ConnectionCall where
  | connect (o : ConnectOutcome)
  | disconnect
  | send (a : SendAttempt)
  deriving DecidableEq

def Connection.call (c : Connection) : ConnectionCall → Connection
  | .connect o => c.connect o
  | .disconnect => c.disconnect
  | .send a => { c with toSender := c.toSender.attempt a }

/-- One call. -/
def Connection.Step (c : Connection) (a : ConnectionCall) (d : Connection) : Prop :=
  (∀ o, a = .connect o → o.Possible c) ∧ d = c.call a

/-- The client is connected iff it has a socket, and the sockets it has opened and not
closed are this one when it is connected, and none otherwise. -/
structure Connection.Sound (c : Connection) : Prop where
  connected_iff : c.isConnected = true ↔ c.socketFd ≠ none
  opened_eq : c.opened = if c.isConnected then c.socketFd.toList else []

/-- After the call the client is sound, and after `connect` there is an error iff the client
is not connected. -/
def SoundAfter (_c : Connection) (a : ConnectionCall) (d : Connection) : Prop :=
  d.Sound ∧ ∀ o, a = .connect o → (d.hasError = true ↔ d.isConnected = false)

/-- `connect` is called on a client that is not connected. -/
def ConnectsFresh (c : Connection) (a : ConnectionCall) : Prop :=
  ∀ o, a = .connect o → c.isConnected = false

theorem Connection.Sound.of_not_connected {c : Connection} (hc : c.isConnected = false)
    (hfd : c.socketFd = none) (hopened : c.opened = []) : c.Sound :=
  ⟨by simp [hc, hfd], by simp [hc, hopened]⟩

theorem Connection.Sound.of_connected {c : Connection} {fd : Nat} (hc : c.isConnected = true)
    (hfd : c.socketFd = some fd) (hopened : c.opened = [fd]) : c.Sound :=
  ⟨by simp [hc, hfd], by simp [hc, hfd, hopened]⟩

/-- A sound client is not connected and has no socket, or it is connected and has one. -/
theorem Connection.Sound.cases {c : Connection} (h : c.Sound) :
    (c.isConnected = false ∧ c.socketFd = none ∧ c.opened = []) ∨
      ∃ fd, c.isConnected = true ∧ c.socketFd = some fd ∧ c.opened = [fd] := by
  obtain ⟨hiff, hopened⟩ := h
  cases hfd : c.socketFd with
  | none =>
      have hc : c.isConnected = false := by simpa [hfd] using hiff
      exact Or.inl ⟨hc, rfl, by simpa [hc] using hopened⟩
  | some fd =>
      have hc : c.isConnected = true := hiff.mpr (by simp [hfd])
      exact Or.inr ⟨fd, hc, rfl, by simpa [hc, hfd] using hopened⟩

/-- The handshake moves neither the sockets nor `connected`. -/
theorem Connection.handshake_fields (c : Connection) (write : WriteOutcome) (answer : Bytes) :
    (c.handshake write answer).isConnected = c.isConnected ∧
      (c.handshake write answer).socketFd = c.socketFd ∧
      (c.handshake write answer).opened = c.opened := by
  unfold handshake
  split
  · exact ⟨rfl, rfl, rfl⟩
  · dsimp only
    split
    · exact ⟨rfl, rfl, rfl⟩
    · split <;> exact ⟨rfl, rfl, rfl⟩

theorem Sender.attempt_client_connected (s : Sender) (a : SendAttempt) :
    (s.attempt a).client.connected = s.client.connected := by
  cases hc : s.client.connected with
  | true => exact s.attempt_connected hc a
  | false =>
      obtain ⟨call, first, second⟩ := a
      cases call <;>
        simp [attempt, send, sendResponse, sendResponseError, sendWitness, sendPublish, sendRaw,
          sendText, hc, ClientState.error]

/-- `connect` when the socket is connected: what the handshake has left, closed if it has an
error. -/
theorem Connection.connect_accepted (c : Connection) (fd : Nat) (write : WriteOutcome)
    (answer : Bytes) :
    let d : Connection :=
      { c.clearError with opened := fd :: c.opened, socketFd := some fd, stream := [] }
    c.connect (.accepted fd write answer) =
      if (d.handshake write answer).hasError then
        { (d.handshake write answer).close fd with socketFd := none }
      else
        { d.handshake write answer with
          client := { (d.handshake write answer).client with connected := true } } := rfl

/-- The four exits of `connect` on a client that is not connected. -/
theorem Connection.connect_sound {c : Connection} (h : c.Sound) (hc : c.isConnected = false)
    (o : ConnectOutcome) :
    (c.connect o).Sound ∧ ((c.connect o).hasError = true ↔ (c.connect o).isConnected = false) := by
  rcases h.cases with ⟨_, hfd, hopened⟩ | ⟨fd, hc', _, _⟩
  swap
  · simp [hc] at hc'
  cases o with
  | noSocket =>
      refine ⟨.of_not_connected hc hfd hopened, ?_⟩
      exact iff_of_true rfl hc
  | refused fd =>
      refine ⟨.of_not_connected hc hfd ?_, iff_of_true rfl hc⟩
      simp [connect, close, Connection.error, clearError, hopened]
  | accepted fd write answer =>
      let d : Connection :=
        { c.clearError with opened := fd :: c.opened, socketFd := some fd, stream := [] }
      obtain ⟨hconnected', hfd', hopened'⟩ := d.handshake_fields write answer
      have hconnected' : (d.handshake write answer).isConnected = false := hconnected'.trans hc
      rw [c.connect_accepted fd write answer]
      split
      · rename_i herror
        refine ⟨.of_not_connected hconnected' rfl ?_, iff_of_true herror hconnected'⟩
        change (d.handshake write answer).opened.erase fd = []
        rw [hopened']
        simp [d, hopened]
      · rename_i herror
        refine ⟨.of_connected rfl hfd' ?_, iff_of_false herror (by simp [isConnected])⟩
        change (d.handshake write answer).opened = [fd]
        rw [hopened']
        simp [d, hopened]

/-- None of the exits of `connect` is sound on a client that is connected: it is still
connected and has an error, it has lost its socket, or it has two of them. -/
theorem Connection.not_connect_sound {c : Connection} (h : c.Sound) (hc : c.isConnected = true)
    (o : ConnectOutcome) :
    ¬((c.connect o).Sound ∧
      ((c.connect o).hasError = true ↔ (c.connect o).isConnected = false)) := by
  rcases h.cases with ⟨hc', _, _⟩ | ⟨old, _, hfd, hopened⟩
  · simp [hc] at hc'
  rintro ⟨hsound, herror⟩
  cases o with
  | noSocket =>
      have hfalse : c.isConnected = false := herror.mp rfl
      simp [hc] at hfalse
  | refused fd =>
      have hfalse : c.isConnected = false := herror.mp rfl
      simp [hc] at hfalse
  | accepted fd write answer =>
      let d : Connection :=
        { c.clearError with opened := fd :: c.opened, socketFd := some fd, stream := [] }
      obtain ⟨hconnected', hfd', hopened'⟩ := d.handshake_fields write answer
      have hconnected' : (d.handshake write answer).isConnected = true := hconnected'.trans hc
      rw [c.connect_accepted fd write answer] at hsound
      split at hsound
      · exact hsound.connected_iff.mp hconnected' rfl
      · -- the socket it had is still open
        have hopened'' := hsound.opened_eq
        change (d.handshake write answer).opened = (d.handshake write answer).socketFd.toList
          at hopened''
        rw [hopened', hfd'] at hopened''
        simp [d, hopened] at hopened''

theorem Connection.disconnect_sound {c : Connection} (h : c.Sound) : c.disconnect.Sound := by
  rcases h.cases with ⟨hc, hfd, hopened⟩ | ⟨fd, hc, hfd, hopened⟩
  · have heq : c.disconnect = c.clearError := if_pos ⟨hc, hfd⟩
    rw [heq]
    exact .of_not_connected hc hfd hopened
  · have hsocket : c.clearError.socketFd = some fd := hfd
    have heq : c.disconnect =
        { c.clearError.close fd with
          socketFd := none, client := { c.clearError.client with connected := false } } := by
      unfold disconnect
      simp only [hsocket, reduceCtorEq, and_false, if_false]
      rfl
    rw [heq]
    refine .of_not_connected rfl rfl ?_
    change c.opened.erase fd = []
    simp [hopened]

theorem Connection.send_sound {c : Connection} (h : c.Sound) (a : SendAttempt) :
    (c.call (.send a)).Sound := by
  have hc : (c.call (.send a)).isConnected = c.isConnected := c.attempt_client_connected a
  exact ⟨by rw [hc]; exact h.connected_iff, by rw [hc]; exact h.opened_eq⟩

/-- **One call** on a sound client leaves it sound iff it does not connect a connected
client. -/
theorem Connection.soundAfter_iff {c d : Connection} {a : ConnectionCall} (h : c.Sound)
    (hstep : c.Step a d) : SoundAfter c a d ↔ ConnectsFresh c a := by
  obtain ⟨_, rfl⟩ := hstep
  cases a with
  | connect o =>
      constructor
      · rintro ⟨hsound, herror⟩ _ _
        by_contra hne
        exact c.not_connect_sound h (by simpa using hne) o ⟨hsound, herror o rfl⟩
      · intro hfresh
        obtain ⟨hsound, herror⟩ := c.connect_sound h (hfresh o rfl) o
        exact ⟨hsound, fun _ _ => herror⟩
  | disconnect =>
      exact iff_of_true ⟨c.disconnect_sound h, fun _ heq => by cases heq⟩ fun _ heq => by cases heq
  | send a =>
      exact iff_of_true ⟨c.send_sound h a, fun _ heq => by cases heq⟩ fun _ heq => by cases heq

theorem Connection.new_sound (platform : Platform) (nodeId : Bytes) :
    (Connection.new platform nodeId).Sound :=
  .of_not_connected rfl rfl rfl

/-- **The state of a connection is in step in exactly the runs that connect no connected
client.** -/
theorem Connection.eachStep_soundAfter_iff (platform : Platform) (nodeId : Bytes)
    (l : List ConnectionCall) :
    EachStep Connection.Step (.new platform nodeId) l SoundAfter ↔
      EachStep Connection.Step (.new platform nodeId) l fun c a _ => ConnectsFresh c a := by
  refine eachStep_iff (Connection.new_sound platform nodeId) ?_ ?_
  · intro c a d hc hstep hfresh
    exact ((c.soundAfter_iff hc hstep).mpr hfresh).1
  · intro c a d hc hstep
    exact c.soundAfter_iff hc hstep

/-- Two calls of `connect`, both answered. -/
def connectTwice : List ConnectionCall :=
  [.connect (.accepted 3 (some 2) ['O', 'K', '\n']),
    .connect (.accepted 4 (some 2) ['O', 'K', '\n'])]

/-- **A second `connect` loses the socket of the first**: it stays open, and no call can
close it. -/
theorem not_all_sound :
    ¬∀ (platform : Platform) (nodeId : Bytes) (l : List ConnectionCall),
      EachStep Connection.Step (.new platform nodeId) l SoundAfter := by
  intro h
  let c := Connection.new .linux ['n']
  let d := c.connect (.accepted 3 (some 2) ['O', 'K', '\n'])
  have hfirst : c.Step (.connect (.accepted 3 (some 2) ['O', 'K', '\n'])) d := by
    refine ⟨fun o ho => ?_, rfl⟩
    cases ho
    exact List.not_mem_nil
  have hsecond : d.Step (.connect (.accepted 4 (some 2) ['O', 'K', '\n']))
      (d.connect (.accepted 4 (some 2) ['O', 'K', '\n'])) := by
    refine ⟨fun o ho => ?_, rfl⟩
    cases ho
    change 4 ∉ d.opened
    decide
  have hsound := (h .linux ['n'] connectTwice _ _ _ _ (List.prefix_refl _)
    (Run.start.step hfirst) hsecond).1
  exact absurd hsound.opened_eq (by decide)

end SporeClient.Client
