/-
  Api/Objects.lean --- the functions of `spore_c.cpp` on message objects.

  A program of the C library makes messages, changes them, sends them and destroys them
  through handles.  An object has the text that `serialize` has kept in it, which
  `get_serialized` hands out; a send keeps a new text.  The functions of the five classes
  differ in the class and in the fields it has; what they do for a null handle or a null text
  is the same.

  A handle of an object that has been destroyed, or is of another class, has no result.
-/
import SporeClient.Client.Channel
import SporeClient.Client.Connection
import SporeClient.Foundation.Heap
import SporeClient.Go.Building

set_option autoImplicit false

namespace SporeClient.Api

open SporeClient.Foundation
open SporeClient.Client
open SporeClient.Parser
open SporeClient.Wire

/-! ## The classes -/

/-- The classes of messages. -/
inductive MessageKind where
  | request
  | response
  | responseError
  | witness
  | publish
  deriving DecidableEq

namespace MessageKind

/-- `new spore_request_t{}` and its siblings. -/
def empty : MessageKind → Outgoing
  | .request => .request {}
  | .response => .response {}
  | .responseError => .responseError {}
  | .witness => .witness {}
  | .publish => .publish {}

/-- What `create_from_raw` makes of a text. -/
def ofRaw (kind : MessageKind) (raw : Bytes) : Option Outgoing :=
  match kind with
  | .request => (Request.createFromRaw raw).map .request
  | .response => (Response.createFromRaw raw).map .response
  | .responseError => (ResponseError.createFromRaw raw).map .responseError
  | .witness => (Witness.createFromRaw raw).map .witness
  | .publish => (Publish.createFromRaw raw).map .publish

/-- The name under which a null handle is reported. -/
def argument : MessageKind → String
  | .request => "hRequest"
  | .response => "hResponse"
  | .responseError => "hError"
  | .witness => "hWitness"
  | .publish => "hPublish"

end MessageKind

/-- The class of a message. -/
def kindOf : Outgoing → MessageKind
  | .request _ => .request
  | .response _ => .response
  | .responseError _ => .responseError
  | .witness _ => .witness
  | .publish _ => .publish

/-- `h->request`, `h->response`, `h->error`, `h->witness` and `h->publish`. -/
def messageOf : Outgoing → Message
  | .request r => r.toMessage
  | .response r => r.toMessage
  | .responseError e => e.toMessage
  | .witness w => w.toMessage
  | .publish p => p.toMessage

/-- Change the `Message` in it. -/
def update (f : Message → Message) : Outgoing → Outgoing
  | .request r => .request { r with toMessage := f r.toMessage }
  | .response r => .response { r with toMessage := f r.toMessage }
  | .responseError e => .responseError { e with toMessage := f e.toMessage }
  | .witness w => .witness { w with toMessage := f w.toMessage }
  | .publish p => .publish { p with toMessage := f p.toMessage }

/-- The fields that have a setter and a getter: `spore_request_set_command` and
`spore_request_get_command`, and so on. -/
inductive Field where
  | requestCommand
  | requestHandle
  | responseCommand
  | responseHandle
  | errorCommand
  | errorHandle
  | errorCode
  | errorWhat
  | witnessBody
  | publishTopic
  deriving DecidableEq

namespace Field

/-- The class the field is in. -/
def kind : Field → MessageKind
  | .requestCommand | .requestHandle => .request
  | .responseCommand | .responseHandle => .response
  | .errorCommand | .errorHandle | .errorCode | .errorWhat => .responseError
  | .witnessBody => .witness
  | .publishTopic => .publish

def get : Field → Outgoing → Bytes
  | .requestCommand, m | .responseCommand, m | .errorCommand, m => (messageOf m).command
  | .requestHandle, m | .responseHandle, m | .errorHandle, m => (messageOf m).handle
  | .errorCode, .responseError e => e.code
  | .errorWhat, .responseError e => e.what
  | .witnessBody, .witness w => w.body
  | .publishTopic, .publish p => p.topic
  | _, _ => []

def set (field : Field) (v : Bytes) (m : Outgoing) : Outgoing :=
  match field, m with
  | .requestCommand, m | .responseCommand, m | .errorCommand, m => update (·.setCommand v) m
  | .requestHandle, m | .responseHandle, m | .errorHandle, m => update (·.setHandle v) m
  | .errorCode, .responseError e => .responseError { e with code := v }
  | .errorWhat, .responseError e => .responseError { e with what := v }
  | .witnessBody, .witness w => .witness { w with body := v }
  | .publishTopic, .publish p => .publish { p with topic := v }
  | _, m => m

end Field

/-! ## The objects -/

/-- A message object, with the text that `serialize` has kept in it. -/
structure MessageObject where
  message : Outgoing
  serialized : Bytes := []
  deriving DecidableEq

/-- The message objects that exist. -/
abbrev Objects : Type := Heap MessageObject

namespace Objects

/-- The object of a handle of this class. -/
def objectAt (M : Objects) (kind : MessageKind) (h : Ptr) : Option MessageObject :=
  (M.read h).filter fun o => kindOf o.message = kind

/-- `spore_request_create` and its siblings. -/
def create (A : Allocator MessageObject) (M : Objects) (kind : MessageKind) : Objects × Ptr :=
  M.new A ⟨kind.empty, []⟩

/-- `spore_request_create_from_raw` and its siblings. -/
def createFromRaw (A : Allocator MessageObject) (M : Objects) (kind : MessageKind)
    (raw : Option Bytes) : Objects × Ptr :=
  match raw.bind kind.ofRaw with
  | none => (M, 0)
  | some message => M.new A ⟨message, []⟩

/-- `spore_request_destroy` and its siblings. -/
def destroy (M : Objects) (kind : MessageKind) (h : Ptr) : Option Objects :=
  if h = 0 then some M else (M.objectAt kind h).bind fun _ => M.remove h

/-- What the setters have in common: nothing is done for a null handle. -/
def change (M : Objects) (kind : MessageKind) (h : Ptr) (f : Outgoing → Outgoing) :
    Option Objects :=
  if h = 0 then some M
  else (M.objectAt kind h).bind fun o => M.write h { o with message := f o.message }

/-- `spore_request_set_command` and the other setters. -/
def set (M : Objects) (field : Field) (h : Ptr) (v : Option Bytes) : Option Objects :=
  match v with
  | none => some M
  | some v => M.change field.kind h (field.set (cstr v))

/-- `spore_request_add_arg` and its siblings. -/
def addArg (M : Objects) (kind : MessageKind) (h : Ptr) (key value : Option Bytes) :
    Option Objects :=
  match key, value with
  | some key, some value => M.change kind h (update (·.addArg (cstr key) (cstr value)))
  | _, _ => some M

/-- `spore_request_add_flag` and its siblings. -/
def addFlag (M : Objects) (kind : MessageKind) (h : Ptr) (flag : Option Bytes) :
    Option Objects :=
  match flag with
  | none => some M
  | some flag => M.change kind h (update (·.addFlag (cstr flag)))

/-- What the getters have in common. -/
def look {β : Type} (M : Objects) (kind : MessageKind) (h : Ptr) (null : β)
    (f : MessageObject → β) : Option β :=
  if h = 0 then some null else (M.objectAt kind h).map f

/-- `spore_request_get_command` and the other getters. -/
def get (M : Objects) (field : Field) (h : Ptr) : Option (Option Bytes) :=
  M.look field.kind h none fun o => sv (field.get o.message)

/-- `spore_request_get_arg` and its siblings. -/
def getArg (M : Objects) (kind : MessageKind) (h : Ptr) (key : Option Bytes) :
    Option (Option Bytes) :=
  match key with
  | none => some none
  | some key => M.look kind h none fun o => sv ((messageOf o.message).getArg (cstr key))

/-- `spore_request_has_flag` and its siblings. -/
def hasFlag (M : Objects) (kind : MessageKind) (h : Ptr) (flag : Option Bytes) : Option Bool :=
  match flag with
  | none => some false
  | some flag => M.look kind h false fun o => (messageOf o.message).hasFlag (cstr flag)

/-- `spore_request_get_arg_ids` and its siblings. -/
def getArgIds (M : Objects) (kind : MessageKind) (h : Ptr) (capacity : Nat) :
    Option (List Bytes × Nat) :=
  M.look kind h ([], 0) fun o => copyArgIds (messageOf o.message) capacity

/-- `spore_request_get_flags` and its siblings. -/
def getFlags (M : Objects) (kind : MessageKind) (h : Ptr) (capacity : Nat) :
    Option (List Bytes × Nat) :=
  M.look kind h ([], 0) fun o => copyFlags (messageOf o.message) capacity

/-- `spore_request_get_raw` and its siblings. -/
def getRaw (M : Objects) (kind : MessageKind) (h : Ptr) : Option Bytes :=
  M.look kind h [] fun o => (messageOf o.message).raw

/-- `spore_request_serialize` and its siblings. -/
def serialize (M : Objects) (kind : MessageKind) (h : Ptr) : Option Objects :=
  if h = 0 then some M
  else (M.objectAt kind h).bind fun o => M.write h { o with serialized := o.message.serialize }

/-- `spore_request_get_serialized` and its siblings. -/
def getSerialized (M : Objects) (kind : MessageKind) (h : Ptr) : Option (Option Bytes) :=
  M.look kind h none fun o => Wire.getSerialized o.serialized

end Objects

/-! ## Programs -/

/-- A program: its message objects, and the client it sends them on. -/
structure Program where
  objects : Objects
  client : Connection

/-- `Client::send` and its siblings, on a handle. -/
def Program.send (P : Program) (kind : MessageKind) (h : Ptr) (o₁ o₂ : WriteOutcome) :
    Option Program :=
  let client := P.client.clearError
  if !client.isConnected then
    some { P with client := client.error "NotConnected" "client is not connected" }
  else if h = 0 then
    some { P with client := client.error "NullArgument" (kind.argument ++ " is null") }
  else do
    let objects ← P.objects.serialize kind h
    let wire ← objects.getSerialized kind h
    match wire with
    | none => some ⟨objects, client⟩
    | some wire =>
        some ⟨objects, { client with toSender := client.toSender.writeRaw (cstr wire) o₁ o₂ }⟩

/-- A call of the library, with what the environment does with it. -/
inductive ApiCall where
  | create (kind : MessageKind)
  | createFromRaw (kind : MessageKind) (raw : Option Bytes)
  | destroy (kind : MessageKind) (h : Ptr)
  | set (field : Field) (h : Ptr) (v : Option Bytes)
  | addArg (kind : MessageKind) (h : Ptr) (key value : Option Bytes)
  | addFlag (kind : MessageKind) (h : Ptr) (flag : Option Bytes)
  | get (field : Field) (h : Ptr)
  | getArg (kind : MessageKind) (h : Ptr) (key : Option Bytes)
  | hasFlag (kind : MessageKind) (h : Ptr) (flag : Option Bytes)
  | getArgIds (kind : MessageKind) (h : Ptr) (capacity : Nat)
  | getFlags (kind : MessageKind) (h : Ptr) (capacity : Nat)
  | getRaw (kind : MessageKind) (h : Ptr)
  | serialize (kind : MessageKind) (h : Ptr)
  | getSerialized (kind : MessageKind) (h : Ptr)
  | send (kind : MessageKind) (h : Ptr) (first second : WriteOutcome)
  | connect (o : ConnectOutcome)
  | disconnect

/-- What a call returns. -/
inductive ApiResult where
  | nothing
  | handle (h : Ptr)
  | text (t : Option Bytes)
  | truth (b : Bool)
  | texts (l : List Bytes × Nat)
  | raw (b : Bytes)
  deriving DecidableEq

namespace Program

/-- The call changes the objects. -/
def onObjects (P : Program) (objects : Option Objects) : Option (Program × ApiResult) :=
  objects.map fun objects => ({ P with objects := objects }, .nothing)

/-- One call; `none` when it uses an object that is not there. -/
def call (A : Allocator MessageObject) (P : Program) : ApiCall → Option (Program × ApiResult)
  | .create kind =>
      some ({ P with objects := (P.objects.create A kind).1 }, .handle (P.objects.create A kind).2)
  | .createFromRaw kind raw =>
      some ({ P with objects := (P.objects.createFromRaw A kind raw).1 },
        .handle (P.objects.createFromRaw A kind raw).2)
  | .destroy kind h => P.onObjects (P.objects.destroy kind h)
  | .set field h v => P.onObjects (P.objects.set field h v)
  | .addArg kind h key value => P.onObjects (P.objects.addArg kind h key value)
  | .addFlag kind h flag => P.onObjects (P.objects.addFlag kind h flag)
  | .get field h => (P.objects.get field h).map fun t => (P, .text t)
  | .getArg kind h key => (P.objects.getArg kind h key).map fun t => (P, .text t)
  | .hasFlag kind h flag => (P.objects.hasFlag kind h flag).map fun b => (P, .truth b)
  | .getArgIds kind h capacity =>
      (P.objects.getArgIds kind h capacity).map fun l => (P, .texts l)
  | .getFlags kind h capacity => (P.objects.getFlags kind h capacity).map fun l => (P, .texts l)
  | .getRaw kind h => (P.objects.getRaw kind h).map fun b => (P, .raw b)
  | .serialize kind h => P.onObjects (P.objects.serialize kind h)
  | .getSerialized kind h => (P.objects.getSerialized kind h).map fun t => (P, .text t)
  | .send kind h first second => (P.send kind h first second).map fun P => (P, .nothing)
  | .connect o => some ({ P with client := P.client.connect o }, .nothing)
  | .disconnect => some ({ P with client := P.client.disconnect }, .nothing)

/-- One call, with what it returns. -/
def Step (A : Allocator MessageObject) (P : Program) (x : ApiCall × ApiResult) (Q : Program) :
    Prop := P.call A x.1 = some (Q, x.2)

end Program

/-! ## A program -/

/-- A program connects, and makes a request. -/
def firstCalls : List (ApiCall × ApiResult) :=
  [(.connect (.accepted 3 (some 2) ['O', 'K', '\n']), .nothing), (.create .request, .handle 1),
    (.set .requestCommand 1 (some ['c']), .nothing), (.set .requestHandle 1 (some ['h']), .nothing)]

/-- The program behind these calls. -/
def started : Program where
  objects := ⟨[(1, ⟨.request pingRequest, []⟩)], 1⟩
  client := (Connection.new .linux ['n']).connect (.accepted 3 (some 2) ['O', 'K', '\n'])

/-- The request is sent, changed and destroyed; what is made then is at its place. -/
def laterCalls : List (ApiCall × ApiResult) :=
  [(.send .request 1 (some 5) (some 1), .nothing), (.set .requestCommand 1 (some ['d']), .nothing),
    (.getSerialized .request 1, .text (some ['c', ' ', '~', 'h', '\n'])),
    (.destroy .request 1, .nothing), (.create .witness, .handle 1)]

theorem run_firstCalls :
    Run (Program.Step (Heap.behind MessageObject)) ⟨{}, Connection.new .linux ['n']⟩ firstCalls
      started := by
  have hconnected : Run (Program.Step (Heap.behind MessageObject))
      ⟨{}, Connection.new .linux ['n']⟩ (firstCalls.take 1) _ := .step .start rfl
  have hmade : Run (Program.Step (Heap.behind MessageObject)) ⟨{}, Connection.new .linux ['n']⟩
      (firstCalls.take 2) _ := hconnected.step rfl
  have hnamed : Run (Program.Step (Heap.behind MessageObject)) ⟨{}, Connection.new .linux ['n']⟩
      (firstCalls.take 3) _ := hmade.step rfl
  exact hnamed.step rfl

theorem run_laterCalls : ∃ Q,
    Run (Program.Step (Heap.behind MessageObject)) started laterCalls Q := by
  have hsent : Run (Program.Step (Heap.behind MessageObject)) started (laterCalls.take 1) _ :=
    .step .start rfl
  have hchanged : Run (Program.Step (Heap.behind MessageObject)) started (laterCalls.take 2) _ :=
    hsent.step rfl
  have hread : Run (Program.Step (Heap.behind MessageObject)) started (laterCalls.take 3) _ :=
    hchanged.step rfl
  have hgone : Run (Program.Step (Heap.behind MessageObject)) started (laterCalls.take 4) _ :=
    hread.step rfl
  exact ⟨_, hgone.step rfl⟩

end SporeClient.Api
