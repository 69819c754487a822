/-
  Wire/Message.lean --- the message objects of `spore_c/source` and their `serialize`.

  `Message` holds what every kind of message has: a command, a handle, an ordered map of
  arguments and an ordered set of flags, and the bytes it was read from.  The five kinds
  add their own fields and each writes its text in its own way.  `serializeArg` is the one
  place that chooses how a value is quoted.
-/
import SporeClient.Foundation.SortedMap
import SporeClient.Parser.Parse

set_option autoImplicit false

namespace SporeClient.Wire

open SporeClient.Foundation
open SporeClient.Parser

/-- `std::map<std::string, std::string>`. -/
abbrev ArgMap : Type := SortedMap Bytes Bytes

/-- `std::set<std::string>`. -/
abbrev FlagSet : Type := SortedSet Bytes

/-- `spore::Message`. -/
structure Message where
  command : Bytes := []
  handle : Bytes := []
  args : ArgMap := ∅
  flags : FlagSet := ∅
  raw : Bytes := []
  deriving DecidableEq, Inhabited

namespace Message

/-- `Message::setCommand`. -/
def setCommand (m : Message) (v : Bytes) : Message := { m with command := v }
/-- `Message::setHandle`. -/
def setHandle (m : Message) (v : Bytes) : Message := { m with handle := v }
/-- `Message::setRaw`. -/
def setRaw (m : Message) (v : Bytes) : Message := { m with raw := v }
/-- `Message::addArg`. -/
def addArg (m : Message) (key value : Bytes) : Message :=
  { m with args := m.args.insert key value }
/-- `Message::addFlag`. -/
def addFlag (m : Message) (flag : Bytes) : Message := { m with flags := m.flags.add flag }

/-- `addArg` for each pair of a list, in order. -/
def addArgs (m : Message) (l : List (Bytes × Bytes)) : Message :=
  l.foldl (fun m p => m.addArg p.1 p.2) m

/-- `addFlag` for each flag of a list, in order. -/
def addFlags (m : Message) (l : List Bytes) : Message := l.foldl addFlag m

/-- Adding arguments changes the map of arguments only. -/
theorem addArgs_eq (m : Message) (l : List (Bytes × Bytes)) :
    m.addArgs l = { m with args := l.foldl (fun args p => args.insert p.1 p.2) m.args } := by
  induction l generalizing m with
  | nil => rfl
  | cons p rest ih =>
      change (m.addArg p.1 p.2).addArgs rest = _
      rw [ih]
      rfl

/-- Adding flags changes the set of flags only. -/
theorem addFlags_eq (m : Message) (l : List Bytes) :
    m.addFlags l = { m with flags := l.foldl SortedSet.add m.flags } := by
  induction l generalizing m with
  | nil => rfl
  | cons f rest ih =>
      change (m.addFlag f).addFlags rest = _
      rw [ih]
      rfl

end Message

/-- `spore::Request`. -/
structure Request extends Message
  deriving DecidableEq, Inhabited

/-- `spore::Response`, an ok response. -/
structure Response extends Message
  deriving DecidableEq, Inhabited

/-- `spore::ResponseError`. -/
structure ResponseError extends Message where
  code : Bytes := []
  what : Bytes := []
  deriving DecidableEq, Inhabited

/-- `spore::Witness`. -/
structure Witness extends Message where
  body : Bytes := []
  deriving DecidableEq, Inhabited

/-- `spore::Publish`. -/
structure Publish extends Message where
  topic : Bytes := []
  deriving DecidableEq, Inhabited

/-! ## Serializing -/

/-- How `serializeArg` writes a value: as a block when it has a newline, in single quotes
when it has a double quote, in double quotes when it has a space or a tab, else as it is. -/
def encodeValue (v : Bytes) : Bytes :=
  if '\n' ∈ v then ['<', '<', '\n'] ++ v ++ ['\n', '>', '>']
  else if '"' ∈ v then '\'' :: v ++ ['\'']
  else if ' ' ∈ v ∨ '\t' ∈ v then '"' :: v ++ ['"']
  else v

/-- What `Message::serializeArg` appends for one argument. -/
def serializeArg (k v : Bytes) : Bytes := ' ' :: k ++ '=' :: encodeValue v

/-- `for (const auto& [k, v] : args) serializeArg(s, k, v)`. -/
def serializeArgs (args : ArgMap) : Bytes := args.entries.flatMap fun p => serializeArg p.1 p.2

/-- `for (const auto& f : flags) s += " " + f`. -/
def serializeFlags (flags : List Bytes) : Bytes := flags.flatMap fun f => ' ' :: f

/-- `Request::serialize`. -/
def Request.serialize (r : Request) : Bytes :=
  r.command ++ (if r.handle ≠ [] then [' ', '~'] ++ r.handle else []) ++
    serializeArgs r.args ++ serializeFlags r.flags.toList ++ ['\n']

/-- The start of both kinds of response. -/
def responseHead (handle command : Bytes) : Bytes :=
  if handle ≠ [] then '~' :: handle ++ ':' :: command else command

/-- `Response::serialize`. -/
def Response.serialize (r : Response) : Bytes :=
  responseHead r.handle r.command ++ ' ' :: okWord ++
    serializeFlags (r.flags.toList.filter (· ≠ okWord)) ++ serializeArgs r.args ++ ['\n']

/-- `ResponseError::serialize`. -/
def ResponseError.serialize (r : ResponseError) : Bytes :=
  responseHead r.handle r.command ++ ' ' :: errorWord ++
    (if r.code ≠ [] then ' ' :: codeWord ++ '=' :: r.code else []) ++
    (if r.what ≠ [] then ' ' :: whatWord ++ ['=', '"'] ++ r.what ++ ['"'] else []) ++
    serializeArgs r.args ++ serializeFlags r.flags.toList ++
    [' ', 'n', 'o', 'd', 'e', '_', 'e', 'r', 'r', 'o', 'r', '\n']

/-- `Witness::serialize`. -/
def Witness.serialize (w : Witness) : Bytes :=
  witnessWord ++
    (if w.body ≠ [] then ' ' :: bodyWord ++ ['=', '"'] ++ w.body ++ ['"'] else []) ++
    serializeArgs w.args ++ serializeFlags w.flags.toList ++ ['\n']

/-- `Publish::serialize`. -/
def Publish.serialize (p : Publish) : Bytes :=
  publishWord ++ (if p.topic ≠ [] then ' ' :: p.topic else []) ++
    serializeArgs p.args ++ serializeFlags p.flags.toList ++ ['\n']

end SporeClient.Wire
