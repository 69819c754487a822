/-
  Go/Messages.lean --- the arguments of a message, as the Go library shows them.

  WHAT THIS FILE IS FOR.  `Arg` of `spore_go` asks for one argument and says whether it is
  there; `Args` lists the keys of all.  The two take different ways down: `Args` walks the
  map of the message, `Arg` looks a key up, and on its way back up a value that is empty
  becomes a null pointer, an empty Go string, and no value.  `Reportable` says for which
  keys the two agree and give the value that was set last (`reported_iff`).

  The request, the response, the error response, the witness and the publish have these
  methods alike, each for the `Message` in it.
-/
import SporeClient.Parser.BuildSpec
import SporeClient.Wire.FromRaw

set_option autoImplicit false

namespace SporeClient.Wire

open SporeClient.Foundation
open SporeClient.Parser

/-! ## What the C library hands out -/

/-- `sv` of `spore_c.cpp`: a null pointer for an empty string. -/
def sv (s : Bytes) : Option Bytes := if s = [] then none else some s

/-- `Message::getArg`. -/
def Message.getArg (m : Message) (key : Bytes) : Bytes := (m.args.find? key).getD []

/-- `copyArgIds`: the keys that have room, and how many there are. -/
def copyArgIds (m : Message) (capacity : Nat) : List Bytes × Nat :=
  (m.args.keys.take capacity, m.args.keys.length)

end SporeClient.Wire

namespace SporeClient.Go

open SporeClient.Foundation
open SporeClient.Parser
open SporeClient.Wire

/-- `C.GoString`; a null pointer gives the empty string. -/
def goString : Option Bytes → Bytes
  | none => []
  | some s => cstr s

/-- `getStrings`: ask how many there are, then ask for them. -/
def getStrings (get : Nat → List Bytes × Nat) : List Bytes :=
  if (get 0).2 = 0 then [] else (get (get 0).2).1.map fun s => goString (some s)

/-! ## The message types -/

/-- A message of the Go library, with the object of the C library it has. -/
inductive GoMessage where
  | request (h : Request)
  | response (h : Response)
  | responseError (h : ResponseError)
  | witness (h : Witness)
  | publish (h : Publish)
  deriving DecidableEq

namespace GoMessage

/-- `h->request`, `h->response`, `h->error`, `h->witness` and `h->publish`. -/
def message : GoMessage → Message
  | .request h => h.toMessage
  | .response h => h.toMessage
  | .responseError h => h.toMessage
  | .witness h => h.toMessage
  | .publish h => h.toMessage

/-- Change the `Message` in it. -/
def update (f : Message → Message) : GoMessage → GoMessage
  | .request h => .request { h with toMessage := f h.toMessage }
  | .response h => .response { h with toMessage := f h.toMessage }
  | .responseError h => .responseError { h with toMessage := f h.toMessage }
  | .witness h => .witness { h with toMessage := f h.toMessage }
  | .publish h => .publish { h with toMessage := f h.toMessage }

@[simp] theorem message_update (f : Message → Message) (x : GoMessage) :
    (x.update f).message = f x.message := by
  cases x <;> rfl

/-- `request.New`. -/
def newRequest (command handle : Bytes) : GoMessage :=
  .request ⟨(({} : Message).setCommand (cstr command)).setHandle (cstr handle)⟩

/-- `response.New`. -/
def newResponse (command handle : Bytes) : GoMessage :=
  .response ⟨(({} : Message).setCommand (cstr command)).setHandle (cstr handle)⟩

/-- `response.Error`. -/
def newError (command handle code what : Bytes) : GoMessage :=
  .responseError
    ⟨(({} : Message).setCommand (cstr command)).setHandle (cstr handle), cstr code, cstr what⟩

/-- `witness.New`. -/
def newWitness (body : Bytes) : GoMessage := .witness { body := cstr body }

/-- `publish.New`. -/
def newPublish (topic : Bytes) : GoMessage := .publish { topic := cstr topic }

/-- `WithArg`. -/
def withArg (x : GoMessage) (key value : Bytes) : GoMessage :=
  x.update fun m => m.addArg (cstr key) (cstr value)

/-- `WithFlag`. -/
def withFlag (x : GoMessage) (flag : Bytes) : GoMessage :=
  x.update fun m => m.addFlag (cstr flag)

/-- `sporec.RequestGetArg` and its siblings. -/
def getArg (x : GoMessage) (key : Bytes) : Bytes := goString (sv (x.message.getArg (cstr key)))

/-- `Arg`. -/
def arg (x : GoMessage) (key : Bytes) : Bytes × Bool :=
  let v := x.getArg key
  if v = [] then ([], false) else (v, true)

/-- `ArgIf`. -/
def argIf (x : GoMessage) (key default : Bytes) : Bytes :=
  if (x.arg key).2 then (x.arg key).1 else default

/-- `Args`. -/
def args (x : GoMessage) : List Bytes := getStrings (copyArgIds x.message)

end GoMessage

/-! ## Where a message comes from -/

/-- The message was made new, or read from a text, and then given arguments and flags; the
list has the arguments it was given, the text's first.  The code and the text of an error and
the body of a witness are fields of their own and no arguments. -/
inductive Obtained : GoMessage → List (Bytes × Bytes) → Prop
  | newRequest (command handle : Bytes) : Obtained (.newRequest command handle) []
  | newResponse (command handle : Bytes) : Obtained (.newResponse command handle) []
  | newError (command handle code what : Bytes) : Obtained (.newError command handle code what) []
  | newWitness (body : Bytes) : Obtained (.newWitness body) []
  | newPublish (topic : Bytes) : Obtained (.newPublish topic) []
  | requestFromRaw {raw : Bytes} {h : Request} (hraw : Request.createFromRaw raw = some h) :
      Obtained (.request h) (parseRaw raw).2.args
  | responseFromRaw {raw : Bytes} {h : Response} (hraw : Response.createFromRaw raw = some h) :
      Obtained (.response h) (parseRaw raw).2.args
  | errorFromRaw {raw : Bytes} {h : ResponseError}
      (hraw : ResponseError.createFromRaw raw = some h) :
      Obtained (.responseError h)
        ((parseRaw raw).2.args.filter fun p => p.1 != codeWord && p.1 != whatWord)
  | witnessFromRaw {raw : Bytes} {h : Witness} (hraw : Witness.createFromRaw raw = some h) :
      Obtained (.witness h) ((parseRaw raw).2.args.filter fun p => p.1 != bodyWord)
  | publishFromRaw {raw : Bytes} {h : Publish} (hraw : Publish.createFromRaw raw = some h) :
      Obtained (.publish h) (parseRaw raw).2.args
  | withArg {x : GoMessage} {given : List (Bytes × Bytes)} (key value : Bytes)
      (hx : Obtained x given) : Obtained (x.withArg key value) (given ++ [(key, value)])
  | withFlag {x : GoMessage} {given : List (Bytes × Bytes)} (flag : Bytes)
      (hx : Obtained x given) : Obtained (x.withFlag flag) given

/-- `Arg` has a value iff `Args` has the key; it is the value that was given last; and
`ArgIf` gives it too, whatever the default. -/
def Reported (x : GoMessage) (given : List (Bytes × Bytes)) (key : Bytes) : Prop :=
  ((x.arg key).2 = true ↔ key ∈ x.args) ∧
    ((x.arg key).2 = true → SortedMap.lastValue key given = some (x.arg key).1) ∧
    ∀ default, key ∈ x.args → SortedMap.lastValue key given = some (x.argIf key default)

/-- A key and a value, as C strings. -/
def cut (p : Bytes × Bytes) : Bytes × Bytes := (cstr p.1, cstr p.2)

/-- When something was given for the key up to its first NUL, the value given last for it,
itself up to its first NUL, is not empty and the one given last for the key as it is; or the
key has a NUL, and this value is empty. -/
def Reportable (given : List (Bytes × Bytes)) (key : Bytes) : Prop :=
  ∀ v, SortedMap.lastValue (cstr key) (given.map cut) = some v →
    if '\x00' ∈ key then v = [] else v ≠ [] ∧ SortedMap.lastValue key given = some v

/-! ## What a message holds -/

theorem cut_eq_self {p : Bytes × Bytes} (h : '\x00' ∉ p.1 ∧ '\x00' ∉ p.2) : cut p = p := by
  rw [cut, cstr_eq_self h.1, cstr_eq_self h.2]

theorem map_cut_eq_self {l : List (Bytes × Bytes)}
    (h : ∀ p ∈ l, '\x00' ∉ p.1 ∧ '\x00' ∉ p.2) : l.map cut = l :=
  (List.map_congr_left fun p hp => cut_eq_self (h p hp)).trans (List.map_id l)

/-- What is read from a text is cut already. -/
theorem map_cut_parsed {l : List (Bytes × Bytes)} {raw : Bytes}
    (h : l.Sublist (parseRaw raw).2.args) : l.map cut = l := by
  apply map_cut_eq_self
  intro p hp
  exact no_nul_of_mem_args (h.subset hp)

theorem takeArgs_args (w : Witness) (l : List (Bytes × Bytes)) :
    (Witness.takeArgs w l).args =
      (w.toMessage.addArgs (l.filter fun p => p.1 != bodyWord)).args := by
  induction l generalizing w with
  | nil => rfl
  | cons p rest ih =>
      simp only [Witness.takeArgs]
      by_cases hbody : p.1 = bodyWord
      · rw [if_pos hbody, ih, List.filter_cons_of_neg (by simp [hbody])]
      · rw [if_neg hbody, ih, List.filter_cons_of_pos (by simp [hbody])]
        rfl

/-- Keys and values that are cut have no NUL. -/
theorem no_nul_of_lastValue {given : List (Bytes × Bytes)} {key v : Bytes}
    (h : SortedMap.lastValue key (given.map cut) = some v) : '\x00' ∉ key ∧ '\x00' ∉ v := by
  obtain ⟨p, _, hp⟩ := List.mem_map.mp (SortedMap.mem_of_lastValue h)
  obtain ⟨rfl, rfl⟩ := Prod.mk.inj hp
  exact ⟨nul_not_mem_cstr p.1, nul_not_mem_cstr p.2⟩

/-- **The map of a message** is what it was given, one after another, as C strings. -/
theorem Obtained.args_eq {x : GoMessage} {given : List (Bytes × Bytes)} (h : Obtained x given) :
    x.message.args = SortedMap.ofList (given.map cut) := by
  induction h with
  | newRequest command handle => rfl
  | newResponse command handle => rfl
  | newError command handle code what => rfl
  | newWitness body => rfl
  | newPublish topic => rfl
  | requestFromRaw hraw =>
      obtain ⟨_, ⟨⟩⟩ := Option.ite_none_right_eq_some.mp hraw
      rw [map_cut_parsed (List.Sublist.refl _), Request.ofParsed_eq]
      rfl
  | responseFromRaw hraw =>
      obtain ⟨_, ⟨⟩⟩ := Option.ite_none_right_eq_some.mp hraw
      rw [map_cut_parsed (List.Sublist.refl _), Response.ofParsed_eq]
      rfl
  | errorFromRaw hraw =>
      obtain ⟨_, ⟨⟩⟩ := Option.ite_none_right_eq_some.mp hraw
      rw [map_cut_parsed List.filter_sublist, GoMessage.message, ResponseError.ofParsed,
        takeFields_toMessage]
      simp [populateMessage, Message.addArgs_eq, Message.addFlags_eq, Message.setRaw,
        Message.setCommand, Message.setHandle, SortedMap.ofList]
  | witnessFromRaw hraw =>
      obtain ⟨_, ⟨⟩⟩ := Option.ite_none_right_eq_some.mp hraw
      rw [map_cut_parsed List.filter_sublist, GoMessage.message, Witness.ofParsed]
      simp [takeArgs_args, Message.addArgs_eq, Message.addFlags_eq, Message.setRaw,
        SortedMap.ofList]
  | publishFromRaw hraw =>
      obtain ⟨_, ⟨⟩⟩ := Option.ite_none_right_eq_some.mp hraw
      rw [map_cut_parsed (List.Sublist.refl _), Publish.ofParsed_eq]
      rfl
  | withArg key value hx ih =>
      rw [GoMessage.withArg, GoMessage.message_update, List.map_append]
      simp [Message.addArg, ih, SortedMap.ofList, cut]
  | withFlag flag hx ih =>
      rw [GoMessage.withFlag, GoMessage.message_update]
      exact ih

section
variable {x : GoMessage} {given : List (Bytes × Bytes)}

/-- `Args` has the keys of the map. -/
theorem Obtained.mem_args_iff (h : Obtained x given) (key : Bytes) :
    key ∈ x.args ↔ (SortedMap.lastValue key (given.map cut)).isSome = true := by
  have hkeys : x.args = x.message.args.keys.map cstr := by
    simp only [GoMessage.args, getStrings, copyArgIds, List.take_length, goString]
    split
    · rename_i hzero
      rw [List.eq_nil_of_length_eq_zero hzero, List.map_nil]
    · rfl
  have hcstr : x.message.args.keys.map cstr = x.message.args.keys := by
    apply (List.map_congr_left _).trans (List.map_id _)
    intro k hk
    rw [h.args_eq, SortedMap.mem_keys_ofList_iff, List.map_map] at hk
    obtain ⟨p, _, rfl⟩ := List.mem_map.mp hk
    exact cstr_eq_self (nul_not_mem_cstr p.1)
  rw [hkeys, hcstr, h.args_eq, SortedMap.mem_keys_ofList_iff, SortedMap.lastValue_isSome_iff]

/-- `Arg` finds the value of the map. -/
theorem Obtained.arg_eq (h : Obtained x given) (key : Bytes) :
    x.arg key = match SortedMap.lastValue (cstr key) (given.map cut) with
      | none => ([], false)
      | some v => if v = [] then ([], false) else (v, true) := by
  have hfind : x.message.args.find? (cstr key) =
      SortedMap.lastValue (cstr key) (given.map cut) := by
    rw [h.args_eq, SortedMap.find?_ofList]
  simp only [GoMessage.arg, GoMessage.getArg, Message.getArg, hfind]
  cases hlast : SortedMap.lastValue (cstr key) (given.map cut) with
  | none => rfl
  | some v =>
      have hv : cstr v = v := cstr_eq_self (no_nul_of_lastValue hlast).2
      by_cases hne : v = []
      · simp [hne, sv, goString]
      · simp [hne, sv, goString, hv]

/-- **The two views agree on the keys that are reportable, and on no others.** -/
theorem reported_iff (h : Obtained x given) (key : Bytes) :
    Reported x given key ↔ Reportable given key := by
  simp only [Reported, Reportable, GoMessage.argIf, h.mem_args_iff, h.arg_eq]
  by_cases hnul : '\x00' ∈ key
  · -- no key in the list has a NUL
    have hnone : SortedMap.lastValue key (given.map cut) = none := by
      cases hlast : SortedMap.lastValue key (given.map cut) with
      | none => rfl
      | some v => exact absurd hnul (no_nul_of_lastValue hlast).1
    cases hlast : SortedMap.lastValue (cstr key) (given.map cut) with
    | none => simp [hnone]
    | some v => by_cases hv : v = [] <;> simp [hnone, hnul, hv]
  · rw [cstr_eq_self hnul]
    cases hlast : SortedMap.lastValue key (given.map cut) with
    | none => simp
    | some v => by_cases hv : v = [] <;> simp [hnul, hv]

/-- Where there are no NULs, all that matters is that the value given last is not empty. -/
theorem reportable_iff (hgiven : ∀ p ∈ given, '\x00' ∉ p.1 ∧ '\x00' ∉ p.2) {key : Bytes}
    (hkey : '\x00' ∉ key) :
    Reportable given key ↔ SortedMap.lastValue key given ≠ some [] := by
  simp only [Reportable, cstr_eq_self hkey, map_cut_eq_self hgiven, if_neg hkey]
  cases SortedMap.lastValue key given <;> simp

end

/-- A request that was given an argument twice. -/
theorem reported_twice :
    Reported (((GoMessage.newRequest ['c'] ['h']).withArg ['k'] ['v']).withArg ['k'] ['w'])
        [(['k'], ['v']), (['k'], ['w'])] ['k'] := by
  refine (reported_iff (.withArg ['k'] ['w'] (.withArg ['k'] ['v'] (.newRequest ['c'] ['h'])))
    ['k']).mpr ?_
  exact (reportable_iff (by decide) (by decide)).mpr (by decide)

/-- **An argument with an empty value** is listed and has no value. -/
theorem not_reported_empty :
    Obtained ((GoMessage.newRequest ['c'] ['h']).withArg ['k'] []) [(['k'], [])] ∧
      ¬Reported ((GoMessage.newRequest ['c'] ['h']).withArg ['k'] []) [(['k'], [])] ['k'] := by
  refine ⟨.withArg ['k'] [] (.newRequest ['c'] ['h']), fun h => ?_⟩
  have hlisted : ['k'] ∈ ((GoMessage.newRequest ['c'] ['h']).withArg ['k'] []).args := by decide
  exact absurd (h.1.mpr hlisted) (by decide)

end SporeClient.Go
