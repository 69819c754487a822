/-
  Go/Delivery.lean --- from the bytes of the socket to the functions of a Go program.

  WHAT THIS FILE IS FOR.  One goroutine is in `Listen`, which walks the vectors of the C++
  client and so calls the bridges; the others register and remove handlers, on this client
  and on others, and create and destroy clients.  `Listening.Step` puts the lines that are
  read and the critical sections of `callbacks.go` in any order.  Every message of the
  stream is handed to the Go handlers that are registered for its kind when it is read, to
  each of them once (`Listening.heard_plain`).

  The two halves meet in `Registry.callGo_eq`: what `listen` calls for an event, through the
  vector and the bridge, is what the map has.
-/
import SporeClient.Client.Channel
import SporeClient.Client.DispatchRuns
import SporeClient.Go.Interleavings

set_option autoImplicit false

namespace SporeClient.Go

open SporeClient.Foundation
open SporeClient.Client
open SporeClient.Parser

variable {φ : Type}

/-! ## One event -/

namespace Registry

/-- The five vectors of a client, as `listen` walks them. -/
def handlersOfClient (s : Registry φ) (c : ClientPtr) : Handlers :=
  { requestHandlers := s.lib.handlersOf c .request
    responseHandlers := s.lib.handlersOf c .response
    witnessHandlers := s.lib.handlersOf c .witness
    publishHandlers := s.lib.handlersOf c .publish
    parseErrorHandlers := s.lib.handlersOf c .parseError }

/-- The Go handlers `listen` reaches for an event: those of the bridges it calls. -/
def callGo (s : Registry φ) (c : ClientPtr) (e : Event) : List (Nat × φ) :=
  ((s.handlersOfClient c).invoke e).flatMap fun callback =>
    match s.lib.heap callback.handler with
    | none => []
    | some bridge => s.goBridge bridge.fn c

/-- The vector of an event is that of its kind. -/
theorem callGo_eq (s : Registry φ) (c : ClientPtr) (e : Event) :
    s.callGo c e = s.deliver e.type c := by
  have hcalls : (s.handlersOfClient c).invoke e =
      (s.lib.handlersOf c e.type).map fun p => ⟨p, e⟩ := by
    cases e <;> rfl
  unfold callGo
  rw [hcalls]
  exact List.flatMap_map _ _ _

end Registry

/-! ## The goroutines and the stream -/

/-- The goroutines, and where `listen` is in its stream. -/
structure Listening (φ : Type) where
  system : System φ
  reading : Reading Char FrameState

/-- A move: a critical section of another goroutine, a read, or an iteration of the inner loop
of `listen`, with the event of the line and the Go handlers that are called with it, in the
order in which the Go map is walked. -/
inductive ListenMove (φ : Type) where
  | go (a : Act φ)
  | piece (chunk : Chunk)
  | line (event : Option Event) (called : List (Nat × φ))

namespace Listening

def start : Listening φ := ⟨.start, ⟨[], {}⟩⟩

/-- The moves, when the client `c` is in `Listen`: it is not destroyed before `Listen`
returns, and no vector changes while it is walked. -/
inductive Step (c : ClientPtr) : Listening φ → ListenMove φ → Listening φ → Prop
  | go {x : Listening φ} {a : Act φ} {t : System φ} (h : x.system.Step a t) :
      Step c x (.go a) { x with system := t }
  | piece {x : Listening φ} {chunk : Chunk} (hlive : x.system.Live c)
      (hnone : splitFirst '\n' x.reading.buf = none) :
      Step c x (.piece chunk)
        { x with reading := ⟨x.reading.buf ++ chunk.bytes, x.reading.state⟩ }
  | line {x : Listening φ} {l rest : Bytes} {called : List (Nat × φ)}
      (hlive : x.system.Live c) (hline : splitFirst '\n' x.reading.buf = some (l, rest))
      (hcalled : called.Perm
        (((onLine x.reading.state l).2.bind Released.event).elim []
          (x.system.registry.callGo c))) :
      Step c x (.line ((onLine x.reading.state l).2.bind Released.event) called)
        { x with reading := ⟨rest, (onLine x.reading.state l).1⟩ }

end Listening

/-- The moves of the other goroutines. -/
def actsOf (l : List (ListenMove φ)) : List (Act φ) :=
  l.filterMap fun
    | .go a => some a
    | _ => none

/-- What a move reads. -/
def ListenMove.bytes : ListenMove φ → Bytes
  | .piece chunk => chunk.bytes
  | _ => []

/-- What has been read. -/
def bytesOf (l : List (ListenMove φ)) : Bytes := l.flatMap ListenMove.bytes

/-- The events, in the order in which handlers were called with them. -/
def heard (l : List (ListenMove φ)) : List Event :=
  l.filterMap fun
    | .line event _ => event
    | _ => none

theorem actsOf_append (l l' : List (ListenMove φ)) : actsOf (l ++ l') = actsOf l ++ actsOf l' :=
  List.filterMap_append

theorem bytesOf_append (l l' : List (ListenMove φ)) :
    bytesOf (l ++ l') = bytesOf l ++ bytesOf l' := List.flatMap_append

theorem heard_append (l l' : List (ListenMove φ)) : heard (l ++ l') = heard l ++ heard l' :=
  List.filterMap_append

namespace Listening

variable {c : ClientPtr} {l : List (ListenMove φ)} {x : Listening φ}

/-- Without what is read, a run is one of the goroutines. -/
theorem run_system (h : Run (Step c) start l x) :
    Run System.Step System.start (actsOf l) x.system := by
  induction h with
  | start => exact .start
  | step _ hstep ih =>
      rw [actsOf_append]
      cases hstep with
      | go h => exact ih.step h
      | piece _ _ => simpa [actsOf] using ih
      | line _ _ _ => simpa [actsOf] using ih

/-- Without the goroutines, a run is one of the loop of `listen`. -/
theorem run_reader (h : Run (Step c) start l x) :
    ∃ steps, listenReader.Run {} (bytesOf l) steps x.reading ∧
      (released steps).filterMap Released.event = heard l := by
  induction h with
  | start => exact ⟨[], .start, rfl⟩
  | @step l y t a _ hstep ih =>
      obtain ⟨steps, hrun, hheard⟩ := ih
      rw [bytesOf_append, heard_append]
      cases hstep with
      | go h =>
          exact ⟨steps, by simpa [bytesOf, ListenMove.bytes] using hrun,
            by simpa [heard] using hheard⟩
      | piece _ hnone =>
          exact ⟨steps, by simpa [bytesOf, ListenMove.bytes] using hrun.piece _ hnone,
            by simpa [heard] using hheard⟩
      | @line l' rest called _ hline _ =>
          have hbytes : ∀ e, bytesOf [.line e called] = [] := fun _ => rfl
          refine ⟨_, by rw [hbytes, List.append_nil]; exact hrun.line hline, ?_⟩
          rw [released_concat, List.filterMap_append, hheard]
          refine congrArg (heard _ ++ ·) ?_
          change (onLine y.reading.state l').2.toList.filterMap Released.event =
            [ListenMove.line ((onLine y.reading.state l').2.bind Released.event) called].filterMap _
          cases (onLine y.reading.state l').2 with
          | none => rfl
          | some r => cases h : r.event <;> simp [h]

/-- The events so far are the first ones of those of the bytes read, and all of them when no
whole line is left in the buffer. -/
theorem heard_begins (h : Run (Step c) start l x) :
    ∃ reads : List Chunk, (reads.map Chunk.bytes).flatten = bytesOf l ∧
      heard l <+: eventsOf (reads.map Chunk.bytes) ∧
      (splitFirst '\n' x.reading.buf = none → heard l = eventsOf (reads.map Chunk.bytes)) := by
  obtain ⟨steps, hrun, hheard⟩ := run_reader h
  obtain ⟨reads, hreads⟩ := exists_reads (bytesOf l)
  have hevents : eventsOf (reads.map Chunk.bytes) = heard l ++
      (listenReader.scan ⟨[], x.reading.state⟩ x.reading.buf).2.filterMap Released.event := by
    rw [eventsOf_eq_scan, hreads, hrun.scan_eq.2, List.filterMap_append, ← hheard]
    rfl
  refine ⟨reads, hreads, ⟨_, hevents.symm⟩, fun hnone => ?_⟩
  have hbuf : listenReader.newline ∉ x.reading.buf := by
    intro hmem
    obtain ⟨a, b, hab, ha⟩ := List.eq_append_cons_of_mem hmem
    have hsome := splitFirst_append b ha
    rw [← hab] at hsome
    exact absurd (hnone.symm.trans hsome) (by simp)
  rw [hevents, listenReader.scan_partial _ hbuf]
  simp

/-- **With an event the handlers are called that are registered for its kind** at that moment,
each of them once. -/
theorem called_perm {pre post : List (ListenMove φ)} {e : Event} {called : List (Nat × φ)}
    (h : Run (Step c) start (pre ++ .line (some e) called :: post) x) :
    called.Perm ((Registrations.after (actsOf pre)).handlersOf e.type c) ∧
      (called.map Prod.fst).Nodup := by
  obtain ⟨y, t, hrun, hstep⟩ := h.split
  have htracks := System.Tracks.run (run_system hrun)
  generalize hevent : some e = event at hstep
  cases hstep with
  | @line l' rest called hlive hline hcalled =>
      rw [← hevent, Option.elim_some, Registry.callGo_eq,
        Registry.deliver_eq (htracks.slots c e.type hlive)] at hcalled
      obtain ⟨hperm, hnodup⟩ := htracks.holds.goBridge_perm e.type c
      exact ⟨hcalled.trans hperm, (hcalled.map Prod.fst).nodup_iff.mpr hnodup⟩

/-- The events of a stream of whole frames, as far as it has been read. -/
theorem heard_frames (h : Run (Step c) start l x) {fs : List Frame}
    (hread : bytesOf l <+: fs.flatMap Frame.segment) :
    heard l <+: fs.filterMap Frame.event ∧
      (bytesOf l = fs.flatMap Frame.segment → splitFirst '\n' x.reading.buf = none →
        heard l = fs.filterMap Frame.event) := by
  obtain ⟨reads, hreads, hbegins, hdone⟩ := heard_begins h
  refine ⟨hbegins.trans (eventsOf_begins (hreads ▸ hread)), fun hall hnone => ?_⟩
  rw [hdone hnone, eventsOf_frames (hreads.trans hall)]

/-- **From the socket to the Go handlers.**  Whatever the other goroutines register and
remove meanwhile, the events of a stream of plain messages are these messages, in order, none
twice, and none missing when the stream is read; and with each event, whatever the stream, the
handlers are called that are registered for its kind at that moment, each of them once. -/
theorem heard_plain (h : Run (Step c) start l x) {ms : List Outgoing}
    (hplain : ∀ m ∈ ms, m.IsPlain) (hread : bytesOf l <+: ms.flatMap Outgoing.wire) :
    heard l <+: ms.map Outgoing.received ∧
      (bytesOf l = ms.flatMap Outgoing.wire → splitFirst '\n' x.reading.buf = none →
        heard l = ms.map Outgoing.received) ∧
      ∀ pre e called post, l = pre ++ .line (some e) called :: post →
        called.Perm ((Registrations.after (actsOf pre)).handlersOf e.type c) ∧
          (called.map Prod.fst).Nodup := by
  obtain ⟨fs, hwire, hevents⟩ := exists_frames fun m hm => (hplain m hm).exists_frame
  rw [hwire] at hread ⊢
  obtain ⟨hbegins, hall⟩ := heard_frames h hread
  rw [hevents] at hbegins hall
  exact ⟨hbegins, hall, fun pre e called post hl => called_perm (hl ▸ h)⟩

/-- A request arrives in two pieces; between them a second handler is registered. -/
theorem heard_plain_two : ∃ l : List (ListenMove Nat),
    heard l = [Outgoing.received (.request pingRequest)] ∧
      ∀ pre e called post, l = pre ++ .line (some e) called :: post →
        called.Perm ((Registrations.after (actsOf pre)).handlersOf e.type 1) ∧
          (called.map Prod.fst).Nodup := by
  have h₁ : Run (Step 1) (start : Listening Nat) ([] ++ [.go (.create 1)]) _ :=
    Run.start.step (.go ⟨⟨by decide, rfl⟩, rfl⟩)
  have h₂ : Run (Step 1) (start : Listening Nat) (_ ++ [.go (.on .request 1 10 5)]) _ :=
    h₁.step (.go ⟨⟨Or.inr ⟨rfl, List.not_mem_nil⟩, fun _ => ⟨by decide, rfl⟩⟩, rfl⟩)
  have h₃ : Run (Step 1) (start : Listening Nat)
      (_ ++ [.piece ⟨['c', ' ', '~'], by decide, by decide⟩]) _ :=
    h₂.step (.piece ⟨rfl, List.not_mem_nil⟩ rfl)
  have h₄ : Run (Step 1) (start : Listening Nat) (_ ++ [.go (.on .request 1 20 6)]) _ :=
    h₃.step (.go ⟨⟨Or.inr ⟨rfl, List.not_mem_nil⟩, fun hnone => by cases hnone⟩, rfl⟩)
  have h₅ : Run (Step 1) (start : Listening Nat)
      (_ ++ [.piece ⟨['h', '\n', '\n'], by decide, by decide⟩]) _ :=
    h₄.step (.piece ⟨rfl, List.not_mem_nil⟩ rfl)
  have h₆ := h₅.step (.line ⟨rfl, List.not_mem_nil⟩ rfl (List.Perm.refl _))
  have h₇ := h₆.step (.line ⟨rfl, List.not_mem_nil⟩ rfl (List.Perm.refl _))
  have hplain : ∀ m ∈ [Outgoing.request pingRequest], m.IsPlain := by
    intro m hm
    obtain rfl := List.mem_singleton.mp hm
    exact pingRequest_plain
  have hbytes : [Outgoing.request pingRequest].flatMap Outgoing.wire =
      ['c', ' ', '~', 'h', '\n', '\n'] := by decide
  obtain ⟨_, hall, hcalled⟩ := heard_plain h₇ hplain (by rw [hbytes]; exact List.prefix_refl _)
  exact ⟨_, hall hbytes.symm rfl, hcalled⟩

end Listening

/-! ## Two programs -/

/-- The threads of one program that send on a client, and the goroutines of another program
that listens to the stream. -/
abbrev Link (ι φ : Type) : Type := Coupled (Senders ι) (Listening φ) Char

/-- A move of a sending thread, or of the other program. -/
abbrev LinkMove (ι φ : Type) : Type := CoupledMove (SendMove ι) (ListenMove φ)

namespace Link

open CoupledMove

variable {ι : Type} [DecidableEq ι] {connected : Bool} {c : ClientPtr}

/-- The moves of the two programs, in any order; a read returns what comes next in the
stream. -/
abbrev Step (connected : Bool) (c : ClientPtr) : Link ι φ → LinkMove ι φ → Link ι φ → Prop :=
  Coupled.Step (Senders.Step connected) Threads.shared (Listening.Step c) ListenMove.bytes

/-- Nothing has been sent, nothing read, and no handler registered. -/
abbrev start : Link ι φ := ⟨Threads.start [], .start, []⟩

/-- **From the threads of one program to the handlers of the other.**  Threads send plain
messages while the other program reads them, and its goroutines register and remove handlers.
The messages that have been heard are the first ones of those that were sent, in the order of
`writeMu`, and all of them when all has been read; each reaches the handlers that are
registered for its kind at that moment, each of them once. -/
theorem heard_sent {l : List (LinkMove ι φ)} {x : Link ι φ} (h : Run (Step connected c) start l x)
    (hplain : PlainSends (sources l)) :
    heard (sinks l) <+: (messagesOf (sources l)).map Outgoing.received ∧
      (x.got = x.source.shared → splitFirst '\n' x.sink.reading.buf = none →
        heard (sinks l) = (messagesOf (sources l)).map Outgoing.received) ∧
      ∀ pre e called post, sinks l = pre ++ .line (some e) called :: post →
        called.Perm ((Registrations.after (actsOf pre)).handlersOf e.type c) ∧
          (called.map Prod.fst).Nodup := by
  obtain ⟨hgot, hbegins⟩ := Coupled.got_begins (fun _ _ _ hstep => hstep.grows) h
  have hsink := Coupled.run_sink h
  obtain ⟨fs, hstream, hevents⟩ := exists_frames_of_sent hplain.framed
  have hshared : x.source.shared = fs.flatMap Frame.segment := by
    rw [Senders.shared_eq (Coupled.run_source h), List.nil_append, hstream]
  have hread : x.got = bytesOf (sinks l) := hgot
  rw [hshared, hread] at hbegins ⊢
  obtain ⟨hheard, hall⟩ := Listening.heard_frames hsink hbegins
  rw [hevents] at hheard hall
  exact ⟨hheard, hall, fun pre e called post hl => Listening.called_perm (hl ▸ hsink)⟩

/-- A request is sent to a program with one handler. -/
theorem heard_sent_one : ∃ l : List (LinkMove Unit Nat),
    heard (sinks l) <+: (messagesOf (sources l)).map Outgoing.received ∧
      ∀ pre e called post, sinks l = pre ++ .line (some e) called :: post →
        called.Perm ((Registrations.after (actsOf pre)).handlersOf e.type 1) ∧
          (called.map Prod.fst).Nodup := by
  have h₁ : Run (Step true 1) (start : Link Unit Nat) ([] ++ [.sink (.go (.create 1))]) _ :=
    Run.start.step (.sink (.go ⟨⟨by decide, rfl⟩, rfl⟩) List.nil_prefix)
  have h₂ : Run (Step true 1) (start : Link Unit Nat)
      (_ ++ [.sink (.go (.on .request 1 10 5))]) _ :=
    h₁.step (.sink (.go ⟨⟨Or.inr ⟨rfl, List.not_mem_nil⟩, fun _ => ⟨by decide, rfl⟩⟩, rfl⟩)
      List.nil_prefix)
  have h₃ : Run (Step true 1) (start : Link Unit Nat)
      (_ ++ [.source (.call () (.send (some pingRequest)))]) _ :=
    h₂.step (.source (.passed rfl (.call rfl)))
  have h₄ : Run (Step true 1) (start : Link Unit Nat)
      (_ ++ [.source (.lock () (.send (some pingRequest)))]) _ :=
    h₃.step (.source (.goesOn (by simp [Move.GoesOn]) (.lock rfl rfl)))
  have h₅ : Run (Step true 1) (start : Link Unit Nat) (_ ++ [.source (.act () (some 5))]) _ :=
    h₄.step (.source (.goesOn (by simp [Move.GoesOn]) (.act rfl _)))
  have h₆ : Run (Step true 1) (start : Link Unit Nat)
      (_ ++ [.sink (.piece ⟨['c', ' ', '~', 'h', '\n'], by decide, by decide⟩)]) _ :=
    h₅.step (.sink (.piece ⟨rfl, List.not_mem_nil⟩ rfl) (by decide))
  have h₇ := h₆.step (.sink (.line ⟨rfl, List.not_mem_nil⟩ rfl (List.Perm.refl _)) (by decide))
  obtain ⟨hheard, _, hcalled⟩ := heard_sent h₇ (plainSends_ping (i := ()) rfl)
  exact ⟨_, hheard, hcalled⟩

end Link

end SporeClient.Go
