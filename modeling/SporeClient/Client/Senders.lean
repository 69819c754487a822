/-
  Client/Senders.lean --- threads that send on one client at the same time.

  WHAT THIS FILE IS FOR.  The callbacks of `listen` answer on the thread that listens, while
  other threads send.  Each send does its checks and serializes its message, then takes
  `writeMu`, makes its two writes and lets `writeMu` go; the moves of different threads come
  in any order.  `Senders.serialized` says that the stream is the one of the same sends made
  one after another, so what is proved of `Sender.attempt` holds of threads, too.

  `errorCode` and `errorWhat`, which all threads write without the lock, are not in this
  model, and neither are sends during `connect` and `disconnect`.
-/
import SporeClient.Client.Writes
import SporeClient.Foundation.Critical

set_option autoImplicit false

namespace SporeClient.Client

open SporeClient.Foundation
open SporeClient.Parser
open SporeClient.Wire

/-! ## `writeRaw` under its lock -/

/-- Where `writeRaw` is between `lock_guard` and its end. -/
inductive WritePlace where
  | data (payload : Bytes)
  | newline
  deriving DecidableEq

/-- `Client::writeRaw` on the stream of the socket. -/
def writeCode : Critical SendCall WritePlace WriteOutcome Bytes where
  start call := .data (call.payload.getD [])
  next place outcome stream :=
    match place, outcome with
    | .data _, none => (stream, none)
    | .data payload, some k => (stream ++ payload.take k, some .newline)
    | .newline, none => (stream, none)
    | .newline, some j => (stream ++ ['\n'].take j, none)

/-- The call gets as far as `writeRaw`. -/
def SendCall.passes (connected : Bool) (call : SendCall) : Bool :=
  connected && call.payload.isSome

/-- The sending threads of a client, and the stream of its socket. -/
abbrev Senders (ι : Type) : Type := Threads ι SendCall WritePlace Bytes

/-- A move of a sending thread. -/
abbrev SendMove (ι : Type) : Type := Move ι SendCall WriteOutcome

section

variable {ι : Type} [DecidableEq ι]

/-- The moves of the sending threads, in any order. -/
inductive Senders.Step (connected : Bool) : Senders ι → SendMove ι → Senders ι → Prop
  /-- A call without connection or message returns at once. -/
  | refused {t : Senders ι} {i : ι} {call : SendCall} (h : t.phase i = .idle)
      (hrefused : call.passes connected = false) : Step connected t (.call i call) t
  | passed {t u : Senders ι} {i : ι} {call : SendCall} (h : call.passes connected = true)
      (hstep : Threads.Step writeCode t (.call i call) u) : Step connected t (.call i call) u
  | goesOn {t u : Senders ι} {a : SendMove ι} (h : a.GoesOn)
      (hstep : Threads.Step writeCode t a u) : Step connected t a u

/-- The move is not a call that is refused. -/
def Enters (connected : Bool) : SendMove ι → Bool
  | .call _ call => call.passes connected
  | _ => true

/-- Without the calls that are refused, a run is one of threads under a lock. -/
theorem Senders.run_enters {connected : Bool} {t₀ t : Senders ι} {moves : List (SendMove ι)}
    (h : Run (Senders.Step connected) t₀ moves t) :
    Run (Threads.Step writeCode) t₀ (moves.filter (Enters connected)) t := by
  induction h with
  | start => exact .start
  | @step _ _ _ a _ hstep ih =>
      rw [List.filter_append]
      cases hstep with
      | refused h hrefused => simpa [Enters, hrefused] using ih
      | passed h hstep => simpa [Enters, h] using ih.step hstep
      | goesOn h hstep =>
          have ha : Enters connected a = true := by
            cases a with
            | call i call => exact absurd rfl (h i call)
            | lock i call => rfl
            | act i o => rfl
            | unlock i => rfl
          simpa [ha] using ih.step hstep

end

/-! ## What a send has written -/

/-- The bytes that the writes of one call have put on the stream. -/
def wrote (payload : Bytes) : List WriteOutcome → Bytes
  | some k :: some j :: _ => payload.take k ++ ['\n'].take j
  | some k :: _ => payload.take k
  | _ => []

theorem writeCode_resume_newline (results : List WriteOutcome) (stream : Bytes) :
    (writeCode.resume (some .newline) results stream).1 =
      match results with
      | some j :: _ => stream ++ ['\n'].take j
      | _ => stream := by
  rcases results with _ | ⟨_ | j, rest⟩ <;> simp [Critical.resume, writeCode]

/-- A call alone appends what it writes. -/
theorem writeCode_exec (call : SendCall) (results : List WriteOutcome) (stream : Bytes) :
    (writeCode.exec call results stream).1 = stream ++ wrote (call.payload.getD []) results := by
  rcases results with _ | ⟨_ | k, rest⟩
  · simp [wrote]
  · simp [Critical.exec, Critical.resume, writeCode, wrote]
  · rw [Critical.exec, Critical.resume]
    have hresume := writeCode_resume_newline rest (stream ++ (call.payload.getD []).take k)
    rcases rest with _ | ⟨_ | j, rest⟩ <;> simpa [writeCode, wrote] using hresume

/-- A call that took the lock, as an attempt of its own. -/
def Served.attempt {ι : Type} (x : Threads.Served ι SendCall WriteOutcome) : SendAttempt :=
  ⟨x.job, x.results[0]?.join, x.results[1]?.join⟩

/-- When the writes of a call are done, it has written what its attempt writes. -/
theorem wrote_attempt {ι : Type} {x : Threads.Served ι SendCall WriteOutcome} {stream : Bytes}
    (hend : (writeCode.exec x.job x.results stream).2 = none) (payload : Bytes) :
    wrote payload x.results =
      wrote payload [(Served.attempt x).first, (Served.attempt x).second] := by
  obtain ⟨i, call, results⟩ := x
  rcases results with _ | ⟨_ | k, _ | ⟨_ | j, rest⟩⟩
  · rfl
  · rfl
  · rfl
  · rfl
  · simp [Critical.exec, Critical.resume, writeCode] at hend
  · rfl
  · rfl

/-- An attempt on a connected client appends what it writes. -/
theorem Sender.attempt_stream {s : Sender} (hc : s.client.connected = true) {a : SendAttempt}
    {payload : Bytes} (h : a.call.payload = some payload) :
    (s.attempt a).stream = s.stream ++ wrote payload [a.first, a.second] := by
  rcases s.attempt_eq hc a with ⟨hnone, _⟩ | ⟨payload', hpayload, heq⟩
  · simp [hnone] at h
  · obtain rfl := Option.some.inj (hpayload.symm.trans h)
    rw [heq]
    cases a.first with
    | none => simp [writeRaw, wrote]
    | some k => cases a.second <;> simp [writeRaw, wrote]

/-! ## Sends one after another -/

section

variable {ι : Type} [DecidableEq ι] {s : Sender} {moves : List (SendMove ι)} {t : Senders ι}

omit [DecidableEq ι] in
theorem served_enters (connected : Bool) (moves : List (SendMove ι)) :
    Threads.served (moves.filter (Enters connected)) = Threads.served moves := by
  induction moves using List.reverseRecOn with
  | nil => rfl
  | append_singleton moves a ih =>
      rw [List.filter_append, List.filter_singleton, Threads.served_concat]
      cases henters : Enters connected a with
      | true => rw [cond_true, Threads.served_concat, ih]
      | false =>
          cases a with
          | call i call => rw [cond_false, List.append_nil, ih, Threads.serve]
          | lock i call => simp [Enters] at henters
          | act i o => simp [Enters] at henters
          | unlock i => simp [Enters] at henters

theorem callsOf_enters (connected : Bool) (i : ι) (moves : List (SendMove ι)) :
    Threads.callsOf i (moves.filter (Enters connected)) =
      (Threads.callsOf i moves).filter (SendCall.passes connected) := by
  induction moves with
  | nil => rfl
  | cons a moves ih =>
      rw [← List.singleton_append, List.filter_append, Threads.callsOf_append,
        Threads.callsOf_append, List.filter_append, ih]
      congr 1
      cases a with
      | call j call =>
          by_cases hj : j = i <;> cases hpass : call.passes connected <;>
            simp [Enters, Threads.callsOf, hj, hpass]
      | lock j call => rfl
      | act j o => rfl
      | unlock j => rfl

omit [DecidableEq ι] in
/-- The stream after sends, each alone. -/
theorem runServed_eq (done : List (Threads.Served ι SendCall WriteOutcome)) (stream : Bytes) :
    Threads.runServed writeCode done stream =
      stream ++ done.flatMap fun x => wrote (x.job.payload.getD []) x.results := by
  induction done generalizing stream with
  | nil => simp
  | cons x done ih => rw [Threads.runServed_cons, ih, writeCode_exec, List.flatMap_cons]; simp

omit [DecidableEq ι] in
/-- Sends that are done are attempts, one after another. -/
theorem runServed_attempts (hc : s.client.connected = true)
    {done : List (Threads.Served ι SendCall WriteOutcome)}
    (hpass : ∀ x ∈ done, x.job.passes s.client.connected = true)
    (hend : Threads.AllEnd writeCode done s.stream) :
    Threads.runServed writeCode done s.stream =
      ((done.map Served.attempt).foldl Sender.attempt s).stream := by
  induction done generalizing s with
  | nil => rfl
  | cons x done ih =>
      have hx := hpass x List.mem_cons_self
      simp only [SendCall.passes, hc, Bool.true_and] at hx
      obtain ⟨payload, hpayload⟩ := Option.isSome_iff_exists.mp hx
      have hstream : (writeCode.exec x.job x.results s.stream).1 =
          (s.attempt (Served.attempt x)).stream := by
        rw [writeCode_exec, wrote_attempt hend.1, hpayload,
          Sender.attempt_stream hc (a := Served.attempt x) hpayload]
        rfl
      have hc' := s.attempt_connected hc (Served.attempt x)
      rw [Threads.runServed_cons, hstream, List.map_cons, List.foldl_cons]
      refine ih hc' (fun y hy => ?_) (by rw [← hstream]; exact hend.2)
      rw [hc'.trans hc.symm]
      exact hpass y (List.mem_cons_of_mem _ hy)

/-- The sends of a run have passed their checks. -/
theorem passes_of_mem_served
    (h : Run (Senders.Step s.client.connected) (Threads.start s.stream) moves t) :
    ∀ x ∈ Threads.served moves, x.job.passes s.client.connected = true := by
  intro x hx
  have hcalls := (Threads.serialized_of_run (Senders.run_enters h)).calls x.thread
  rw [callsOf_enters, served_enters] at hcalls
  have hmem : x.job ∈ (Threads.callsOf x.thread moves).filter
      (SendCall.passes s.client.connected) := by
    rw [hcalls]
    refine List.mem_append_left _ (List.mem_map_of_mem (List.mem_filter.mpr ⟨hx, by simp⟩))
  exact (List.mem_filter.mp hmem).2

/-- **Threads send as if one after another.**  In every interleaving the stream is that of
the same sends made in the order in which they took `writeMu`, and of the thread that has it
now, behind them, what its own call has written.  Each thread's sends are in this order as
the thread made them, none twice and none left out but the one that waits. -/
theorem Senders.serialized
    (h : Run (Senders.Step s.client.connected) (Threads.start s.stream) moves t) :
    (t.holder = none →
        t.shared = (((Threads.served moves).map Served.attempt).foldl Sender.attempt s).stream) ∧
      (∀ i, t.holder = some i →
        ∃ done call results, Threads.served moves = done ++ [⟨i, call, results⟩] ∧
        t.shared = ((done.map Served.attempt).foldl Sender.attempt s).stream ++
          wrote (call.payload.getD []) results) ∧
      ∀ i, (Threads.callsOf i moves).filter (SendCall.passes s.client.connected) =
        ((Threads.served moves).filter fun x => x.thread = i).map Threads.Served.job ++
          (t.phase i).pending := by
  have hserial := Threads.serialized_of_run (Senders.run_enters h)
  have hpass := passes_of_mem_served h
  have hconnected : ∀ x ∈ Threads.served moves, s.client.connected = true := fun x hx =>
    (Bool.and_eq_true_iff.mp (hpass x hx)).1
  have hattempts : ∀ done, (∀ x ∈ done, x ∈ Threads.served moves) →
      Threads.AllEnd writeCode done s.stream → Threads.runServed writeCode done s.stream =
        ((done.map Served.attempt).foldl Sender.attempt s).stream := by
    intro done hdone hend
    cases done with
    | nil => rfl
    | cons x rest =>
        exact runServed_attempts (hconnected x (hdone x List.mem_cons_self))
          (fun y hy => hpass y (hdone y hy)) hend
  refine ⟨fun hfree => ?_, fun i hi => ?_, fun i => ?_⟩
  · have hend := hserial.free hfree
    rw [served_enters] at hend
    rw [hserial.shared, served_enters]
    exact hattempts _ (fun _ hx => hx) hend
  · obtain ⟨done, call, results, hserved, hend, _⟩ := hserial.held i hi
    rw [served_enters] at hserved
    refine ⟨done, call, results, hserved, ?_⟩
    rw [hserial.shared, served_enters, hserved, Threads.runServed_append,
      hattempts done (fun x hx => by rw [hserved]; exact List.mem_append_left _ hx) hend,
      runServed_eq]
    simp
  · rw [← callsOf_enters, hserial.calls i, served_enters]

/-! ## Progress -/

/-- How many more writes there are after one at this place. -/
def WritePlace.rank : WritePlace → Nat
  | .data _ => 1
  | .newline => 0

theorem writeCode_rank {place place' : WritePlace} {o : WriteOutcome} {stream : Bytes}
    (h : (writeCode.next place o stream).2 = some place') : place'.rank < place.rank := by
  cases place <;> cases o <;> simp [writeCode] at h
  rw [← h]
  exact Nat.zero_lt_one

/-- A move, with the refused calls among them, uses up one of the moves of its thread. -/
theorem Senders.Step.movesLeft_le {connected : Bool} {t u : Senders ι} {a : SendMove ι}
    (h : Senders.Step connected t a u) (i : ι) :
    ([a].countP fun a => a.thread = i) + Threads.movesLeft WritePlace.rank 1 (u.phase i) ≤
      Threads.movesLeft WritePlace.rank 1 (t.phase i) +
        (1 + 4) * (Threads.callsOf i [a]).length := by
  have hstart : ∀ call, (writeCode.start call).rank ≤ 1 := fun _ => Nat.le_refl 1
  have hlock : Threads.Step writeCode t a u → _ := fun hstep =>
    hstep.movesLeft_le WritePlace.rank 1 hstart (fun _ _ _ _ => writeCode_rank) i
  cases h with
  | @refused j call hidle hrefused =>
      by_cases hj : j = i <;> simp [Move.thread, Threads.callsOf, hj]
      omega
  | passed _ hstep => exact hlock hstep
  | goesOn _ hstep => exact hlock hstep

/-- **Threads that send do not block each other for good.**  As long as a thread is in a
send, some thread can go on, and no thread makes more than five moves for each of its
sends; at no time do two threads hold the lock. -/
theorem Senders.progress {connected : Bool} {stream : Bytes}
    (h : Run (Senders.Step connected) (Threads.start stream) moves t) :
    (∀ i, t.phase i ≠ .idle → ∃ a u, Senders.Step connected t a u ∧ a.GoesOn) ∧
      (∀ i, (moves.countP fun a => a.thread = i) ≤ 5 * (Threads.callsOf i moves).length) ∧
      ∀ i j, (t.phase i).Holds → (t.phase j).Holds → i = j := by
  have hrun := Senders.run_enters h
  refine ⟨fun i hi => ?_, fun i => ?_, fun i j => (Threads.serialized_of_run hrun).eq_of_holds⟩
  · obtain ⟨a, u, hstep, ha⟩ := Threads.exists_move hrun hi
    exact ⟨a, u, .goesOn ha hstep, ha⟩
  · exact (Nat.le_add_right _ _).trans
      (Threads.moves_le WritePlace.rank 1 i (fun hstep => hstep.movesLeft_le i) h)

end

/-! ## Two threads -/

/-- Two threads send; the second one takes the lock first, and when it has let it go, the
first one writes its text. -/
def twoThreads : List (SendMove Bool) :=
  [.call true (.send (some pingRequest)), .call false (.sendRaw ['x']),
    .lock false (.sendRaw ['x']), .act false (some 1), .act false (some 1), .unlock false,
    .lock true (.send (some pingRequest)), .act true (some 5)]

theorem run_twoThreads : ∃ t : Senders Bool, t.holder = some true ∧ t.phase true ≠ .idle ∧
    Run (Senders.Step true) (Threads.start []) twoThreads t := by
  have hgoes : ∀ a ∈ twoThreads.drop 2, a.GoesOn := by
    simp [twoThreads, Move.GoesOn]
  simp only [twoThreads, List.drop_succ_cons, List.drop_zero, List.forall_mem_cons] at hgoes
  obtain ⟨hlock, hdata, hnewline, hunlock, hlock', hdata', _⟩ := hgoes
  have hboth : Run (Senders.Step true) (Threads.start []) (twoThreads.take 2) _ :=
    .step (.step .start (.passed rfl (.call rfl))) (.passed rfl (.call rfl))
  have hfirst := (((hboth.step (.goesOn hlock (.lock rfl rfl))).step
    (.goesOn hdata (.act rfl _))).step (.goesOn hnewline (.act rfl _))).step
      (.goesOn hunlock (.unlock rfl))
  have hsecond := (hfirst.step (.goesOn hlock' (.lock rfl rfl))).step (.goesOn hdata' (.act rfl _))
  exact ⟨_, rfl, by decide, hsecond⟩

/-- The text of the first one stands behind the whole of the second one. -/
theorem Senders.serialized_two : ∃ t : Senders Bool, t.holder = some true ∧
    ∃ done call results, Threads.served twoThreads = done ++ [⟨true, call, results⟩] ∧
      t.shared = ((done.map Served.attempt).foldl Sender.attempt
        ⟨{ connected := true }, []⟩).stream ++ wrote (call.payload.getD []) results := by
  obtain ⟨t, hholder, _, hrun⟩ := run_twoThreads
  exact ⟨t, hholder,
    (Senders.serialized (s := ⟨{ connected := true }, []⟩) hrun).2.1 true hholder⟩

/-- It can go on. -/
theorem Senders.progress_two : ∃ t a u, (t : Senders Bool).phase true ≠ .idle ∧
    Senders.Step true t a u ∧ a.GoesOn := by
  obtain ⟨t, _, hbusy, hrun⟩ := run_twoThreads
  obtain ⟨a, u, hstep, ha⟩ := (Senders.progress hrun).1 true hbusy
  exact ⟨t, a, u, hbusy, hstep, ha⟩

end SporeClient.Client
