/-
  Client/Chain.lean --- clients that pass on what they are called with.

  WHAT THIS FILE IS FOR.  A program has two clients: its handlers on the first one send what
  they are called with on the second one.  In a chain of such programs each stream is read
  by the next one, and the reads and sends of all of them are in any order.  Every two
  streams in a row are an exchange (`Chain.run_exchange`), whose answer to a message is the
  message; so along a chain of any length messages are neither lost nor doubled, change
  their order or their contents (`Chain.forwards`).
-/
import SporeClient.Client.Exchange

set_option autoImplicit false

namespace SporeClient.Client

open SporeClient.Foundation
open SporeClient.Parser
open SporeClient.Wire

/-! ## Passing on -/

/-- The handlers that send what they are called with. -/
def forward : Event → List Outgoing
  | .request r => [.request r]
  | .response r => [.response r]
  | .responseError e => [.responseError e]
  | .witness w => [.witness w]
  | .publish p => [.publish p]
  | .parseError _ _ _ => []

/-- The flags written after `ok`. -/
theorem filter_add_okWord (flags : FlagSet) :
    (flags.add okWord).toList.filter (· ≠ okWord) = flags.toList.filter (· ≠ okWord) := by
  apply SortedSet.filter_toList_congr
  intro f hf
  rw [SortedSet.mem_add, or_iff_right (of_decide_eq_true hf)]

/-- **A plain message is passed on plain, and arrives as it arrived before.** -/
theorem forward_received {m : Outgoing} (h : m.IsPlain) :
    ∃ m', forward m.received = [m'] ∧ m'.IsPlain ∧ m'.received = m.received := by
  cases m with
  | request r =>
      obtain ⟨⟨hkeys, hvalues, hflags⟩, hcommand, hwitness, hpublish, hhandle⟩ := h
      exact ⟨_, rfl, ⟨⟨hkeys, hvalues, hflags⟩, hcommand, hwitness, hpublish, hhandle⟩, rfl⟩
  | response r =>
      obtain ⟨⟨hkeys, hvalues, hflags⟩, hcommand, hhandle, hcolon, herror⟩ := h
      have hwords : ∀ f ∈ (r.flags.add okWord).toList, IsWord f := by
        intro f hf
        rcases SortedSet.mem_add.mp (SortedSet.mem_toList.mp hf) with rfl | hf
        · exact isWord_okWord
        · exact hflags f hf
      have hnot : errorWord ∉ r.flags.add okWord := by
        rw [SortedSet.mem_add, not_or]
        exact ⟨by decide, herror⟩
      refine ⟨_, rfl, ⟨⟨hkeys, hvalues, hwords⟩, hcommand, hhandle, hcolon, hnot⟩, ?_⟩
      have hserialize : Response.serialize
          ⟨{ r.toMessage with flags := r.flags.add okWord, raw := r.serialize }⟩ =
            r.serialize := by
        rw [Response.serialize, Response.serialize, filter_add_okWord]
      have hflag : (r.flags.add okWord).add okWord = r.flags.add okWord :=
        SortedSet.ext fun f => by simp
      simp only [Outgoing.received, hserialize, hflag]
  | publish p =>
      obtain ⟨⟨hkeys, hvalues, hflags⟩, htopic⟩ := h
      exact ⟨_, rfl, ⟨⟨hkeys, hvalues, hflags⟩, htopic⟩, rfl⟩
  | _ => exact absurd h id

/-- Passing on and arriving again changes nothing. -/
theorem forward_plain {es : List Event}
    (h : ∀ e ∈ es, ∃ m : Outgoing, m.IsPlain ∧ m.received = e) :
    (es.flatMap forward).map Outgoing.received = es ∧ ∀ m ∈ es.flatMap forward, m.IsPlain := by
  induction es with
  | nil => simp
  | cons e es ih =>
      obtain ⟨m, hm, rfl⟩ := h e List.mem_cons_self
      obtain ⟨m', hm', hplain, hreceived⟩ := forward_received hm
      obtain ⟨hmap, hall⟩ := ih fun e he => h e (List.mem_cons_of_mem _ he)
      rw [List.flatMap_cons, hm']
      refine ⟨by simp [hreceived, hmap], ?_⟩
      rw [List.singleton_append, List.forall_mem_cons]
      exact ⟨hplain, hall⟩

/-! ## The chain -/

/-- The streams, and what the handlers of each program have yet to send: program `k` reads
stream `k` and writes stream `k + 1`. -/
structure Chain (ι : Type) where
  streams : Nat → Channel ι
  todo : Nat → List Outgoing

/-- A move on one of the streams. -/
structure ChainMove (ι : Type) where
  stream : Nat
  move : ChannelMove ι

/-- The moves on a stream. -/
def streamMoves {ι : Type} (k : Nat) (moves : List (ChainMove ι)) : List (ChannelMove ι) :=
  moves.filterMap fun a => if a.stream = k then some a.move else none

/-- The moves on two streams in a row. -/
def pairMoves {ι : Type} (k : Nat) (moves : List (ChainMove ι)) : List (ExchangeMove ι ι) :=
  moves.filterMap fun a =>
    if a.stream = k then some (.there a.move)
    else if a.stream = k + 1 then some (.back a.move)
    else none

section

variable {ι : Type} [DecidableEq ι]

/-- Nothing has been sent. -/
def Chain.start : Chain ι := ⟨fun _ => Channel.start, fun _ => []⟩

/-- The chain after a move on a stream. -/
def Chain.set (x : Chain ι) (k : Nat) (u : Channel ι) : Chain ι :=
  { x with streams := Function.update x.streams k u }

/-- The moves of `n` programs, of the client that sends to the first one, and of the client
that reads from the last one, in any order.  The thread `me` of each program is in
`listen`, and nothing else sends on its second client. -/
inductive Chain.Step (n : Nat) (me : ι) : Chain ι → ChainMove ι → Chain ι → Prop
  | send {x : Chain ι} {a : SendMove ι} {u : Channel ι}
      (h : Channel.Step true (x.streams 0) (.source a) u) :
      Step n me x ⟨0, .source a⟩ (x.set 0 u)
  /-- The next read of a program, when all its handlers have returned. -/
  | hear {x : Chain ι} {k : Nat} {chunk : Chunk} {u : Channel ι} (hk : k < n)
      (hidle : (x.streams (k + 1)).source.phase me = .idle) (htodo : x.todo k = [])
      (h : Channel.Step true (x.streams k) (.take chunk) u) :
      Step n me x ⟨k, .take chunk⟩
        { x.set k u with
          todo := Function.update x.todo k
            ((u.delivered.drop (x.streams k).delivered.length).flatMap forward) }
  /-- A handler sends. -/
  | say {x : Chain ι} {k : Nat} {m : Outgoing} {rest : List Outgoing} {u : Channel ι}
      (hk : k < n) (htodo : x.todo k = m :: rest)
      (h : Channel.Step true (x.streams (k + 1)) (.source (.call me m.call)) u) :
      Step n me x ⟨k + 1, .source (.call me m.call)⟩
        { x.set (k + 1) u with todo := Function.update x.todo k rest }
  /-- The send goes on. -/
  | goesOn {x : Chain ι} {k : Nat} {a : SendMove ι} {u : Channel ι} (hk : k < n)
      (ha : ∀ i call, a ≠ .call i call)
      (h : Channel.Step true (x.streams (k + 1)) (.source a) u) :
      Step n me x ⟨k + 1, .source a⟩ (x.set (k + 1) u)
  /-- The read of the client at the end. -/
  | read {x : Chain ι} {chunk : Chunk} {u : Channel ι}
      (h : Channel.Step true (x.streams n) (.take chunk) u) :
      Step n me x ⟨n, .take chunk⟩ (x.set n u)

variable {n k : Nat} {me : ι} {moves : List (ChainMove ι)} {x y : Chain ι} {a : ChainMove ι}

/-- A move is a move on its stream, and moves no other. -/
theorem Chain.Step.streams (h : Chain.Step n me x a y) :
    Channel.Step true (x.streams a.stream) a.move (y.streams a.stream) ∧
      ∀ j, j ≠ a.stream → y.streams j = x.streams j := by
  cases h <;>
  · refine ⟨by simpa [Chain.set] using ‹Channel.Step true _ _ _›, fun j hj => ?_⟩
    simp [Chain.set, Function.update_of_ne hj]

/-- Each stream alone is a channel. -/
theorem Chain.run_stream (h : Run (Chain.Step n me) Chain.start moves x) (k : Nat) :
    Run (Channel.Step true) Channel.start (streamMoves k moves) (x.streams k) := by
  induction h with
  | start => exact .start
  | @step _ s t a _ hstep ih =>
      obtain ⟨hmove, hother⟩ := hstep.streams
      rw [streamMoves, List.filterMap_append]
      by_cases ha : a.stream = k
      · subst ha
        simpa [streamMoves] using ih.step hmove
      · simpa [streamMoves, ha, hother k (Ne.symm ha)] using ih

/-- Program `k` with its two streams. -/
def Chain.pair (x : Chain ι) (k : Nat) : Exchange ι ι :=
  ⟨x.streams k, x.streams (k + 1), x.todo k⟩

/-- A move on the first stream of a pair. -/
theorem Chain.Step.there (h : Chain.Step n me x a y) (hk : k < n) (ha : a.stream = k) :
    Exchange.Step me forward (x.pair k) (.there a.move) (y.pair k) := by
  subst ha
  cases h with
  | send h => simpa [pair, set] using Exchange.Step.ask (x := x.pair 0) h
  | @hear j _ _ _ hidle htodo h =>
      simpa [pair, set] using Exchange.Step.hear (x := x.pair j) hidle htodo h
  | @say j _ _ _ _ _ h =>
      have hne : j + 1 ≠ j := Nat.succ_ne_self j
      simpa [pair, set, hne] using Exchange.Step.ask (x := x.pair (j + 1)) h
  | @goesOn j _ _ _ _ h => simpa [pair, set] using Exchange.Step.ask (x := x.pair (j + 1)) h
  | read _ => exact absurd hk (Nat.lt_irrefl n)

/-- A move on the second stream of a pair. -/
theorem Chain.Step.back (h : Chain.Step n me x a y) (ha : a.stream = k + 1) :
    Exchange.Step me forward (x.pair k) (.back a.move) (y.pair k) := by
  have hne : k ≠ k + 1 := Nat.ne_of_lt (Nat.lt_succ_self k)
  cases h with
  | send _ => exact absurd ha (Nat.ne_of_lt (Nat.succ_pos k))
  | hear _ _ _ h =>
      obtain rfl : _ = k + 1 := ha
      simpa [pair, set, hne] using Exchange.Step.other (x := x.pair k) (by simp) h
  | say _ htodo h =>
      obtain rfl := Nat.succ_injective ha
      simpa [pair, set, hne] using Exchange.Step.say (x := x.pair _) htodo h
  | @goesOn _ b _ _ hcall h =>
      obtain rfl := Nat.succ_injective ha
      have hother : ∀ call, (.source b : ChannelMove ι) ≠ .source (.call me call) :=
        fun call heq => hcall _ _ (PipeMove.source.inj heq)
      simpa [pair, set, hne] using Exchange.Step.other (x := x.pair _) hother h
  | read h =>
      obtain rfl : _ = k + 1 := ha
      simpa [pair, set, hne] using Exchange.Step.other (x := x.pair k) (by simp) h

/-- A move on another stream. -/
theorem Chain.Step.elsewhere (h : Chain.Step n me x a y) (hk : a.stream ≠ k)
    (hk' : a.stream ≠ k + 1) : y.pair k = x.pair k := by
  obtain ⟨_, hother⟩ := h.streams
  have htodo : y.todo k = x.todo k := by
    cases h with
    | send _ => rfl
    | hear _ _ _ _ => exact Function.update_of_ne (Ne.symm hk) ..
    | say _ _ _ => exact Function.update_of_ne (fun hj => hk' (congrArg Nat.succ hj.symm)) ..
    | goesOn _ _ _ => rfl
    | read _ => rfl
  rw [pair, pair, hother k (Ne.symm hk), hother (k + 1) (Ne.symm hk'), htodo]

/-- **Two streams in a row are an exchange**, in which the answer to a message is the
message. -/
theorem Chain.run_exchange (h : Run (Chain.Step n me) Chain.start moves x) (hk : k < n) :
    Run (Exchange.Step me forward) Exchange.start (pairMoves k moves) (x.pair k) := by
  induction h with
  | start => exact .start
  | @step _ s t a _ hstep ih =>
      rw [pairMoves, List.filterMap_append]
      by_cases hthere : a.stream = k
      · simpa [pairMoves, hthere] using ih.step (hstep.there hk hthere)
      · by_cases hback : a.stream = k + 1
        · simpa [pairMoves, hback] using ih.step (hstep.back hback)
        · rw [hstep.elsewhere hthere hback]
          simpa [pairMoves, hthere, hback] using ih

omit [DecidableEq ι] in
theorem backMoves_pairMoves (k : Nat) (moves : List (ChainMove ι)) :
    backMoves (pairMoves k moves) = streamMoves (k + 1) moves := by
  rw [backMoves, pairMoves, streamMoves, List.filterMap_filterMap]
  congr 1
  funext a
  by_cases hthere : a.stream = k
  · simp [hthere]
  · by_cases hback : a.stream = k + 1 <;> simp [hthere, hback]

/-! ## What arrives -/

/-- On the streams between the programs only `me` sends. -/
theorem Chain.callsOf_other (h : Run (Chain.Step n me) Chain.start moves x) {i : ι}
    (hi : i ≠ me) (k : Nat) :
    Threads.callsOf i (sourceMoves (streamMoves (k + 1) moves)) = [] := by
  induction h with
  | start => rfl
  | @step moves _ _ a _ hstep ih =>
      have happend : Threads.callsOf i (sourceMoves (streamMoves (k + 1) (moves ++ [a]))) =
          Threads.callsOf i (sourceMoves (streamMoves (k + 1) [a])) := by
        rw [streamMoves, List.filterMap_append, sourceMoves_append, Threads.callsOf_append]
        exact (congrArg (· ++ _) ih).trans (List.nil_append _)
      rw [happend]
      cases hstep with
      | send _ => simp [streamMoves, sourceMoves, Threads.callsOf]
      | @hear j _ _ _ _ _ _ =>
          by_cases hj : j = k + 1 <;> simp [streamMoves, sourceMoves, Threads.callsOf, hj]
      | @say j _ _ _ _ _ _ =>
          by_cases hj : j = k <;> simp [streamMoves, sourceMoves, Threads.callsOf, hj, Ne.symm hi]
      | @goesOn j b _ _ hcall _ =>
          by_cases hj : j = k
          · cases b with
            | call i call => exact absurd rfl (hcall i call)
            | lock _ _ => simp [streamMoves, sourceMoves, Threads.callsOf, hj]
            | act _ _ => simp [streamMoves, sourceMoves, Threads.callsOf, hj]
            | unlock _ => simp [streamMoves, sourceMoves, Threads.callsOf, hj]
          · simp [streamMoves, sourceMoves, Threads.callsOf, hj]
      | read _ =>
          by_cases hj : n = k + 1 <;> simp [streamMoves, sourceMoves, Threads.callsOf, hj]

/-- The job of a send that took the lock is a call of its thread. -/
theorem Senders.job_mem_callsOf {connected : Bool} {stream : Bytes} {moves : List (SendMove ι)}
    {t : Senders ι} (h : Run (Senders.Step connected) (Threads.start stream) moves t) :
    ∀ s ∈ Threads.served moves, s.job ∈ Threads.callsOf s.thread moves := by
  intro s hs
  have hcalls := (Threads.serialized_of_run (Senders.run_enters h)).calls s.thread
  rw [callsOf_enters, served_enters] at hcalls
  apply List.mem_of_mem_filter (p := SendCall.passes connected)
  rw [hcalls]
  apply List.mem_append_left
  exact List.mem_map_of_mem (List.mem_filter.mpr ⟨hs, by simp⟩)

/-- On the streams between the programs only `me` takes the lock. -/
theorem Chain.served_me (h : Run (Chain.Step n me) Chain.start moves x) (k : Nat) :
    ∀ s ∈ Threads.served (sourceMoves (streamMoves (k + 1) moves)), s.thread = me := by
  intro s hs
  by_contra hne
  have hmem := Senders.job_mem_callsOf (Piped.run_source (Chain.run_stream h (k + 1))) s hs
  rw [Chain.callsOf_other h hne] at hmem
  simp at hmem

/-- A program that is called for plain messages sends plain messages. -/
theorem Chain.completeSends (h : Run (Chain.Step n me) Chain.start moves x) (hk : k < n)
    (hcomplete : ∀ s ∈ Threads.served (sourceMoves (streamMoves (k + 1) moves)),
      Sent.Complete s)
    (hplain : ∀ e ∈ (x.streams k).delivered, ∃ m : Outgoing, m.IsPlain ∧ m.received = e) :
    CompleteSends (sourceMoves (streamMoves (k + 1) moves)) := by
  intro s hs
  refine ⟨hcomplete s hs, ?_⟩
  have hmem := Senders.job_mem_callsOf (Piped.run_source (Chain.run_stream h (k + 1))) s hs
  have hcalls := Exchange.calls_me (Chain.run_exchange h hk)
  rw [backMoves_pairMoves, ← Chain.served_me h k s hs] at hcalls
  have hjob : s.job ∈ ((x.streams k).delivered.flatMap forward).map Outgoing.call := by
    have := List.mem_append_left ((x.todo k).map Outgoing.call) hmem
    exact hcalls ▸ this
  obtain ⟨m, hm, hcall⟩ := List.mem_map.mp hjob
  exact ⟨m, hcall.symm, (forward_plain hplain).2 m hm⟩

/-- All texts of such a stream are those of `me`. -/
theorem Chain.texts_me (h : Run (Chain.Step n me) Chain.start moves x) (k : Nat) :
    ((textsOf (sourceMoves (streamMoves (k + 1) moves))).filter fun p => p.1 = me).map Prod.snd =
      messagesOf (sourceMoves (streamMoves (k + 1) moves)) := by
  have hall : ((Threads.served (sourceMoves (streamMoves (k + 1) moves))).filter
      Sent.written).filter (fun s => s.thread = me) =
        (Threads.served (sourceMoves (streamMoves (k + 1) moves))).filter Sent.written :=
    List.filter_eq_self.mpr fun s hs =>
      decide_eq_true (Chain.served_me h k s (List.mem_of_mem_filter hs))
  rw [filter_textsOf, hall, messagesOf, List.filterMap_map]
  rfl

/-- Program `k` has read what was sent to it and has nothing left to send. -/
structure Chain.Quiet (x : Chain ι) (me : ι) (k : Nat) : Prop where
  got : (x.streams k).got Chunk.bytes = (x.streams k).source.shared
  todo : x.todo k = []
  idle : (x.streams (k + 1)).source.phase me = .idle
  free : ∀ i, ¬((x.streams (k + 1)).source.phase i).Holds

/-- **One program**: when it is called for plain messages, the events on its second stream
are the first ones of those on its first stream, and all of them when it has nothing left to
send. -/
theorem Chain.hop (h : Run (Chain.Step n me) Chain.start moves x) (hk : k < n)
    (hcomplete : ∀ s ∈ Threads.served (sourceMoves (streamMoves (k + 1) moves)),
      Sent.Complete s)
    (hplain : ∀ e ∈ (x.streams k).delivered, ∃ m : Outgoing, m.IsPlain ∧ m.received = e) :
    (x.streams (k + 1)).delivered <+: (x.streams k).delivered ∧
      (x.Quiet me k →
        (x.streams (k + 1)).got Chunk.bytes = (x.streams (k + 1)).source.shared →
        (x.streams (k + 1)).delivered = (x.streams k).delivered) := by
  have hsends := Chain.completeSends h hk hcomplete hplain
  obtain ⟨htexts, hdone⟩ := Exchange.texts_me (Chain.run_exchange h hk)
    (by rwa [backMoves_pairMoves])
  rw [backMoves_pairMoves, Chain.texts_me h k] at htexts hdone
  obtain ⟨harrived, hread⟩ :=
    Channel.delivered_begins (Chain.run_stream h (k + 1)) hsends.plain.framed
  have hmap := (forward_plain hplain).1
  refine ⟨?_, fun hquiet hgot => ?_⟩
  · have hbegins := harrived.trans (htexts.map Outgoing.received)
    exact hmap ▸ hbegins
  · rw [hread hgot, hdone hquiet.todo hquiet.idle hquiet.free]
    exact hmap

/-- What has been delivered on a stream are the first messages that were sent on the first
stream. -/
theorem Chain.delivered_first (h : Run (Chain.Step n me) Chain.start moves x)
    (horigin : PlainSends (sourceMoves (streamMoves 0 moves)))
    (hcomplete : ∀ j < n, ∀ s ∈ Threads.served (sourceMoves (streamMoves (j + 1) moves)),
      Sent.Complete s) (hk : k ≤ n) :
    (x.streams k).delivered <+:
        (messagesOf (sourceMoves (streamMoves 0 moves))).map Outgoing.received ∧
      ((∀ j < k, x.Quiet me j) →
        (x.streams k).got Chunk.bytes = (x.streams k).source.shared →
        (x.streams k).delivered =
          (messagesOf (sourceMoves (streamMoves 0 moves))).map Outgoing.received) := by
  have hmessages : ∀ m ∈ messagesOf (sourceMoves (streamMoves 0 moves)), m.IsPlain := by
    intro m hm
    obtain ⟨s, hs, hmessage⟩ := List.mem_filterMap.mp hm
    obtain ⟨_, m', hjob, hplain⟩ := horigin s (List.mem_of_mem_filter hs)
    rw [hjob, Outgoing.message_call] at hmessage
    exact Option.some.inj hmessage ▸ hplain
  induction k with
  | zero =>
      obtain ⟨hbegins, hall⟩ := Channel.delivered_begins (Chain.run_stream h 0) horigin.framed
      exact ⟨hbegins, fun _ hgot => hall hgot⟩
  | succ k ih =>
      obtain ⟨hbegins, hall⟩ := ih (Nat.le_of_succ_le hk)
      have hplain : ∀ e ∈ (x.streams k).delivered,
          ∃ m : Outgoing, m.IsPlain ∧ m.received = e := by
        intro e he
        obtain ⟨m, hm, hreceived⟩ := List.mem_map.mp (hbegins.subset he)
        exact ⟨m, hmessages m hm, hreceived⟩
      obtain ⟨hhop, hdone⟩ := Chain.hop h hk (hcomplete k hk) hplain
      refine ⟨hhop.trans hbegins, fun hquiet hgot => ?_⟩
      have hlast := hquiet k (Nat.lt_succ_self k)
      rw [hdone hlast hgot, hall (fun j hj => hquiet j (Nat.lt_succ_of_lt hj)) hlast.got]

/-- **A chain of any length is a queue.**  Any number of threads send plain messages on the
first stream, and each program of the chain sends what it is called with.  At every time the
client at the end of any stream has been called for the first messages that were sent at the
front, in the order of its `writeMu`, each once and as it was sent; and when the programs
before it have nothing left to read and send, for all of them. -/
theorem Chain.forwards {c : ClientState} (hc : c.connected = true)
    (h : Run (Chain.Step n me) Chain.start moves x)
    (horigin : PlainSends (sourceMoves (streamMoves 0 moves)))
    (hcomplete : ∀ j < n, ∀ s ∈ Threads.served (sourceMoves (streamMoves (j + 1) moves)),
      Sent.Complete s) (hk : k ≤ n) :
    ∃ now later, messagesOf (sourceMoves (streamMoves 0 moves)) = now ++ later ∧
      (c.listen (x.streams k).taken).2 =
        (now.map Outgoing.received).flatMap c.handlers.invoke ∧
      ((∀ j < k, x.Quiet me j) →
        (x.streams k).got Chunk.bytes = (x.streams k).source.shared → later = []) := by
  obtain ⟨⟨rest, hrest⟩, hall⟩ := Chain.delivered_first h horigin hcomplete hk
  have hlisten : (c.listen (x.streams k).taken).2 =
      (x.streams k).delivered.flatMap c.handlers.invoke := by
    simp [ClientState.listen, hc, Channel.delivered]
  obtain ⟨now, later, hsplit, hnow, hlater⟩ := List.map_eq_append_iff.mp hrest.symm
  refine ⟨now, later, hsplit, by rw [hlisten, hnow], fun hquiet hgot => ?_⟩
  have heq := hall hquiet hgot
  rw [hsplit, List.map_append, hnow] at heq
  simpa using heq

end

/-- The request `c ~h` as it is passed on. -/
def passedOn : Outgoing := .request ⟨pingRequest.toMessage.setRaw pingRequest.serialize⟩

/-- The line of that request. -/
def pingLine : Bytes := ['c', ' ', '~', 'h', '\n']

theorem pingLine_ne_nil : pingLine ≠ [] := by simp [pingLine]

theorem pingLine_le : pingLine.length ≤ 1024 := by simp [pingLine]

/-- The read that returns it. -/
def pingChunk : Chunk := ⟨pingLine, pingLine_ne_nil, pingLine_le⟩

/-- A request is sent, passed on by one program, and read. -/
def sendAndPassOn : List (ChainMove Unit) :=
  [⟨0, .source (.call () (.send (some pingRequest)))⟩,
    ⟨0, .source (.lock () (.send (some pingRequest)))⟩, ⟨0, .source (.act () (some 5))⟩,
    ⟨0, .take pingChunk⟩,
    ⟨1, .source (.call () passedOn.call)⟩, ⟨1, .source (.lock () passedOn.call)⟩,
    ⟨1, .source (.act () (some 5))⟩,
    ⟨1, .take pingChunk⟩]

theorem run_sendAndPassOn : ∃ x : Chain Unit,
    Run (Chain.Step 1 ()) Chain.start sendAndPassOn x := by
  have hsent : Run (Chain.Step 1 ()) Chain.start (sendAndPassOn.take 3) _ :=
    .step (.step (.step .start (.send (.source (.passed rfl (.call rfl)))))
      (.send (.source (.goesOn (by simp [Move.GoesOn]) (.lock rfl rfl)))))
      (.send (.source (.goesOn (by simp [Move.GoesOn]) (.act rfl _))))
  have hheard : Run (Chain.Step 1 ()) Chain.start (sendAndPassOn.take 4) _ :=
    .step hsent (.hear Nat.zero_lt_one rfl rfl (.take (by decide)))
  have hsaid : Run (Chain.Step 1 ()) Chain.start (sendAndPassOn.take 5) _ :=
    .step hheard (.say (k := 0) Nat.zero_lt_one (show _ = passedOn :: [] by decide)
      (.source (.passed rfl (.call rfl))))
  have hpassed : Run (Chain.Step 1 ()) Chain.start (sendAndPassOn.take 7) _ :=
    .step (.step hsaid (.goesOn (k := 0) Nat.zero_lt_one (by simp)
      (.source (.goesOn (by simp [Move.GoesOn]) (.lock rfl rfl)))))
      (.goesOn (k := 0) Nat.zero_lt_one (by simp)
        (.source (.goesOn (by simp [Move.GoesOn]) (.act rfl _))))
  exact ⟨_, .step hpassed (.read (.take (by decide)))⟩

/-- It arrives at the end. -/
theorem Chain.forwards_one : ∃ (x : Chain Unit) (now later : List Outgoing),
    messagesOf (sourceMoves (streamMoves 0 sendAndPassOn)) = now ++ later ∧
      (oneOfEach.listen (x.streams 1).taken).2 =
        (now.map Outgoing.received).flatMap oneOfEach.handlers.invoke := by
  obtain ⟨x, hrun⟩ := run_sendAndPassOn
  have hcomplete : ∀ j < 1,
      ∀ s ∈ Threads.served (sourceMoves (streamMoves (j + 1) sendAndPassOn)),
        Sent.Complete s := by
    intro j hj s hs
    obtain rfl := Nat.lt_one_iff.mp hj
    obtain rfl : s = ⟨(), passedOn.call, [some 5]⟩ := List.mem_singleton.mp hs
    intro o rest hk
    exact ⟨5, (List.cons.inj hk).1.symm, by decide⟩
  obtain ⟨now, later, hsplit, hcalls, _⟩ :=
    Chain.forwards (c := oneOfEach) rfl hrun (plainSends_ping (i := ()) rfl) hcomplete le_rfl
  exact ⟨x, now, later, hsplit, hcalls⟩

end SporeClient.Client
