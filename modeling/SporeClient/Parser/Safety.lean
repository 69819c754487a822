/-
  Parser/Safety.lean --- no operation of `tokenize`, `build` and `validate` is out of range.

  WHAT THIS FILE IS FOR.  The parser takes strings apart with operations that throw, or read
  what is not there, on the wrong string: `substr`, `[]`, `front`, `back`, `pop_back`.  Here
  `build` and `validate` are written once more with each of them in its place, failing where
  the operation would.  On the tokens of a message they never fail, and do what `build` and
  `validate` do (`parse_in_range`).  What this rests on is that the type of a token tells
  of a byte in it.
-/
import SporeClient.Parser.BuildSpec
import SporeClient.Parser.Lexing

set_option autoImplicit false

namespace SporeClient.Parser

open SporeClient.Foundation

/-! ## The depth of the brackets -/

/-- The tokenizer of `tokenize` when it has read `done` and has `rest` before it. -/
def Tokenizer.midway (done rest : Bytes) : Tokenizer :=
  Lookahead.run step rest.head? {} done

theorem Tokenizer.loop_midway (done rest : Bytes) :
    Tokenizer.loop {} (done ++ rest) = (midway done rest).loop rest := by
  rw [loop_eq_run, Lookahead.run_append, loop_eq_run, Option.or_none, midway]

/-- **The depth never underflows**: inside brackets it is at least 1. -/
theorem Tokenizer.depth_pos {done rest : Bytes} (h : (midway done rest).inside = .brackets) :
    1 ≤ (midway done rest).depth := by
  have hsim : (midway done rest).Simulates (Lexer.read {} done rest.head?) :=
    Lookahead.run_rel (R := Simulates) (fun _ _ c next h => simulates_step h c next)
      ⟨rfl, fun _ => rfl⟩ rest.head? done
  have hmode : (midway done rest).mode = Mode.outside.after done rest.head? := by
    rw [← Lexer.read_mode {} done rest.head?, hsim.lexer_eq]
  have hproper : (midway done rest).mode.Proper :=
    hmode ▸ Mode.after_proper (m := .outside) trivial done rest.head?
  simp only [mode, h] at hproper
  exact hproper.2

/-! ## Operations that can fail -/

/-- `s.substr(pos)`. -/
def substrFrom (s : Bytes) (pos : Nat) : Option Bytes :=
  if pos ≤ s.length then some (s.drop pos) else none

/-- `s.substr(pos, n)`. -/
def substr (s : Bytes) (pos n : Nat) : Option Bytes :=
  if pos ≤ s.length then some ((s.drop pos).take n) else none

/-- `s.find(c)`; `none` is `npos`. -/
def find (c : Char) (s : Bytes) : Option Nat := s.idxOf? c

/-- `s.pop_back()`. -/
def popBack (s : Bytes) : Option Bytes := if s = [] then none else some s.dropLast

/-- The test for the marks of a block.  All four bytes are read, even where the code stops at
the first that differs. -/
def isBlockChecked (value : Bytes) : Option Bool :=
  if 4 ≤ value.length then do
    let a ← value[0]?
    let b ← value[1]?
    let y ← value[value.length - 2]?
    let z ← value[value.length - 1]?
    return a == '<' && b == '<' && y == '>' && z == '>'
  else return false

/-- Erase a newline that `front` sees. -/
def trimFrontChecked (s : Bytes) : Option Bytes :=
  if s = [] then return s
  else do
    let c ← s.head?
    if c = '\n' then return s.tail else return s

/-- Pop a newline that `back` sees. -/
def trimBackChecked (s : Bytes) : Option Bytes :=
  if s = [] then return s
  else do
    let c ← s.getLast?
    if c = '\n' then popBack s else return s

def stripBlockChecked (value : Bytes) : Option Bytes := do
  if ← isBlockChecked value then
    trimBackChecked (← trimFrontChecked (← substr value 2 (value.length - 4)))
  else return value

/-- Key and value of an argument; that there is no `=` counts as a failure. -/
def argOfChecked (value : Bytes) : Option (Bytes × Bytes) := do
  let pos ← find '=' value
  let key ← substr value 0 pos
  let val ← stripBlockChecked (← substrFrom value (pos + 1))
  return (key, val)

def buildFirstChecked (p : ParserState) (m : ParsedMessage) (t : Token) :
    Option (ParserState × ParsedMessage) :=
  match t.type with
  | .handle => do
      let handle ← substrFrom t.value 1
      match find ':' handle with
      | none => return ({ p with type := .response }, { m with handle := cstr handle })
      | some pos =>
          let capability ← substrFrom handle (pos + 1)
          let handle ← substr handle 0 pos
          return ({ p with type := .response },
            { m with handle := cstr handle, capability := cstr capability })
  | _ => return buildFirst p m t

def buildRestChecked (p : ParserState) (m : ParsedMessage) (t : Token) :
    Option (ParserState × ParsedMessage) :=
  match t.type with
  | .arg => do
      let (key, value) ← argOfChecked t.value
      return ({ p with props := p.props.noteArg key },
        { m with args := m.args ++ [(cstr key, cstr value)] })
  | .handle => do
      let handle ← substrFrom t.value 1
      return (p, { m with handle := cstr handle })
  | .none => return buildRest p m t

def buildStepChecked (i : Nat) (p : ParserState) (m : ParsedMessage) (t : Token) :
    Option (ParserState × ParsedMessage) :=
  if i = 0 then buildFirstChecked p m t
  else if p.type = .publish ∧ i = 1 then return (p, { m with capability := cstr t.value })
  else buildRestChecked p m t

def buildLoopChecked (i : Nat) (p : ParserState) (m : ParsedMessage) :
    List Token → Option (ParserState × ParsedMessage)
  | [] => return (p, m)
  | t :: rest => do
      let (p, m) ← buildStepChecked i p m t
      buildLoopChecked (i + 1) p m rest

def buildChecked (p : ParserState) (m : ParsedMessage) (tokens : List Token) :
    Option (ParserState × ParsedMessage) :=
  buildLoopChecked 0 p m tokens

def ParserState.checkPublishChecked (p : ParserState) (m : ParsedMessage) : Option ParserState :=
  if m.capability = [] then return p.error "Malformed" "publish missing topic"
  else if '=' ∈ m.capability then
    return p.error "Malformed"
      "publish missing topic; cannot be argument; [ k=v ] should be [ t ]"
  else do
    let c ← m.capability.head?
    if c = '~' then
      return p.error "Malformed" "publish missing topic; cannot be handle; [ ~h ] should be [ t ]"
    else return p

/-- `validate`; the checks of the other types have no operation that can fail. -/
def ParserState.validateChecked (p : ParserState) : Option ParsedMessage → Option ParserState
  | none => return p.validate none
  | some m =>
      let p : ParserState := { p with errorCode := "", errorWhat := "" }
      match p.type with
      | .publish => p.checkPublishChecked m
      | _ => return p.validate (some m)

/-! ## They do not fail -/

theorem find_append {c : Char} {a : Bytes} (b : Bytes) (h : c ∉ a) :
    find c (a ++ c :: b) = some a.length := by
  induction a with
  | nil => simp [find, List.idxOf?_cons]
  | cons d a ih =>
      have hd : d ≠ c := fun hdc => h (hdc ▸ List.mem_cons_self)
      have hrest := ih fun hmem => h (List.mem_cons_of_mem d hmem)
      simp only [find] at hrest
      simp [find, List.idxOf?_cons, hd, hrest]

theorem find_eq_none {c : Char} {s : Bytes} (h : c ∉ s) : find c s = none :=
  List.idxOf?_eq_none_iff.mpr h

/-- `substr` in front of a byte and behind it. -/
theorem substr_split (c : Char) (a b : Bytes) :
    substr (a ++ c :: b) 0 a.length = some a ∧
      substrFrom (a ++ c :: b) (a.length + 1) = some b := by
  constructor
  · simp [substr]
  · simp [substrFrom]

/-- The four bytes are there when the length says so. -/
theorem isBlockChecked_eq (value : Bytes) : isBlockChecked value = some (isBlock value) := by
  unfold isBlockChecked
  by_cases hlen : 4 ≤ value.length
  · have hfront : value.take 2 = [value[0], value[1]] := by
      match value, hlen with
      | _ :: _ :: _, _ => rfl
    have hback : value.drop (value.length - 2) =
        [value[value.length - 2], value[value.length - 1]] := by
      have hnext : value.length - 2 + 1 = value.length - 1 := by omega
      have hend : value.length - 1 + 1 = value.length := by omega
      simp only [List.drop_eq_getElem_cons (show value.length - 2 < value.length by omega), hnext,
        List.drop_eq_getElem_cons (show value.length - 1 < value.length by omega), hend,
        List.drop_length]
    rw [if_pos hlen]
    simp only [List.getElem?_eq_getElem (show 0 < value.length by omega),
      List.getElem?_eq_getElem (show 1 < value.length by omega),
      List.getElem?_eq_getElem (show value.length - 2 < value.length by omega),
      List.getElem?_eq_getElem (show value.length - 1 < value.length by omega), isBlock, hfront,
      hback, hlen]
    simp [Bool.and_assoc]
  · rw [if_neg hlen]
    simp [isBlock, hlen]

theorem trimFrontChecked_eq (s : Bytes) : trimFrontChecked s = some (trimFront s) := by
  cases s with
  | nil => rfl
  | cons c rest => by_cases hc : c = '\n' <;> simp [trimFrontChecked, trimFront, hc]

theorem trimBackChecked_eq (s : Bytes) : trimBackChecked s = some (trimBack s) := by
  rcases List.eq_nil_or_concat' s with rfl | ⟨front, c, rfl⟩
  · rfl
  · by_cases hc : c = '\n' <;> simp [trimBackChecked, trimBack, popBack, hc]

theorem stripBlockChecked_eq (value : Bytes) :
    stripBlockChecked value = some (stripBlock value) := by
  unfold stripBlockChecked stripBlock
  rw [isBlockChecked_eq]
  by_cases hblock : isBlock value
  · have hlen : 2 ≤ value.length := by
      simp only [isBlock, Bool.and_eq_true, decide_eq_true_eq] at hblock
      omega
    simp [hblock, substr, hlen, trimFrontChecked_eq, trimBackChecked_eq]
  · simp [hblock]

/-- The pieces of an argument. -/
theorem argOfChecked_eq {value : Bytes} (h : '=' ∈ value) :
    argOfChecked value = some (argOf value) := by
  obtain ⟨key, val, rfl, hkey⟩ := List.eq_append_cons_of_mem h
  obtain ⟨hfront, hback⟩ := substr_split '=' key val
  rw [argOf_append hkey]
  simp [argOfChecked, find_append val hkey, hfront, hback, stripBlockChecked_eq]

/-- What the type of a token tells of its bytes. -/
structure Token.Typed (t : Token) : Prop where
  handle : t.type = .handle → t.value.head? = some '~'
  arg : t.type = .arg → '=' ∈ t.value

/-- **The tokens of a message are typed.** -/
theorem tokenize_typed {message : Bytes} {t : Token} (ht : t ∈ tokenize message) : t.Typed :=
  ⟨tilde_front_of_handle ht, eq_mem_of_arg ht⟩

theorem Token.Typed.substrFrom_one {t : Token} (h : t.Typed) (hhandle : t.type = .handle) :
    substrFrom t.value 1 = some (t.value.drop 1) := by
  obtain ⟨rest, hrest⟩ := List.head?_eq_some_iff.mp (h.handle hhandle)
  simp [substrFrom, hrest]

theorem buildFirstChecked_eq {t : Token} (h : t.Typed) (p : ParserState) (m : ParsedMessage) :
    buildFirstChecked p m t = some (buildFirst p m t) := by
  unfold buildFirstChecked
  cases htype : t.type with
  | none => rfl
  | arg => rfl
  | handle =>
      rw [h.substrFrom_one htype]
      simp only [buildFirst, htype, Option.bind_eq_bind, Option.bind_some]
      by_cases hcolon : ':' ∈ t.value.drop 1
      · obtain ⟨front, back, hvalue, hfront⟩ := List.eq_append_cons_of_mem hcolon
        obtain ⟨hsub, hfrom⟩ := substr_split ':' front back
        rw [hvalue, find_append back hfront, splitFirst_append back hfront]
        simp [hsub, hfrom]
      · rw [find_eq_none hcolon, splitFirst_eq_none hcolon]
        rfl

theorem buildRestChecked_eq {t : Token} (h : t.Typed) (p : ParserState) (m : ParsedMessage) :
    buildRestChecked p m t = some (buildRest p m t) := by
  unfold buildRestChecked
  cases htype : t.type with
  | none => rfl
  | arg =>
      rw [argOfChecked_eq (h.arg htype)]
      simp [buildRest, htype]
  | handle =>
      rw [h.substrFrom_one htype]
      simp [buildRest, htype]

theorem buildStepChecked_eq {t : Token} (h : t.Typed) (i : Nat) (p : ParserState)
    (m : ParsedMessage) : buildStepChecked i p m t = some (buildStep i p m t) := by
  unfold buildStepChecked buildStep
  split
  · exact buildFirstChecked_eq h p m
  · split
    · rfl
    · exact buildRestChecked_eq h p m

/-- **On typed tokens nothing in `build` fails.** -/
theorem buildChecked_eq {tokens : List Token} (h : ∀ t ∈ tokens, t.Typed) (p : ParserState)
    (m : ParsedMessage) : buildChecked p m tokens = some (build p m tokens) := by
  have hloop : ∀ (i : Nat) (p : ParserState) (m : ParsedMessage),
      buildLoopChecked i p m tokens = some (buildLoop i p m tokens) := by
    induction tokens with
    | nil => exact fun _ _ _ => rfl
    | cons t rest ih =>
        intro i p m
        rw [buildLoopChecked, buildStepChecked_eq (h t List.mem_cons_self)]
        exact ih (fun u hu => h u (List.mem_cons_of_mem t hu)) _ _ _
  exact hloop 0 p m

/-- **Nothing in `validate` fails.** -/
theorem ParserState.validateChecked_eq (p : ParserState) (m : Option ParsedMessage) :
    p.validateChecked m = some (p.validate m) := by
  cases m with
  | none => rfl
  | some m =>
      unfold validateChecked validate
      cases htype : p.type with
      | publish =>
          simp only [checkPublishChecked, checkPublish]
          cases hcapability : m.capability with
          | nil => rfl
          | cons c rest =>
              simp only [reduceCtorEq, if_false]
              split
              · rfl
              · simp only [List.head?_cons, Option.some.injEq]
                split <;> simp_all
      | unknown => rfl
      | request => rfl
      | response => rfl
      | witness => rfl

/-- **Parsing and validating are never out of range.** -/
theorem parse_in_range (message : Bytes) :
    (∀ t ∈ tokenize message, t.Typed) ∧
      (∀ done rest, done ++ rest = message →
        (Tokenizer.midway done rest).inside = .brackets →
          1 ≤ (Tokenizer.midway done rest).depth) ∧
      (∀ p m, buildChecked p m (tokenize message) = some (build p m (tokenize message))) ∧
      ∀ (p : ParserState) m, p.validateChecked m = some (p.validate m) :=
  ⟨fun _ ht => tokenize_typed ht, fun _ _ _ hin => Tokenizer.depth_pos hin,
    fun p m => buildChecked_eq (fun _ ht => tokenize_typed ht) p m,
    fun p m => p.validateChecked_eq m⟩

end SporeClient.Parser
