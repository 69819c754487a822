/-
  Parser/Tokenize.lean --- `parser::tokenize` of `parser/source/parser.cpp`.

  The tokenizer reads a message once, byte by byte, with one byte of lookahead.  It is
  in one of five modes: outside everything, inside double or single quotes, inside
  brackets (counted by depth, of the kind that opened them), or inside a `<< >>`
  block.  A space ends a token only outside everything; quote characters are the only
  other bytes it leaves out.  What is still open at the end of the message is closed
  for it, except quotes.

  A byte is written as the `Char` with its code.  The tokenizer compares bytes with
  ASCII characters and does nothing else with them, so no definition and no theorem
  needs the codes to be below 256.
-/
import SporeClient.Foundation.LineReader
import Mathlib.Data.Char

set_option autoImplicit false

namespace SporeClient.Parser

/-- A byte string: the contents of a `std::string`. -/
abbrev Bytes : Type := List Char

/-- `token_t::type_t`. -/
inductive TokenType where
  | none
  | arg
  | handle
  deriving DecidableEq, Repr, Inhabited

/-- `token_t`. -/
structure Token where
  value : Bytes := []
  type : TokenType := .none
  deriving DecidableEq, Repr, Inhabited

/-- `parser::inside`: what the tokenizer is inside of. -/
inductive Inside where
  | none
  | quotes
  | sQuotes
  | brackets
  | triangles
  deriving DecidableEq, Repr, Inhabited

/-- The local variables of `tokenize`. -/
structure Tokenizer where
  tokens : List Token := []
  curr : Token := {}
  inside : Inside := .none
  bracket : Char := '\x00'
  depth : Nat := 0
  deriving DecidableEq, Repr, Inhabited

namespace Tokenizer

/-- `curr.value.push_back(c)`. -/
def push (s : Tokenizer) (c : Char) : Tokenizer :=
  { s with curr := { s.curr with value := s.curr.value ++ [c] } }

/-- Move a token that has text to the list of tokens and start the next one. -/
def flush (s : Tokenizer) : Tokenizer :=
  if s.curr.value = [] then s else { s with tokens := s.tokens ++ [s.curr], curr := {} }

/-- `case inside::NONE`. -/
def stepNone (s : Tokenizer) (c : Char) (next : Option Char) : Tokenizer :=
  if c = ' ' then s.flush
  else if c = '"' then { s with inside := .quotes }
  else if c = '\'' then { s with inside := .sQuotes }
  else if c = '[' ∨ c = '{' then
    { s.push c with bracket := c, depth := 1, inside := .brackets }
  else if c = '=' then
    { s.push c with curr := { (s.push c).curr with type := .arg } }
  else if c = '~' then
    if s.curr.value = [] then
      { s.push c with curr := { (s.push c).curr with type := .handle } }
    else s.push c
  else if c = '<' then
    if next = some '<' then { s.push c with inside := .triangles } else s.push c
  else s.push c

/-- The bracket that closes the open kind. -/
def close (s : Tokenizer) : Char := if s.bracket = '[' then ']' else '}'

/-- `case inside::BRACKETS`. -/
def stepBrackets (s : Tokenizer) (c : Char) : Tokenizer :=
  if c = s.bracket then { s.push c with depth := s.depth + 1 }
  else if c = s.close then
    { s.push c with
      depth := s.depth - 1
      inside := if s.depth - 1 = 0 then .none else .brackets }
  else s.push c

/-- One round of the loop over the message: the byte `c`, with `next` the byte after
it, when there is one. -/
def step (s : Tokenizer) (c : Char) (next : Option Char) : Tokenizer :=
  match s.inside with
  | .none => s.stepNone c next
  | .sQuotes => if c = '\'' then { s with inside := .none } else s.push c
  | .quotes => if c = '"' then { s with inside := .none } else s.push c
  | .brackets => s.stepBrackets c
  | .triangles =>
      if c = '>' ∧ next = some '>' then { s.push c with inside := .none } else s.push c

/-- The loop over the message. -/
def loop (s : Tokenizer) : Bytes → Tokenizer
  | [] => s
  | c :: rest => loop (s.step c rest.head?) rest

/-- The text that closes what is left open, best effort. -/
def closing (s : Tokenizer) : Bytes :=
  match s.inside with
  | .brackets => List.replicate s.depth s.close
  | .triangles => ['>', '>']
  | .none => []
  | .quotes => []
  | .sQuotes => []

/-- What happens after the loop: close what is open, and flush. -/
def finish (s : Tokenizer) : List Token :=
  ({ s with curr := { s.curr with value := s.curr.value ++ s.closing } } : Tokenizer).flush.tokens

end Tokenizer

/-- `parser::tokenize`. -/
def tokenize (message : Bytes) : List Token := (Tokenizer.loop {} message).finish

/-- The mode in which the tokenizer ends a message. -/
def endsInside (message : Bytes) : Inside := (Tokenizer.loop {} message).inside

-- `Tokenize.nested_left_open` of the parser's tests.
example : tokenize ['S', ' ', '~', 'h', ' ', 'b', '=', '{', 'a', ' ', '{', 'b', ' ', 'c'] =
    [⟨['S'], .none⟩, ⟨['~', 'h'], .handle⟩,
      ⟨['b', '=', '{', 'a', ' ', '{', 'b', ' ', 'c', '}', '}'], .arg⟩] := by decide

end SporeClient.Parser
