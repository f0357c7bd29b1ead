namespace LispCalc

/-- The bytes of a UTF-8 text from `start` up to `stop`. -/
structure Span where
  start : Nat
  stop : Nat
deriving DecidableEq, Repr

/-- From the start of one span to the end of another. -/
def Span.upTo (first last : Span) : Span :=
  ⟨first.start, last.stop⟩

def maxNesting : Nat := 512

namespace ReadError

inductive Cause where
  | unrecognizedInput
  | unexpectedEnd
  | unexpectedClosing
  | nestedTooDeeply
  | unclosed
  | emptyList
  | definitionTarget
  | definitionItems
  | conditionalItems
deriving DecidableEq, Repr

namespace Cause

def message : Cause → String
  | .unrecognizedInput => "unrecognized input"
  | .unexpectedEnd => "unexpected end of input"
  | .unexpectedClosing => "unexpected `)`"
  | .nestedTooDeeply => "expression nested too deeply"
  | .unclosed => "unclosed `(`"
  | .emptyList => "empty list cannot be evaluated"
  | .definitionTarget => "definition target must be a symbol"
  | .definitionItems => "`def` takes a name and a value"
  | .conditionalItems => "`if` takes a condition and two branches"

/-- What to write beside the marked place; the message itself where there is nothing more to say. -/
def label : Cause → String
  | .unexpectedClosing => "no matching `(`"
  | .nestedTooDeeply => "this list exceeds the nesting limit"
  | .unclosed => "opened here"
  | cause => cause.message

def help : Cause → Option String
  | .unrecognizedInput | .unexpectedEnd => none
  | .unexpectedClosing => some "remove it or add an opening `(`"
  | .nestedTooDeeply => some ("lists may nest at most " ++ toString maxNesting ++ " levels")
  | .unclosed => some "add a closing `)`"
  | .emptyList => some "put an operator in head position, e.g. `(+ 1 2)`"
  | .definitionTarget | .definitionItems => some "write `(def name value)`"
  | .conditionalItems => some "write `(if condition then else)`"

end Cause

end ReadError

structure ReadError where
  cause : ReadError.Cause
  span : Span
deriving DecidableEq, Repr

namespace ReadError

def text (e : ReadError) : String :=
  e.cause.message ++ " at " ++ toString e.span.start ++ ".." ++ toString e.span.stop

end ReadError

end LispCalc
