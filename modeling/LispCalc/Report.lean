import LispCalc.Session
import LispCalc.Source.Form

namespace LispCalc

-- Programs are run in a fresh session, to which no host has added anything.
attribute [local instance] Host.none

/-- A remark on a part of the source text, given by its first byte and its length. -/
structure Label where
  text : String
  start : Nat
  length : Nat
deriving DecidableEq, Repr

/-- A source text under the name that reports give it. -/
structure NamedText where
  name : String
  text : String
deriving DecidableEq, Repr

structure Report where
  source : Option NamedText
  message : String
  code : String
  help : Option String
  labels : List Label
deriving DecidableEq, Repr

namespace Report

def ofReadError (source : NamedText) (e : ReadError) : Report :=
  ⟨source, e.cause.message, "syntax::error", e.cause.help,
    [⟨e.cause.label, e.span.start, e.span.stop - e.span.start⟩]⟩

def ofEvalError (e : EvalError) : Report :=
  ⟨none, e.message, e.code, e.help, []⟩

/-- The reports on a program: one for each error of its text, or else one if its evaluation in a
fresh session fails. -/
def ofSource (options : Options) (source : NamedText) : List Report :=
  match readProgram source.text with
  | .error errors => errors.map (ofReadError source)
  | .ok program =>
    match (Program.eval options program .initial).result with
    | .error e => [ofEvalError e]
    | .ok _ => []

end Report

/-- How reports are laid out. The message comes first, on lines of its own; what follows is left
open. -/
class Renderer where
  render : Report → String
  starts_with_message (report : Report) : ∃ rest, render report = report.message ++ "\n" ++ rest

@[reducible] def Renderer.plain : Renderer where
  render report := report.message ++ "\n"
  starts_with_message _ := ⟨"", String.append_empty.symm⟩

end LispCalc
