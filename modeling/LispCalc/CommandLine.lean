import LispCalc.Report

namespace LispCalc

-- The program itself is no host: it adds no functions.
attribute [local instance] Host.none

namespace CommandLine

inductive FileError where
  | notFound
  | isDirectory
  | invalidText
  | other (reason : String)
deriving DecidableEq, Repr

def FileError.reason : FileError → String
  | .notFound => "No such file or directory (os error 2)"
  | .isDirectory => "Is a directory (os error 21)"
  | .invalidText => "stream did not contain valid UTF-8"
  | .other reason => reason

inductive Command where
  | run (path : String)
  | eval (source : String)
deriving DecidableEq, Repr

/-- Why no program was obtained from the arguments. -/
inductive Refusal where
  | usage
  | extension
  | inaccessible (path : String) (error : FileError)
deriving DecidableEq, Repr

def Refusal.message : Refusal → String
  | .usage => "Usage: lisp-eval [--lenient] [run <file.lisp> | eval <source>]"
  | .extension => "Invalid file extension. Only .lisp files are allowed."
  | .inaccessible path error => "Failed to access " ++ path ++ ": " ++ error.reason

/-- What a run of the program leaves behind. -/
structure Exit where
  code : Nat
  stdout : String
  stderr : String
deriving DecidableEq, Repr

def Exit.success (text : String) : Exit :=
  ⟨0, text ++ "\n", ""⟩

def Exit.failure (text : String) : Exit :=
  ⟨1, "", text⟩

def lenientFlag : String := "--lenient"

/-- The first lenient flag may stand anywhere; what is left has to be a command and its operand. -/
def command? (args : List String) : Option Command :=
  match args.erase lenientFlag with
  | ["run", path] => some (.run path)
  | ["eval", source] => some (.eval source)
  | _ => none

/-- The flag overrides the policy of the settings, and nothing else of them. -/
def options (args : List String) (setting? : String → Option String) : Options :=
  let fromSettings := (Options.ofSettings setting?).1
  if lenientFlag ∈ args then { fromSettings with policy := .lenient } else fromSettings

def hasExtension (path : String) : Bool :=
  ".lisp".toList.isSuffixOf path.toList

def source (args : List String) (file : String → Except FileError String) :
    Except Refusal NamedText :=
  match command? args with
  | none => .error .usage
  | some (.eval source) => .ok ⟨"<eval>", source⟩
  | some (.run path) =>
    if hasExtension path then
      match file path with
      | .error e => .error (.inaccessible path e)
      | .ok content => .ok ⟨path, content⟩
    else .error .extension

variable [Renderer]

def execute (options : Options) (source : NamedText) : Exit :=
  match readProgram source.text with
  | .error errors =>
    .failure (String.join (errors.map fun e => Renderer.render (.ofReadError source e)))
  | .ok program =>
    match (Program.eval options program .initial).result with
    | .error e => .failure (Renderer.render (.ofEvalError e))
    | .ok value => .success value.text

def run (args : List String) (setting? : String → Option String)
    (file : String → Except FileError String) : Exit :=
  match source args file with
  | .error refusal => .failure (refusal.message ++ "\n")
  | .ok source => execute (options args setting?) source

end CommandLine

end LispCalc
