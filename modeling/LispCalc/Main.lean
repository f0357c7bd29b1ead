import LispCalc.CommandLine

namespace LispCalc

namespace CommandLine

attribute [local instance] Renderer.plain

def readText (path : String) : IO (Except FileError String) := do
  try
    let bytes ← IO.FS.readBinFile path
    match String.fromUTF8? bytes with
    | some text => return .ok text
    | none => return .error .invalidText
  catch
    | .noFileOrDirectory .. => return .error .notFound
    | .inappropriateType .. => return .error .isDirectory
    | e => return .error (.other (toString e))

def perform (args : List String) : IO UInt32 := do
  let policy ← IO.getEnv Options.policySetting
  let maxDepth ← IO.getEnv Options.maxDepthSetting
  let setting? (name : String) : Option String :=
    if name = Options.policySetting then policy
    else if name = Options.maxDepthSetting then maxDepth
    else none
  let content ←
    match command? args with
    | some (.run path) => readText path
    | _ => pure (.error .notFound)
  let exit := run args setting? fun _ => content
  IO.print exit.stdout
  IO.eprint exit.stderr
  return UInt32.ofNat exit.code

end CommandLine

end LispCalc

def main (args : List String) : IO UInt32 :=
  LispCalc.CommandLine.perform args
