import LispCalc.Notice
import LispCalc.Text.WhiteSpace

namespace LispCalc

-- Powers of natural numbers are those of the core library, whatever else is imported.
attribute [local instance (high)] instPowNat

/-- What becomes of an error: a strict evaluation stops, a lenient one goes on with nil where it
can. -/
inductive Policy where
  | strict
  | lenient
deriving DecidableEq, Repr, Inhabited

namespace Policy

def name : Policy → String
  | .strict => "strict"
  | .lenient => "lenient"

def swallowsErrors : Policy → Bool
  | .strict => false
  | .lenient => true

/-- Settings are compared without surrounding white space and in ASCII lower case. -/
def normalize (text : String) : String :=
  String.ofList ((trimWhiteSpace text.toList).map Char.toLower)

def ofText? (text : String) : Option Policy :=
  let word := normalize text
  if word = "strict" then some .strict
  else if word = "lenient" || word = "compat" then some .lenient
  else none

def unknownMessage (text : String) : String :=
  "unknown error policy `" ++ normalize text ++ "`"

end Policy

def defaultMaxDepth : Nat := 512

structure Options where
  policy : Policy := .strict
  maxDepth : Nat := defaultMaxDepth
deriving DecidableEq, Repr, Inhabited

/-- A positive number below `2 ^ 64`: after trimming, an optional plus sign and decimal digits. -/
def depth? (text : String) : Option Nat :=
  let digits :=
    match trimWhiteSpace text.toList with
    | '+' :: cs => cs
    | cs => cs
  let value := Nat.ofDigitChars 10 digits 0
  if digits ≠ [] ∧ digits.all Char.isDigit ∧ 0 < value ∧ value < 2 ^ (64 : Nat) then some value
  else none

namespace Options

def policySetting : String := "LISP_EVAL_POLICY"

def maxDepthSetting : String := "LISP_EVAL_MAX_DEPTH"

inductive Warning where
  | unknownPolicy (text : String)
  | unusableDepth (text : String)
deriving DecidableEq, Repr

namespace Warning

def message : Warning → String
  | .unknownPolicy text => policySetting ++ ": " ++ Policy.unknownMessage text ++ "; using strict"
  | .unusableDepth text =>
    maxDepthSetting ++ ": `" ++ text ++ "` is not a positive integer; using "
      ++ toString defaultMaxDepth

def notice (w : Warning) : Notice :=
  ⟨.warn, w.message, []⟩

end Warning

def policyOfSetting : Option String → Policy × List Warning
  | none => (.strict, [])
  | some text =>
    match Policy.ofText? text with
    | some policy => (policy, [])
    | none => (.strict, [.unknownPolicy text])

def maxDepthOfSetting : Option String → Nat × List Warning
  | none => (defaultMaxDepth, [])
  | some text =>
    match depth? text with
    | some depth => (depth, [])
    | none => (defaultMaxDepth, [.unusableDepth text])

/-- Reads both settings, the policy first. -/
def ofSettings (setting? : String → Option String) : Options × List Warning :=
  let (policy, policyWarnings) := policyOfSetting (setting? policySetting)
  let (maxDepth, depthWarnings) := maxDepthOfSetting (setting? maxDepthSetting)
  (⟨policy, maxDepth⟩, policyWarnings ++ depthWarnings)

end Options

end LispCalc
