import LispCalc.Decimal.Numeral
import LispCalc.Source.ReadError

namespace LispCalc

-- The sum of no lengths is the core library's zero, whatever else is imported.
attribute [local instance (high)] Zero.ofOfNat0

inductive Lexeme where
  | opening
  | closing
  | number (x : Binary64)
  | bool (b : Bool)
  | symbol (name : String)
deriving DecidableEq, Repr

structure Token where
  lexeme : Lexeme
  span : Span
deriving DecidableEq, Repr

/-- Only these four characters are blank; every other separator belongs to an atom. -/
def isBlank (c : Char) : Bool :=
  c = ' ' || c = '\t' || c = '\r' || c = '\n'

def isLineEnd (c : Char) : Bool :=
  c = '\r' || c = '\n'

def isAtomChar (c : Char) : Bool :=
  !isBlank c && c ≠ '(' && c ≠ ')' && c ≠ ';'

def byteLength (cs : List Char) : Nat :=
  (cs.map Char.utf8Size).sum

/-- A truth value or a numeral where the whole text is one, and a symbol otherwise. -/
def Lexeme.ofAtom (cs : List Char) : Lexeme :=
  if cs = "true".toList then .bool true
  else if cs = "false".toList then .bool false
  else match Numeral.read? cs with
    | some d => .number d.toBinary64
    | none => .symbol (String.ofList cs)

/-- Whether a comment may end before `cs`, which is empty or starts with a line end: a carriage
return has to have its line feed. -/
def closesComment : List Char → Bool
  | '\r' :: '\n' :: _ => true
  | '\r' :: _ => false
  | _ => true

theorem length_dropWhile_le (p : Char → Bool) (cs : List Char) :
    (cs.dropWhile p).length ≤ cs.length :=
  (List.dropWhile_sublist p).length_le

namespace Token

/-- The tokens of a text that starts at byte `offset`. -/
def scan (offset : Nat) : List Char → Except ReadError (List Token)
  | [] => .ok []
  | c :: cs =>
    if isBlank c then scan (offset + c.utf8Size) cs
    else if c = ';' then
      let comment := cs.takeWhile (!isLineEnd ·)
      let rest := cs.dropWhile (!isLineEnd ·)
      if closesComment rest then scan (offset + 1 + byteLength comment) rest
      else .error ⟨.unrecognizedInput, ⟨offset, offset + 1⟩⟩
    else if c = '(' then
      (scan (offset + 1) cs).map (⟨.opening, ⟨offset, offset + 1⟩⟩ :: ·)
    else if c = ')' then
      (scan (offset + 1) cs).map (⟨.closing, ⟨offset, offset + 1⟩⟩ :: ·)
    else
      let atom := c :: cs.takeWhile isAtomChar
      let stop := offset + byteLength atom
      (scan stop (cs.dropWhile isAtomChar)).map (⟨.ofAtom atom, ⟨offset, stop⟩⟩ :: ·)
termination_by cs => cs.length
decreasing_by
  all_goals
    simp only [List.length_cons]
    first
      | exact Nat.lt_succ_self _
      | exact Nat.lt_succ_of_le (length_dropWhile_le _ _)

end Token

def tokenize (source : String) : Except ReadError (List Token) :=
  Token.scan 0 source.toList

end LispCalc
