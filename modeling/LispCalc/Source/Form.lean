import LispCalc.Expr
import LispCalc.Source.Token

/-!
Forms: expressions as the tokens spell them. Lists are assembled on a stack of open frames, one
token at a time. An error ends its top-level form, and reading goes on behind that form, so that
one bad form hides no other.
-/

namespace LispCalc

namespace Form

/-- A list that is still open: where it opened, and its items, the last one first. -/
structure Frame where
  opening : Span
  items : List (Expr × Span)

def definition (items : List (Expr × Span)) (span : Span) : Except ReadError Expr :=
  match items with
  | [(.symbol name, _), (value, _)] => .ok (.definition name value)
  | [(_, target), _] => .error ⟨.definitionTarget, target⟩
  | _ => .error ⟨.definitionItems, span⟩

def conditional (items : List (Expr × Span)) (span : Span) : Except ReadError Expr :=
  match items with
  | [(condition, _), (thenBranch, _), (elseBranch, _)] =>
    .ok (.conditional condition thenBranch elseBranch)
  | _ => .error ⟨.conditionalItems, span⟩

/-- The expression of a closed list. -/
def ofItems (items : List (Expr × Span)) (span : Span) : Except ReadError Expr :=
  match items with
  | [] => .error ⟨.emptyList, span⟩
  | (.symbol "def", _) :: rest => definition rest span
  | (.symbol "if", _) :: rest => conditional rest span
  | (head, _) :: rest => .ok (.sequence head (rest.map Prod.fst))

inductive Progress where
  | finished (form : Expr)
  | pending (frames : List Frame)

/-- A complete expression is an item of the innermost open list, or else the whole form. -/
def place (e : Expr) (span : Span) : List Frame → Progress
  | [] => .finished e
  | frame :: outer => .pending (⟨frame.opening, (e, span) :: frame.items⟩ :: outer)

def step (frames : List Frame) (token : Token) : Except ReadError Progress :=
  match token.lexeme with
  | .opening =>
    if frames.length < maxNesting then .ok (.pending (⟨token.span, []⟩ :: frames))
    else .error ⟨.nestedTooDeeply, token.span⟩
  | .closing =>
    match frames with
    | [] => .error ⟨.unexpectedClosing, token.span⟩
    | frame :: outer =>
      let span := frame.opening.upTo token.span
      (ofItems frame.items.reverse span).map fun e => place e span outer
  | .number x => .ok (place (.atom (.number x)) token.span frames)
  | .bool b => .ok (place (.atom (.bool b)) token.span frames)
  | .symbol name => .ok (place (.symbol name) token.span frames)

/-- The error of a text that ends inside a form, at byte `eof`. -/
def endError (eof : Nat) : List Frame → ReadError
  | [] => ⟨.unexpectedEnd, ⟨eof, eof⟩⟩
  | frame :: _ => ⟨.unclosed, frame.opening⟩

/-- Reads one form inside the given frames, and returns it with the tokens after it. -/
def read (eof : Nat) (frames : List Frame) : List Token → Except ReadError (Expr × List Token)
  | [] => .error (endError eof frames)
  | token :: tokens =>
    match step frames token with
    | .error e => .error e
    | .ok (.finished form) => .ok (form, tokens)
    | .ok (.pending frames) => read eof frames tokens

/-- The number of open lists behind a lexeme; a closing bracket without partner leaves none open. -/
def depthAfter (depth : Nat) : Lexeme → Nat
  | .opening => depth + 1
  | .closing => depth - 1
  | .number _ | .bool _ | .symbol _ => depth

/-- Drops tokens up to the first one behind which no list is open, with `depth` lists open before.
The count has no bound; one of 32 bits, with a sign, comes to the same in texts of fewer than `2 ^
31` opening brackets. -/
def skip (depth : Nat) : List Token → List Token
  | [] => []
  | token :: tokens =>
    if depthAfter depth token.lexeme = 0 then tokens
    else skip (depthAfter depth token.lexeme) tokens

theorem length_read_lt {eof : Nat} {frames : List Frame} {tokens rest : List Token} {form : Expr}
    (h : read eof frames tokens = .ok (form, rest)) : rest.length < tokens.length := by
  induction tokens generalizing frames with
  | nil => cases h
  | cons token tokens ih =>
    rw [read] at h
    split at h
    · cases h
    · cases h
      exact Nat.lt_succ_self _
    · exact Nat.lt_succ_of_lt (ih h)

theorem length_skip_le (depth : Nat) (tokens : List Token) :
    (skip depth tokens).length ≤ tokens.length := by
  induction tokens generalizing depth with
  | nil => exact Nat.le_refl _
  | cons token tokens ih =>
    simp only [skip]
    split
    · exact Nat.le_succ _
    · exact Nat.le_succ_of_le (ih _)

theorem length_skip_cons_lt (depth : Nat) (token : Token) (tokens : List Token) :
    (skip depth (token :: tokens)).length < (token :: tokens).length := by
  simp only [skip]
  split
  · exact Nat.lt_succ_self _
  · exact Nat.lt_succ_of_le (length_skip_le _ _)

/-- The top-level forms in order, each read or failed. -/
def readAll (eof : Nat) (tokens : List Token) : List (Except ReadError Expr) :=
  match tokens with
  | [] => []
  | token :: tokens =>
    match _h : read eof [] (token :: tokens) with
    | .ok (form, rest) => .ok form :: readAll eof rest
    | .error e => .error e :: readAll eof (skip 0 (token :: tokens))
termination_by tokens.length
decreasing_by
  · exact length_read_lt _h
  · exact length_skip_cons_lt 0 token tokens

def collect (outcomes : List (Except ReadError Expr)) : Except (List ReadError) (List Expr) :=
  let errors := outcomes.filterMap fun
    | .error e => some e
    | .ok _ => none
  if errors = [] then
    .ok (outcomes.filterMap Except.toOption)
  else .error errors

end Form

/-- The program that a source text spells, or every error in it. -/
def readProgram (source : String) : Except (List ReadError) (List Expr) :=
  match tokenize source with
  | .error e => .error [e]
  | .ok tokens => Form.collect (Form.readAll source.utf8ByteSize tokens)

end LispCalc
