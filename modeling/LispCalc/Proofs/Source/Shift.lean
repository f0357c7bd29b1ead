import LispCalc.Proofs.Source.Grammar
import LispCalc.Proofs.Source.Layout

namespace LispCalc

def Span.shift (n : Nat) (span : Span) : Span :=
  ⟨span.start + n, span.stop + n⟩

/-- The same token, `n` bytes further on. -/
def Token.shift (n : Nat) (token : Token) : Token :=
  { token with span := token.span.shift n }

def ReadError.shift (n : Nat) (e : ReadError) : ReadError :=
  { e with span := e.span.shift n }

theorem Layout.tokens_add (layout : Layout) (offset n : Nat) :
    layout.tokens (offset + n) = (layout.tokens offset).map (Token.shift n) := by
  induction layout generalizing offset with
  | finish gap => rfl
  | word gap w rest ih =>
    simp only [tokens, List.map_cons, Nat.add_right_comm offset n,
      Nat.add_right_comm (offset + byteLength gap) n, ih]
    rfl

theorem refusal_add (offset n : Nat) (before : List Char) :
    refusal (offset + n) before = (refusal offset before).shift n := by
  simp only [refusal, ReadError.shift, Span.shift, Nat.add_right_comm offset n,
    Nat.add_right_comm (offset + byteLength before) n]

theorem Token.scan_add (offset n : Nat) (cs : List Char) :
    scan (offset + n) cs =
      ((scan offset cs).mapError (ReadError.shift n)).map (List.map (Token.shift n)) := by
  cases scanned cs with
  | @laidOut layout h ht hn =>
    rw [← ht, h.scan_text, h.scan_text, layout.tokens_add]
    rfl
  | refused h he =>
    rw [he, he, refusal_add]
    rfl

namespace Form

def shiftItems (n : Nat) (items : List (Expr × Span)) : List (Expr × Span) :=
  items.map fun item => (item.1, item.2.shift n)

def Frame.shift (n : Nat) (frame : Frame) : Frame :=
  ⟨frame.opening.shift n, shiftItems n frame.items⟩

def Progress.shift (n : Nat) : Progress → Progress
  | .finished form => .finished form
  | .pending frames => .pending (frames.map (Frame.shift n))

theorem definition_shift (n : Nat) (items : List (Expr × Span)) (span : Span) :
    definition (shiftItems n items) (span.shift n) =
      (definition items span).mapError (ReadError.shift n) := by
  match items with
  | [] => rfl
  | [(e, place)] => cases e <;> rfl
  | [(e, place), (value, place')] => cases e <;> rfl
  | (e, place) :: (value, place') :: item :: items => cases e <;> rfl

theorem conditional_shift (n : Nat) (items : List (Expr × Span)) (span : Span) :
    conditional (shiftItems n items) (span.shift n) =
      (conditional items span).mapError (ReadError.shift n) := by
  match items with
  | [] | [_] | [_, _] | [_, _, _] | _ :: _ :: _ :: _ :: _ => rfl

theorem map_fst_shiftItems (n : Nat) (items : List (Expr × Span)) :
    (shiftItems n items).map Prod.fst = items.map Prod.fst := by
  rw [shiftItems, List.map_map]
  rfl

theorem ofItems_shift (n : Nat) (items : List (Expr × Span)) (span : Span) :
    ofItems (shiftItems n items) (span.shift n) =
      (ofItems items span).mapError (ReadError.shift n) := by
  cases items with
  | nil => rfl
  | cons item rest =>
    obtain ⟨head, place⟩ := item
    by_cases hd : head = .symbol "def"
    · rw [hd]
      exact definition_shift n rest span
    by_cases hi : head = .symbol "if"
    · rw [hi]
      exact conditional_shift n rest span
    · have hs := ofItems_sequence hd hi (place.shift n) (shiftItems n rest) (span.shift n)
      rw [map_fst_shiftItems] at hs
      rw [ofItems_sequence hd hi]
      exact hs

theorem place_shift (n : Nat) (e : Expr) (span : Span) (frames : List Frame) :
    place e (span.shift n) (frames.map (Frame.shift n)) = (place e span frames).shift n := by
  cases frames <;> rfl

theorem step_shift (n : Nat) (frames : List Frame) (token : Token) :
    step (frames.map (Frame.shift n)) (token.shift n) =
      ((step frames token).mapError (ReadError.shift n)).map (Progress.shift n) := by
  obtain ⟨lexeme, span⟩ := token
  cases lexeme with
  | opening =>
    simp only [step, Token.shift, List.length_map]
    split <;> rfl
  | closing =>
    cases frames with
    | nil => rfl
    | cons frame outer =>
      have hi := ofItems_shift n frame.items.reverse (frame.opening.upTo span)
      rw [shiftItems, List.map_reverse] at hi
      change (ofItems (frame.items.map _).reverse ((frame.opening.upTo span).shift n)).map _ = _
      rw [hi]
      simp only [step]
      cases ofItems frame.items.reverse (frame.opening.upTo span) with
      | error e => rfl
      | ok e => exact congrArg Except.ok (place_shift n e (frame.opening.upTo span) outer)
  | number x | bool b | symbol name => exact congrArg Except.ok (place_shift n _ span frames)

theorem endError_shift (n eof : Nat) (frames : List Frame) :
    endError (eof + n) (frames.map (Frame.shift n)) = (endError eof frames).shift n := by
  cases frames <;> rfl

theorem read_shift (n eof : Nat) (frames : List Frame) (tokens : List Token) :
    read (eof + n) (frames.map (Frame.shift n)) (tokens.map (Token.shift n)) =
      ((read eof frames tokens).mapError (ReadError.shift n)).map fun r =>
        (r.1, r.2.map (Token.shift n)) := by
  induction tokens generalizing frames with
  | nil => exact congrArg Except.error (endError_shift n eof frames)
  | cons token tokens ih =>
    rw [List.map_cons, read, read, step_shift]
    cases step frames token with
    | error e => rfl
    | ok progress =>
      cases progress with
      | finished form => rfl
      | pending frames' => exact ih frames'

theorem skip_shift (n depth : Nat) (tokens : List Token) :
    skip depth (tokens.map (Token.shift n)) = (skip depth tokens).map (Token.shift n) := by
  induction tokens generalizing depth with
  | nil => rfl
  | cons token tokens ih =>
    have hl : (token.shift n).lexeme = token.lexeme := rfl
    simp only [List.map_cons, skip, hl]
    split
    · rfl
    · exact ih _

theorem readAll_shift (n eof : Nat) (tokens : List Token) :
    readAll (eof + n) (tokens.map (Token.shift n)) =
      (readAll eof tokens).map (Except.mapError (ReadError.shift n)) := by
  induction h : tokens.length using Nat.strongRecOn generalizing tokens with
  | ind l ih =>
    cases tokens with
    | nil => simp only [List.map_nil, readAll_nil]
    | cons token tokens =>
      have hl := length_skip_cons_lt 0 token tokens
      have hr := read_shift n eof [] (token :: tokens)
      have hs := skip_shift n 0 (token :: tokens)
      rw [List.map_nil, List.map_cons] at hr
      rw [List.map_cons] at hs
      rw [List.map_cons, readAll_cons, readAll_cons, List.map_cons, hr, hs,
        ih _ (h ▸ hl) _ rfl]
      cases read eof [] (token :: tokens) <;> rfl

theorem failures_shift (n : Nat) (outcomes : List (Except ReadError Expr)) :
    failures (outcomes.map (Except.mapError (ReadError.shift n))) =
      (failures outcomes).map (ReadError.shift n) := by
  induction outcomes with
  | nil => rfl
  | cons outcome outcomes ih =>
    cases outcome with
    | error e => exact congrArg (e.shift n :: ·) ih
    | ok form => exact ih

theorem successes_shift (n : Nat) (outcomes : List (Except ReadError Expr)) :
    successes (outcomes.map (Except.mapError (ReadError.shift n))) = successes outcomes := by
  induction outcomes with
  | nil => rfl
  | cons outcome outcomes ih =>
    cases outcome with
    | error e => exact ih
    | ok form => exact congrArg (form :: ·) ih

theorem collect_shift (n : Nat) (outcomes : List (Except ReadError Expr)) :
    collect (outcomes.map (Except.mapError (ReadError.shift n))) =
      (collect outcomes).mapError (List.map (ReadError.shift n)) := by
  rw [collect_eq, collect_eq, failures_shift, successes_shift]
  simp only [List.map_eq_nil_iff]
  split <;> rfl

end Form

end LispCalc
