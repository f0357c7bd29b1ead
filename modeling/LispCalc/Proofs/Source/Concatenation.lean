import LispCalc.Proofs.Source.Shift

namespace LispCalc

open LispCalc.Tree

theorem byteLength_toList (s : String) : byteLength s.toList = s.utf8ByteSize := by
  induction s using String.push_induction with
  | empty => rfl
  | push s c ih =>
    rw [String.toList_push, byteLength_append, ih, String.utf8ByteSize_push]
    rfl

theorem EndsComment.append_lineFeed {rest : List Char} (h : EndsComment rest)
    (more : List Char) : EndsComment (rest ++ '\n' :: more) := by
  cases h with
  | lineFeed rest => exact .lineFeed _
  | carriageReturn rest => exact .carriageReturn _
  | endOfText => exact .lineFeed more

theorem IsGap.append_lineFeed {rest gap : List Char} (h : IsGap rest gap) (more : List Char) :
    IsGap (rest ++ '\n' :: more) gap := by
  induction h with
  | nil => exact .nil
  | blank hc h ih => exact .blank hc ih
  | comment hb he h ih =>
    have he' := he.append_lineFeed more
    rw [List.append_assoc] at he'
    exact .comment hb he' ih

theorem Word.EndsBefore.append_lineFeed {w : Word} {rest : List Char} (h : w.EndsBefore rest)
    (more : List Char) : w.EndsBefore (rest ++ '\n' :: more) := by
  cases w with
  | opening | closing => trivial
  | atom a =>
    cases rest with
    | nil => exact stops_cons '\n' more rfl
    | cons c rest => exact h

/-- Behind a text that has a layout, and a line feed, the scanner starts anew. -/
theorem Layout.WellFormed.scan_append_lineFeed {layout : Layout} (h : layout.WellFormed)
    (offset : Nat) (more : List Char) :
    Token.scan offset (layout.text ++ '\n' :: more) =
      (Token.scan (offset + byteLength layout.text + 1) more).map (layout.tokens offset ++ ·) := by
  induction layout generalizing offset with
  | finish gap =>
    have hg : IsGap ('\n' :: more) gap := IsGap.append_lineFeed h more
    rw [text, Token.scan_gap hg, Token.scan_blank rfl]
    change Token.scan (offset + byteLength gap + 1) more = _
    cases Token.scan (offset + byteLength gap + 1) more <;> rfl
  | word gap w rest ih =>
    have hg := h.1.append_lineFeed more
    rw [List.append_assoc] at hg
    rw [text, List.append_assoc, List.append_assoc, Token.scan_gap hg,
      Token.scan_word w (h.endsBefore.append_lineFeed more), ih h.2.2, byteLength_append,
      byteLength_append, ← Nat.add_assoc, ← Nat.add_assoc]
    cases Token.scan (offset + byteLength gap + byteLength w.text + byteLength rest.text + 1)
      more <;>
      rfl

theorem tokenize_append_lineFeed {s₁ : String} {tokens : List Token}
    (h : tokenize s₁ = .ok tokens) (s₂ : String) :
    tokenize (s₁ ++ "\n" ++ s₂) =
      ((tokenize s₂).mapError (ReadError.shift (s₁.utf8ByteSize + 1))).map fun tokens' =>
        tokens ++ tokens'.map (Token.shift (s₁.utf8ByteSize + 1)) := by
  have hl : (s₁ ++ "\n" ++ s₂).toList = s₁.toList ++ '\n' :: s₂.toList := by
    rw [String.toList_append, String.toList_append, List.append_assoc]
    rfl
  obtain ⟨layout, hw, ht, rfl⟩ := exists_layout h
  rw [tokenize, hl, ← ht, hw.scan_append_lineFeed, ht, byteLength_toList, Nat.add_assoc,
    Token.scan_add, ← tokenize]
  cases tokenize s₂ <;> rfl

namespace Form

theorem readAll_eof (eof stop : Nat) (tokens : List Token) :
    readAll eof tokens = readAll stop tokens := by
  obtain ⟨chunks, hc⟩ := exists_chunked tokens
  rw [hc.readAll_eq eof stop, hc.readAll_eq stop stop]

theorem collect_append (es : List Expr) (outcomes : List (Except ReadError Expr)) :
    collect (es.map .ok ++ outcomes) = (collect outcomes).map (es ++ ·) := by
  have hf : failures (es.map .ok ++ outcomes) = failures outcomes := by
    rw [failures, List.filterMap_append]
    exact congrArg (· ++ failures outcomes) (failures_map_ok es)
  have hs : successes (es.map .ok ++ outcomes) = es ++ successes outcomes := by
    rw [successes, List.filterMap_append]
    exact congrArg (· ++ successes outcomes) (successes_map_ok es)
  rw [collect_eq, collect_eq, hf, hs]
  split <;> rfl

end Form

theorem readProgram_append_lineFeed {s₁ : String} {program : List Expr}
    (h : readProgram s₁ = .ok program) (s₂ : String) :
    readProgram (s₁ ++ "\n" ++ s₂) =
      ((readProgram s₂).mapError (List.map (ReadError.shift (s₁.utf8ByteSize + 1)))).map
        (program ++ ·) := by
  obtain ⟨trees, ht, hm, hn⟩ := Form.exists_trees_of_readProgram h
  rw [readProgram, tokenize_append_lineFeed ht, readProgram]
  cases tokenize s₂ with
  | error e => rfl
  | ok tokens =>
    change Form.collect (Form.readAll _ (tokensAll trees ++ _)) =
      (Form.collect _ |>.mapError _).map _
    rw [Form.readAll_eof _ (s₂.utf8ByteSize + (s₁.utf8ByteSize + 1)),
      Form.readAll_tokensAll_append _ hm hn, Form.readAll_shift, Form.collect_append,
      Form.collect_shift]

/-- Reading distributes over lines: where the first text reads as a program, the two of them read
as its forms and those of the second text, and otherwise fail with the errors of the second text
alone, each in its wording and so many bytes further on as the first text and the line feed
take. -/
theorem readProgram_lines {s₁ : String} {program : List Expr}
    (h : readProgram s₁ = .ok program) (s₂ : String) :
    readProgram (s₁ ++ "\n" ++ s₂) =
      match readProgram s₂ with
      | .ok program' => .ok (program ++ program')
      | .error errors => .error (errors.map (ReadError.shift (s₁.utf8ByteSize + 1))) := by
  rw [readProgram_append_lineFeed h]
  cases readProgram s₂ <;> rfl

theorem readProgram_lines_after_comment :
    readProgram "f ;é" = .ok [.symbol "f"] ∧
      readProgram ("f ;é" ++ "\n" ++ ") (") =
        .error [⟨.unexpectedClosing, ⟨6, 7⟩⟩, ⟨.unclosed, ⟨8, 9⟩⟩] := by
  have ht₁ : tokenize "f ;é" = .ok (tokensAll [.symbol "f" ⟨0, 1⟩]) := by
    have hl : "f ;é".toList = ['f', ' ', ';', 'é'] := rfl
    rw [tokenize, hl]
    simp [Token.scan, isBlank, isAtomChar, isLineEnd, closesComment, List.takeWhile, List.dropWhile]
    rfl
  have ht₂ : tokenize ") (" = .ok [⟨.closing, ⟨0, 1⟩⟩, ⟨.opening, ⟨2, 3⟩⟩] := by
    have hl : ") (".toList = [')', ' ', '('] := rfl
    rw [tokenize, hl]
    simp only [Token.scan]
    rfl
  have h₁ : readProgram "f ;é" = .ok [.symbol "f"] :=
    Form.readProgram_of_tokenize ht₁ (.cons (.symbol _ _) .nil) (by simp [nesting])
  have h₂ : readProgram ") (" = .error [⟨.unexpectedClosing, ⟨0, 1⟩⟩, ⟨.unclosed, ⟨2, 3⟩⟩] := by
    rw [readProgram, ht₂]
    simp [Form.readAll_cons, Form.readAll_nil, Form.skip, Form.depthAfter]
    rfl
  refine ⟨h₁, ?_⟩
  rw [readProgram_lines h₁, h₂]
  rfl

end LispCalc
