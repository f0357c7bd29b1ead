import LispCalc.Proofs.Source.Places

namespace LispCalc

/-- Whether the cause comes to light at a token of a form, and not before there are tokens or at
the end of the text. -/
def ReadError.Cause.isAtToken : ReadError.Cause → Bool
  | .unrecognizedInput | .unexpectedEnd | .unclosed => false
  | .unexpectedClosing | .nestedTooDeeply | .emptyList | .definitionTarget | .definitionItems
  | .conditionalItems => true

namespace Form

section

variable {items : List (Expr × Span)} {span : Span} {e : ReadError}

theorem definition_error (h : definition items span = .error e) :
    e.cause.isAtToken ∧ (e.span = span ∨ ∃ item ∈ items, e.span = item.2) := by
  unfold definition at h
  split at h
  · cases h
  · cases h
    exact ⟨rfl, .inr ⟨_, List.mem_cons_self, rfl⟩⟩
  · cases h
    exact ⟨rfl, .inl rfl⟩

theorem conditional_error (h : conditional items span = .error e) :
    e.cause.isAtToken ∧ e.span = span := by
  unfold conditional at h
  split at h
  · cases h
  · cases h
    exact ⟨rfl, rfl⟩

theorem ofItems_error (h : ofItems items span = .error e) :
    e.cause.isAtToken ∧ (e.span = span ∨ ∃ item ∈ items, e.span = item.2) := by
  unfold ofItems at h
  split at h
  · cases h
    exact ⟨rfl, .inl rfl⟩
  · obtain ⟨hc, hs⟩ := definition_error h
    exact ⟨hc, hs.imp_right fun ⟨item, hm, he⟩ => ⟨item, List.mem_cons_of_mem _ hm, he⟩⟩
  · obtain ⟨hc, hs⟩ := conditional_error h
    exact ⟨hc, .inl hs⟩
  · cases h

end

/-- A step fails for its token alone, for the list that the token closes, or for one of the items
of that list. -/
theorem step_error {frames : List Frame} {token : Token} {e : ReadError}
    (h : step frames token = .error e) :
    e.cause.isAtToken ∧
      (e.span = token.span ∨ ∃ frame outer, frames = frame :: outer ∧
        (e.span = frame.opening.upTo token.span ∨ ∃ item ∈ frame.items, e.span = item.2)) := by
  unfold step at h
  cases ht : token.lexeme with
  | opening =>
    simp only [ht] at h
    split at h
    · cases h
    · cases h
      exact ⟨rfl, .inl rfl⟩
  | closing =>
    simp only [ht] at h
    cases frames with
    | nil =>
      cases h
      exact ⟨rfl, .inl rfl⟩
    | cons frame outer =>
      simp only at h
      cases ho : ofItems frame.items.reverse (frame.opening.upTo token.span) with
      | ok form =>
        rw [ho] at h
        cases h
      | error e' =>
        rw [ho] at h
        cases h
        obtain ⟨hc, hs⟩ := ofItems_error ho
        simp only [List.mem_reverse] at hs
        exact ⟨hc, .inr ⟨frame, outer, rfl, hs⟩⟩
  | number x | bool b | symbol name =>
    simp only [ht] at h
    cases h

theorem skip_of_unclosed {eof : Nat} {frames : List Frame} {tokens : List Token} {e : ReadError}
    (h : read eof frames tokens = .error e) (hc : e.cause = .unclosed) :
    skip frames.length tokens = [] := by
  induction tokens generalizing frames with
  | nil => rfl
  | cons token tokens ih =>
    cases hs : step frames token with
    | error e' =>
      rw [read, hs] at h
      cases h
      have ht := (step_error hs).1
      rw [hc] at ht
      cases ht
    | ok progress =>
      rw [read_cons_of_step hs] at h
      cases progress with
      | finished form => cases h
      | pending frames' =>
        obtain ⟨hl, hf⟩ := step_pending hs
        have hd : frames'.length ≠ 0 := fun hz => hf (List.length_eq_zero_iff.mp hz)
        rw [skip, ← hl, if_neg hd]
        exact ih h

theorem covers_span (tree : Tree) : Covers tree.tokens tree.span := by
  cases tree with
  | number x span => exact .of_mem (t := ⟨.number x, span⟩) List.mem_cons_self
  | bool b span => exact .of_mem (t := ⟨.bool b, span⟩) List.mem_cons_self
  | symbol name span => exact .of_mem (t := ⟨.symbol name, span⟩) List.mem_cons_self
  | list opening items closing =>
    refine .inr ⟨⟨.opening, opening⟩, ⟨.closing, closing⟩, ?_, rfl⟩
    rw [Tree.tokens]
    exact (List.sublist_append_right _ _).cons_cons _

theorem ItemsOf.covers {trees : List Tree} {items : List (Expr × Span)} (h : ItemsOf trees items)
    {item : Expr × Span} (hm : item ∈ items) : Covers (Tree.tokensAll trees) item.2 := by
  induction h with
  | nil => cases hm
  | cons h hs ih =>
    rw [Tree.tokensAll]
    rcases List.mem_cons.mp hm with rfl | hm
    · exact (covers_span _).sublist (List.sublist_append_left _ _)
    · exact (ih hm).sublist (List.sublist_append_right _ _)

theorem Open.covers_of_step {frames : List Frame} {before : List Token} {token : Token}
    {e : ReadError} (h : Open frames before) (hs : Form.step frames token = .error e) :
    Covers (before ++ [token]) e.span := by
  rcases (step_error hs).2 with he | ⟨frame, outer, rfl, he⟩
  · rw [he]
    exact .of_mem (List.mem_append_right _ List.mem_cons_self)
  · cases h with
    | @cons _ before trees items h hi hn opening =>
      rcases he with he | ⟨item, hm, he⟩
      · refine .inr ⟨⟨.opening, opening⟩, token, ?_, he⟩
        rw [List.append_assoc, List.cons_append]
        exact ((List.sublist_append_right _ _).cons_cons _).trans (List.sublist_append_right _ _)
      · rw [he]
        refine (hi.covers (List.mem_reverse.mp hm)).sublist ?_
        rw [List.append_assoc, List.cons_append]
        exact (((List.sublist_append_left _ _).cons _)).trans (List.sublist_append_right _ _)

theorem Open.covers_of_read {eof : Nat} {frames : List Frame} {before tokens : List Token}
    {e : ReadError} (h : Open frames before) (hn : frames ≠ [] ∨ tokens ≠ [])
    (hr : Form.read eof frames tokens = .error e) :
    Covers (before ++ tokens) e.span ∧ (e.cause = .unclosed ∨ e.cause.isAtToken) := by
  induction tokens generalizing frames before with
  | nil =>
    cases h with
    | nil => exact absurd hn (by simp)
    | @cons _ before trees items h hi hl opening =>
      cases hr
      refine ⟨.of_mem (t := ⟨.opening, opening⟩) ?_, .inl rfl⟩
      simp
  | cons token tokens ih =>
    cases hs : Form.step frames token with
    | error e' =>
      rw [Form.read, hs] at hr
      cases hr
      rw [List.append_cons]
      exact ⟨(h.covers_of_step hs).sublist (List.sublist_append_left _ _), .inr (step_error hs).1⟩
    | ok progress =>
      rw [read_cons_of_step hs] at hr
      cases progress with
      | finished form => cases hr
      | pending frames' =>
        have ho := h.step hs
        rw [List.append_cons]
        exact ih ho (.inl (step_pending hs).2) hr

/-- The errors of forms that stand one behind the other: each form has at most one, which marks
tokens of that form, and only the last one may be unclosed. -/
inductive Located : List Token → List ReadError → Prop
  | nil : Located [] []
  | read {rest : List Token} {errors : List ReadError} (chunk : List Token)
    (h : Located rest errors) : Located (chunk ++ rest) errors
  | failed {rest : List Token} {errors : List ReadError} (h : Located rest errors)
    {chunk : List Token} {e : ReadError} (hs : Covers chunk e.span)
    (hc : e.cause = .unclosed ∧ rest = [] ∨ e.cause.isAtToken) :
    Located (chunk ++ rest) (e :: errors)

theorem ne_nil_front {tokens : List Token} (h : tokens ≠ []) (depth : Nat) :
    front depth tokens ≠ [] := by
  cases tokens with
  | nil => exact (h rfl).elim
  | cons token tokens => exact List.cons_ne_nil _ _

theorem covers_of_read_nil {eof : Nat} {tokens : List Token} {e : ReadError} (hn : tokens ≠ [])
    (h : read eof [] tokens = .error e) :
    Covers (front 0 tokens) e.span ∧ (e.cause = .unclosed ∨ e.cause.isAtToken) := by
  rw [read_eq_read_front eof eof (.inr hn), List.length_nil] at h
  cases hf : read eof [] (front 0 tokens) with
  | ok r =>
    rw [hf] at h
    cases h
  | error e' =>
    rw [hf] at h
    cases h
    exact Open.nil.covers_of_read (.inr (ne_nil_front hn 0)) hf

theorem located_failures (eof : Nat) (tokens : List Token) :
    Located tokens (failures (readAll eof tokens)) := by
  induction h : tokens.length using Nat.strongRecOn generalizing tokens with
  | ind n ih =>
    cases tokens with
    | nil =>
      rw [readAll_nil]
      exact .nil
    | cons token tokens =>
      have hl := length_skip_cons_lt 0 token tokens
      have hrest := ih _ (h ▸ hl) _ rfl
      rw [readAll_cons]
      cases hr : read eof [] (token :: tokens) with
      | ok r =>
        have ho := hrest.read (front 0 (token :: tokens))
        rw [front_append_skip] at ho
        exact ho
      | error e =>
        obtain ⟨hs, hc⟩ := covers_of_read_nil (List.cons_ne_nil token tokens) hr
        have hu := hc.imp_left fun hu => And.intro hu (skip_of_unclosed hr hu)
        have ho := hrest.failed hs hu
        rw [front_append_skip] at ho
        exact ho

namespace Located

variable {tokens : List Token} {errors : List ReadError}

theorem covers (h : Located tokens errors) : ∀ e ∈ errors, Covers tokens e.span := by
  induction h with
  | nil =>
    intro e hm
    cases hm
  | read chunk h ih =>
    intro e hm
    exact (ih e hm).sublist (List.sublist_append_right _ _)
  | failed h hs hc ih =>
    refine List.forall_mem_cons.mpr ⟨hs.sublist (List.sublist_append_left _ _), fun e hm => ?_⟩
    exact (ih e hm).sublist (List.sublist_append_right _ _)

theorem eq_nil (h : Located [] errors) : errors = [] := by
  apply List.eq_nil_iff_forall_not_mem.mpr
  intro e hm
  obtain ⟨first, hf, -⟩ := (h.covers e hm).ends
  cases hf

theorem apart (h : Located tokens errors) {offset : Nat} {text : List Char}
    (hp : Placed offset text tokens) :
    errors.Pairwise fun e e' => e.span.stop ≤ e'.span.start := by
  induction h with
  | nil => exact .nil
  | read chunk h ih => exact ih hp.of_append_right
  | failed h hs hc ih =>
    refine List.pairwise_cons.mpr ⟨fun e hm => ?_, ih hp.of_append_right⟩
    exact hs.apart (h.covers e hm) hp

theorem cause (h : Located tokens errors) :
    ∀ e ∈ errors, e.cause = .unclosed ∨ e.cause.isAtToken := by
  induction h with
  | nil =>
    intro e hm
    cases hm
  | read chunk h ih => exact ih
  | failed h hs hc ih => exact List.forall_mem_cons.mpr ⟨hc.imp_left And.left, ih⟩

theorem unclosed_last (h : Located tokens errors) : ∀ e ∈ errors.dropLast, e.cause ≠ .unclosed := by
  induction h with
  | nil =>
    intro e hm
    cases hm
  | read chunk h ih => exact ih
  | @failed rest errors h chunk e hs hc ih =>
    cases errors with
    | nil =>
      intro e' hm
      cases hm
    | cons e' errors =>
      rw [List.dropLast_cons_cons]
      refine List.forall_mem_cons.mpr ⟨fun hu => ?_, ih⟩
      rcases hc with ⟨-, rfl⟩ | hc
      · exact List.cons_ne_nil _ _ h.eq_nil
      · rw [hu] at hc
        cases hc

end Located

end Form

theorem lexical_error {source : String} {e : ReadError} (h : tokenize source = .error e) :
    ∃ before after, source.toList = before ++ ';' :: after ∧
      e = ⟨.unrecognizedInput, ⟨byteLength before, byteLength before + 1⟩⟩ := by
  obtain ⟨before, hf, rfl⟩ := exists_refusal h
  obtain ⟨-, body, rest, ht, -⟩ := hf.1
  refine ⟨before, _, ht, ?_⟩
  rw [refusal, Nat.zero_add]

theorem marks_semicolon (before after : List Char) :
    (Span.mk (byteLength before) (byteLength before + 1)).Marks 0 (before ++ ';' :: after) := by
  have hs := isBoundary_append 0 before (';' :: after)
  have hl := (isBoundary_append (0 + byteLength before) [';'] after).behind
  rw [Nat.zero_add] at hs hl
  exact ⟨hs, hl, Nat.lt_succ_self _⟩

theorem error_cases {source : String} {errors : List ReadError}
    (h : readProgram source = .error errors) :
    (∃ tokens, tokenize source = .ok tokens ∧ Form.Located tokens errors) ∨
      ∃ e, tokenize source = .error e ∧ errors = [e] := by
  rw [readProgram] at h
  cases ht : tokenize source with
  | error e =>
    rw [ht] at h
    cases h
    exact .inr ⟨e, rfl, rfl⟩
  | ok tokens =>
    rw [ht] at h
    have hl := Form.located_failures source.utf8ByteSize tokens
    simp only [Form.collect_eq] at h
    split at h
    · cases h
    · cases h
      exact .inl ⟨tokens, rfl, hl⟩

theorem errors_mark {source : String} {errors : List ReadError}
    (h : readProgram source = .error errors) : ∀ e ∈ errors, e.span.Marks 0 source.toList := by
  rcases error_cases h with ⟨tokens, ht, hl⟩ | ⟨e, he, rfl⟩
  · intro e hm
    exact (hl.covers e hm).marks (placed_of_tokenize ht)
  · obtain ⟨before, after, hs, rfl⟩ := lexical_error he
    rw [hs]
    exact List.forall_mem_singleton.mpr (marks_semicolon before after)

/-- A text that cannot be read has errors, and they point at places of it that are not empty and
lie between characters, one behind the other. They run from the start of a token to the end of
one; only the last one may say that a form is unclosed, and none that the text ends too early. A
text without tokens has a single error, which points at a semicolon. -/
theorem readProgram_errors_apart {source : String} {errors : List ReadError}
    (h : readProgram source = .error errors) :
    errors ≠ [] ∧
    (∀ e ∈ errors, e.span.start < e.span.stop ∧ e.span.stop ≤ source.utf8ByteSize ∧
      String.Pos.Raw.IsValid source ⟨e.span.start⟩ ∧
      String.Pos.Raw.IsValid source ⟨e.span.stop⟩) ∧
    errors.Pairwise (fun e e' => e.span.stop ≤ e'.span.start) ∧
    (∀ e ∈ errors.dropLast, e.cause ≠ .unclosed) ∧
    (∀ e ∈ errors, e.cause ≠ .unexpectedEnd) ∧
    ((∃ tokens, tokenize source = .ok tokens ∧ ∀ e ∈ errors, e.cause ≠ .unrecognizedInput ∧
        ∃ first ∈ tokens, ∃ last ∈ tokens,
          e.span.start = first.span.start ∧ e.span.stop = last.span.stop) ∨
      ∃ e, tokenize source = .error e ∧ errors = [e] ∧ e.cause = .unrecognizedInput ∧
        ∃ before after, source.toList = before ++ ';' :: after ∧
          e.span = ⟨byteLength before, byteLength before + 1⟩) := by
  have hplace : ∀ e ∈ errors, e.span.start < e.span.stop ∧ e.span.stop ≤ source.utf8ByteSize ∧
      String.Pos.Raw.IsValid source ⟨e.span.start⟩ ∧
      String.Pos.Raw.IsValid source ⟨e.span.stop⟩ := by
    intro e hm
    have hs := errors_mark h e hm
    have hl := hs.stop.le
    rw [byteLength_toList, Nat.zero_add] at hl
    exact ⟨hs.start_lt_stop, hl, hs.start.isValid, hs.stop.isValid⟩
  refine ⟨Form.ne_nil_of_readProgram h, hplace, ?_⟩
  rcases error_cases h with ⟨tokens, ht, hl⟩ | ⟨e, he, rfl⟩
  · have hcause (e : ReadError) (hm : e ∈ errors) :
        e.cause ≠ .unexpectedEnd ∧ e.cause ≠ .unrecognizedInput := by
      constructor <;>
      · intro hc
        have ho := hl.cause e hm
        rw [hc] at ho
        rcases ho with ho | ho <;> cases ho
    refine ⟨hl.apart (placed_of_tokenize ht), hl.unclosed_last, fun e hm => (hcause e hm).1, ?_⟩
    exact .inl ⟨tokens, ht, fun e hm => ⟨(hcause e hm).2, (hl.covers e hm).ends⟩⟩
  · obtain ⟨before, after, hs, rfl⟩ := lexical_error he
    refine ⟨List.pairwise_singleton _ _, ?_, ?_, ?_⟩
    · intro e hm
      cases hm
    · exact List.forall_mem_singleton.mpr fun hc => nomatch hc
    · exact .inr ⟨_, he, rfl, rfl, before, after, hs, rfl⟩

theorem readProgram_errors_apart_unclosed :
    readProgram "(def é) ((" =
      .error [⟨.definitionItems, ⟨0, 8⟩⟩, ⟨.unclosed, ⟨10, 11⟩⟩] ∧
      String.Pos.Raw.IsValid "(def é) ((" ⟨8⟩ ∧
      [(⟨.definitionItems, ⟨0, 8⟩⟩ : ReadError), ⟨.unclosed, ⟨10, 11⟩⟩].Pairwise
        (fun e e' => e.span.stop ≤ e'.span.start) := by
  have ht : tokenize "(def é) ((" =
      .ok [⟨.opening, ⟨0, 1⟩⟩, ⟨.symbol "def", ⟨1, 4⟩⟩, ⟨.symbol "é", ⟨5, 7⟩⟩, ⟨.closing, ⟨7, 8⟩⟩,
        ⟨.opening, ⟨9, 10⟩⟩, ⟨.opening, ⟨10, 11⟩⟩] := by
    have hl : "(def é) ((".toList = ['(', 'd', 'e', 'f', ' ', 'é', ')', ' ', '(', '('] := rfl
    rw [tokenize, hl]
    simp [Token.scan, isBlank, isAtomChar, List.takeWhile, List.dropWhile]
    rfl
  have h : readProgram "(def é) ((" =
      .error [⟨.definitionItems, ⟨0, 8⟩⟩, ⟨.unclosed, ⟨10, 11⟩⟩] := by
    rw [readProgram, ht]
    simp [Form.readAll_cons, Form.readAll_nil, Form.skip, Form.depthAfter]
    rfl
  obtain ⟨-, hs, ha, -⟩ := readProgram_errors_apart h
  exact ⟨h, (hs _ List.mem_cons_self).2.2.2, ha⟩

end LispCalc
