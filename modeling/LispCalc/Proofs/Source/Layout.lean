import LispCalc.Proofs.Source.Word

namespace LispCalc

/-- Words with the gap before each of them, and the gap behind the last one. -/
inductive Layout where
  | finish (gap : List Char)
  | word (gap : List Char) (w : Word) (rest : Layout)

namespace Layout

def text : Layout → List Char
  | .finish gap => gap
  | .word gap w rest => gap ++ (w.text ++ rest.text)

def tokens (offset : Nat) : Layout → List Token
  | .finish _ => []
  | .word gap w rest =>
    let start := offset + byteLength gap
    let stop := start + byteLength w.text
    ⟨w.lexeme, ⟨start, stop⟩⟩ :: rest.tokens stop

def StartsWithAtom : Layout → Prop
  | .word [] (.atom _) _ => True
  | _ => False

/-- The gaps are gaps, and no atom touches the next one. -/
def WellFormed : Layout → Prop
  | .finish gap => IsGap [] gap
  | .word gap w rest =>
    IsGap (w.text ++ rest.text) gap ∧
      ((∃ a, w = .atom a) → ¬ rest.StartsWithAtom) ∧ rest.WellFormed

theorem WellFormed.head_text {layout : Layout} (h : layout.WellFormed)
    (hs : ¬ layout.StartsWithAtom) : ∀ c ∈ layout.text.head?, isAtomChar c = false := by
  have hgap {c : Char} (hc : isBlank c ∨ c = ';') : isAtomChar c = false := by
    rcases hc with hc | rfl
    · simp [isAtomChar, hc]
    · rfl
  intro c hc
  cases layout with
  | finish gap => exact hgap (IsGap.head h c hc)
  | word gap w rest =>
    cases gap with
    | nil =>
      cases w with
      | opening | closing =>
        cases hc
        rfl
      | atom a => exact (hs trivial).elim
    | cons d gap => exact hgap (h.1.head c hc)

theorem WellFormed.endsBefore {gap : List Char} {w : Word} {rest : Layout}
    (h : (Layout.word gap w rest).WellFormed) : w.EndsBefore rest.text := by
  cases w with
  | opening | closing => trivial
  | atom a => exact h.2.2.head_text (h.2.1 ⟨a, rfl⟩)

theorem WellFormed.text_inj {layout layout' : Layout} (h : layout.WellFormed)
    (h' : layout'.WellFormed) (he : layout.text = layout'.text) : layout = layout' := by
  induction layout generalizing layout' with
  | finish gap =>
    cases layout' with
    | finish gap' => exact congrArg Layout.finish he
    | word gap' w' rest' =>
      have hg := IsGap.append_inj h h'.1 (by simp) (w'.head_text_append _)
        (by rwa [List.append_nil])
      exact (w'.text_ne_nil (List.append_eq_nil_iff.mp hg.2.symm).1).elim
  | word gap w rest ih =>
    cases layout' with
    | finish gap' =>
      have hg := IsGap.append_inj h.1 h' (w.head_text_append _) (by simp)
        (by rwa [List.append_nil])
      exact (w.text_ne_nil (List.append_eq_nil_iff.mp hg.2).1).elim
    | word gap' w' rest' =>
      obtain ⟨rfl, hg⟩ := IsGap.append_inj h.1 h'.1 (w.head_text_append _)
        (w'.head_text_append _) he
      obtain ⟨rfl, hr⟩ := Word.append_inj h.endsBefore h'.endsBefore hg
      rw [ih h.2.2 h'.2.2 hr]

theorem WellFormed.scan_text {layout : Layout} (h : layout.WellFormed) (offset : Nat) :
    Token.scan offset layout.text = .ok (layout.tokens offset) := by
  induction layout generalizing offset with
  | finish gap =>
    have hs := Token.scan_gap h offset
    rwa [List.append_nil, Token.scan_nil] at hs
  | word gap w rest ih =>
    rw [text, Token.scan_gap h.1, Token.scan_word w h.endsBefore, ih h.2.2]
    rfl

def prepend (piece : List Char) : Layout → Layout
  | .finish gap => .finish (piece ++ gap)
  | .word gap w rest => .word (piece ++ gap) w rest

theorem text_prepend (piece : List Char) (layout : Layout) :
    (layout.prepend piece).text = piece ++ layout.text := by
  cases layout with
  | finish gap => rfl
  | word gap w rest => exact List.append_assoc _ _ _

theorem WellFormed.blank {layout : Layout} {c : Char} (h : layout.WellFormed)
    (hc : isBlank c) : (layout.prepend [c]).WellFormed := by
  cases layout with
  | finish gap => exact IsGap.blank hc h
  | word gap w rest => exact ⟨h.1.blank hc, h.2⟩

theorem WellFormed.comment {layout : Layout} {body : List Char} (h : layout.WellFormed)
    (hb : ∀ c ∈ body, isLineEnd c = false) (he : EndsComment layout.text) :
    (layout.prepend (';' :: body)).WellFormed := by
  cases layout with
  | finish gap =>
    rw [text, ← List.append_nil gap] at he
    exact IsGap.comment hb he h
  | word gap w rest => exact ⟨h.1.comment hb he, h.2⟩

theorem WellFormed.word {layout : Layout} {w : Word} (h : layout.WellFormed)
    (hw : w.EndsBefore layout.text) : (Layout.word [] w layout).WellFormed := by
  refine ⟨.nil, ?_, h⟩
  rintro ⟨a, rfl⟩ hs
  cases layout with
  | finish gap => exact hs
  | word gap w rest =>
    cases gap with
    | cons c gap => exact hs
    | nil =>
      cases w with
      | opening | closing => exact hs
      | atom a' =>
        obtain ⟨c, cs, hc, hv⟩ := a'.exists_cons
        rw [hw c (by simp [text, Word.text, hc])] at hv
        exact Bool.false_ne_true hv

end Layout

/-- Whether a comment is open behind a text: a semicolon opens one, and a line end closes it. -/
def commentOpen (cs : List Char) : Bool :=
  cs.foldl (fun isOpen c => !isLineEnd c && (isOpen || c = ';')) false

/-- Behind `before` a comment starts that would have to end at a carriage return without line
feed. -/
def LoneReturn (text before : List Char) : Prop :=
  commentOpen before = false ∧
    ∃ body rest, text = before ++ ';' :: (body ++ '\r' :: rest) ∧
      (∀ c ∈ body, isLineEnd c = false) ∧ rest.head? ≠ some '\n'

theorem commentOpen_append (cs cs' : List Char) :
    commentOpen (cs ++ cs') =
      cs'.foldl (fun isOpen c => !isLineEnd c && (isOpen || c = ';')) (commentOpen cs) :=
  List.foldl_append

theorem commentOpen_of_no_semicolon {cs : List Char} (h : ∀ c ∈ cs, c ≠ ';') :
    commentOpen cs = false := by
  rw [commentOpen]
  induction cs with
  | nil => rfl
  | cons c cs ih =>
    obtain ⟨hc, hcs⟩ := List.forall_mem_cons.mp h
    rw [List.foldl_cons, decide_eq_false hc, Bool.or_self, Bool.and_false]
    exact ih hcs

theorem commentOpen_comment {body : List Char} (hb : ∀ c ∈ body, isLineEnd c = false) :
    commentOpen (';' :: body) = true := by
  rw [commentOpen, List.foldl_cons]
  change body.foldl _ true = true
  induction body with
  | nil => rfl
  | cons c body ih =>
    obtain ⟨hc, hcs⟩ := List.forall_mem_cons.mp hb
    rw [List.foldl_cons, hc]
    exact ih hcs

theorem split_at_char {piece rest before after : List Char} {c : Char}
    (h : piece ++ rest = before ++ c :: after) :
    (∃ between, before = piece ++ between ∧ rest = between ++ c :: after) ∨
      ∃ between, piece = before ++ c :: between ∧ after = between ++ rest := by
  rcases List.append_eq_append_iff.mp h with ⟨between, hb, hr⟩ | ⟨between, hp, hr⟩
  · exact .inl ⟨between, hb, hr⟩
  · cases between with
    | nil =>
      rw [List.append_nil] at hp
      exact .inl ⟨[], by rw [hp, List.append_nil], hr.symm⟩
    | cons d between =>
      obtain ⟨rfl, ha⟩ := List.cons.inj hr
      exact .inr ⟨between, hp, ha⟩

/-- A piece in front of a text that neither holds nor hides a place where the text is refused. -/
def Passed (piece rest : List Char) : Prop :=
  ∀ before, LoneReturn (piece ++ rest) before ↔
    ∃ after, before = piece ++ after ∧ LoneReturn rest after

theorem LoneReturn.append {piece rest after : List Char} (h : LoneReturn rest after)
    (ho : commentOpen (piece ++ after) = false) :
    LoneReturn (piece ++ rest) (piece ++ after) := by
  obtain ⟨-, body, behind, rfl, hb, hr⟩ := h
  exact ⟨ho, body, behind, (List.append_assoc _ _ _).symm, hb, hr⟩

theorem passed_of_no_semicolon {piece : List Char} (h : ∀ c ∈ piece, c ≠ ';')
    (rest : List Char) : Passed piece rest := by
  have ho (after : List Char) : commentOpen (piece ++ after) = commentOpen after := by
    rw [commentOpen_append, commentOpen_of_no_semicolon h]
    rfl
  intro before
  constructor
  · rintro ⟨hc, body, behind, he, hb, hr⟩
    rcases split_at_char he with ⟨after, rfl, ht⟩ | ⟨inner, rfl, -⟩
    · exact ⟨after, rfl, (ho after).symm.trans hc, body, behind, ht, hb, hr⟩
    · exact (h ';' (List.mem_append_right _ List.mem_cons_self) rfl).elim
  · rintro ⟨after, rfl, ha⟩
    exact ha.append ((ho after).trans ha.1)

theorem passed_comment {body rest : List Char} (hb : ∀ c ∈ body, isLineEnd c = false)
    (he : EndsComment rest) : Passed (';' :: body) rest := by
  have ho {after text : List Char} (ha : rest = after ++ ';' :: text) :
      commentOpen (';' :: body ++ after) = commentOpen after := by
    -- The line end that closes the comment is the first character of `after`.
    cases after with
    | nil =>
      rw [ha] at he
      cases he
    | cons c after =>
      have hc := he.head c (by rw [ha]; rfl)
      simp only [commentOpen, List.foldl_append, List.foldl_cons, hc, Bool.false_and]
  intro before
  constructor
  · rintro ⟨hc, inner, behind, ht, hi, hr⟩
    rcases split_at_char ht with ⟨after, rfl, ha⟩ | ⟨between, hp, ha⟩
    · exact ⟨after, rfl, (ho ha).symm.trans hc, inner, behind, ha, hi, hr⟩
    · cases before with
      | nil =>
        obtain ⟨-, rfl⟩ := List.cons.inj hp
        obtain ⟨-, rfl⟩ := run_append_inj (not_isLineEnd_of_body hi) (not_isLineEnd_of_body hb)
          (stops_cons '\r' behind rfl) he.head ha
        cases he
        exact (hr rfl).elim
      | cons c before =>
        obtain ⟨rfl, rfl⟩ := List.cons.inj hp
        rw [commentOpen_comment fun d hd => hb d (List.mem_append_left _ hd)] at hc
        cases hc
  · rintro ⟨after, rfl, ha⟩
    obtain ⟨inner, behind, ht, -⟩ := ha.2
    exact ha.append ((ho ht).trans ha.1)

def FirstLoneReturn (text before : List Char) : Prop :=
  LoneReturn text before ∧ ∀ other, LoneReturn text other → before <+: other

theorem FirstLoneReturn.unique {text before before' : List Char}
    (h : FirstLoneReturn text before) (h' : FirstLoneReturn text before') : before = before' := by
  have hp := h.2 before' h'.1
  have hp' := h'.2 before h.1
  exact hp.eq_of_length (Nat.le_antisymm hp.length_le hp'.length_le)

theorem FirstLoneReturn.behind {piece rest before : List Char} (hp : Passed piece rest)
    (h : FirstLoneReturn rest before) : FirstLoneReturn (piece ++ rest) (piece ++ before) := by
  refine ⟨(hp _).mpr ⟨before, rfl, h.1⟩, ?_⟩
  intro other ho
  obtain ⟨after, rfl, ha⟩ := (hp other).mp ho
  exact (List.prefix_append_right_inj piece).mpr (h.2 after ha)

def refusal (offset : Nat) (before : List Char) : ReadError :=
  ⟨.unrecognizedInput, ⟨offset + byteLength before, offset + byteLength before + 1⟩⟩

theorem refusal_append (offset : Nat) (piece before : List Char) :
    refusal (offset + byteLength piece) before = refusal offset (piece ++ before) := by
  simp only [refusal, byteLength_append, Nat.add_assoc]

/-- A text has a layout or is refused. -/
inductive Scanned (text : List Char) : Prop
  | laidOut {layout : Layout} (h : layout.WellFormed) (ht : layout.text = text)
    (hn : ∀ before, ¬ LoneReturn text before)
  | refused {before : List Char} (h : FirstLoneReturn text before)
    (he : ∀ offset, Token.scan offset text = .error (refusal offset before))

theorem Passed.none {piece rest : List Char} (hp : Passed piece rest)
    (hn : ∀ before, ¬ LoneReturn rest before) (before : List Char) :
    ¬ LoneReturn (piece ++ rest) before := by
  intro h
  obtain ⟨after, -, ha⟩ := (hp before).mp h
  exact hn after ha

theorem Scanned.gap {piece rest : List Char} (h : Scanned rest) (hp : Passed piece rest)
    (hl : ∀ layout : Layout, layout.WellFormed → layout.text = rest →
      (layout.prepend piece).WellFormed)
    (hs : ∀ offset, Token.scan offset (piece ++ rest) =
      Token.scan (offset + byteLength piece) rest) : Scanned (piece ++ rest) := by
  cases h with
  | laidOut h ht hn =>
    refine .laidOut (hl _ h ht) ?_ (hp.none hn)
    rw [Layout.text_prepend, ht]
  | refused h he =>
    refine .refused (h.behind hp) ?_
    intro offset
    rw [hs, he, refusal_append]

theorem Scanned.word {w : Word} {rest : List Char} (h : Scanned rest) (hw : w.EndsBefore rest) :
    Scanned (w.text ++ rest) := by
  have hp : Passed w.text rest :=
    passed_of_no_semicolon (fun c hc => (w.forall_mem_text c hc).2) rest
  cases h with
  | laidOut h ht hn =>
    subst ht
    exact .laidOut (h.word hw) rfl (hp.none hn)
  | refused h he =>
    refine .refused (h.behind hp) ?_
    intro offset
    rw [Token.scan_word w hw, he, refusal_append]
    rfl

theorem scanned_loneReturn {body rest : List Char} (hb : ∀ c ∈ body, isLineEnd c = false)
    (hr : rest.head? ≠ some '\n') : Scanned (';' :: (body ++ '\r' :: rest)) := by
  have hf : FirstLoneReturn (';' :: (body ++ '\r' :: rest)) [] :=
    ⟨⟨rfl, body, rest, rfl, hb, hr⟩, fun _ _ => List.nil_prefix⟩
  refine .refused hf ?_
  intro offset
  exact Token.scan_loneReturn hb hr offset

theorem scanned_nil : Scanned [] := by
  have hl : (Layout.finish []).WellFormed := IsGap.nil
  refine .laidOut hl rfl ?_
  rintro before ⟨-, body, behind, he, -⟩
  exact List.cons_ne_nil _ _ (List.append_eq_nil_iff.mp he.symm).2

theorem scanned (text : List Char) : Scanned text := by
  induction h : text.length using Nat.strongRecOn generalizing text with
  | ind n ih =>
    subst h
    cases start text with
    | empty => exact scanned_nil
    | @blank c rest hc =>
      have hr : Scanned rest := ih _ (Nat.lt_succ_self _) rest rfl
      have hn : ∀ d ∈ [c], d ≠ ';' := by
        rintro d hd rfl
        rw [← List.mem_singleton.mp hd] at hc
        cases hc
      apply hr.gap (passed_of_no_semicolon hn rest)
      · intro layout hl _
        exact hl.blank hc
      · intro offset
        exact Token.scan_blank hc offset rest
    | @comment body rest hb he =>
      have hr : Scanned rest := by
        apply ih _ _ rest rfl
        simp only [List.length_cons, List.length_append]
        omega
      rw [← List.cons_append]
      apply hr.gap (passed_comment hb he)
      · rintro layout hl rfl
        exact hl.comment hb he
      · intro offset
        exact Token.scan_comment hb he offset
    | loneReturn hb hr => exact scanned_loneReturn hb hr
    | @word w rest hw =>
      have hl := List.length_pos_iff.mpr w.text_ne_nil
      have hr : Scanned rest := by
        apply ih _ _ rest rfl
        rw [List.length_append]
        omega
      exact hr.word hw

theorem exists_layout {source : String} {tokens : List Token} (h : tokenize source = .ok tokens) :
    ∃ layout : Layout, layout.WellFormed ∧ layout.text = source.toList ∧
      layout.tokens 0 = tokens := by
  cases scanned source.toList with
  | @laidOut layout hw ht hn =>
    have hs := hw.scan_text 0
    rw [ht, ← tokenize, h] at hs
    exact ⟨layout, hw, ht, (Except.ok.inj hs).symm⟩
  | refused hf he =>
    rw [tokenize, he] at h
    cases h

theorem exists_refusal {source : String} {e : ReadError} (h : tokenize source = .error e) :
    ∃ before, FirstLoneReturn source.toList before ∧ e = refusal 0 before := by
  cases scanned source.toList with
  | laidOut hw ht hn =>
    have hs := hw.scan_text 0
    rw [ht, ← tokenize, h] at hs
    cases hs
  | @refused before hf he =>
    rw [tokenize, he] at h
    exact ⟨before, hf, (Except.error.inj h).symm⟩

/-- A text is scanned exactly if it is words with gaps between them, none of two atoms touching;
there is at most one way to cut it so, and the tokens are the words with their places in bytes.
Every other text is refused at the first semicolon outside a comment whose line ends at a carriage
return without line feed. -/
theorem tokenize_follows_layout (source : String) :
    (∀ tokens, tokenize source = .ok tokens ↔
      ∃ layout : Layout, layout.WellFormed ∧ layout.text = source.toList ∧
        layout.tokens 0 = tokens) ∧
    (∀ layout layout' : Layout, layout.WellFormed → layout'.WellFormed →
      layout.text = layout'.text → layout = layout') ∧
    ∀ e, tokenize source = .error e ↔
      ∃ before, LoneReturn source.toList before ∧
        (∀ other, LoneReturn source.toList other → before <+: other) ∧
        e = ⟨.unrecognizedInput, ⟨byteLength before, byteLength before + 1⟩⟩ := by
  refine ⟨?_, fun _ _ h h' => h.text_inj h', ?_⟩
  · intro tokens
    constructor
    · intro hs
      cases scanned source.toList with
      | laidOut h ht hn =>
        have ho := h.scan_text 0
        rw [ht, ← tokenize, hs] at ho
        exact ⟨_, h, ht, (Except.ok.inj ho).symm⟩
      | refused h he =>
        rw [tokenize, he] at hs
        cases hs
    · rintro ⟨layout, h, ht, rfl⟩
      rw [tokenize, ← ht]
      exact h.scan_text 0
  · intro e
    constructor
    · intro hs
      cases scanned source.toList with
      | laidOut h ht hn =>
        have ho := h.scan_text 0
        rw [ht, ← tokenize, hs] at ho
        cases ho
      | @refused before h he =>
        rw [tokenize, he] at hs
        have hr : refusal 0 before =
            ⟨.unrecognizedInput, ⟨byteLength before, byteLength before + 1⟩⟩ := by
          simp only [refusal, Nat.zero_add]
        exact ⟨before, h.1, h.2, (Except.error.inj hs).symm.trans hr⟩
    · rintro ⟨before, hb, hf, rfl⟩
      cases scanned source.toList with
      | laidOut h ht hn => exact (hn before hb).elim
      | refused h he =>
        rw [tokenize, he, h.unique ⟨hb, hf⟩]
        simp only [refusal, Nat.zero_add]

end LispCalc
