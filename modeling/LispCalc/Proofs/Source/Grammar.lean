import LispCalc.Proofs.Source.Chunks
import LispCalc.Proofs.Source.Tree

namespace LispCalc

namespace Form

open LispCalc.Tree

/-- The items that trees are read as. -/
inductive ItemsOf : List Tree → List (Expr × Span) → Prop
  | nil : ItemsOf [] []
  | cons {tree : Tree} {trees : List Tree} {e : Expr} {items : List (Expr × Span)}
    (h : Means tree e) (hs : ItemsOf trees items) :
    ItemsOf (tree :: trees) ((e, tree.span) :: items)

theorem ItemsOf.meansAll {trees : List Tree} {items : List (Expr × Span)}
    (h : ItemsOf trees items) : MeansAll trees (items.map Prod.fst) := by
  induction h with
  | nil => exact .nil
  | cons h hs ih => exact .cons h ih

theorem ItemsOf.append_singleton {trees : List Tree} {items : List (Expr × Span)}
    {tree : Tree} {e : Expr} (hs : ItemsOf trees items) (h : Means tree e) :
    ItemsOf (trees ++ [tree]) (items ++ [(e, tree.span)]) := by
  induction hs with
  | nil => exact .cons h .nil
  | cons h hs ih => exact .cons h ih

theorem exists_itemsOf {trees : List Tree} {es : List Expr} (h : MeansAll trees es) :
    ∃ items, ItemsOf trees items ∧ items.map Prod.fst = es := by
  match trees, es, h with
  | [], [], .nil => exact ⟨[], .nil, rfl⟩
  | _ :: _, _ :: _, .cons h hs =>
    obtain ⟨items, hi, rfl⟩ := exists_itemsOf hs
    exact ⟨_, .cons h hi, rfl⟩

theorem eq_symbol_of_means {tree : Tree} {name : String} (h : Means tree (.symbol name)) :
    ∃ span, tree = .symbol name span := by
  cases h with
  | symbol name span => exact ⟨span, rfl⟩

theorem not_isKeyword_of_means {tree : Tree} {e : Expr} (h : Means tree e)
    (hd : e ≠ .symbol "def") (hi : e ≠ .symbol "if") : ¬ IsKeyword tree := by
  intro hk
  cases h with
  | symbol name span =>
    rcases hk with rfl | rfl
    · exact hd rfl
    · exact hi rfl
  | number | bool | definition | conditional | sequence => exact hk

theorem ne_keyword_of_means {tree : Tree} {name : String} {e : Expr} (h : Means tree e)
    (hk : ¬ IsKeyword tree) (hn : name = "def" ∨ name = "if") : e ≠ .symbol name := by
  intro he
  subst he
  obtain ⟨span, rfl⟩ := eq_symbol_of_means h
  exact hk hn

theorem ofItems_sequence {head : Expr} (hd : head ≠ .symbol "def") (hi : head ≠ .symbol "if")
    (place : Span) (rest : List (Expr × Span)) (span : Span) :
    ofItems ((head, place) :: rest) span = .ok (.sequence head (rest.map Prod.fst)) := by
  unfold ofItems
  split
  · rename_i he
    cases he
  · rename_i he
    cases he
    exact (hd rfl).elim
  · rename_i he
    cases he
    exact (hi rfl).elim
  · rename_i he
    cases he
    rfl

theorem means_of_definition {trees : List Tree} {items : List (Expr × Span)}
    {opening keyword closing span : Span} {e : Expr} (h : ItemsOf trees items)
    (he : definition items span = .ok e) :
    Means (.list opening (.symbol "def" keyword :: trees) closing) e := by
  unfold definition at he
  split at he
  · cases he
    cases h with
    | cons ht hs =>
      obtain ⟨target, rfl⟩ := eq_symbol_of_means ht
      cases hs with
      | cons hv hs =>
        cases hs
        exact .definition hv
  · cases he
  · cases he

theorem means_of_conditional {trees : List Tree} {items : List (Expr × Span)}
    {opening keyword closing span : Span} {e : Expr} (h : ItemsOf trees items)
    (he : conditional items span = .ok e) :
    Means (.list opening (.symbol "if" keyword :: trees) closing) e := by
  unfold conditional at he
  split at he
  · cases he
    cases h with
    | cons hc hs =>
      cases hs with
      | cons ht hs =>
        cases hs with
        | cons he hs =>
          cases hs
          exact .conditional hc ht he
  · cases he

theorem means_of_ofItems {trees : List Tree} {items : List (Expr × Span)}
    {opening closing span : Span} {e : Expr} (h : ItemsOf trees items)
    (he : ofItems items span = .ok e) : Means (.list opening trees closing) e := by
  cases h with
  | nil => cases he
  | @cons tree trees head items ht hs =>
    by_cases hd : head = .symbol "def"
    · rw [hd] at ht he
      obtain ⟨keyword, rfl⟩ := eq_symbol_of_means ht
      exact means_of_definition hs he
    by_cases hi : head = .symbol "if"
    · rw [hi] at ht he
      obtain ⟨keyword, rfl⟩ := eq_symbol_of_means ht
      exact means_of_conditional hs he
    · rw [ofItems_sequence hd hi] at he
      cases he
      exact .sequence (not_isKeyword_of_means ht hd hi) ht hs.meansAll

theorem exists_ofItems_of_means {trees : List Tree} {opening closing : Span} {e : Expr}
    (h : Means (.list opening trees closing) e) :
    ∃ items, ItemsOf trees items ∧ ∀ span, ofItems items span = .ok e := by
  cases h with
  | definition hv =>
    exact ⟨_, .cons (.symbol _ _) (.cons (.symbol _ _) (.cons hv .nil)), fun _ => rfl⟩
  | conditional hc ht he =>
    exact ⟨_, .cons (.symbol _ _) (.cons hc (.cons ht (.cons he .nil))), fun _ => rfl⟩
  | sequence hk hf hs =>
    obtain ⟨items, hi, rfl⟩ := exists_itemsOf hs
    refine ⟨_, .cons hf hi, ?_⟩
    intro span
    exact ofItems_sequence (ne_keyword_of_means hf hk (.inl rfl))
      (ne_keyword_of_means hf hk (.inr rfl)) _ _ _

/-- Goes on from what a step has left. -/
def resume (eof : Nat) (rest : List Token) : Progress → Except ReadError (Expr × List Token)
  | .finished form => .ok (form, rest)
  | .pending frames => read eof frames rest

theorem read_cons_of_step {frames : List Frame} {token : Token} {progress : Progress}
    (h : step frames token = .ok progress) (eof : Nat) (rest : List Token) :
    read eof frames (token :: rest) = resume eof rest progress := by
  rw [read, h]
  cases progress <;> rfl

mutual

/-- A tree that has a meaning and fits below the nesting limit is read as one item. -/
theorem read_tokens (eof : Nat) (tree : Tree) {e : Expr} (h : Means tree e)
    {frames : List Frame} (hn : frames.length + tree.nesting ≤ maxNesting)
    (rest : List Token) :
    read eof frames (tree.tokens ++ rest) = resume eof rest (place e tree.span frames) := by
  cases tree with
  | number x span | bool x span | symbol x span =>
    cases h
    exact read_cons_of_step rfl eof rest
  | list opening items closing =>
    simp only [nesting] at hn
    have hl : frames.length < maxNesting := by omega
    have ho : step frames ⟨.opening, opening⟩ = .ok (.pending (⟨opening, []⟩ :: frames)) :=
      if_pos hl
    obtain ⟨pairs, hi, he⟩ := exists_ofItems_of_means h
    have hc : step (⟨opening, pairs.reverse⟩ :: frames) ⟨.closing, closing⟩ =
        .ok (place e (opening.upTo closing) frames) := by
      simp only [step, List.reverse_reverse, he]
      rfl
    rw [tokens, List.cons_append, read_cons_of_step ho, List.append_assoc]
    simp only [resume, List.singleton_append]
    rw [read_tokensAll eof items hi (by omega), List.append_nil]
    exact read_cons_of_step hc eof rest
termination_by structural tree

theorem read_tokensAll (eof : Nat) (trees : List Tree) {items : List (Expr × Span)}
    (h : ItemsOf trees items) {opening : Span} {before : List (Expr × Span)}
    {outer : List Frame} (hn : outer.length + 1 + nestingAll trees ≤ maxNesting)
    {rest : List Token} :
    read eof (⟨opening, before⟩ :: outer) (tokensAll trees ++ rest) =
      read eof (⟨opening, items.reverse ++ before⟩ :: outer) rest := by
  match trees, items, h with
  | [], [], .nil => rfl
  | tree :: trees, _ :: items, .cons ht hs =>
    simp only [nestingAll] at hn
    rw [tokensAll, List.append_assoc, read_tokens eof tree ht (by rw [List.length_cons]; omega),
      List.reverse_cons, List.append_assoc]
    exact read_tokensAll eof trees hs (by omega)
termination_by structural trees

end

/-- The tokens read so far spell the open frames. -/
inductive Open : List Frame → List Token → Prop
  | nil : Open [] []
  | cons {frames : List Frame} {before : List Token} {trees : List Tree}
    {items : List (Expr × Span)} (h : Open frames before) (hi : ItemsOf trees items)
    (hn : frames.length + 1 + nestingAll trees ≤ maxNesting) (opening : Span) :
    Open (⟨opening, items.reverse⟩ :: frames)
      (before ++ ⟨.opening, opening⟩ :: tokensAll trees)

def Reached (before : List Token) : Progress → Prop
  | .finished form =>
    ∃ tree, Means tree form ∧ tree.nesting ≤ maxNesting ∧ tree.tokens = before
  | .pending frames => Open frames before

theorem Open.length_le {frames : List Frame} {before : List Token} (h : Open frames before) :
    frames.length ≤ maxNesting := by
  cases h with
  | nil => exact Nat.zero_le _
  | cons h hi hn opening =>
    rw [List.length_cons]
    omega

theorem Open.place {frames : List Frame} {before : List Token} {tree : Tree} {e : Expr}
    (h : Open frames before) (ht : Means tree e)
    (hn : frames.length + tree.nesting ≤ maxNesting) :
    Reached (before ++ tree.tokens) (place e tree.span frames) := by
  cases h with
  | nil => exact ⟨tree, ht, by simpa only [List.length_nil, Nat.zero_add] using hn, rfl⟩
  | @cons frames before trees items h hi hb opening =>
    rw [List.length_cons] at hn
    have ho := Open.cons h (hi.append_singleton ht)
      (by simp only [nestingAll_append, nestingAll]; omega) opening
    rw [List.reverse_append, tokensAll_append, tokensAll, tokensAll, List.append_nil] at ho
    rw [List.append_assoc, List.cons_append]
    exact ho

theorem Open.step {frames : List Frame} {before : List Token} {token : Token}
    {progress : Progress} (h : Open frames before) (hs : step frames token = .ok progress) :
    Reached (before ++ [token]) progress := by
  obtain ⟨lexeme, span⟩ := token
  cases lexeme with
  | opening =>
    simp only [Form.step] at hs
    split at hs
    · cases hs
      rename_i hl
      exact .cons h .nil hl span
    · cases hs
  | closing =>
    cases h with
    | nil => cases hs
    | @cons frames before trees items h hi hn opening =>
      simp only [Form.step, List.reverse_reverse] at hs
      cases he : ofItems items (opening.upTo span) with
      | error e =>
        rw [he] at hs
        cases hs
      | ok e =>
        rw [he] at hs
        cases hs
        have ht : Means (.list opening trees span) e := means_of_ofItems hi he
        have hp := h.place ht (by rw [nesting]; omega)
        rwa [tokens, ← List.cons_append, ← List.append_assoc] at hp
  | number x =>
    cases hs
    exact h.place (.number x span) h.length_le
  | bool b =>
    cases hs
    exact h.place (.bool b span) h.length_le
  | symbol name =>
    cases hs
    exact h.place (.symbol name span) h.length_le

theorem Open.read {frames : List Frame} {before tokens rest : List Token} {form : Expr}
    {eof : Nat} (h : Open frames before) (hr : read eof frames tokens = .ok (form, rest)) :
    ∃ tree, Means tree form ∧ tree.nesting ≤ maxNesting ∧
      before ++ tokens = tree.tokens ++ rest := by
  induction tokens generalizing frames before with
  | nil => cases hr
  | cons token tokens ih =>
    cases hs : Form.step frames token with
    | error e =>
      rw [Form.read, hs] at hr
      cases hr
    | ok progress =>
      rw [read_cons_of_step hs] at hr
      have hp := h.step hs
      cases progress with
      | finished form' =>
        cases hr
        obtain ⟨tree, ht, hn, he⟩ := hp
        exact ⟨tree, ht, hn, by rw [he, List.append_assoc, List.singleton_append]⟩
      | pending frames' =>
        obtain ⟨tree, ht, hn, he⟩ := ih hp hr
        exact ⟨tree, ht, hn, by rw [← he, List.append_assoc, List.singleton_append]⟩

theorem read_eq_ok_iff (eof : Nat) (tokens rest : List Token) (form : Expr) :
    read eof [] tokens = .ok (form, rest) ↔
      ∃ tree, Means tree form ∧ tree.nesting ≤ maxNesting ∧ tokens = tree.tokens ++ rest := by
  constructor
  · intro h
    exact Open.nil.read h
  · rintro ⟨tree, ht, hn, rfl⟩
    exact read_tokens eof tree ht (by rwa [List.length_nil, Nat.zero_add]) rest

/-- The tokens are those of trees that mean the expressions and nest no deeper than the limit. -/
def Spells (tokens : List Token) (es : List Expr) : Prop :=
  ∃ trees, tokensAll trees = tokens ∧ MeansAll trees es ∧
    ∀ tree ∈ trees, tree.nesting ≤ maxNesting

theorem readAll_tokensAll_append (eof : Nat) {trees : List Tree} {es : List Expr}
    (h : MeansAll trees es) (hn : ∀ tree ∈ trees, tree.nesting ≤ maxNesting)
    (rest : List Token) :
    readAll eof (tokensAll trees ++ rest) = es.map .ok ++ readAll eof rest := by
  induction trees generalizing es with
  | nil =>
    cases h
    rfl
  | cons tree trees ih =>
    cases h with
    | cons ht hs =>
      obtain ⟨hd, hn⟩ := List.forall_mem_cons.mp hn
      have hr := (read_eq_ok_iff eof (tokensAll (tree :: trees) ++ rest)
        (tokensAll trees ++ rest) _).mpr ⟨tree, ht, hd, List.append_assoc _ _ _⟩
      rw [readAll_of_read hr, ih hs hn]
      rfl

theorem readAll_tokensAll (eof : Nat) {trees : List Tree} {es : List Expr}
    (h : MeansAll trees es) (hn : ∀ tree ∈ trees, tree.nesting ≤ maxNesting) :
    readAll eof (tokensAll trees) = es.map .ok := by
  have hr := readAll_tokensAll_append eof h hn []
  rwa [List.append_nil, readAll_nil, List.append_nil] at hr

theorem spells_of_readAll {eof : Nat} {tokens : List Token} {es : List Expr}
    (h : readAll eof tokens = es.map .ok) : Spells tokens es := by
  induction es generalizing tokens with
  | nil =>
    cases tokens with
    | nil => exact ⟨[], rfl, .nil, fun _ hm => nomatch hm⟩
    | cons token tokens =>
      rw [readAll_cons] at h
      cases h
  | cons e es ih =>
    cases tokens with
    | nil =>
      rw [readAll_nil] at h
      cases h
    | cons token tokens =>
      cases hr : read eof [] (token :: tokens) with
      | error e' =>
        rw [readAll_cons, hr] at h
        cases h
      | ok r =>
        obtain ⟨form, rest⟩ := r
        rw [readAll_of_read hr] at h
        obtain ⟨hf, hs⟩ := List.cons.inj h
        cases hf
        obtain ⟨tree, ht, hd, he⟩ := (read_eq_ok_iff _ _ _ _).mp hr
        obtain ⟨trees, rfl, hs, hn⟩ := ih hs
        exact ⟨tree :: trees, he.symm, .cons ht hs, List.forall_mem_cons.mpr ⟨hd, hn⟩⟩

theorem readAll_eq_ok_iff (eof : Nat) (tokens : List Token) (es : List Expr) :
    readAll eof tokens = es.map .ok ↔ Spells tokens es := by
  constructor
  · exact spells_of_readAll
  · rintro ⟨trees, rfl, hs, hn⟩
    exact readAll_tokensAll eof hs hn

theorem eq_map_ok_of_failures {outcomes : List (Except ReadError Expr)}
    (h : failures outcomes = []) : outcomes = (successes outcomes).map .ok := by
  induction outcomes with
  | nil => rfl
  | cons outcome outcomes ih =>
    cases outcome with
    | error e => cases h
    | ok form => exact congrArg (.ok form :: ·) (ih h)

theorem failures_map_ok (es : List Expr) : failures (es.map .ok) = [] := by
  induction es with
  | nil => rfl
  | cons e es ih => exact ih

theorem successes_map_ok (es : List Expr) : successes (es.map .ok) = es := by
  induction es with
  | nil => rfl
  | cons e es ih => exact congrArg (e :: ·) ih

theorem collect_map_ok (es : List Expr) : collect (es.map .ok) = .ok es := by
  rw [collect_eq, if_pos (failures_map_ok es), successes_map_ok]

theorem collect_eq_ok_iff (outcomes : List (Except ReadError Expr)) (es : List Expr) :
    collect outcomes = .ok es ↔ outcomes = es.map .ok := by
  constructor
  · intro h
    rw [collect_eq] at h
    split at h
    · rename_i hf
      cases h
      exact eq_map_ok_of_failures hf
    · cases h
  · rintro rfl
    exact collect_map_ok es

theorem exists_trees_of_readProgram {source : String} {es : List Expr}
    (h : readProgram source = .ok es) :
    ∃ trees, tokenize source = .ok (tokensAll trees) ∧ MeansAll trees es ∧
      ∀ tree ∈ trees, tree.nesting ≤ maxNesting := by
  cases ht : tokenize source with
  | error e =>
    rw [readProgram, ht] at h
    cases h
  | ok tokens =>
    rw [readProgram, ht] at h
    obtain ⟨trees, rfl, hm, hn⟩ := (readAll_eq_ok_iff _ tokens es).mp
      ((collect_eq_ok_iff _ es).mp h)
    exact ⟨trees, rfl, hm, hn⟩

theorem readProgram_of_tokenize {source : String} {trees : List Tree} {es : List Expr}
    (h : tokenize source = .ok (tokensAll trees)) (hm : MeansAll trees es)
    (hn : ∀ tree ∈ trees, tree.nesting ≤ maxNesting) : readProgram source = .ok es := by
  rw [readProgram, h]
  change collect (readAll _ _) = _
  rw [readAll_tokensAll _ hm hn, collect_map_ok]

/-- A text reads as a program exactly if its tokens are those of trees that mean the forms of the
program, none nested too deeply; and tokens are those of one list of trees only. -/
theorem readProgram_eq_ok_iff (source : String) (es : List Expr) :
    (readProgram source = .ok es ↔
      ∃ tokens, tokenize source = .ok tokens ∧
        ∃ trees, tokensAll trees = tokens ∧ MeansAll trees es ∧
          ∀ tree ∈ trees, tree.nesting ≤ maxNesting) ∧
      ∀ trees trees', tokensAll trees = tokensAll trees' → trees = trees' := by
  refine ⟨?_, fun _ _ => tokensAll_inj⟩
  cases ht : tokenize source with
  | error e =>
    rw [readProgram, ht]
    constructor
    · intro h
      cases h
    · intro h
      obtain ⟨tokens, h, -⟩ := h
      cases h
  | ok tokens =>
    rw [readProgram, ht]
    simp only [collect_eq_ok_iff, readAll_eq_ok_iff, Spells]
    constructor
    · intro h
      exact ⟨tokens, rfl, h⟩
    · intro h
      obtain ⟨tokens', h, hs⟩ := h
      cases h
      exact hs

end Form

end LispCalc
