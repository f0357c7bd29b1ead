import LispCalc.Proofs.Decimal.Text
import LispCalc.Proofs.Source.Layout
import LispCalc.Proofs.Source.Printing

namespace LispCalc

open LispCalc.Tree

def Lexed (tokens : List Token) : Prop :=
  ∀ token ∈ tokens, ∃ w : Word, token.lexeme = w.lexeme

theorem Layout.lexed_tokens (layout : Layout) (offset : Nat) : Lexed (layout.tokens offset) := by
  induction layout generalizing offset with
  | finish gap => exact fun _ hm => nomatch hm
  | word gap w rest ih => exact List.forall_mem_cons.mpr ⟨⟨w, rfl⟩, ih _⟩

theorem lexed_of_tokenize {source : String} {tokens : List Token}
    (h : tokenize source = .ok tokens) : Lexed tokens := by
  obtain ⟨layout, -, -, rfl⟩ := exists_layout h
  exact layout.lexed_tokens 0

/-- Scanned at any place, in front of any text that does not go on with an atom, the text gives the
tokens of trees that mean the expressions. -/
def Denotes (text : List Char) (es : List Expr) : Prop :=
  ∀ offset, ∃ trees, MeansAll trees es ∧ ∀ rest, (∀ c ∈ rest.head?, isAtomChar c = false) →
    Token.scan offset (text ++ rest) =
      (Token.scan (offset + byteLength text) rest).map (tokensAll trees ++ ·)

theorem map_append_append (outcome : Except ReadError (List Token)) (ts ts' : List Token) :
    (outcome.map (ts' ++ ·)).map (ts ++ ·) = outcome.map (ts ++ ts' ++ ·) := by
  cases outcome with
  | error e => rfl
  | ok tokens => exact congrArg Except.ok (List.append_assoc ts ts' tokens).symm

theorem Tree.MeansAll.append {trees trees' : List Tree} {es es' : List Expr} (h : MeansAll trees es)
    (h' : MeansAll trees' es') : MeansAll (trees ++ trees') (es ++ es') := by
  induction trees generalizing es with
  | nil =>
    cases h
    exact h'
  | cons tree trees ih =>
    cases h with
    | cons ht hs => exact .cons ht (ih hs)

namespace Denotes

theorem nil : Denotes [] [] := by
  intro offset
  refine ⟨[], .nil, ?_⟩
  intro rest _
  rw [List.nil_append]
  change _ = (Token.scan offset rest).map _
  cases Token.scan offset rest <;> rfl

theorem atom (a : Atom) {e : Expr} {tree : Span → Tree}
    (ht : ∀ span, (tree span).tokens = [⟨.ofAtom a.chars, span⟩])
    (hm : ∀ span, Means (tree span) e) : Denotes a.chars [e] := by
  intro offset
  refine ⟨[tree ⟨offset, offset + byteLength a.chars⟩], .cons (hm _) .nil, ?_⟩
  intro rest hr
  rw [tokensAll, tokensAll, ht]
  exact Token.scan_word (.atom a) hr offset

theorem append {text text' : List Char} {es es' : List Expr} {sep : Char}
    (h : Denotes text es) (hs : isBlank sep) (h' : Denotes text' es') :
    Denotes (text ++ sep :: text') (es ++ es') := by
  intro offset
  obtain ⟨trees, hm, hr⟩ := h offset
  obtain ⟨trees', hm', hr'⟩ := h' (offset + byteLength text + byteLength [sep])
  refine ⟨trees ++ trees', hm.append hm', ?_⟩
  intro rest hrest
  have hsep : isAtomChar sep = false := by simp [isAtomChar, hs]
  rw [List.append_assoc, List.cons_append, hr _ (stops_cons sep _ hsep), Token.scan_blank hs,
    hr' rest hrest, map_append_append, ← tokensAll_append, Nat.add_assoc, ← byteLength_append,
    Nat.add_assoc, ← byteLength_append]
  rfl

theorem list {text : List Char} {es : List Expr} {e : Expr} (h : Denotes text es)
    (ha : Assembles es e) : Denotes ('(' :: (text ++ [')'])) [e] := by
  intro offset
  obtain ⟨trees, hm, hr⟩ := h (offset + 1)
  let stop := offset + 1 + byteLength text
  let opened : Token := ⟨.opening, ⟨offset, offset + 1⟩⟩
  let closed : Token := ⟨.closing, ⟨stop, stop + 1⟩⟩
  refine ⟨[.list opened.span trees closed.span], .cons (ha.means hm _ _) .nil, ?_⟩
  intro rest _
  have hstop : offset + byteLength ('(' :: (text ++ [')'])) = stop + 1 := by
    rw [byteLength_cons, byteLength_append]
    exact (Nat.add_assoc _ _ _).symm
  calc Token.scan offset ('(' :: (text ++ [')']) ++ rest)
      = (Token.scan (offset + 1) (text ++ ')' :: rest)).map ([opened] ++ ·) := by
        rw [List.cons_append, List.append_assoc]
        exact Token.scan_word .opening trivial offset
    _ = ((Token.scan stop (')' :: rest)).map (tokensAll trees ++ ·)).map ([opened] ++ ·) := by
        rw [hr _ (stops_cons ')' rest rfl)]
    _ = (((Token.scan (stop + 1) rest).map ([closed] ++ ·)).map (tokensAll trees ++ ·)).map
          ([opened] ++ ·) := by
        have hc : Token.scan stop (')' :: rest) =
            (Token.scan (stop + 1) rest).map ([closed] ++ ·) :=
          Token.scan_word .closing trivial stop
        rw [hc]
    _ = (Token.scan (offset + byteLength ('(' :: (text ++ [')']))) rest).map
          (tokensAll [.list opened.span trees closed.span] ++ ·) := by
        rw [map_append_append, map_append_append, hstop, tokensAll, tokensAll, List.append_nil]
        rfl

theorem separated {sep : Char} (hs : isBlank sep) {es : List Expr}
    (h : ∀ e ∈ es, Denotes e.text.toList [e.reread]) :
    Denotes (joined sep es) (Expr.rereadAll es) := by
  induction es with
  | nil => exact .nil
  | cons e es ih =>
    obtain ⟨he, hes⟩ := List.forall_mem_cons.mp h
    cases es with
    | nil =>
      rw [joined_cons, List.flatMap_nil, List.append_nil]
      exact he
    | cons e' es =>
      have ht := he.append hs (ih hes)
      rw [joined_cons] at ht ⊢
      exact ht

end Denotes

theorem denotes_symbol {a : Atom} {name : String} (h : Lexeme.ofAtom a.chars = .symbol name) :
    Denotes name.toList [.symbol name] := by
  rw [Lexeme.toList_of_ofAtom h]
  refine .atom a ?_ (.symbol name)
  intro span
  rw [h]
  rfl

theorem denotes_bool (b : Bool) : Denotes (Value.bool b).text.toList [.atom (.bool b)] := by
  obtain ⟨a, ha⟩ : ∃ a : Atom, a.chars = (Value.bool b).text.toList := by
    cases b <;> exact ⟨⟨_, List.cons_ne_nil _ _, List.all_eq_true.mp rfl⟩, rfl⟩
  rw [← ha]
  refine .atom a ?_ (.bool b)
  intro span
  rw [ha]
  cases b <;> rfl

theorem denotes_number {x : Binary64} (h : x ≠ .nan) :
    Denotes x.text.toList [(Value.number x).reread] := by
  obtain ⟨a, ha⟩ := x.exists_atom_text
  cases x with
  | nan => exact (h rfl).elim
  | infinity negative =>
    have ho := Binary64.ofAtom_text_infinity negative
    rw [← ha] at ho
    exact denotes_symbol ho
  | finite negative rank =>
    have ho := Binary64.ofAtom_text_finite negative rank
    rw [← ha] at ho ⊢
    refine .atom a ?_ (.number _)
    intro span
    rw [ho]
    rfl

mutual

theorem denotes_text (tree : Tree) {e : Expr} (h : Means tree e) (hl : Lexed tree.tokens) :
    Denotes e.text.toList [e.reread] := by
  -- A leaf was cut out of the source as a word, so its lexeme says what may stand in its place.
  cases tree with
  | number x span =>
    cases h
    obtain ⟨w, hw⟩ := hl _ List.mem_cons_self
    cases w with
    | opening | closing => cases hw
    | atom a => exact denotes_number (Lexeme.ne_nan_of_ofAtom hw.symm)
  | bool b span =>
    cases h
    exact denotes_bool b
  | symbol name span =>
    cases h
    obtain ⟨w, hw⟩ := hl _ List.mem_cons_self
    cases w with
    | opening | closing => cases hw
    | atom a => exact denotes_symbol hw.symm
  | list opening items closing =>
    obtain ⟨es, hm, ha⟩ := exists_assembles h
    have hi : Lexed (tokensAll items) := by
      intro token ht
      exact hl token (List.mem_cons_of_mem _ (List.mem_append_left _ ht))
    rw [ha.toList_text]
    exact (Denotes.separated rfl (denotes_texts items hm hi)).list ha.reread
termination_by structural tree

theorem denotes_texts (trees : List Tree) {es : List Expr} (h : MeansAll trees es)
    (hl : Lexed (tokensAll trees)) : ∀ e ∈ es, Denotes e.text.toList [e.reread] := by
  match trees, es, h with
  | [], [], .nil => exact fun _ hm => nomatch hm
  | tree :: trees, _ :: es, .cons ht hs =>
    obtain ⟨hd, hr⟩ := List.forall_mem_append.mp hl
    exact List.forall_mem_cons.mpr ⟨denotes_text tree ht hd, denotes_texts trees hs hr⟩
termination_by structural trees

end

theorem readProgram_of_denotes {source : String} {es : List Expr} (h : Denotes source.toList es)
    (hn : Expr.nestingAll es ≤ maxNesting) : readProgram source = .ok es := by
  obtain ⟨trees, hm, hr⟩ := h 0
  apply Form.readProgram_of_tokenize _ hm
  · apply (nestingAll_le_iff trees maxNesting).mp
    rwa [nestingAll_of_means trees hm]
  · have hs := hr [] stops_nil
    rw [Token.scan_nil, List.append_nil] at hs
    exact hs.trans (congrArg Except.ok (List.append_nil _))

/-- A program's text has its expressions on lines of their own. -/
def programText (es : List Expr) : String :=
  String.intercalate "\n" (es.map Expr.text)

theorem toList_programText (es : List Expr) : (programText es).toList = joined '\n' es := by
  rw [programText, String.toList_intercalate, List.map_map]
  rfl

theorem readProgram_programText {source : String} {es : List Expr}
    (h : readProgram source = .ok es) : readProgram (programText es) = .ok (Expr.rereadAll es) := by
  obtain ⟨trees, ht, hm, hn⟩ := Form.exists_trees_of_readProgram h
  apply readProgram_of_denotes
  · rw [toList_programText]
    exact .separated rfl (denotes_texts trees hm (lexed_of_tokenize ht))
  · rw [Expr.nestingAll_rereadAll, ← nestingAll_of_means trees hm]
    exact (nestingAll_le_iff trees maxNesting).mpr hn

/-- The text of a program that was read is read as the very same program, signs of zero included,
exactly if no number in it is infinite. -/
theorem readProgram_programText_eq_iff {source : String} {es : List Expr}
    (h : readProgram source = .ok es) :
    readProgram (programText es) = .ok es ↔
      ∀ x, .number x ∈ Expr.atomsAll es → x.isInfinite = false := by
  rw [readProgram_programText h, Except.ok.injEq]
  exact Expr.rereadAll_eq_iff es

theorem readProgram_programText_infinity :
    ∃ es, readProgram "(f -0) 1e999" = .ok es ∧ readProgram (programText es) ≠ .ok es := by
  have ht : tokenize "(f -0) 1e999" =
      .ok (tokensAll [.list ⟨0, 1⟩ [.symbol "f" ⟨1, 2⟩, .number (.finite true 0) ⟨3, 5⟩] ⟨5, 6⟩,
        .number (.infinity false) ⟨7, 12⟩]) := by
    have hl : "(f -0) 1e999".toList =
        ['(', 'f', ' ', '-', '0', ')', ' ', '1', 'e', '9', '9', '9'] := rfl
    rw [tokenize, hl]
    simp [Token.scan, isBlank, isAtomChar, List.takeWhile, List.dropWhile]
    rfl
  have hk : ¬ IsKeyword (.symbol "f" ⟨1, 2⟩) := by simp [IsKeyword]
  have hr := Form.readProgram_of_tokenize ht
    (.cons (.sequence hk (.symbol _ _) (.cons (.number _ _) .nil)) (.cons (.number _ _) .nil))
    (by simp [nestingAll, nesting, maxNesting])
  refine ⟨_, hr, ?_⟩
  intro h
  cases (readProgram_programText_eq_iff hr).mp h (.infinity false)
    (by simp [Expr.atomsAll, Expr.atoms])

end LispCalc
