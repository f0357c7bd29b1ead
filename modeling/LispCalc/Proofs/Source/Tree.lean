import LispCalc.Source.Form

namespace LispCalc

/-- A form as it is written, each part with its place. -/
inductive Tree where
  | number (x : Binary64) (span : Span)
  | bool (b : Bool) (span : Span)
  | symbol (name : String) (span : Span)
  | list (opening : Span) (items : List Tree) (closing : Span)

namespace Tree

def span : Tree → Span
  | .number _ span | .bool _ span | .symbol _ span => span
  | .list opening _ closing => opening.upTo closing

mutual

def tokens : Tree → List Token
  | .number x span => [⟨.number x, span⟩]
  | .bool b span => [⟨.bool b, span⟩]
  | .symbol name span => [⟨.symbol name, span⟩]
  | .list opening items closing =>
    ⟨.opening, opening⟩ :: (tokensAll items ++ [⟨.closing, closing⟩])

def tokensAll : List Tree → List Token
  | [] => []
  | tree :: trees => tree.tokens ++ tokensAll trees

end

mutual

/-- The number of lists that are open at once where the most are. -/
def nesting : Tree → Nat
  | .number _ _ | .bool _ _ | .symbol _ _ => 0
  | .list _ items _ => nestingAll items + 1

def nestingAll : List Tree → Nat
  | [] => 0
  | tree :: trees => max tree.nesting (nestingAll trees)

end

/-- The symbols that make a list a definition or a conditional when they come first in it. -/
def IsKeyword : Tree → Prop
  | .symbol name _ => name = "def" ∨ name = "if"
  | _ => False

mutual

/-- The expression that a tree means; a tree with a misshapen list means none. -/
inductive Means : Tree → Expr → Prop
  | number (x : Binary64) (span : Span) : Means (.number x span) (.atom (.number x))
  | bool (b : Bool) (span : Span) : Means (.bool b span) (.atom (.bool b))
  | symbol (name : String) (span : Span) : Means (.symbol name span) (.symbol name)
  | definition {opening keyword target closing : Span} {name : String} {value : Tree} {v : Expr}
    (hv : Means value v) :
    Means (.list opening [.symbol "def" keyword, .symbol name target, value] closing)
      (.definition name v)
  | conditional {opening keyword closing : Span} {condition thenBranch elseBranch : Tree}
    {c t e : Expr} (hc : Means condition c) (ht : Means thenBranch t) (he : Means elseBranch e) :
    Means (.list opening [.symbol "if" keyword, condition, thenBranch, elseBranch] closing)
      (.conditional c t e)
  | sequence {opening closing : Span} {head : Tree} {args : List Tree} {f : Expr}
    {es : List Expr} (hk : ¬ IsKeyword head) (hf : Means head f) (hs : MeansAll args es) :
    Means (.list opening (head :: args) closing) (.sequence f es)

inductive MeansAll : List Tree → List Expr → Prop
  | nil : MeansAll [] []
  | cons {tree : Tree} {trees : List Tree} {e : Expr} {es : List Expr} (h : Means tree e)
    (hs : MeansAll trees es) : MeansAll (tree :: trees) (e :: es)

end

theorem tokensAll_append (trees trees' : List Tree) :
    tokensAll (trees ++ trees') = tokensAll trees ++ tokensAll trees' := by
  induction trees with
  | nil => rfl
  | cons tree trees ih => rw [List.cons_append, tokensAll, tokensAll, ih, List.append_assoc]

theorem nestingAll_append (trees trees' : List Tree) :
    nestingAll (trees ++ trees') = max (nestingAll trees) (nestingAll trees') := by
  induction trees with
  | nil => exact (Nat.zero_max _).symm
  | cons tree trees ih => rw [List.cons_append, nestingAll, nestingAll, ih, Nat.max_assoc]

theorem tokens_ne_closing (tree : Tree) (span : Span) (rest rest' : List Token) :
    tree.tokens ++ rest ≠ ⟨.closing, span⟩ :: rest' := by
  intro h
  cases tree <;> cases h

mutual

theorem tokens_append_inj {tree tree' : Tree} {rest rest' : List Token}
    (h : tree.tokens ++ rest = tree'.tokens ++ rest') : tree = tree' ∧ rest = rest' := by
  cases tree with
  | number x span | bool x span | symbol x span =>
    cases tree' <;> cases h
    exact ⟨rfl, rfl⟩
  | list opening items closing =>
    cases tree' with
    | number x span | bool x span | symbol x span => cases h
    | list opening' items' closing' =>
      simp only [tokens, List.cons_append, List.cons.injEq, List.append_assoc] at h
      obtain ⟨ho, h⟩ := h
      cases ho
      obtain ⟨rfl, rfl, rfl⟩ := tokensAll_closing_inj h
      exact ⟨rfl, rfl⟩
termination_by structural tree

theorem tokensAll_closing_inj {trees trees' : List Tree} {span span' : Span}
    {rest rest' : List Token}
    (h : tokensAll trees ++ ⟨.closing, span⟩ :: rest =
      tokensAll trees' ++ ⟨.closing, span'⟩ :: rest') :
    trees = trees' ∧ span = span' ∧ rest = rest' := by
  match trees, trees' with
  | [], [] =>
    cases h
    exact ⟨rfl, rfl, rfl⟩
  | [], tree' :: trees' =>
    rw [tokensAll, tokensAll, List.append_assoc] at h
    exact (tokens_ne_closing _ _ _ _ h.symm).elim
  | tree :: trees, [] =>
    rw [tokensAll, tokensAll, List.append_assoc] at h
    exact (tokens_ne_closing _ _ _ _ h).elim
  | tree :: trees, tree' :: trees' =>
    simp only [tokensAll, List.append_assoc] at h
    obtain ⟨rfl, hr⟩ := tokens_append_inj h
    obtain ⟨rfl, rfl, rfl⟩ := tokensAll_closing_inj hr
    exact ⟨rfl, rfl, rfl⟩
termination_by structural trees

end

/-- Tokens fall into trees in at most one way. -/
theorem tokensAll_inj {trees trees' : List Tree} (h : tokensAll trees = tokensAll trees') :
    trees = trees' := by
  have hc := congrArg (· ++ [(⟨.closing, ⟨0, 0⟩⟩ : Token)]) h
  exact (tokensAll_closing_inj hc).1

end Tree

end LispCalc
