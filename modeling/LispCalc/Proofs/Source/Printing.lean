import LispCalc.Proofs.HostFree
import LispCalc.Proofs.Source.Grammar

namespace LispCalc

open LispCalc.Tree

/-- What the text of a value from a source is read as: the infinite numbers have names for texts. -/
def Value.reread : Value → Expr
  | .number (.infinity negative) => .symbol (Binary64.infinity negative).text
  | value => .atom value

/-- A value that a source text can write down. -/
def Value.IsLiteral : Value → Prop
  | .number _ | .bool _ => True
  | .nil | .builtin _ => False

theorem Value.IsLiteral.hostFree {v : Value} (h : v.IsLiteral) : v.HostFree := by
  cases v with
  | nil | number x | bool b => trivial
  | builtin b => exact h.elim

namespace Expr

mutual

def reread : Expr → Expr
  | .atom value => value.reread
  | .symbol name => .symbol name
  | .sequence head args => .sequence head.reread (rereadAll args)
  | .definition name value => .definition name value.reread
  | .conditional condition thenBranch elseBranch =>
    .conditional condition.reread thenBranch.reread elseBranch.reread

def rereadAll : List Expr → List Expr
  | [] => []
  | e :: es => e.reread :: rereadAll es

end

mutual

/-- The number of lists that are open at once in the text, where the most are. -/
def nesting : Expr → Nat
  | .atom _ | .symbol _ => 0
  | .sequence head args => max head.nesting (nestingAll args) + 1
  | .definition _ value => value.nesting + 1
  | .conditional condition thenBranch elseBranch =>
    max condition.nesting (max thenBranch.nesting elseBranch.nesting) + 1

def nestingAll : List Expr → Nat
  | [] => 0
  | e :: es => max e.nesting (nestingAll es)

end

theorem nesting_reread_atom (value : Value) : value.reread.nesting = 0 := by
  unfold Value.reread
  split <;> rfl

mutual

theorem nesting_reread (e : Expr) : e.reread.nesting = e.nesting := by
  cases e with
  | atom value => exact nesting_reread_atom value
  | symbol name => rfl
  | sequence head args =>
    rw [reread, nesting, nesting, nesting_reread head, nestingAll_rereadAll args]
  | definition name value => rw [reread, nesting, nesting, nesting_reread value]
  | conditional condition thenBranch elseBranch =>
    rw [reread, nesting, nesting, nesting_reread condition, nesting_reread thenBranch,
      nesting_reread elseBranch]
termination_by structural e

theorem nestingAll_rereadAll (es : List Expr) : nestingAll (rereadAll es) = nestingAll es := by
  match es with
  | [] => rfl
  | e :: es => rw [rereadAll, nestingAll, nestingAll, nesting_reread e, nestingAll_rereadAll es]
termination_by structural es

end

theorem reread_atom_eq_iff (value : Value) :
    value.reread = .atom value ↔ ∀ x, .number x ∈ [value] → x.isInfinite = false := by
  simp only [List.mem_singleton]
  constructor
  · rintro h x rfl
    cases x with
    | infinity negative => cases h
    | nan | finite => rfl
  · intro h
    unfold Value.reread
    split
    · cases h _ rfl
    · rfl

mutual

/-- Printing and reading keeps an expression exactly if it has no infinite number in it. -/
theorem reread_eq_iff (e : Expr) :
    e.reread = e ↔ ∀ x, .number x ∈ e.atoms → x.isInfinite = false := by
  cases e with
  | atom value => exact reread_atom_eq_iff value
  | symbol name => simp only [reread, atoms, List.not_mem_nil, false_implies, implies_true]
  | sequence head args =>
    simp only [reread, atoms, sequence.injEq, reread_eq_iff head, rereadAll_eq_iff args,
      List.mem_append, or_imp, forall_and]
  | definition name value =>
    simp only [reread, atoms, definition.injEq, reread_eq_iff value, true_and]
  | conditional condition thenBranch elseBranch =>
    simp only [reread, atoms, conditional.injEq, reread_eq_iff condition,
      reread_eq_iff thenBranch, reread_eq_iff elseBranch, List.mem_append, or_imp, forall_and]
termination_by structural e

theorem rereadAll_eq_iff (es : List Expr) :
    rereadAll es = es ↔ ∀ x, .number x ∈ atomsAll es → x.isInfinite = false := by
  match es with
  | [] => simp only [rereadAll, atomsAll, List.not_mem_nil, false_implies, implies_true]
  | e :: es =>
    simp only [rereadAll, atomsAll, List.cons.injEq, reread_eq_iff e, rereadAll_eq_iff es,
      List.mem_append, or_imp, forall_and]
termination_by structural es

end

theorem reread_ne_keyword {e : Expr} {name : String} (h : e ≠ .symbol name)
    (hn : name = "def" ∨ name = "if") : e.reread ≠ .symbol name := by
  cases e with
  | atom value =>
    rw [reread]
    unfold Value.reread
    split
    · rename_i negative
      intro he
      injection he with he
      rcases hn with rfl | rfl <;> cases negative <;> revert he <;> decide
    · exact Expr.noConfusion
  | symbol name' => exact h
  | sequence | definition | conditional => exact Expr.noConfusion

end Expr

/-- How the reader makes an expression of the items of a list. -/
inductive Assembles : List Expr → Expr → Prop
  | definition (name : String) (value : Expr) :
    Assembles [.symbol "def", .symbol name, value] (.definition name value)
  | conditional (condition thenBranch elseBranch : Expr) :
    Assembles [.symbol "if", condition, thenBranch, elseBranch]
      (.conditional condition thenBranch elseBranch)
  | sequence {head : Expr} (hd : head ≠ .symbol "def") (hi : head ≠ .symbol "if")
    (args : List Expr) : Assembles (head :: args) (.sequence head args)

theorem exists_assembles {opening closing : Span} {trees : List Tree} {e : Expr}
    (h : Means (.list opening trees closing) e) : ∃ es, MeansAll trees es ∧ Assembles es e := by
  cases h with
  | definition hv =>
    exact ⟨_, .cons (.symbol _ _) (.cons (.symbol _ _) (.cons hv .nil)), .definition _ _⟩
  | conditional hc ht he =>
    exact ⟨_, .cons (.symbol _ _) (.cons hc (.cons ht (.cons he .nil))), .conditional _ _ _⟩
  | sequence hk hf hs =>
    exact ⟨_, .cons hf hs, .sequence (Form.ne_keyword_of_means hf hk (.inl rfl))
      (Form.ne_keyword_of_means hf hk (.inr rfl)) _⟩

namespace Assembles

theorem means {trees : List Tree} {es : List Expr} {e : Expr} (h : Assembles es e)
    (hm : MeansAll trees es) (opening closing : Span) : Means (.list opening trees closing) e := by
  cases h with
  | definition name value =>
    obtain _ | ⟨hk, _ | ⟨hn, _ | ⟨hv, _ | _⟩⟩⟩ := hm
    obtain ⟨keyword, rfl⟩ := Form.eq_symbol_of_means hk
    obtain ⟨target, rfl⟩ := Form.eq_symbol_of_means hn
    exact .definition hv
  | conditional condition thenBranch elseBranch =>
    obtain _ | ⟨hk, _ | ⟨hc, _ | ⟨ht, _ | ⟨he, _ | _⟩⟩⟩⟩ := hm
    obtain ⟨keyword, rfl⟩ := Form.eq_symbol_of_means hk
    exact .conditional hc ht he
  | sequence hd hi args =>
    obtain _ | ⟨hf, hs⟩ := hm
    exact .sequence (Form.not_isKeyword_of_means hf hd hi) hf hs

theorem reread {es : List Expr} {e : Expr} (h : Assembles es e) :
    Assembles (Expr.rereadAll es) e.reread := by
  cases h with
  | definition name value => exact .definition name value.reread
  | conditional condition thenBranch elseBranch =>
    exact .conditional condition.reread thenBranch.reread elseBranch.reread
  | sequence hd hi args =>
    exact .sequence (Expr.reread_ne_keyword hd (.inl rfl))
      (Expr.reread_ne_keyword hi (.inr rfl)) _

theorem nesting {es : List Expr} {e : Expr} (h : Assembles es e) :
    e.nesting = Expr.nestingAll es + 1 := by
  cases h <;> simp only [Expr.nesting, Expr.nestingAll, Nat.zero_max, Nat.max_zero]

theorem atoms {es : List Expr} {e : Expr} (h : Assembles es e) :
    e.atoms = Expr.atomsAll es := by
  cases h <;> simp only [Expr.atoms, Expr.atomsAll, List.nil_append, List.append_nil]

end Assembles

mutual

theorem isLiteral_of_mem_atoms (tree : Tree) {e : Expr} (h : Means tree e) :
    ∀ value ∈ e.atoms, value.IsLiteral := by
  cases tree with
  | number x span | bool x span | symbol x span =>
    cases h
    simp [Expr.atoms, Value.IsLiteral]
  | list opening items closing =>
    obtain ⟨es, hm, ha⟩ := exists_assembles h
    rw [ha.atoms]
    exact isLiteral_of_mem_atomsAll items hm
termination_by structural tree

theorem isLiteral_of_mem_atomsAll (trees : List Tree) {es : List Expr} (h : MeansAll trees es) :
    ∀ value ∈ Expr.atomsAll es, value.IsLiteral := by
  match trees, es, h with
  | [], [], .nil => exact List.forall_mem_nil _
  | tree :: trees, _ :: es, .cons ht hs =>
    exact List.forall_mem_append.mpr
      ⟨isLiteral_of_mem_atoms tree ht, isLiteral_of_mem_atomsAll trees hs⟩
termination_by structural trees

end

theorem isLiteral_of_readProgram {source : String} {program : List Expr}
    (h : readProgram source = .ok program) :
    ∀ value ∈ Expr.atomsAll program, value.IsLiteral := by
  obtain ⟨trees, -, hm, -⟩ := Form.exists_trees_of_readProgram h
  exact isLiteral_of_mem_atomsAll trees hm

mutual

theorem nesting_of_means (tree : Tree) {e : Expr} (h : Means tree e) :
    tree.nesting = e.nesting := by
  cases tree with
  | number x span | bool x span | symbol x span =>
    cases h
    rfl
  | list opening items closing =>
    obtain ⟨es, hm, ha⟩ := exists_assembles h
    rw [Tree.nesting, ha.nesting, nestingAll_of_means items hm]
termination_by structural tree

theorem nestingAll_of_means (trees : List Tree) {es : List Expr} (h : MeansAll trees es) :
    nestingAll trees = Expr.nestingAll es := by
  match trees, es, h with
  | [], [], .nil => rfl
  | tree :: trees, _ :: es, .cons ht hs =>
    rw [nestingAll, Expr.nestingAll, nesting_of_means tree ht, nestingAll_of_means trees hs]
termination_by structural trees

end

theorem nestingAll_le_iff (trees : List Tree) (limit : Nat) :
    nestingAll trees ≤ limit ↔ ∀ tree ∈ trees, tree.nesting ≤ limit := by
  induction trees with
  | nil => simp [nestingAll]
  | cons tree trees ih => simp only [nestingAll, Nat.max_le, ih, List.forall_mem_cons]

def joined (sep : Char) (es : List Expr) : List Char :=
  [sep].intercalate (es.map fun e => e.text.toList)

theorem joined_cons (sep : Char) (e : Expr) (es : List Expr) :
    joined sep (e :: es) = e.text.toList ++ es.flatMap fun e => sep :: e.text.toList := by
  induction es generalizing e with
  | nil => simp [joined]
  | cons e' es ih =>
    have hj : joined sep (e :: e' :: es) = e.text.toList ++ [sep] ++ joined sep (e' :: es) :=
      List.intercalate_cons_cons
    rw [hj, ih, List.append_assoc, List.flatMap_cons]
    rfl

theorem flatMap_argTexts (args : List Expr) :
    (Expr.argTexts args).flatMap String.toList = args.flatMap fun e => ' ' :: e.text.toList := by
  induction args with
  | nil => rfl
  | cons e es ih =>
    rw [Expr.argTexts, List.flatMap_cons, List.flatMap_cons, ih, String.toList_append]
    rfl

theorem Assembles.toList_text {es : List Expr} {e : Expr} (h : Assembles es e) :
    e.text.toList = '(' :: (joined ' ' es ++ [')']) := by
  cases h <;>
    simp [Expr.text, joined_cons, flatMap_argTexts]

end LispCalc
