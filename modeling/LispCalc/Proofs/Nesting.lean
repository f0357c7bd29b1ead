import LispCalc.Proofs.DepthLimit
import LispCalc.Proofs.Source.RoundTrip

namespace LispCalc

namespace Expr

mutual

/-- Every list takes one level, and the atoms and symbols inside the innermost one take another. -/
theorem height_eq_nesting (e : Expr) : e.height = e.nesting + 1 := by
  cases e with
  | atom value => rfl
  | symbol name => rfl
  | sequence head args =>
    have hh := height_eq_nesting head
    have ha := max_argsHeight args
    rw [height, nesting]
    omega
  | definition name value => rw [height, nesting, height_eq_nesting value]
  | conditional condition thenBranch elseBranch =>
    have hc := height_eq_nesting condition
    have ht := height_eq_nesting thenBranch
    have he := height_eq_nesting elseBranch
    rw [height, nesting]
    omega
termination_by structural e

theorem max_argsHeight (args : List Expr) : max 1 (argsHeight args) = nestingAll args + 1 := by
  match args with
  | [] => rfl
  | arg :: args =>
    have ha := height_eq_nesting arg
    have hs := max_argsHeight args
    rw [argsHeight, nestingAll]
    omega
termination_by structural args

end

theorem nesting_le_nestingAll {e : Expr} {es : List Expr} (h : e ∈ es) :
    e.nesting ≤ nestingAll es := by
  induction es with
  | nil => cases h
  | cons e' es ih =>
    rw [nestingAll]
    rcases List.mem_cons.mp h with rfl | h
    · exact Nat.le_max_left _ _
    · exact Nat.le_trans (ih h) (Nat.le_max_right _ _)

end Expr

namespace Program

theorem nesting_le_of_readProgram {source : String} {program : List Expr}
    (h : readProgram source = .ok program) : ∀ form ∈ program, form.nesting ≤ maxNesting := by
  obtain ⟨trees, -, hm, hn⟩ := Form.exists_trees_of_readProgram h
  intro form hf
  have hl := (nestingAll_le_iff trees maxNesting).mpr hn
  rw [nestingAll_of_means trees hm] at hl
  exact Nat.le_trans (Expr.nesting_le_nestingAll hf) hl

theorem hostFree_of_readProgram {source : String} {program : List Expr}
    (h : readProgram source = .ok program) : HostFree program :=
  fun value hv => (isLiteral_of_readProgram h value hv).hostFree

variable [Host]

theorem evalFrom_ne_recursionLimit {options : Options} (index : Nat) (last : Value)
    {forms : List Expr} {env : Environment}
    (h : ∀ form ∈ forms, form.nesting < options.maxDepth) (hf : HostFree forms)
    (he : env.HostFree) (limit : Nat) :
    (evalFrom options index last forms env).result ≠ .error (.recursionLimit limit) := by
  induction forms generalizing index last env with
  | nil => exact nofun
  | cons form forms ih =>
    obtain ⟨hn, hs⟩ := List.forall_mem_cons.mp h
    obtain ⟨hff, hfs⟩ := List.forall_mem_append.mp hf
    have hr : (form.eval options options.maxDepth env).result ≠
        .error (.recursionLimit limit) := by
      rw [Ne, Expr.eval_eq_recursionLimit_iff hff he]
      rw [Nat.lt_iff_add_one_le, ← form.height_eq_nesting] at hn
      exact fun hv => Expr.not_visitsBeyond_of_height_le hn env hv.2
    have ht : (form.eval options options.maxDepth env).Honest options form.nodes
        Value.HostFree := form.eval_honest options.maxDepth (List.Subset.refl _) hff he
    rw [evalFrom_cons]
    cases ho : (form.eval options options.maxDepth env).result with
    | ok value =>
      rw [Outcome.asForm_of_ok ho, Outcome.andThen_of_ok ho]
      exact ih (index + 1) value hs hfs ht.environment
    | error e =>
      rw [Outcome.asForm_of_error ho]
      rwa [ho] at hr

theorem eval_first_fails {options : Options} {form : Expr} {env : Environment}
    {e : EvalError} (h : (form.eval options options.maxDepth env).result = .error e)
    (forms : List Expr) : (eval options (form :: forms) env).result = .error e := by
  rw [eval, evalFrom_cons, Outcome.asForm_of_error h]
  rfl

end Program

namespace Expr

/-- Definitions one inside the other, with `true` inside the innermost. -/
def nestedDefinition : Nat → Expr
  | 0 => .atom (.bool true)
  | depth + 1 => .definition "x" (nestedDefinition depth)

theorem nesting_nestedDefinition (depth : Nat) : (nestedDefinition depth).nesting = depth := by
  induction depth with
  | zero => rfl
  | succ depth ih => rw [nestedDefinition, nesting, ih]

theorem reread_nestedDefinition (depth : Nat) :
    (nestedDefinition depth).reread = nestedDefinition depth := by
  induction depth with
  | zero => rfl
  | succ depth ih => rw [nestedDefinition, reread, ih]

theorem denotes_nestedDefinition (depth : Nat) :
    Denotes (nestedDefinition depth).text.toList [(nestedDefinition depth).reread] := by
  induction depth with
  | zero => exact denotes_bool true
  | succ depth ih =>
    have ha : Assembles [.symbol "def", .symbol "x", nestedDefinition depth]
        (nestedDefinition (depth + 1)) := .definition "x" _
    have hd : Denotes "def".toList [.symbol "def"] :=
      denotes_symbol (a := ⟨['d', 'e', 'f'], List.cons_ne_nil _ _, List.all_eq_true.mp rfl⟩) rfl
    have hx : Denotes "x".toList [.symbol "x"] :=
      denotes_symbol (a := ⟨['x'], List.cons_ne_nil _ _, List.all_eq_true.mp rfl⟩) rfl
    rw [ha.toList_text]
    refine (Denotes.separated rfl ?_).list ha.reread
    simp only [List.forall_mem_cons, List.not_mem_nil, false_implies, implies_true, and_true]
    exact ⟨hd, hx, ih⟩

theorem readProgram_nestedDefinition {depth : Nat} (h : depth ≤ maxNesting) :
    readProgram (nestedDefinition depth).text = .ok [nestedDefinition depth] := by
  have hd := denotes_nestedDefinition depth
  rw [reread_nestedDefinition] at hd
  apply readProgram_of_denotes hd
  rw [nestingAll, nesting_nestedDefinition]
  exact Nat.max_le.mpr ⟨h, Nat.zero_le _⟩

theorem eval_nestedDefinition [Host] (options : Options) (depth : Nat) (env : Environment) :
    ((nestedDefinition depth).eval options depth env).result =
      .error (.recursionLimit options.maxDepth) := by
  induction depth generalizing env with
  | zero => rw [eval_zero]
  | succ depth ih =>
    rw [nestedDefinition, eval_definition, Outcome.bound_of_error (ih env)]
    split
    · rfl
    · exact ih env

end Expr

namespace Program

/-- A program that was read never meets a depth limit above the reader's own, where no function of
the host raises the error itself. It may meet the default one, which equals the reader's, but only
if some form nests as deep as the reader allows. -/
theorem recursionLimit_only_at_full_nesting [Host] {source : String} {program : List Expr}
    (h : readProgram source = .ok program) (policy : Policy) {env : Environment}
    (he : env.HostFree) (limit : Nat) :
    (∀ maxDepth, maxNesting < maxDepth →
      (eval ⟨policy, maxDepth⟩ program env).result ≠ .error (.recursionLimit limit)) ∧
    ((∀ form ∈ program, form.nesting ≠ maxNesting) →
      (eval ⟨policy, defaultMaxDepth⟩ program env).result ≠ .error (.recursionLimit limit)) := by
  have hn := nesting_le_of_readProgram h
  have hf := hostFree_of_readProgram h
  constructor
  · intro maxDepth hd
    refine evalFrom_ne_recursionLimit 0 .nil (fun form hm => ?_) hf he limit
    exact Nat.lt_of_le_of_lt (hn form hm) hd
  · intro hl
    refine evalFrom_ne_recursionLimit 0 .nil (fun form hm => ?_) hf he limit
    exact Nat.lt_of_le_of_ne (hn form hm) (hl form hm)

attribute [local instance] Host.none

theorem recursionLimit_only_at_full_nesting_one_less :
    let form := Expr.nestedDefinition 511
    readProgram form.text = .ok [form] ∧ form.nesting ≠ maxNesting ∧
      (eval ⟨.lenient, defaultMaxDepth⟩ [form] .initial).result ≠
        .error (.recursionLimit 512) := by
  have hr := Expr.readProgram_nestedDefinition (show 511 ≤ maxNesting by decide)
  have hn : (Expr.nestedDefinition 511).nesting ≠ maxNesting := by
    rw [Expr.nesting_nestedDefinition]
    decide
  obtain ⟨-, hd⟩ := recursionLimit_only_at_full_nesting hr .lenient Environment.initial_hostFree 512
  exact ⟨hr, hn, hd (List.forall_mem_singleton.mpr hn)⟩

/-- A text that nests as deep as the reader allows is read, and its evaluation in a fresh
environment is refused at the default depth. -/
theorem full_nesting_exceeds_default_depth :
    let form := Expr.nestedDefinition maxNesting
    readProgram form.text = .ok [form] ∧
      ∀ policy, (eval ⟨policy, defaultMaxDepth⟩ [form] .initial).result =
        .error (.recursionLimit defaultMaxDepth) := by
  refine ⟨Expr.readProgram_nestedDefinition (Nat.le_refl _), fun policy => ?_⟩
  exact eval_first_fails
    (Expr.eval_nestedDefinition ⟨policy, defaultMaxDepth⟩ defaultMaxDepth .initial) []

end Program

end LispCalc
