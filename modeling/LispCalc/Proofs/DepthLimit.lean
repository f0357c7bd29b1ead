import LispCalc.Proofs.ReturnedErrors
import LispCalc.Proofs.Visits

namespace LispCalc

variable {α β : Type}

/-- The outcome `run` is `whole` cut at the limit, where `whole` visits the given nodes. -/
structure CutAt (limit : Nat) (visits : List Visit) (run whole : Outcome α) : Prop where
  within : (∀ v ∈ visits, v.depth ≤ limit) → run = whole
  beyond : (∃ v ∈ visits, limit < v.depth) → run.result = .error (.recursionLimit limit)

namespace CutAt

variable {limit : Nat} {visits : List Visit}

theorem refl (o : Outcome α) : CutAt limit [] o o :=
  ⟨fun _ => rfl, fun ⟨_, hv, _⟩ => nomatch hv⟩

theorem andThen {run whole : Outcome α} {next next' : α → Evaluation β}
    {rest : α → Environment → List Visit} (h : CutAt limit visits run whole)
    (hn : ∀ a env, CutAt limit (rest a env) (next a env) (next' a env)) :
    CutAt limit (visits ++ whole.visitsThen rest) (run.andThen next) (whole.andThen next') := by
  constructor
  · intro hv
    obtain ⟨hv, hr⟩ := List.forall_mem_append.mp hv
    rw [h.within hv]
    cases ho : whole.result with
    | error e => rw [Outcome.andThen_of_error ho, Outcome.andThen_of_error ho]
    | ok a =>
      simp only [Outcome.visitsThen, ho] at hr
      rw [Outcome.andThen_of_ok ho, Outcome.andThen_of_ok ho, (hn a _).within hr]
  · rintro ⟨v, hv, hd⟩
    by_cases hb : ∃ v ∈ visits, limit < v.depth
    · rw [Outcome.andThen_of_error (h.beyond hb)]
    · have hw : ∀ v ∈ visits, v.depth ≤ limit := fun v hv =>
        Nat.le_of_not_lt fun hd => hb ⟨v, hv, hd⟩
      rw [h.within hw]
      rcases List.mem_append.mp hv with hv | hv
      · exact (hb ⟨v, hv, hd⟩).elim
      · cases ho : whole.result with
        | error e =>
          simp only [Outcome.visitsThen, ho] at hv
          cases hv
        | ok a =>
          simp only [Outcome.visitsThen, ho] at hv
          rw [Outcome.andThen_of_ok ho]
          exact (hn a _).beyond ⟨v, hv, hd⟩

theorem asOperand {run whole : Outcome Value} (h : CutAt limit visits run whole)
    (policy : Policy) (role : Role) :
    CutAt limit visits (run.asOperand policy role) (whole.asOperand policy role) := by
  constructor
  · intro hv
    rw [h.within hv]
  · intro hv
    have hr := h.beyond hv
    simp only [Outcome.asOperand, hr, EvalError.isRecursionLimit, Bool.not_true, Bool.and_false,
      Bool.false_eq_true, ↓reduceIte]

theorem bound {run whole : Outcome Value} (h : CutAt limit visits run whole) (policy : Policy)
    (name : String) :
    CutAt limit visits (run.bound policy name) (whole.bound policy name) := by
  constructor
  · intro hv
    rw [h.within hv]
  · intro hv
    have hr := h.beyond hv
    simp only [Outcome.bound, hr]
    split
    · rfl
    · exact hr

theorem visit {run whole : Outcome α} {v : Visit} (h : CutAt limit visits run whole)
    (hv : v.depth ≤ limit) (events : List Event) :
    CutAt limit (v :: visits) (run.logged events) (whole.logged events) := by
  constructor
  · intro hw
    rw [h.within (List.forall_mem_cons.mp hw).2]
  · rintro ⟨w, hw, hd⟩
    rcases List.mem_cons.mp hw with rfl | hw
    · omega
    · exact h.beyond ⟨w, hw, hd⟩

theorem andThenSame {run whole : Outcome α} (h : CutAt limit visits run whole)
    (next : α → Evaluation β) : CutAt limit visits (run.andThen next) (whole.andThen next) := by
  have hc : CutAt limit (visits ++ whole.visitsThen fun _ _ => []) (run.andThen next)
      (whole.andThen next) := h.andThen fun a env => refl _
  rwa [Outcome.visitsThen_nil, List.append_nil] at hc

theorem callOn [Host] {args args' : Evaluation (List Value)} {callee : Value} {env : Environment}
    (h : CutAt limit visits (args env) (args' env)) :
    CutAt limit
      (match callee.asBuiltin with
        | .error _ => []
        | .ok _ => visits)
      (Evaluation.callOn args callee env) (Evaluation.callOn args' callee env) := by
  cases hc : callee.asBuiltin with
  | error e =>
    rw [Evaluation.callOn_of_error hc, Evaluation.callOn_of_error hc]
    exact refl _
  | ok b =>
    rw [Evaluation.callOn_of_ok hc, Evaluation.callOn_of_ok hc]
    exact h.andThenSame _

end CutAt

namespace Expr

open Evaluation

section

variable [Host]

theorem eval_zero_cut {options : Options} {path : List Nat}
    (h : path.length = options.maxDepth) (e : Expr) (env : Environment) :
    CutAt options.maxDepth (e.visits options.policy path env) (e.eval options 0 env)
      (e.evalUnlimited options.policy env) := by
  constructor
  · intro hv
    have hr := hv _ (root_mem_visits options.policy path e env)
    simp only [Visit.depth] at hr
    omega
  · intro _
    rw [eval_zero]

mutual

/-- A node at depth `path.length + 1` is evaluated with the nesting that is left below the limit. -/
theorem eval_cut (options : Options) (e : Expr) (budget : Nat) (path : List Nat)
    (env : Environment) (h : path.length + budget = options.maxDepth) :
    CutAt options.maxDepth (e.visits options.policy path env) (e.eval options budget env)
      (e.evalUnlimited options.policy env) := by
  match budget with
  | 0 => exact eval_zero_cut h e env
  | budget + 1 =>
    have hd (shape : Shape) : Visit.depth ⟨path, shape⟩ ≤ options.maxDepth := by
      simp only [Visit.depth]
      omega
    have hc (child : Nat) : (child :: path).length + budget = options.maxDepth := by
      simp only [List.length_cons]
      omega
    cases e with
    | atom value => exact (CutAt.refl ⟨.ok value, env, []⟩).visit (hd _) [.visited .atom]
    | symbol name => exact (CutAt.refl (lookup name env)).visit (hd _) [.visited .symbol]
    | sequence head args =>
      rw [eval_sequence, evalUnlimited_sequence, visits]
      refine CutAt.visit (CutAt.andThen (eval_cut options head budget _ env (hc 0))
        fun callee env => ?_) (hd _) _
      exact (evalArgs_cut options args budget path 1 env h).callOn
    | definition name value =>
      rw [eval_definition, evalUnlimited_definition]
      exact ((eval_cut options value budget _ env (hc 0)).bound _ name).visit (hd _) _
    | conditional condition thenBranch elseBranch =>
      rw [eval_conditional, evalUnlimited_conditional, visits, operand_apply]
      refine CutAt.visit (CutAt.andThen ((eval_cut options condition budget _ env (hc 0)).asOperand
        _ _) fun value env => ?_) (hd _) _
      simp only [choose]
      split
      · exact eval_cut options thenBranch budget _ env (hc 1)
      · exact eval_cut options elseBranch budget _ env (hc 2)
termination_by structural e

theorem evalArgs_cut (options : Options) (args : List Expr) (budget : Nat) (path : List Nat)
    (child : Nat) (env : Environment) (h : path.length + (budget + 1) = options.maxDepth) :
    CutAt options.maxDepth (argVisits options.policy path child args env)
      (evalArgs options budget args env) (evalArgsUnlimited options.policy args env) := by
  match args with
  | [] => exact CutAt.refl _
  | arg :: args =>
    have hc : (child :: path).length + budget = options.maxDepth := by
      simp only [List.length_cons]
      omega
    rw [evalArgs_cons, evalArgsUnlimited_cons, argVisits, operand_apply]
    refine CutAt.andThen ((eval_cut options arg budget _ env hc).asOperand _ _)
      fun value env => ?_
    rw [map_apply, map_apply]
    exact (evalArgs_cut options args budget path (child + 1) env h).andThenSame _
termination_by structural args

end

/-- A visit of the unlimited run that the limit refuses. -/
def VisitsBeyond (options : Options) (e : Expr) (env : Environment) : Prop :=
  ∃ v ∈ e.visits options.policy [] env, options.maxDepth < v.depth

theorem eval_of_visitsBeyond {options : Options} {e : Expr} {env : Environment}
    (h : VisitsBeyond options e env) :
    (e.eval options options.maxDepth env).result = .error (.recursionLimit options.maxDepth) :=
  (eval_cut options e options.maxDepth [] env (Nat.zero_add _)).beyond h

theorem eval_of_not_visitsBeyond {options : Options} {e : Expr} {env : Environment}
    (h : ¬ VisitsBeyond options e env) :
    e.eval options options.maxDepth env = e.evalUnlimited options.policy env := by
  have hc := eval_cut options e options.maxDepth [] env (Nat.zero_add _)
  apply hc.within
  intro v hv
  exact Nat.le_of_not_lt fun hd => h ⟨v, hv, hd⟩

theorem not_visitsBeyond_of_height_le {options : Options} {e : Expr}
    (h : e.height ≤ options.maxDepth) (env : Environment) : ¬ VisitsBeyond options e env := by
  rintro ⟨v, hv, hd⟩
  have hl := depth_le_of_mem_visits hv
  simp only [List.length_nil] at hl
  omega

theorem VisitsBeyond.shallower {options : Options} {deeper : Nat} {e : Expr} {env : Environment}
    (h : VisitsBeyond { options with maxDepth := deeper } e env)
    (hd : options.maxDepth ≤ deeper) : VisitsBeyond options e env := by
  obtain ⟨v, hv, hl⟩ := h
  exact ⟨v, hv, Nat.lt_of_le_of_lt hd hl⟩

/-- The unlimited run is the one under every limit that is high enough, and if it failed with a
limit, that would have to be each of them. -/
theorem evalUnlimited_ne_recursionLimit {e : Expr} {env : Environment} (hf : e.HostFree)
    (he : env.HostFree) (policy : Policy) (limit : Nat) :
    (e.evalUnlimited policy env).result ≠ .error (.recursionLimit limit) := by
  intro h
  have hl (maxDepth : Nat) (hd : e.height ≤ maxDepth) : limit = maxDepth := by
    have hv : ¬ VisitsBeyond ⟨policy, maxDepth⟩ e env := not_visitsBeyond_of_height_le hd env
    have ht : (e.eval ⟨policy, maxDepth⟩ maxDepth env).Honest ⟨policy, maxDepth⟩ e.nodes
        Value.HostFree := e.eval_honest maxDepth (List.Subset.refl _) hf he
    rw [eval_of_not_visitsBeyond hv] at ht
    exact ht.error _ h
  have hs := hl (e.height + 1) (Nat.le_succ _)
  rw [hl e.height (Nat.le_refl _)] at hs
  omega

theorem eval_eq_recursionLimit_iff {e : Expr} {env : Environment} (hf : e.HostFree)
    (he : env.HostFree) (options : Options) (limit : Nat) :
    (e.eval options options.maxDepth env).result = .error (.recursionLimit limit) ↔
      limit = options.maxDepth ∧ VisitsBeyond options e env := by
  by_cases hv : VisitsBeyond options e env
  · rw [eval_of_visitsBeyond hv, Except.error.injEq, EvalError.recursionLimit.injEq,
      and_iff_left hv, eq_comm]
  · rw [eval_of_not_visitsBeyond hv]
    exact iff_of_false (evalUnlimited_ne_recursionLimit hf he _ _) fun h => hv h.2

/-- Evaluation under a depth limit is evaluation without one, cut at the limit: it fails with the
limit if the unlimited run visits a node that lies deeper, and is that run otherwise. Without
functions of the host, which could raise that error themselves, it fails with the limit in no
other case. -/
theorem eval_cuts_evalUnlimited (options : Options) (e : Expr) (env : Environment) :
    let limited := e.eval options options.maxDepth env
    let whole := e.evalUnlimited options.policy env
    let visits := e.visits options.policy [] env
    whole.log.filterMap Event.shape? = visits.map Visit.shape ∧
      ((∃ v ∈ visits, options.maxDepth < v.depth) →
        limited.result = .error (.recursionLimit options.maxDepth)) ∧
      ((∀ v ∈ visits, v.depth ≤ options.maxDepth) → limited = whole) ∧
      (e.height ≤ options.maxDepth → ∀ v ∈ visits, v.depth ≤ options.maxDepth) ∧
      (limited.result ≠ .error (.recursionLimit options.maxDepth) →
        ∀ deeper, options.maxDepth ≤ deeper →
          e.eval { options with maxDepth := deeper } deeper env = limited) ∧
      (e.HostFree → env.HostFree → ∀ limit,
        (limited.result = .error (.recursionLimit limit) ↔
          limit = options.maxDepth ∧ ∃ v ∈ visits, options.maxDepth < v.depth)) := by
  intro limited whole visits
  have hn (h : ∀ v ∈ visits, v.depth ≤ options.maxDepth) : ¬ VisitsBeyond options e env :=
    fun ⟨v, hv, hd⟩ => Nat.not_lt.mpr (h v hv) hd
  refine ⟨evalUnlimited_shows _ _ _ _, eval_of_visitsBeyond,
    fun h => eval_of_not_visitsBeyond (hn h), ?_, ?_,
    fun hf he limit => eval_eq_recursionLimit_iff hf he options limit⟩
  · intro h v hv
    exact Nat.le_of_not_lt fun hd => not_visitsBeyond_of_height_le h env ⟨v, hv, hd⟩
  · intro hr deeper hd
    have hv : ¬ VisitsBeyond options e env := fun hv => hr (eval_of_visitsBeyond hv)
    have hv' : ¬ VisitsBeyond { options with maxDepth := deeper } e env :=
      fun h => hv (h.shallower hd)
    exact (eval_of_not_visitsBeyond hv').trans (eval_of_not_visitsBeyond hv).symm

end

section

attribute [local instance] Host.none

theorem eval_cuts_evalUnlimited_nested :
    let e := definition "x" (definition "y" (symbol "z"))
    e.HostFree ∧ Environment.initial.HostFree ∧
      (∃ v ∈ e.visits .lenient [] .initial, 2 < v.depth) ∧
      (e.eval ⟨.lenient, 2⟩ 2 .initial).result = .error (.recursionLimit 2) := by
  intro e
  have hf : e.HostFree := List.forall_mem_nil _
  have he := Environment.initial_hostFree
  have hv : ∃ v ∈ e.visits .lenient [] .initial, 2 < v.depth := by decide
  obtain ⟨-, -, -, -, -, hl⟩ := eval_cuts_evalUnlimited ⟨.lenient, 2⟩ e .initial
  exact ⟨hf, he, hv, (hl hf he 2).mpr ⟨rfl, hv⟩⟩

end

@[reducible] def limitingHost : Host where
  call _ _ := .error (.recursionLimit 5)

attribute [local instance] limitingHost

/-- The error of the limit without any visit that is deep. -/
theorem limit_error_of_host :
    let env := Environment.empty.define "f" (.builtin ⟨"f", .host 0⟩)
    let e := sequence (symbol "f") []
    (∀ policy, (e.eval ⟨policy, 5⟩ 5 env).result = .error (.recursionLimit 5)) ∧
      e.height ≤ 5 ∧ ∀ policy, ¬ ∃ v ∈ e.visits policy [] env, 5 < v.depth := by
  refine ⟨fun policy => ?_, by decide, fun policy => ?_⟩
  · cases policy <;> rfl
  · cases policy <;> decide

end Expr

end LispCalc
