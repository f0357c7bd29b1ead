import Mathlib.Data.List.TakeWhile
import LispCalc.Proofs.DepthLimit

namespace LispCalc

variable {α β : Type}

namespace Expr

variable [Host]

mutual

/-- The nodes that an evaluation visits, in order, where `path` leads to the root. What the depth
limit refuses is not visited. -/
def visitsWithin (options : Options) (budget : Nat) (path : List Nat) (e : Expr)
    (env : Environment) : List Visit :=
  match budget, e with
  | 0, _ => []
  | _ + 1, .atom _ => [⟨path, .atom⟩]
  | _ + 1, .symbol _ => [⟨path, .symbol⟩]
  | budget + 1, .sequence head args =>
    ⟨path, .sequence⟩ :: (head.visitsWithin options budget (0 :: path) env ++
      (head.eval options budget env).visitsThen fun callee env =>
        match callee.asBuiltin with
        | .error _ => []
        | .ok _ => argVisitsWithin options budget path 1 args env)
  | budget + 1, .definition _ value =>
    ⟨path, .definition⟩ :: value.visitsWithin options budget (0 :: path) env
  | budget + 1, .conditional condition thenBranch elseBranch =>
    ⟨path, .conditional⟩ :: (condition.visitsWithin options budget (0 :: path) env ++
      (Evaluation.operand options.policy .condition
        (condition.eval options budget) env).visitsThen fun value env =>
          if value.isTruthy then thenBranch.visitsWithin options budget (1 :: path) env
          else elseBranch.visitsWithin options budget (2 :: path) env)
termination_by structural e

def argVisitsWithin (options : Options) (budget : Nat) (path : List Nat) (child : Nat)
    (args : List Expr) (env : Environment) : List Visit :=
  match args with
  | [] => []
  | arg :: args =>
    arg.visitsWithin options budget (child :: path) env ++
      (Evaluation.operand options.policy .argument (arg.eval options budget) env).visitsThen
        fun _ env => argVisitsWithin options budget path (child + 1) args env
termination_by structural args

end

end Expr

namespace Program

variable [Host]

/-- The nodes visited in forms whose first one has the given index. The forms count as the
children of the program. -/
def visitsFrom (options : Options) (index : Nat) : List Expr → Environment → List Visit
  | [], _ => []
  | form :: forms, env =>
    form.visitsWithin options options.maxDepth [index] env ++
      (form.eval options options.maxDepth env).visitsThen fun _ env =>
        visitsFrom options (index + 1) forms env

def visits (options : Options) (program : List Expr) (env : Environment) : List Visit :=
  visitsFrom options 0 program env

end Program

namespace Expr

open Evaluation

variable [Host]

theorem visitsWithin_zero (options : Options) (path : List Nat) (e : Expr) (env : Environment) :
    e.visitsWithin options 0 path env = [] := by
  cases e <;> rfl

mutual

theorem eval_shows (options : Options) (path : List Nat) (e : Expr) (budget : Nat)
    (env : Environment) :
    (e.eval options budget env).Shows (e.visitsWithin options budget path env) := by
  match budget with
  | 0 =>
    rw [eval_zero, visitsWithin_zero]
    rfl
  | budget + 1 =>
    cases e with
    | atom value => rfl
    | symbol name => rfl
    | sequence head args =>
      rw [eval_sequence, visitsWithin]
      apply Outcome.Shows.visit
      apply (eval_shows options (0 :: path) head budget env).andThen
      intro callee env
      exact (evalArgs_shows options path 1 args budget env).callOn
    | definition name value =>
      rw [eval_definition, visitsWithin]
      exact ((eval_shows options (0 :: path) value budget env).bound _ name).visit path _
    | conditional condition thenBranch elseBranch =>
      rw [eval_conditional, visitsWithin, operand_apply]
      apply Outcome.Shows.visit
      apply ((eval_shows options (0 :: path) condition budget env).asOperand _ _).andThen
      intro value env
      rw [choose]
      split
      · exact eval_shows options (1 :: path) thenBranch budget env
      · exact eval_shows options (2 :: path) elseBranch budget env
termination_by structural e

theorem evalArgs_shows (options : Options) (path : List Nat) (child : Nat) (args : List Expr)
    (budget : Nat) (env : Environment) :
    (evalArgs options budget args env).Shows
      (argVisitsWithin options budget path child args env) := by
  match args with
  | [] => rfl
  | arg :: args =>
    rw [evalArgs_cons, argVisitsWithin, operand_apply]
    apply ((eval_shows options (child :: path) arg budget env).asOperand _ _).andThen
    intro value env
    rw [map_apply]
    exact (evalArgs_shows options path (child + 1) args budget env).andThenSilent fun _ _ => rfl
termination_by structural args

end

theorem root_mem_visitsWithin (options : Options) (budget : Nat) (path : List Nat) (e : Expr)
    (env : Environment) : ⟨path, e.shape⟩ ∈ e.visitsWithin options (budget + 1) path env := by
  cases e <;> exact List.mem_cons_self

end Expr

def Visit.isWithin (limit : Nat) (v : Visit) : Bool :=
  v.depth ≤ limit

theorem Visit.isWithin_iff {limit : Nat} {v : Visit} : v.isWithin limit = true ↔ v.depth ≤ limit :=
  decide_eq_true_iff

theorem CutAt.takeWhile_visitsThen {limit : Nat} {visits : List Visit} {run whole : Outcome α}
    {rest rest' : α → Environment → List Visit} (h : CutAt limit visits run whole)
    (hr : ∀ a env, rest a env = (rest' a env).takeWhile (Visit.isWithin limit)) :
    visits.takeWhile (Visit.isWithin limit) ++ run.visitsThen rest =
      (visits ++ whole.visitsThen rest').takeWhile (Visit.isWithin limit) := by
  by_cases hw : ∀ v ∈ visits, v.isWithin limit = true
  · rw [List.takeWhile_append_of_pos hw, List.takeWhile_eq_self_iff.mpr hw,
      h.within fun v hv => Visit.isWithin_iff.mp (hw v hv)]
    cases ho : whole.result with
    | error e => simp only [Outcome.visitsThen, ho, List.takeWhile_nil]
    | ok a => simp only [Outcome.visitsThen, ho, hr]
  · have hl : (visits.takeWhile (Visit.isWithin limit)).length ≠ visits.length := fun hl =>
      hw (List.takeWhile_eq_self_iff.mp ((List.takeWhile_prefix _).eq_of_length hl))
    have hb : ∃ v ∈ visits, limit < v.depth := by
      simpa only [Visit.isWithin_iff, not_forall, Nat.not_le, exists_prop] using hw
    rw [List.takeWhile_append, if_neg hl]
    simp only [Outcome.visitsThen, h.beyond hb, List.append_nil]

namespace Expr

open Evaluation

variable [Host]

theorem takeWhile_visits_of_le {limit : Nat} {path : List Nat} (h : limit ≤ path.length)
    (policy : Policy) (e : Expr) (env : Environment) :
    (e.visits policy path env).takeWhile (Visit.isWithin limit) = [] := by
  have hd (shape : Shape) : ¬ Visit.isWithin limit ⟨path, shape⟩ = true := fun hw =>
    Nat.not_le.mpr (Nat.lt_succ_of_le h) (Visit.isWithin_iff.mp hw)
  cases e <;> exact List.takeWhile_cons_of_neg (hd _)

mutual

theorem visitsWithin_eq_takeWhile (options : Options) (e : Expr) (budget : Nat)
    (path : List Nat) (env : Environment) (h : path.length + budget = options.maxDepth) :
    e.visitsWithin options budget path env =
      (e.visits options.policy path env).takeWhile (Visit.isWithin options.maxDepth) := by
  match budget with
  | 0 =>
    rw [visitsWithin_zero, takeWhile_visits_of_le]
    omega
  | budget + 1 =>
    have hd (shape : Shape) : Visit.isWithin options.maxDepth ⟨path, shape⟩ = true := by
      simp only [Visit.isWithin_iff, Visit.depth]
      omega
    have hc (child : Nat) : (child :: path).length + budget = options.maxDepth := by
      simp only [List.length_cons]
      omega
    cases e with
    | atom value => rw [visitsWithin, visits, List.takeWhile_cons_of_pos (hd _)]; rfl
    | symbol name => rw [visitsWithin, visits, List.takeWhile_cons_of_pos (hd _)]; rfl
    | sequence head args =>
      rw [visitsWithin, visits, List.takeWhile_cons_of_pos (hd _),
        visitsWithin_eq_takeWhile options head budget _ env (hc 0)]
      congr 1
      apply (eval_cut options head budget _ env (hc 0)).takeWhile_visitsThen
      intro callee env
      cases callee.asBuiltin with
      | error e => rfl
      | ok b => exact argVisitsWithin_eq_takeWhile options args budget path 1 env h
    | definition name value =>
      rw [visitsWithin, visits, List.takeWhile_cons_of_pos (hd _),
        visitsWithin_eq_takeWhile options value budget _ env (hc 0)]
    | conditional condition thenBranch elseBranch =>
      rw [visitsWithin, visits, List.takeWhile_cons_of_pos (hd _),
        visitsWithin_eq_takeWhile options condition budget _ env (hc 0), operand_apply,
        operand_apply]
      congr 1
      apply ((eval_cut options condition budget _ env (hc 0)).asOperand _ _).takeWhile_visitsThen
      intro value env
      split
      · exact visitsWithin_eq_takeWhile options thenBranch budget _ env (hc 1)
      · exact visitsWithin_eq_takeWhile options elseBranch budget _ env (hc 2)
termination_by structural e

theorem argVisitsWithin_eq_takeWhile (options : Options) (args : List Expr) (budget : Nat)
    (path : List Nat) (child : Nat) (env : Environment)
    (h : path.length + (budget + 1) = options.maxDepth) :
    argVisitsWithin options budget path child args env =
      (argVisits options.policy path child args env).takeWhile
        (Visit.isWithin options.maxDepth) := by
  match args with
  | [] => rfl
  | arg :: args =>
    have hc : (child :: path).length + budget = options.maxDepth := by
      simp only [List.length_cons]
      omega
    rw [argVisitsWithin, argVisits, visitsWithin_eq_takeWhile options arg budget _ env hc,
      operand_apply, operand_apply]
    apply ((eval_cut options arg budget _ env hc).asOperand _ _).takeWhile_visitsThen
    intro value env
    exact argVisitsWithin_eq_takeWhile options args budget path (child + 1) env h
termination_by structural args

end

end Expr

theorem Outcome.visitsThen_asForm (o : Outcome Value) (index : Nat)
    (next : Value → Environment → List Visit) :
    (o.asForm index).visitsThen next = o.visitsThen next := by
  cases ho : o.result with
  | ok v => rw [asForm_of_ok ho]
  | error e => simp only [asForm_of_error ho, visitsThen, ho]

theorem Program.evalFrom_shows [Host] (options : Options) (index : Nat) (last : Value)
    (forms : List Expr) (env : Environment) :
    (evalFrom options index last forms env).Shows (visitsFrom options index forms env) := by
  induction forms generalizing index last env with
  | nil => rfl
  | cons form forms ih =>
    rw [evalFrom_cons, visitsFrom, ← Outcome.visitsThen_asForm _ index]
    apply ((form.eval_shows options [index] options.maxDepth env).asForm index).andThen
    intro value env
    exact ih (index + 1) value env

end LispCalc
