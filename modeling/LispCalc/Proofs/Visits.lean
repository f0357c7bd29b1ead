import LispCalc.Proofs.Unlimited

namespace LispCalc

/-- A node that an evaluation visits: the children's numbers from the node up to the root, and its
form. -/
structure Visit where
  path : List Nat
  shape : Expr.Shape
deriving DecidableEq, Repr

/-- The root stands at depth one, a child one deeper than its parent. -/
def Visit.depth (v : Visit) : Nat :=
  v.path.length + 1

variable {α β : Type}

def Outcome.visitsThen (o : Outcome α) (next : α → Environment → List Visit) : List Visit :=
  match o.result with
  | .error _ => []
  | .ok a => next a o.environment

theorem Outcome.visitsThen_nil (o : Outcome α) : o.visitsThen (fun _ _ => []) = [] := by
  cases h : o.result <;> simp only [visitsThen, h]

theorem Outcome.mem_visitsThen {o : Outcome α} {next : α → Environment → List Visit} {v : Visit}
    (h : v ∈ o.visitsThen next) : ∃ a env, v ∈ next a env := by
  rw [visitsThen] at h
  split at h
  · cases h
  · exact ⟨_, _, h⟩

namespace Expr

section

variable [Host]

mutual

/-- The nodes that an evaluation without a limit visits, in order; `path` leads to the root. -/
def visits (policy : Policy) (path : List Nat) : Expr → Environment → List Visit
  | .atom _, _ => [⟨path, .atom⟩]
  | .symbol _, _ => [⟨path, .symbol⟩]
  | .sequence head args, env =>
    ⟨path, .sequence⟩ :: (visits policy (0 :: path) head env ++
      (evalUnlimited policy head env).visitsThen fun callee env =>
        match callee.asBuiltin with
        | .error _ => []
        | .ok _ => argVisits policy path 1 args env)
  | .definition _ value, env => ⟨path, .definition⟩ :: visits policy (0 :: path) value env
  | .conditional condition thenBranch elseBranch, env =>
    ⟨path, .conditional⟩ :: (visits policy (0 :: path) condition env ++
      (Evaluation.operand policy .condition (evalUnlimited policy condition) env).visitsThen
        fun value env =>
          if value.isTruthy then visits policy (1 :: path) thenBranch env
          else visits policy (2 :: path) elseBranch env)
termination_by structural e => e

def argVisits (policy : Policy) (path : List Nat) (child : Nat) :
    List Expr → Environment → List Visit
  | [], _ => []
  | arg :: args, env =>
    visits policy (child :: path) arg env ++
      (Evaluation.operand policy .argument (evalUnlimited policy arg) env).visitsThen
        fun _ env => argVisits policy path (child + 1) args env
termination_by structural args => args

end

end

mutual

/-- The number of nodes on the longest way down from the root. -/
def height : Expr → Nat
  | .atom _ | .symbol _ => 1
  | .sequence head args => max head.height (argsHeight args) + 1
  | .definition _ value => value.height + 1
  | .conditional condition thenBranch elseBranch =>
    max condition.height (max thenBranch.height elseBranch.height) + 1

def argsHeight : List Expr → Nat
  | [] => 0
  | arg :: args => max arg.height (argsHeight args)

end

end Expr

def Event.shape? : Event → Option Expr.Shape
  | .visited shape => some shape
  | _ => none

/-- The log shows exactly these visits, in this order. -/
def Outcome.Shows (o : Outcome α) (visits : List Visit) : Prop :=
  o.log.filterMap Event.shape? = visits.map Visit.shape

namespace Outcome.Shows

variable {visits : List Visit}

theorem andThen {o : Outcome α} {next : α → Evaluation β} {rest : α → Environment → List Visit}
    (h : o.Shows visits) (hn : ∀ a env, (next a env).Shows (rest a env)) :
    (o.andThen next).Shows (visits ++ o.visitsThen rest) := by
  rw [Outcome.Shows] at h ⊢
  cases ho : o.result with
  | error e =>
    rw [andThen_of_error ho, visitsThen, ho, List.append_nil]
    exact h
  | ok a =>
    rw [andThen_of_ok ho, visitsThen, ho, logged, List.filterMap_append, List.map_append, h]
    exact congrArg _ (hn a o.environment)

theorem andThenSilent {o : Outcome α} {next : α → Evaluation β} (h : o.Shows visits)
    (hn : ∀ a env, (next a env).Shows []) : (o.andThen next).Shows visits := by
  have hc : (o.andThen next).Shows (visits ++ o.visitsThen fun _ _ => []) := h.andThen hn
  rwa [visitsThen_nil, List.append_nil] at hc

theorem noted {o o' : Outcome Value} {events : List Event} (h : o.Shows visits)
    (hl : o'.log = o.log ++ events) (he : events.filterMap Event.shape? = []) :
    o'.Shows visits := by
  rw [Outcome.Shows] at h ⊢
  rw [hl, List.filterMap_append, he, List.append_nil, h]

theorem asOperand {o : Outcome Value} (h : o.Shows visits) (policy : Policy) (role : Role) :
    (o.asOperand policy role).Shows visits := by
  rw [Outcome.asOperand]
  split
  · exact h
  · split
    · exact h.noted rfl rfl
    · exact h

theorem bound {o : Outcome Value} (h : o.Shows visits) (policy : Policy) (name : String) :
    (o.bound policy name).Shows visits := by
  rw [Outcome.bound]
  split
  · refine h.noted rfl ?_
    rw [List.filterMap_append, filterMap_shadowing rfl]
    rfl
  · split
    · exact h.noted rfl rfl
    · exact h

theorem asForm {o : Outcome Value} (h : o.Shows visits) (index : Nat) :
    (o.asForm index).Shows visits := by
  rw [Outcome.asForm]
  split
  · exact h
  · exact h.noted rfl rfl

theorem visit {o : Outcome α} (h : o.Shows visits) (path : List Nat) (shape : Expr.Shape) :
    (o.logged [.visited shape]).Shows (⟨path, shape⟩ :: visits) :=
  congrArg (shape :: ·) h

theorem callOn [Host] {args : Evaluation (List Value)} {callee : Value} {env : Environment}
    (h : (args env).Shows visits) :
    (Evaluation.callOn args callee env).Shows
      (match callee.asBuiltin with
        | .error _ => []
        | .ok _ => visits) := by
  cases hc : callee.asBuiltin with
  | error e =>
    rw [Evaluation.callOn_of_error hc]
    rfl
  | ok b =>
    rw [Evaluation.callOn_of_ok hc]
    exact h.andThenSilent fun _ _ => rfl

end Outcome.Shows

namespace Expr

open Evaluation

variable [Host]

mutual

theorem evalUnlimited_shows (policy : Policy) (path : List Nat) (e : Expr) (env : Environment) :
    (evalUnlimited policy e env).Shows (e.visits policy path env) := by
  cases e with
  | atom value => rfl
  | symbol name => rfl
  | sequence head args =>
    rw [evalUnlimited_sequence, visits]
    apply Outcome.Shows.visit
    apply (evalUnlimited_shows policy (0 :: path) head env).andThen
    intro callee env
    exact (evalArgsUnlimited_shows policy path 1 args env).callOn
  | definition name value =>
    rw [evalUnlimited_definition, visits]
    exact ((evalUnlimited_shows policy (0 :: path) value env).bound policy name).visit path _
  | conditional condition thenBranch elseBranch =>
    rw [evalUnlimited_conditional, visits, operand_apply]
    apply Outcome.Shows.visit
    apply ((evalUnlimited_shows policy (0 :: path) condition env).asOperand policy _).andThen
    intro value env
    rw [choose]
    split
    · exact evalUnlimited_shows policy (1 :: path) thenBranch env
    · exact evalUnlimited_shows policy (2 :: path) elseBranch env
termination_by structural e

theorem evalArgsUnlimited_shows (policy : Policy) (path : List Nat) (child : Nat)
    (args : List Expr) (env : Environment) :
    (evalArgsUnlimited policy args env).Shows (argVisits policy path child args env) := by
  match args with
  | [] => rfl
  | arg :: args =>
    rw [evalArgsUnlimited_cons, argVisits, operand_apply]
    apply ((evalUnlimited_shows policy (child :: path) arg env).asOperand policy _).andThen
    intro value env
    rw [map_apply]
    exact (evalArgsUnlimited_shows policy path (child + 1) args env).andThenSilent fun _ _ => rfl
termination_by structural args

end

theorem root_mem_visits (policy : Policy) (path : List Nat) (e : Expr) (env : Environment) :
    ⟨path, e.shape⟩ ∈ e.visits policy path env := by
  cases e <;> exact List.mem_cons_self

mutual

theorem depth_le_of_mem_visits {policy : Policy} {e : Expr} {path : List Nat}
    {env : Environment} {v : Visit} (h : v ∈ e.visits policy path env) :
    v.depth ≤ path.length + e.height := by
  cases e with
  | atom value =>
    cases List.mem_singleton.mp h
    exact Nat.le_refl _
  | symbol name =>
    cases List.mem_singleton.mp h
    exact Nat.le_refl _
  | sequence head args =>
    simp only [visits, List.mem_cons, List.mem_append] at h
    simp only [height]
    rcases h with rfl | h | h
    · simp only [Visit.depth]
      omega
    · have hd := depth_le_of_mem_visits h
      simp only [List.length_cons] at hd
      omega
    · obtain ⟨callee, env', h⟩ := Outcome.mem_visitsThen h
      split at h
      · cases h
      · have hd := depth_le_of_mem_argVisits h
        omega
  | definition name value =>
    simp only [visits, List.mem_cons] at h
    simp only [height]
    rcases h with rfl | h
    · simp only [Visit.depth]
      omega
    · have hd := depth_le_of_mem_visits h
      simp only [List.length_cons] at hd
      omega
  | conditional condition thenBranch elseBranch =>
    simp only [visits, List.mem_cons, List.mem_append] at h
    simp only [height]
    rcases h with rfl | h | h
    · simp only [Visit.depth]
      omega
    · have hd := depth_le_of_mem_visits h
      simp only [List.length_cons] at hd
      omega
    · obtain ⟨value, env', h⟩ := Outcome.mem_visitsThen h
      split at h
      · have hd := depth_le_of_mem_visits h
        simp only [List.length_cons] at hd
        omega
      · have hd := depth_le_of_mem_visits h
        simp only [List.length_cons] at hd
        omega
termination_by structural e

theorem depth_le_of_mem_argVisits {policy : Policy} {args : List Expr} {path : List Nat}
    {child : Nat} {env : Environment} {v : Visit} (h : v ∈ argVisits policy path child args env) :
    v.depth ≤ path.length + 1 + argsHeight args := by
  match args with
  | [] => cases h
  | arg :: args =>
    simp only [argVisits, List.mem_append] at h
    simp only [argsHeight]
    rcases h with h | h
    · have hd := depth_le_of_mem_visits h
      simp only [List.length_cons] at hd
      omega
    · obtain ⟨value, env', h⟩ := Outcome.mem_visitsThen h
      have hd := depth_le_of_mem_argVisits h
      omega
termination_by structural args

end

end Expr

end LispCalc
