import LispCalc.Proofs.Counting
import LispCalc.Proofs.Environment
import LispCalc.Proofs.Source.Concatenation

namespace LispCalc

open LispCalc.Tree

variable {α β : Type}

namespace Outcome

theorem logged_andThen (o : Outcome α) (events : List Event) (next : α → Evaluation β) :
    (o.logged events).andThen next = (o.andThen next).logged events := by
  cases h : o.result with
  | error e =>
    have hl : (o.logged events).result = .error e := h
    rw [andThen_of_error h, andThen_of_error hl]
    rfl
  | ok a =>
    have hl : (o.logged events).result = .ok a := h
    rw [andThen_of_ok h, andThen_of_ok hl]
    simp only [logged, List.append_assoc]

/-- The same result and the same environment, whatever was recorded. -/
structure SameEnd (o o' : Outcome α) : Prop where
  result : o.result = o'.result
  environment : o.environment = o'.environment

namespace SameEnd

theorem logged {o o' : Outcome α} (h : SameEnd o o') (events events' : List Event) :
    SameEnd (o.logged events) (o'.logged events') :=
  ⟨h.result, h.environment⟩

theorem andThen {o o' : Outcome α} {next next' : α → Evaluation β} (h : SameEnd o o')
    (hn : ∀ a env, SameEnd (next a env) (next' a env)) :
    SameEnd (o.andThen next) (o'.andThen next') := by
  cases ho : o.result with
  | error e =>
    rw [andThen_of_error ho, andThen_of_error (h.result ▸ ho)]
    exact ⟨rfl, h.environment⟩
  | ok a =>
    rw [andThen_of_ok ho, andThen_of_ok (h.result ▸ ho), h.environment]
    exact (hn a o'.environment).logged _ _

theorem asForm (o : Outcome Value) (i j : Nat) : SameEnd (o.asForm i) (o.asForm j) := by
  cases ho : o.result with
  | error e =>
    rw [asForm_of_error ho, asForm_of_error ho]
    exact ⟨rfl, rfl⟩
  | ok v =>
    rw [asForm_of_ok ho, asForm_of_ok ho]
    exact ⟨rfl, rfl⟩

end SameEnd

end Outcome

namespace Program

variable [Host]

theorem evalFrom_append (options : Options) (index : Nat) (last : Value) (p q : List Expr)
    (env : Environment) :
    evalFrom options index last (p ++ q) env =
      (evalFrom options index last p env).andThen fun value =>
        evalFrom options (index + p.length) value q := by
  induction p generalizing index last env with
  | nil => rfl
  | cons form forms ih =>
    rw [List.cons_append, evalFrom_cons, evalFrom_cons, Outcome.logged_andThen]
    cases h : ((form.eval options options.maxDepth env).asForm index).result with
    | error e =>
      rw [Outcome.andThen_of_error h, Outcome.andThen_of_error h, Outcome.andThen_of_error rfl]
    | ok v =>
      rw [Outcome.andThen_of_ok h, Outcome.andThen_of_ok h, Outcome.logged_andThen, ih,
        List.length_cons, Nat.add_right_comm, Nat.add_assoc]

theorem evalFrom_sameEnd (options : Options) (i j : Nat) (last : Value) (program : List Expr)
    (env : Environment) :
    (evalFrom options i last program env).SameEnd (evalFrom options j last program env) := by
  induction program generalizing i j last env with
  | nil => exact ⟨rfl, rfl⟩
  | cons form forms ih =>
    rw [evalFrom_cons, evalFrom_cons]
    apply Outcome.SameEnd.logged
    apply (Outcome.SameEnd.asForm _ i j).andThen
    intro value env
    exact ih (i + 1) (j + 1) value env

theorem eval_append (options : Options) (p q : List Expr) (env : Environment) :
    (eval options (p ++ q) env).SameEnd
      ((eval options p env).andThen fun value => evalFrom options 0 value q) := by
  rw [eval, evalFrom_append, eval]
  apply Outcome.SameEnd.andThen ⟨rfl, rfl⟩
  intro value env
  exact evalFrom_sameEnd options _ 0 value q env

theorem eval_append_of_error {options : Options} {p : List Expr} {env : Environment}
    {e : EvalError} (h : (eval options p env).result = .error e) (q : List Expr) :
    (eval options (p ++ q) env).result = .error e ∧
      (eval options (p ++ q) env).environment = (eval options p env).environment := by
  have hs := eval_append options p q env
  rw [Outcome.andThen_of_error h] at hs
  exact ⟨hs.result, hs.environment⟩

theorem eval_append_of_ok {options : Options} {p : List Expr} {env : Environment} {v : Value}
    (h : (eval options p env).result = .ok v) (q : List Expr) :
    let second := eval options q (eval options p env).environment
    (eval options (p ++ q) env).result = (if q.isEmpty then .ok v else second.result) ∧
      (eval options (p ++ q) env).environment = second.environment := by
  have hs := eval_append options p q env
  rw [Outcome.andThen_of_ok h] at hs
  cases q with
  | nil => exact ⟨hs.result, hs.environment⟩
  | cons form forms => exact ⟨hs.result, hs.environment⟩

end Program

theorem CountingSession.calls_leave_only_bindings [Host] (session : Session) (calls : List Call) :
    let reached := session.counting.afterAll calls
    reached.depth = 0 ∧
      (∀ call, reached.outcome call = (session.afterAll calls).outcome call) ∧
      (∀ (session' : Session) (calls' : List Call),
        let reached' := session'.counting.afterAll calls'
        reached'.options = reached.options →
          (∀ name, reached'.environment.get? name = reached.environment.get? name) →
            ∀ call, reached'.outcome call = reached.outcome call) ∧
      ∀ (s₁ s₂ : String) (p q : List Expr), readProgram s₁ = .ok p → readProgram s₂ = .ok q →
        ∃ whole, readProgram (s₁ ++ "\n" ++ s₂) = .ok whole ∧
          let joined := reached.outcome (.interpret whole)
          let first := reached.outcome (.interpret p)
          let second := (reached.after (.interpret p)).outcome (.interpret q)
          match first.result with
          | .error e => joined.result = .error e ∧ joined.environment = first.environment
          | .ok v =>
            joined.result = (if q.isEmpty then .ok v else second.result) ∧
              joined.environment = second.environment := by
  intro reached
  have hr : reached = (session.afterAll calls).counting := counting_afterAll session calls
  refine ⟨?_, ?_, ?_, ?_⟩
  · rw [hr]
    rfl
  · intro call
    rw [hr, counting_outcome]
  · intro session' calls' reached' ho he call
    have hr' : reached' = (session'.afterAll calls').counting := counting_afterAll session' calls'
    have hs : reached' = reached := by
      rw [hr, hr'] at ho he ⊢
      rw [Session.counting, Session.counting, CountingSession.mk.injEq]
      exact ⟨ho, Environment.eq_of_get?_eq he, rfl⟩
    rw [hs]
  · intro s₁ s₂ p q h₁ h₂
    have hj := readProgram_append_lineFeed h₁ s₂
    rw [h₂] at hj
    refine ⟨p ++ q, hj, ?_⟩
    rw [hr, counting_after, counting_outcome, counting_outcome, counting_outcome]
    cases hf : ((session.afterAll calls).outcome (.interpret p)).result with
    | error e =>
      simp only [hf]
      exact Program.eval_append_of_error hf q
    | ok v =>
      simp only [hf]
      exact Program.eval_append_of_ok hf q

attribute [local instance] Host.none

theorem CountingSession.calls_leave_only_bindings_refused :
    let options : Options := { policy := .lenient, maxDepth := 1 }
    let refused := Call.eval (.definition "b" (.atom (.bool true)))
    let reached := (Session.mk options .empty).counting.afterAll [refused]
    let fresh := (Session.mk options (Environment.empty.define "b" .nil)).counting
    ((Session.mk options .empty).outcome refused).result = .error (.recursionLimit 1) ∧
      reached.depth = 0 ∧
      (fresh.options = reached.options ∧
        (∀ name, fresh.environment.get? name = reached.environment.get? name) ∧
        ∀ call, fresh.outcome call = reached.outcome call) ∧
      readProgram "b" = .ok [.symbol "b"] ∧
        ∃ whole, readProgram ("b" ++ "\n" ++ "b") = .ok whole ∧
          (reached.outcome (.interpret whole)).result = .ok .nil := by
  intro options refused reached fresh
  have ht : tokenize "b" = .ok (tokensAll [.symbol "b" ⟨0, 1⟩]) := by
    have hl : "b".toList = ['b'] := rfl
    rw [tokenize, hl]
    simp [Token.scan, isBlank]
    rfl
  have hb : readProgram "b" = .ok [.symbol "b"] :=
    Form.readProgram_of_tokenize ht (.cons (.symbol _ _) .nil) (by simp [nesting])
  have h := calls_leave_only_bindings ⟨options, .empty⟩ [refused]
  obtain ⟨whole, hw, hj, -⟩ := h.2.2.2 "b" "b" _ _ hb hb
  have hf := h.2.2.1 ⟨options, Environment.empty.define "b" .nil⟩ [] rfl fun _ => rfl
  exact ⟨rfl, h.1, ⟨rfl, fun _ => rfl, hf⟩, hb, whole, hw, hj⟩

end LispCalc
