import Mathlib.Data.List.Forall2
import LispCalc.Proofs.LimitedVisits

namespace LispCalc

variable {α β : Type}

/-- The children's numbers from the root down to the node. -/
def Visit.position (v : Visit) : List Nat :=
  v.path.reverse

namespace Expr

def modifyChild (e : Expr) (child : Nat) (f : Expr → Expr) : Expr :=
  match e, child with
  | .sequence head args, 0 => .sequence (f head) args
  | .sequence head args, child + 1 => .sequence head (args.modify child f)
  | .definition name value, 0 => .definition name (f value)
  | .conditional condition thenBranch elseBranch, 0 =>
    .conditional (f condition) thenBranch elseBranch
  | .conditional condition thenBranch elseBranch, 1 =>
    .conditional condition (f thenBranch) elseBranch
  | .conditional condition thenBranch elseBranch, 2 =>
    .conditional condition thenBranch (f elseBranch)
  | e, _ => e

/-- Puts another expression in the place of the one at a position, if there is one. -/
def replaceAt (e : Expr) (position : List Nat) (new : Expr) : Expr :=
  match position with
  | [] => new
  | child :: position => e.modifyChild child fun e => e.replaceAt position new
termination_by structural position

end Expr

/-- No visit is that of the node at the path. -/
def Avoids (visits : List Visit) (path : List Nat) : Prop :=
  ∀ v ∈ visits, v.path ≠ path

theorem Avoids.of_visitsThen {o : Outcome α} {rest : α → Environment → List Visit}
    {path : List Nat} (h : Avoids (o.visitsThen rest) path) {a : α} (ho : o.result = .ok a) :
    Avoids (rest a o.environment) path := by
  rwa [Outcome.visitsThen, ho] at h

namespace Expr

open Evaluation

variable [Host]

theorem evalArgs_modify (options : Options) {f : Expr → Expr} {budget : Nat} {path : List Nat}
    {child : Nat} {hole : List Nat}
    (hf : ∀ (e : Expr) (env : Environment),
      Avoids (e.visitsWithin options budget (child :: path) env) hole →
        (f e).eval options budget env = e.eval options budget env)
    {args : List Expr} {first index : Nat} {env : Environment} (hi : first + index = child)
    (h : Avoids (argVisitsWithin options budget path first args env) hole) :
    evalArgs options budget (args.modify index f) env = evalArgs options budget args env := by
  induction args generalizing first index env with
  | nil => rw [List.modify_nil]
  | cons arg args ih =>
    obtain ⟨ha, hs⟩ := List.forall_mem_append.mp h
    cases index with
    | zero =>
      subst hi
      rw [List.modify_zero_cons, evalArgs_cons, evalArgs_cons, hf arg env ha]
    | succ index =>
      rw [operand_apply] at hs
      rw [List.modify_succ_cons, evalArgs_cons, evalArgs_cons]
      apply Outcome.andThen_congr
      intro value ho
      rw [map_apply, map_apply, ih (by omega) (Avoids.of_visitsThen hs ho)]

/-- An expression that is not visited may be replaced: on the way down to it, each node goes on
with the child that was replaced only if it visits it. -/
theorem eval_replaceAt (options : Options) (new : Expr) (position : List Nat) {e : Expr}
    {budget : Nat} {path : List Nat} {env : Environment}
    (h : Avoids (e.visitsWithin options budget path env) (position.reverse ++ path)) :
    (e.replaceAt position new).eval options budget env = e.eval options budget env := by
  induction position generalizing e budget path env with
  | nil =>
    cases budget with
    | zero => rw [eval_zero, eval_zero]
    | succ budget => exact (h _ (root_mem_visitsWithin options budget path e env) rfl).elim
  | cons child position ih =>
    cases budget with
    | zero => rw [eval_zero, eval_zero]
    | succ budget =>
      rw [List.reverse_cons, List.append_assoc] at h
      rw [replaceAt]
      cases e with
      | atom | symbol => rfl
      | sequence head args =>
        obtain ⟨-, h⟩ := List.forall_mem_cons.mp h
        obtain ⟨hh, ha⟩ := List.forall_mem_append.mp h
        cases child with
        | zero => rw [modifyChild, eval_sequence, eval_sequence, ih hh]
        | succ child =>
          rw [modifyChild, eval_sequence, eval_sequence, Outcome.andThen_congr]
          intro callee ho
          apply callOn_congr
          intro op hc
          have hs := Avoids.of_visitsThen ha ho
          rw [hc] at hs
          exact evalArgs_modify options (fun e env => ih) (Nat.add_comm 1 child) hs
      | definition name value =>
        obtain ⟨-, hv⟩ := List.forall_mem_cons.mp h
        cases child with
        | zero => rw [modifyChild, eval_definition, eval_definition, ih hv]
        | succ child => rfl
      | conditional condition thenBranch elseBranch =>
        obtain ⟨-, h⟩ := List.forall_mem_cons.mp h
        obtain ⟨hc, hb⟩ := List.forall_mem_append.mp h
        rw [operand_apply] at hb
        match child with
        | 0 => rw [modifyChild, eval_conditional, eval_conditional, ih hc]
        | 1 =>
          rw [modifyChild, eval_conditional, eval_conditional, Outcome.andThen_congr]
          intro value ho
          have hs := Avoids.of_visitsThen hb ho
          exact choose_congr (fun ht => ih (by rwa [if_pos ht] at hs)) fun _ => rfl
        | 2 =>
          rw [modifyChild, eval_conditional, eval_conditional, Outcome.andThen_congr]
          intro value ho
          have hs := Avoids.of_visitsThen hb ho
          exact choose_congr (fun _ => rfl) fun he => ih (by rwa [if_neg he] at hs)
        | child + 3 => rfl

end Expr

/-- The same event, but for the form that the note on the start of this form shows. -/
inductive Event.SameButForm (index : Nat) : Event → Event → Prop
  | same (event : Event) : SameButForm index event event
  | form (form form' : Expr) :
    SameButForm index (.formStarted index form) (.formStarted index form')

theorem Event.SameButForm.refl (index : Nat) (log : List Event) :
    List.Forall₂ (SameButForm index) log log :=
  List.forall₂_same.mpr fun event _ => .same event

namespace Outcome

/-- The same outcome, but for the form that the note on the start of this form shows. -/
structure SameButForm (index : Nat) (o o' : Outcome α) : Prop where
  result : o'.result = o.result
  environment : o'.environment = o.environment
  log : List.Forall₂ (Event.SameButForm index) o.log o'.log

namespace SameButForm

variable {index : Nat}

theorem refl (o : Outcome α) : SameButForm index o o :=
  ⟨rfl, rfl, Event.SameButForm.refl index o.log⟩

theorem logged {o o' : Outcome α} (h : SameButForm index o o') {event event' : Event}
    (he : event.SameButForm index event') :
    SameButForm index (o.logged [event]) (o'.logged [event']) :=
  ⟨h.result, h.environment, .cons he h.log⟩

theorem andThen {o : Outcome α} {next next' : α → Evaluation β}
    (h : ∀ a, o.result = .ok a → SameButForm index (next a o.environment) (next' a o.environment)) :
    SameButForm index (o.andThen next) (o.andThen next') := by
  cases ho : o.result with
  | error e =>
    rw [andThen_of_error ho, andThen_of_error ho]
    exact refl _
  | ok a =>
    rw [andThen_of_ok ho, andThen_of_ok ho]
    have hn := h a ho
    exact ⟨hn.result, hn.environment,
      List.rel_append (Event.SameButForm.refl index o.log) hn.log⟩

end SameButForm

end Outcome

namespace Program

theorem evalFrom_modify [Host] (options : Options) (position : List Nat) (new : Expr) (last : Value)
    {first index : Nat} {forms : List Expr} {env : Environment}
    (h : Avoids (visitsFrom options first forms env) (position.reverse ++ [first + index])) :
    (evalFrom options first last forms env).SameButForm (first + index)
      (evalFrom options first last (forms.modify index (·.replaceAt position new)) env) := by
  induction forms generalizing first index last env with
  | nil =>
    rw [List.modify_nil]
    exact .refl _
  | cons form forms ih =>
    obtain ⟨hf, hs⟩ := List.forall_mem_append.mp h
    cases index with
    | zero =>
      rw [List.modify_zero_cons, evalFrom_cons, evalFrom_cons,
        Expr.eval_replaceAt options new position hf]
      exact (Outcome.SameButForm.refl _).logged (.form _ _)
    | succ index =>
      rw [List.modify_succ_cons, evalFrom_cons, evalFrom_cons]
      refine Outcome.SameButForm.logged (.andThen ?_) (.same _)
      intro value ho
      rw [← Outcome.visitsThen_asForm _ first] at hs
      have hr := Avoids.of_visitsThen hs ho
      rw [← Nat.add_assoc, Nat.add_right_comm] at hr ⊢
      exact ih value hr

end Program

theorem Visit.avoids_of_position_ne {visits : List Visit} {position : List Nat}
    (h : ∀ v ∈ visits, v.position ≠ position) : Avoids visits position.reverse := by
  intro v hv hp
  exact h v hv (List.reverse_eq_iff.mpr hp)

/-- An evaluation goes through the nodes that its log shows, and an expression at any other
position may be replaced by any expression: the outcome is the same. In a program this holds for a
position in the form of any index, except that the note on the start of that form shows the new
form. -/
theorem eval_ignores_unvisited [Host] (options : Options) (env : Environment) (position : List Nat)
    (new : Expr) :
    (∀ (e : Expr) (budget : Nat),
      let visits := e.visitsWithin options budget [] env
      (e.eval options budget env).Shows visits ∧
        ((∀ v ∈ visits, v.position ≠ position) →
          (e.replaceAt position new).eval options budget env = e.eval options budget env)) ∧
    ∀ (program : List Expr) (index : Nat),
      let visits := Program.visits options program env
      (Program.eval options program env).Shows visits ∧
        ((∀ v ∈ visits, v.position ≠ index :: position) →
          (Program.eval options program env).SameButForm index
            (Program.eval options (program.modify index (·.replaceAt position new)) env)) := by
  refine ⟨?_, ?_⟩
  · intro e budget visits
    refine ⟨e.eval_shows options [] budget env, fun h => ?_⟩
    apply Expr.eval_replaceAt
    rw [List.append_nil]
    exact Visit.avoids_of_position_ne h
  · intro program index visits
    refine ⟨Program.evalFrom_shows options 0 .nil program env, fun h => ?_⟩
    have hv := Visit.avoids_of_position_ne h
    rw [List.reverse_cons, ← Nat.zero_add index] at hv
    have hs := Program.evalFrom_modify options position new .nil hv
    rwa [Nat.zero_add] at hs

attribute [local instance] Host.none

theorem eval_ignores_unvisited_after_failure :
    let e : Expr := .conditional (.atom (.bool true)) (.symbol "z") (.definition "y" (.symbol "z"))
    (∀ v ∈ e.visitsWithin ⟨.strict, 2⟩ 2 [] .initial, v.position ≠ [2]) ∧
      (e.replaceAt [2] (.atom .nil)).eval ⟨.strict, 2⟩ 2 .initial =
        e.eval ⟨.strict, 2⟩ 2 .initial ∧
      (∀ v ∈ Program.visits ⟨.strict, 2⟩ [e, .symbol "z"] .initial, v.position ≠ [1]) ∧
      (Program.eval ⟨.strict, 2⟩ [e, .symbol "z"] .initial).SameButForm 1
        (Program.eval ⟨.strict, 2⟩ [e, .definition "y" (.atom .nil)] .initial) := by
  intro e
  have hb : ∀ v ∈ e.visitsWithin ⟨.strict, 2⟩ 2 [] .initial, v.position ≠ [2] := by decide
  have hf : ∀ v ∈ Program.visits ⟨.strict, 2⟩ [e, .symbol "z"] .initial, v.position ≠ [1] := by
    decide
  obtain ⟨hi, -⟩ := eval_ignores_unvisited ⟨.strict, 2⟩ .initial [2] (.atom .nil)
  obtain ⟨-, hp⟩ := eval_ignores_unvisited ⟨.strict, 2⟩ .initial [] (.definition "y" (.atom .nil))
  exact ⟨hb, (hi e 2).2 hb, hf, (hp [e, .symbol "z"] 1).2 hf⟩

end LispCalc
