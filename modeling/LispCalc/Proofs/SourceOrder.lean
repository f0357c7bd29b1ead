import Mathlib.Data.List.Flatten
import LispCalc.Proofs.Entries
import LispCalc.Proofs.ReturnedErrors

namespace LispCalc

/-- A node of an expression: the children's numbers from it up to the root, and the expression
there. -/
structure Node where
  path : List Nat
  expr : Expr

def Entry.node (c : Entry) : Node :=
  ⟨c.path, c.expr⟩

theorem pairwise_idxOf_lt {α : Type} [BEq α] [LawfulBEq α] {l : List α} (h : l.Nodup) :
    l.Pairwise fun a b => l.idxOf a < l.idxOf b := by
  apply List.pairwise_iff_getElem.mpr
  intro i j hi hj hij
  rwa [h.idxOf_getElem i hi, h.idxOf_getElem j hj]

namespace Expr

mutual

/-- The nodes in preorder, where `path` leads to the root. -/
def preorder (path : List Nat) : Expr → List Node
  | .atom value => [⟨path, .atom value⟩]
  | .symbol name => [⟨path, .symbol name⟩]
  | .sequence head args =>
    ⟨path, .sequence head args⟩ :: (head.preorder (0 :: path) ++ preorderAll path 1 args)
  | .definition name value => ⟨path, .definition name value⟩ :: value.preorder (0 :: path)
  | .conditional condition thenBranch elseBranch =>
    ⟨path, .conditional condition thenBranch elseBranch⟩ ::
      (condition.preorder (0 :: path) ++
        (thenBranch.preorder (1 :: path) ++ elseBranch.preorder (2 :: path)))

def preorderAll (path : List Nat) (child : Nat) : List Expr → List Node
  | [] => []
  | e :: es => e.preorder (child :: path) ++ preorderAll path (child + 1) es

end

mutual

theorem map_expr_preorder (path : List Nat) (e : Expr) :
    (e.preorder path).map Node.expr = e.nodes := by
  cases e with
  | atom value => rfl
  | symbol name => rfl
  | sequence head args =>
    rw [preorder, nodes, List.map_cons, List.map_append, map_expr_preorder _ head,
      map_expr_preorderAll path 1 args]
  | definition name value => rw [preorder, nodes, List.map_cons, map_expr_preorder _ value]
  | conditional condition thenBranch elseBranch =>
    rw [preorder, nodes, List.map_cons, List.map_append, List.map_append,
      map_expr_preorder _ condition, map_expr_preorder _ thenBranch,
      map_expr_preorder _ elseBranch]
termination_by structural e

theorem map_expr_preorderAll (path : List Nat) (child : Nat) (es : List Expr) :
    (preorderAll path child es).map Node.expr = nodesAll es := by
  match es with
  | [] => rfl
  | e :: es =>
    rw [preorderAll, nodesAll, List.map_append, map_expr_preorder _ e,
      map_expr_preorderAll path (child + 1) es]
termination_by structural es

end

theorem preorderAll_eq_flatMap (path : List Nat) (child : Nat) (es : List Expr) :
    preorderAll path child es = (es.zipIdx child).flatMap fun c => c.1.preorder (c.2 :: path) := by
  induction es generalizing child with
  | nil => rfl
  | cons e es ih => rw [preorderAll, List.zipIdx_cons, List.flatMap_cons, ih]

theorem preorder_eq_flatMap (path : List Nat) (e : Expr) :
    e.preorder path =
      ⟨path, e⟩ :: e.children.zipIdx.flatMap fun c => c.1.preorder (c.2 :: path) := by
  rw [← preorderAll_eq_flatMap]
  cases e with
  | atom value => rfl
  | symbol name => rfl
  | sequence head args => rfl
  | definition name value => simp only [preorder, children, preorderAll, List.append_nil]
  | conditional condition thenBranch elseBranch =>
    simp only [preorder, children, preorderAll, List.append_nil]

mutual

/-- What holds of an expression whenever it holds of its children, holds of every one. -/
theorem of_children {p : Expr → Prop} (h : ∀ e : Expr, (∀ c ∈ e.children, p c) → p e)
    (e : Expr) : p e := by
  apply h
  cases e with
  | atom value => exact List.forall_mem_nil p
  | symbol name => exact List.forall_mem_nil p
  | sequence head args =>
    exact List.forall_mem_cons.mpr ⟨of_children h head, all_of_children h args⟩
  | definition name value => exact List.forall_mem_singleton.mpr (of_children h value)
  | conditional condition thenBranch elseBranch =>
    exact List.forall_mem_cons.mpr ⟨of_children h condition, List.forall_mem_cons.mpr
      ⟨of_children h thenBranch, List.forall_mem_singleton.mpr (of_children h elseBranch)⟩⟩
termination_by structural e

theorem all_of_children {p : Expr → Prop} (h : ∀ e : Expr, (∀ c ∈ e.children, p c) → p e)
    (es : List Expr) : ∀ e ∈ es, p e := by
  match es with
  | [] => exact List.forall_mem_nil p
  | e :: es => exact List.forall_mem_cons.mpr ⟨of_children h e, all_of_children h es⟩
termination_by structural es

end

theorem path_suffix_of_mem_preorder {e : Expr} {path : List Nat} {n : Node}
    (h : n ∈ e.preorder path) : path <:+ n.path := by
  induction e using of_children generalizing path with
  | h e ih =>
    rw [preorder_eq_flatMap, List.mem_cons, List.mem_flatMap] at h
    rcases h with rfl | ⟨c, hc, h⟩
    · exact List.suffix_rfl
    · exact (List.suffix_cons _ _).trans (ih c.1 (List.fst_mem_of_mem_zipIdx hc) h)

theorem eq_of_cons_suffix {child child' : Nat} {path below : List Nat}
    (h : child :: path <:+ below) (h' : child' :: path <:+ below) : child = child' := by
  have hs := List.suffix_of_suffix_length_le h h' (Nat.le_refl _)
  exact (List.cons.inj (hs.eq_of_length rfl)).1

theorem not_cons_suffix (child : Nat) (path : List Nat) : ¬ child :: path <:+ path := fun h =>
  Nat.not_succ_le_self _ h.length_le

theorem suffix_of_mem_map_path {e : Expr} {path below : List Nat}
    (h : below ∈ (e.preorder path).map Node.path) : path <:+ below := by
  obtain ⟨n, hn, rfl⟩ := List.mem_map.mp h
  exact path_suffix_of_mem_preorder hn

theorem nodup_path_preorder (e : Expr) (path : List Nat) :
    ((e.preorder path).map Node.path).Nodup := by
  induction e using of_children generalizing path with
  | h e ih =>
    rw [preorder_eq_flatMap, List.map_cons, List.map_flatMap, List.nodup_cons, List.nodup_flatMap]
    refine ⟨fun h => ?_, fun c hc => ih c.1 (List.fst_mem_of_mem_zipIdx hc) _, ?_⟩
    · obtain ⟨c, -, h⟩ := List.mem_flatMap.mp h
      exact not_cons_suffix c.2 path (suffix_of_mem_map_path h)
    · refine (List.pairwise_map.mp e.nodup_number_children).imp fun hne below hb hb' => ?_
      exact hne (eq_of_cons_suffix (suffix_of_mem_map_path hb) (suffix_of_mem_map_path hb'))

def number (e : Expr) (path : List Nat) : Nat :=
  ((e.preorder []).map Node.path).idxOf path

variable [Host] {options : Options} {budget : Nat} {path : List Nat} {e : Expr} {env : Environment}

theorem entries_sublist_preorder (options : Options) (budget : Nat) (path : List Nat) (e : Expr)
    (env : Environment) :
    ((e.entries options budget path env).map Entry.node).Sublist (e.preorder path) := by
  induction budget generalizing path e env with
  | zero => exact List.nil_sublist _
  | succ budget ih =>
    rw [entries, List.map_cons, List.map_flatMap, preorder_eq_flatMap]
    have hd := numbered_descents_sublist options budget e env
    have hs := hd.flatMap fun c => c.1.preorder (c.2 :: path)
    rw [List.flatMap_map] at hs
    exact ((List.Sublist.flatMap_right _ fun d _ => ih _ d.expr d.environment).trans hs).cons_cons _

theorem entries_in_order (e : Expr) (env : Environment) :
    (e.entries options budget [] env).Pairwise fun c d => e.number c.path < e.number d.path := by
  have hs := (entries_sublist_preorder options budget [] e env).map Node.path
  have hp := (pairwise_idxOf_lt (e.nodup_path_preorder [])).sublist hs
  rw [List.map_map, List.pairwise_map] at hp
  exact hp

theorem kinds_sublist (e : Expr) (env : Environment) :
    ((e.eval options budget env).log.filterMap Event.shape?).Sublist (e.nodes.map shape) := by
  have hs := (entries_sublist_preorder options budget [] e env).map fun n => n.expr.shape
  rw [entries_shown [] e env, ← map_expr_preorder [] e, List.map_map, List.map_map]
  rw [List.map_map] at hs
  exact hs

/-- The child that an evaluation of the node leaves out, because its condition chooses the other
branch. -/
inductive Skips (options : Options) (budget : Nat) (env : Environment) : Expr → Nat → Prop
  | elseBranch {condition thenBranch elseBranch : Expr} {value : Value}
    (h : ((condition.eval options budget env).asOperand options.policy .condition).result =
      .ok value)
    (hv : value.isTruthy) :
    Skips options budget env (.conditional condition thenBranch elseBranch) 2
  | thenBranch {condition thenBranch elseBranch : Expr} {value : Value}
    (h : ((condition.eval options budget env).asOperand options.policy .condition).result =
      .ok value)
    (hv : ¬ value.isTruthy) :
    Skips options budget env (.conditional condition thenBranch elseBranch) 1

theorem Skips.ne_child {child : Nat} (h : Skips options budget env e child) {d : Descent}
    (hd : d ∈ e.descents options budget env) : child ≠ d.child := by
  cases h with
  | elseBranch h hv =>
    rw [descents, Outcome.descentsThen_of_ok h, if_pos hv] at hd
    simp only [List.mem_cons, List.not_mem_nil, or_false] at hd
    rcases hd with rfl | rfl <;> simp
  | thenBranch h hv =>
    rw [descents, Outcome.descentsThen_of_ok h, if_neg hv] at hd
    simp only [List.mem_cons, List.not_mem_nil, or_false] at hd
    rcases hd with rfl | rfl <;> simp

end Expr

def Entry.Skips [Host] (options : Options) (c : Entry) (child : Nat) : Prop :=
  c.expr.Skips options c.budget c.environment child

namespace Expr

section

variable [Host] {options : Options} {budget : Nat} {path : List Nat} {e : Expr} {env : Environment}

theorem not_entered_below_skipped {c s : Entry} (hc : c ∈ e.entries options budget path env)
    (hs : s ∈ e.entries options budget path env) {child : Nat} (h : s.Skips options child) :
    ¬ child :: s.path <:+ c.path := by
  intro hp
  induction budget generalizing path e env with
  | zero => cases hc
  | succ budget ih =>
    rcases mem_entries_succ.mp hs with rfl | ⟨d, hd, hs⟩
    · rcases mem_entries_succ.mp hc with rfl | ⟨d, hd, hc⟩
      · exact not_cons_suffix child path hp
      · exact h.ne_child hd (eq_of_cons_suffix hp (path_suffix_of_mem_entries hc))
    · have hb := (path_suffix_of_mem_entries hs).trans ((List.suffix_cons _ _).trans hp)
      rcases mem_entries_succ.mp hc with rfl | ⟨d', hd', hc⟩
      · exact not_cons_suffix d.child path hb
      · cases eq_of_child_eq hd hd' (eq_of_cons_suffix hb (path_suffix_of_mem_entries hc))
        exact ih hc hs

theorem exists_argDescent (hp : options.policy = .strict) {args : List Expr} {values : List Value}
    (ho : (evalArgs options budget args env).result = .ok values) {child : Nat} {c : Expr × Nat}
    (hc : c ∈ args.zipIdx child) :
    ∃ d ∈ argDescents options budget child args env, d.numbered = c ∧
      ∃ value, (d.expr.eval options budget d.environment).result = .ok value := by
  induction args generalizing child values env with
  | nil => cases hc
  | cons arg args ih =>
    rw [evalArgs_cons, hp, Outcome.asOperand_strict] at ho
    obtain ⟨value, ha, ho⟩ := Outcome.ok_of_andThen ho
    rw [Evaluation.map_apply] at ho
    obtain ⟨values, ho, -⟩ := Outcome.ok_of_andThen ho
    rw [argDescents, hp, Outcome.asOperand_strict, Outcome.descentsThen_of_ok ha]
    rcases List.mem_cons.mp hc with rfl | hc
    · exact ⟨_, List.mem_cons_self, rfl, value, ha⟩
    · obtain ⟨d, hd, hv⟩ := ih ho hc
      exact ⟨d, List.mem_cons_of_mem _ hd, hv⟩

/-- A strict evaluation of a node that gives a value calls for each child, and the call gives a
value, or it leaves the child out. -/
theorem descends_or_skips (hp : options.policy = .strict) {value : Value}
    (ho : (e.eval options (budget + 1) env).result = .ok value) {c : Expr × Nat}
    (hc : c ∈ e.children.zipIdx) :
    (∃ d ∈ e.descents options budget env, d.numbered = c ∧
      ∃ value, (d.expr.eval options budget d.environment).result = .ok value) ∨
    Skips options budget env e c.2 := by
  cases e with
  | atom value => cases hc
  | symbol name => cases hc
  | sequence head args =>
    rw [eval_sequence] at ho
    obtain ⟨callee, hh, ho⟩ := Outcome.ok_of_andThen ho
    left
    rw [descents, Outcome.descentsThen_of_ok hh]
    rcases List.mem_cons.mp hc with rfl | hc
    · exact ⟨_, List.mem_cons_self, rfl, callee, hh⟩
    · cases hf : callee.asBuiltin with
      | error e =>
        rw [Evaluation.callOn_of_error hf] at ho
        cases ho
      | ok b =>
        rw [Evaluation.callOn_of_ok hf] at ho
        obtain ⟨values, ho, -⟩ := Outcome.ok_of_andThen ho
        obtain ⟨d, hd, hv⟩ := exists_argDescent hp ho hc
        exact ⟨d, List.mem_cons_of_mem _ hd, hv⟩
  | definition name body =>
    cases List.mem_singleton.mp hc
    rw [eval_definition] at ho
    exact .inl ⟨_, List.mem_cons_self, rfl, value, Outcome.ok_of_bound ho⟩
  | conditional condition thenBranch elseBranch =>
    rw [eval_conditional] at ho
    obtain ⟨chosen, hv, ho⟩ := Outcome.ok_of_andThen ho
    rw [descents, Outcome.descentsThen_of_ok hv]
    rw [Evaluation.choose] at ho
    simp only [children, List.zipIdx_cons, List.zipIdx_nil, List.mem_cons, List.not_mem_nil,
      or_false] at hc
    rcases hc with rfl | rfl | rfl
    · rw [hp, Outcome.asOperand_strict] at hv
      exact .inl ⟨_, List.mem_cons_self, rfl, chosen, hv⟩
    · by_cases ht : chosen.isTruthy
      · rw [if_pos ht] at ho ⊢
        exact .inl ⟨_, List.mem_cons_of_mem _ List.mem_cons_self, rfl, value, ho⟩
      · exact .inr (.thenBranch hv ht)
    · by_cases ht : chosen.isTruthy
      · exact .inr (.elseBranch hv ht)
      · rw [if_neg ht] at ho ⊢
        exact .inl ⟨_, List.mem_cons_of_mem _ List.mem_cons_self, rfl, value, ho⟩

/-- Going down to a node of the expression, the evaluation gets there unless a node on the way
leaves out the child that leads to it. -/
theorem entered_or_skipped (hp : options.policy = .strict) {value : Value}
    (ho : (e.eval options budget env).result = .ok value) {n : Node} (hn : n ∈ e.preorder path) :
    (∃ c ∈ e.entries options budget path env, c.node = n) ∨
      ∃ s ∈ e.entries options budget path env, ∃ child, s.Skips options child ∧
        child :: s.path <:+ n.path := by
  induction budget generalizing path e env value with
  | zero =>
    rw [eval_zero] at ho
    cases ho
  | succ budget ih =>
    rw [preorder_eq_flatMap, List.mem_cons, List.mem_flatMap] at hn
    rcases hn with rfl | ⟨c, hc, hn⟩
    · exact .inl ⟨_, mem_entries_succ.mpr (.inl rfl), rfl⟩
    · rcases descends_or_skips hp ho hc with ⟨d, hd, rfl, value, ho⟩ | hs
      · rcases ih ho hn with ⟨c, hc, he⟩ | ⟨s, hs, hb⟩
        · exact .inl ⟨c, mem_entries_succ.mpr (.inr ⟨d, hd, hc⟩), he⟩
        · exact .inr ⟨s, mem_entries_succ.mpr (.inr ⟨d, hd, hs⟩), hb⟩
      · exact .inr ⟨_, mem_entries_succ.mpr (.inl rfl), c.2, hs, path_suffix_of_mem_preorder hn⟩

/-- An evaluation enters the nodes that its log shows, and what each of them records stands in one
piece in that log. They are nodes of the expression in increasing preorder, so none of them comes
twice, and their forms are among those of all nodes in the same order. Below the root no node is
entered without its parent. A strict evaluation that gives a value enters all nodes but those
inside a branch that an entered conditional leaves out. -/
theorem eval_in_source_order (options : Options) (budget : Nat) (e : Expr) (env : Environment) :
    let outcome := e.eval options budget env
    let entries := e.entries options budget [] env
    outcome.Shows (entries.map Entry.visit) ∧
    (∀ c ∈ entries, (c.outcome options).log <:+: outcome.log) ∧
    (∀ c ∈ entries, c.node ∈ e.preorder []) ∧
    entries.Pairwise (fun c d => e.number c.path < e.number d.path) ∧
    (outcome.log.filterMap Event.shape?).Sublist (e.nodes.map shape) ∧
    entries.length ≤ e.nodes.length ∧
    (∀ c ∈ entries, c.path = [] ∨ ∃ p ∈ entries, ∃ child, c.path = child :: p.path) ∧
    (options.policy = .strict → ∀ value, outcome.result = .ok value → ∀ n ∈ e.preorder [],
      ((∃ c ∈ entries, c.node = n) ↔
        ¬ ∃ s ∈ entries, ∃ child, s.Skips options child ∧ child :: s.path <:+ n.path)) := by
  intro outcome entries
  have hs := entries_sublist_preorder options budget [] e env
  refine ⟨entries_shown [] e env, fun c hc => log_infix_of_mem_entries hc,
    fun c hc => hs.subset (List.mem_map_of_mem hc), entries_in_order e env, kinds_sublist e env, ?_,
    fun c hc => exists_parent hc, ?_⟩
  · have hl := hs.length_le
    rwa [List.length_map, ← List.length_map Node.expr, map_expr_preorder] at hl
  · intro hp value ho n hn
    constructor
    · rintro ⟨c, hc, rfl⟩ ⟨s, hm, child, hk, hb⟩
      exact not_entered_below_skipped hc hm hk hb
    · exact (entered_or_skipped hp ho hn).resolve_right

end

attribute [local instance] Host.none

theorem eval_in_source_order_unchosen :
    let e : Expr := .conditional (.definition "x" (.atom (.bool true)))
      (.sequence (.symbol "and") [.symbol "x", .symbol "x"]) (.symbol "z")
    (e.eval ⟨.strict, 3⟩ 3 .initial).result = .ok (.bool true) ∧
      (e.entries ⟨.strict, 3⟩ 3 [] .initial).map Entry.path =
        [[], [0], [0, 0], [1], [0, 1], [1, 1], [2, 1]] ∧
      ¬ ∃ c ∈ e.entries ⟨.strict, 3⟩ 3 [] .initial, c.node = ⟨[2], .symbol "z"⟩ := by
  intro e
  have ho : (e.eval ⟨.strict, 3⟩ 3 .initial).result = .ok (.bool true) := rfl
  refine ⟨ho, rfl, fun hc => ?_⟩
  obtain ⟨-, -, -, -, -, -, -, hs⟩ := eval_in_source_order ⟨.strict, 3⟩ 3 e .initial
  have hn : ⟨[2], .symbol "z"⟩ ∈ e.preorder [] := by
    simp [e, preorder, preorderAll]
  refine (hs rfl _ ho _ hn).mp hc ⟨_, mem_entries_succ.mpr (.inl rfl), 2, ?_, List.suffix_rfl⟩
  exact .elseBranch rfl rfl

end Expr

end LispCalc
