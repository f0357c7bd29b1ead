import LispCalc.Proofs.Environment
import LispCalc.Proofs.Names
import LispCalc.Proofs.Operator.Contract
import Mathlib.Data.List.Induction

namespace LispCalc

def codePoints (text : String) : List Nat :=
  text.toList.map Char.toNat

theorem lex_codePoints {text text' : String} (h : text < text') :
    List.Lex (· < ·) (codePoints text) (codePoints text') := by
  have hl : List.Lex (· < ·) text.toList text'.toList := h
  rw [codePoints, codePoints]
  generalize text.toList = cs at hl
  generalize text'.toList = cs' at hl
  induction hl with
  | nil => exact .nil
  | rel hc => exact .rel hc
  | cons _ ih => exact .cons ih

namespace Environment

def lastWrite? (writes : List (String × Value)) (name : String) : Option Value :=
  writes.reverse.lookup name

theorem lastWrite?_eq_some_iff {writes : List (String × Value)} {name : String} {value : Value} :
    lastWrite? writes name = some value ↔
      ∃ before behind, writes = before ++ (name, value) :: behind ∧ name ∉ behind.map Prod.fst := by
  rw [lastWrite?, List.lookup_eq_some_iff]
  constructor
  · rintro ⟨behind, before, hw, hn⟩
    refine ⟨before.reverse, behind.reverse, ?_, ?_⟩
    · rw [← List.reverse_reverse writes, hw, List.reverse_append, List.reverse_cons,
        List.append_assoc]
      rfl
    · intro hm
      obtain ⟨w, hb, rfl⟩ := List.mem_map.mp hm
      exact bne_iff_ne.mp (hn w (List.mem_reverse.mp hb)) rfl
  · rintro ⟨before, behind, rfl, hn⟩
    refine ⟨behind.reverse, before.reverse, ?_, ?_⟩
    · rw [List.reverse_append, List.reverse_cons, List.append_assoc]
      rfl
    · intro w hw
      refine bne_iff_ne.mpr ?_
      rintro rfl
      exact hn (List.mem_map_of_mem (List.mem_reverse.mp hw))

theorem lastWrite?_append (writes : List (String × Value)) (name : String) (value : Value)
    (key : String) : lastWrite? (writes ++ [(name, value)]) key =
      if key = name then some value else lastWrite? writes key := by
  rw [lastWrite?, List.reverse_append, List.reverse_singleton, List.singleton_append,
    List.lookup_cons]
  by_cases hk : key = name
  · rw [if_pos hk, beq_iff_eq.mpr hk]
  · rw [if_neg hk, beq_eq_false_iff_ne.mpr hk]
    rfl

theorem get?_write (env : Environment) (writes : List (String × Value)) (name : String) :
    (env.write writes).get? name = (lastWrite? writes name).or (env.get? name) := by
  induction writes using List.reverseRecOn with
  | nil => rfl
  | append_singleton writes w ih =>
    have hd : (env.write (writes ++ [w])).get? name =
        if name = w.1 then some w.2 else (env.write writes).get? name := by
      rw [write_append]
      exact get?_define _ w.1 w.2 name
    rw [hd, lastWrite?_append, ih]
    split <;> rfl

def seeds : List (String × Value) :=
  Operator.all.map fun op => (op.name, .builtin op.builtin)

theorem initial_eq_write : initial = empty.write seeds := by
  rw [write, seeds, List.foldl_map]
  rfl

theorem mem_seeds_names {name : String} (h : name ∈ seeds.map Prod.fst) :
    ∃ op : Operator, op.name = name := by
  obtain ⟨seed, hs, rfl⟩ := List.mem_map.mp h
  obtain ⟨op, -, rfl⟩ := List.mem_map.mp hs
  exact ⟨op, rfl⟩

theorem get?_initial (name : String) :
    initial.get? name = (Operator.ofName? name).map fun op => .builtin op.builtin := by
  cases h : Operator.ofName? name with
  | some op =>
    rw [← Operator.ofName?_eq_some_iff.mp h]
    exact Operator.get?_initial_name op
  | none =>
    have hn : name ∉ seeds.map Prod.fst := by
      intro hm
      obtain ⟨op, ho⟩ := mem_seeds_names hm
      rw [Operator.ofName?_eq_some_iff.mpr ho] at h
      cases h
    rw [initial_eq_write, get?_write_of_not_mem hn]
    rfl

/-- All ways of looking at an environment show the bindings. -/
structure Shows (env : Environment) (binding? : String → Option Value) : Prop where
  get?_eq : ∀ name, env.get? name = binding? name
  lookup_eq : ∀ name, env.lookup name = (binding? name).elim (.error (.unboundSymbol name)) .ok
  contains_iff : ∀ name, env.contains name ↔ ∃ value, binding? name = some value
  mem_names_iff : ∀ name, name ∈ env.names ↔ ∃ value, binding? name = some value
  names_increase : env.names.Pairwise fun a b => List.Lex (· < ·) (codePoints a) (codePoints b)
  nodup_names : env.names.Nodup
  size_eq : env.size = env.names.length
  isEmpty_iff : env.isEmpty ↔ env.size = 0

theorem shows_get? (env : Environment) : env.Shows env.get? where
  get?_eq _ := rfl
  lookup_eq name := by
    rw [lookup]
    cases env.get? name <;> rfl
  contains_iff name := Option.isSome_iff_exists
  mem_names_iff name := by
    simp only [← mem_bindings_iff, names, List.mem_map, Prod.exists, exists_and_right,
      exists_eq_right]
  names_increase := List.pairwise_map.mpr (env.sorted.imp lex_codePoints)
  nodup_names := List.pairwise_map.mpr (env.sorted.imp String.ne_of_lt)
  size_eq := (List.length_map Prod.fst).symm
  isEmpty_iff := by
    rw [isEmpty, List.isEmpty_iff, size, List.length_eq_zero_iff]

/-- After definitions one after another, in an environment with nothing bound or with the
operators, all ways of looking show the same: for each name the value of its last definition, and
else what was bound before. -/
theorem shows_last_writes (writes : List (String × Value)) :
    (∀ name value, lastWrite? writes name = some value ↔
      ∃ before behind, writes = before ++ (name, value) :: behind ∧ name ∉ behind.map Prod.fst) ∧
    (empty.write writes).Shows (lastWrite? writes) ∧
    (initial.write writes).Shows fun name =>
      (lastWrite? writes name).or ((Operator.ofName? name).map fun op => .builtin op.builtin) := by
  have he : (empty.write writes).get? = lastWrite? writes := by
    funext name
    rw [get?_write]
    exact Option.or_none
  have hi : (initial.write writes).get? = fun name =>
      (lastWrite? writes name).or ((Operator.ofName? name).map fun op => .builtin op.builtin) := by
    funext name
    rw [get?_write, get?_initial]
  exact ⟨fun _ _ => lastWrite?_eq_some_iff, he ▸ shows_get? _, hi ▸ shows_get? _⟩

end Environment

end LispCalc
