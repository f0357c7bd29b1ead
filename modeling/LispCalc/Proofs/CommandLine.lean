import LispCalc.CommandLine
import LispCalc.Proofs.Source.Chunks
import Mathlib.Logic.Function.Basic

namespace LispCalc

attribute [local instance] Host.none

namespace CommandLine

variable {args : List String} {setting? : String → Option String}
  {file : String → Except FileError String}

theorem erase_insertIdx {α : Type} [BEq α] [LawfulBEq α] {a : α} {l : List α} (h : a ∉ l) {i : Nat}
    (hi : i ≤ l.length) : (l.insertIdx i a).erase a = l := by
  induction l generalizing i with
  | nil =>
    rw [Nat.eq_zero_of_le_zero hi, List.insertIdx_zero, List.erase_cons_head]
  | cons b l ih =>
    cases i with
    | zero => rw [List.insertIdx_zero, List.erase_cons_head]
    | succ i =>
      obtain ⟨hb, hl⟩ := List.ne_and_not_mem_of_not_mem_cons h
      rw [List.insertIdx_succ_cons, List.erase_cons_tail (by simpa using hb.symm),
        ih hl (Nat.le_of_succ_le_succ hi)]

theorem source_insertIdx_lenientFlag (h : lenientFlag ∉ args) {i : Nat} (hi : i ≤ args.length) :
    source (args.insertIdx i lenientFlag) file = source args file := by
  have hc : command? (args.insertIdx i lenientFlag) = command? args := by
    rw [command?, command?, erase_insertIdx h hi, List.erase_of_not_mem h]
  rw [source, source, hc]

theorem ofSettings_update_policy (setting? : String → Option String) :
    (Options.ofSettings (Function.update setting? Options.policySetting (some "lenient"))).1 =
      ⟨.lenient, (Options.ofSettings setting?).1.maxDepth⟩ := by
  have hp : Options.policyOfSetting (some "lenient") = (.lenient, []) := by decide
  have hd : Options.maxDepthSetting ≠ Options.policySetting := by decide
  rw [Options.ofSettings, Function.update_self, Function.update_of_ne hd, hp]
  rfl

theorem options_insertIdx_lenientFlag {i : Nat} (hi : i ≤ args.length) :
    options (args.insertIdx i lenientFlag) setting? =
      ⟨.lenient, (Options.ofSettings setting?).1.maxDepth⟩ :=
  if_pos ((List.mem_insertIdx hi).mpr (.inl rfl))

/-- The lenient flag, wherever it stands among the other arguments, runs the program as the policy
setting `lenient` would. It overrides whatever that setting says, and the depth limit stays the
one that is set. -/
theorem run_insertIdx_lenientFlag [Renderer] (h : lenientFlag ∉ args) {i : Nat}
    (hi : i ≤ args.length) (setting? : String → Option String)
    (file : String → Except FileError String) :
    let lenient := Function.update setting? Options.policySetting (some "lenient")
    run (args.insertIdx i lenientFlag) setting? file = run args lenient file ∧
      options (args.insertIdx i lenientFlag) setting? = options args lenient ∧
      options args lenient = ⟨.lenient, (Options.ofSettings setting?).1.maxDepth⟩ := by
  intro lenient
  have hl : options args lenient = ⟨.lenient, (Options.ofSettings setting?).1.maxDepth⟩ := by
    rw [options]
    exact (if_neg h).trans (ofSettings_update_policy setting?)
  have ho : options (args.insertIdx i lenientFlag) setting? = options args lenient :=
    (options_insertIdx_lenientFlag hi).trans hl.symm
  refine ⟨?_, ho, hl⟩
  rw [run, run, source_insertIdx_lenientFlag h hi, ho]

section

attribute [local instance] Renderer.plain

theorem run_insertIdx_lenientFlag_over_invalid :
    let args := ["eval", "(if z 1 2)"]
    let setting? : String → Option String := fun name =>
      if name = Options.policySetting then some "sometimes"
      else if name = Options.maxDepthSetting then some "3"
      else none
    let file : String → Except FileError String := fun _ => .error .notFound
    lenientFlag ∉ args ∧ 1 ≤ args.length ∧
      args.insertIdx 1 lenientFlag = ["eval", "--lenient", "(if z 1 2)"] ∧
      run (args.insertIdx 1 lenientFlag) setting? file =
        run args (Function.update setting? Options.policySetting (some "lenient")) file ∧
      options (args.insertIdx 1 lenientFlag) setting? = ⟨.lenient, 3⟩ := by
  intro args setting? file
  have hf : lenientFlag ∉ args := by decide
  have hi : 1 ≤ args.length := by decide
  obtain ⟨hr, ho, hl⟩ := run_insertIdx_lenientFlag hf hi setting? file
  have hd : (Options.ofSettings setting?).1.maxDepth = 3 := by decide
  exact ⟨hf, hi, rfl, hr, ho.trans (hl.trans (by rw [hd]))⟩

end

def Exit.firstErrorLine (exit : Exit) : String :=
  String.ofList (exit.stderr.toList.takeWhile (· ≠ '\n'))

theorem Exit.firstErrorLine_failure (message rest : String) :
    (Exit.failure (message ++ "\n" ++ rest)).firstErrorLine =
      (Exit.failure message).firstErrorLine := by
  have hl : ("\n" ++ rest).toList.takeWhile (· ≠ '\n') = [] := by
    rw [String.toList_append]
    rfl
  simp only [firstErrorLine, failure, String.append_assoc]
  rw [String.toList_append, List.takeWhile_append, hl, List.append_nil]
  split
  · rename_i hw
    rw [(List.takeWhile_prefix _).eq_of_length hw]
  · rfl

def StartsLine (text : String) : Prop :=
  ∃ c cs, text.toList = c :: cs ∧ c ≠ '\n'

namespace StartsLine

variable {text : String}

theorem append (h : StartsLine text) (rest : String) : StartsLine (text ++ rest) := by
  obtain ⟨c, cs, ht, hc⟩ := h
  exact ⟨c, cs ++ rest.toList, by rw [String.toList_append, ht, List.cons_append], hc⟩

theorem firstErrorLine_ne_empty (h : StartsLine text) :
    (Exit.failure text).firstErrorLine ≠ "" := by
  obtain ⟨c, cs, ht, hc⟩ := h
  intro he
  have hl : text.toList.takeWhile (· ≠ '\n') = [] := by
    rw [← String.toList_ofList (l := text.toList.takeWhile (· ≠ '\n'))]
    exact congrArg String.toList he
  rw [ht, List.takeWhile_cons_of_pos (by simpa using hc)] at hl
  cases hl

theorem refusal (refusal : Refusal) : StartsLine refusal.message := by
  cases refusal with
  | usage | extension => exact ⟨_, _, rfl, by decide⟩
  | inaccessible path error =>
    have hs : StartsLine "Failed to access " := ⟨_, _, rfl, by decide⟩
    exact ((hs.append path).append ": ").append error.reason

theorem cause (cause : ReadError.Cause) : StartsLine cause.message := by
  cases cause <;> exact ⟨_, _, rfl, by decide⟩

theorem evalError (e : EvalError) : StartsLine e.message := by
  cases e with
  | recursionLimit => exact append ⟨_, _, rfl, by decide⟩ _
  | unboundSymbol | notCallable | divisionByZero =>
    exact append (append ⟨_, _, rfl, by decide⟩ _) _
  | invalidShift => exact append (append (append (append ⟨_, _, rfl, by decide⟩ _) _) _) _
  | typeMismatch | arityMismatch =>
    exact append (append (append (append (append ⟨_, _, rfl, by decide⟩ _) _) _) _) _

theorem render [Renderer] {report : Report} (h : StartsLine report.message) :
    StartsLine (Renderer.render report) := by
  obtain ⟨rest, hr⟩ := Renderer.starts_with_message report
  rw [hr]
  exact (h.append "\n").append rest

theorem join {text : String} (h : StartsLine text) (texts : List String) :
    StartsLine (String.join (text :: texts)) := by
  rw [String.join_cons]
  exact h.append _

end StartsLine

/-- The source text that the arguments ask for, once the first lenient flag is taken out: given
outright, or the content of a file of the right name. -/
inductive AsksFor (args : List String) (file : String → Except FileError String) : NamedText → Prop
  | inline {text : String} (h : args.erase lenientFlag = ["eval", text]) :
    AsksFor args file ⟨"<eval>", text⟩
  | file {path text : String} (h : args.erase lenientFlag = ["run", path])
    (hn : ".lisp".toList <:+ path.toList) (hc : file path = .ok text) :
    AsksFor args file ⟨path, text⟩

theorem lenientFlag_not_mem_pair {command operand : String} (hc : command ≠ lenientFlag)
    (ho : operand ≠ lenientFlag) : lenientFlag ∉ [command, operand] :=
  List.not_mem_cons_of_ne_of_not_mem hc.symm (mt List.mem_singleton.mp ho.symm)

theorem options_of_not_mem (h : lenientFlag ∉ args) (setting? : String → Option String) :
    options args setting? = (Options.ofSettings setting?).1 :=
  if_neg h

theorem source_eq_ok_iff {asked : NamedText} :
    source args file = .ok asked ↔ AsksFor args file asked := by
  constructor
  · intro h
    rw [source, command?] at h
    split at h
    · cases h
    · rename_i text' hc
      split at hc <;> cases hc
      cases h
      exact .inline ‹_›
    · rename_i path hc
      split at hc <;> cases hc
      split at h
      · rename_i hn
        split at h <;> cases h
        exact .file ‹_› (List.isSuffixOf_iff_suffix.mp hn) ‹_›
      · cases h
  · intro h
    cases h with
    | inline h =>
      rw [source, command?, h]
      rfl
    | file h hn hc =>
      rw [source, command?, h]
      simp only [hasExtension, List.isSuffixOf_iff_suffix.mpr hn, if_true, hc]

def Yields (args : List String) (setting? : String → Option String)
    (file : String → Except FileError String) (value : Value) : Prop :=
  ∃ asked program, AsksFor args file asked ∧ readProgram asked.text = .ok program ∧
    (Program.eval (options args setting?) program .initial).result = .ok value

section

variable [Renderer]

theorem execute_cases (options : Options) (asked : NamedText) :
    (∃ program value, readProgram asked.text = .ok program ∧
      (Program.eval options program .initial).result = .ok value ∧
      execute options asked = .success value.text) ∨
    ((∀ program value, readProgram asked.text = .ok program →
      (Program.eval options program .initial).result ≠ .ok value) ∧
      ∃ message, StartsLine message ∧ execute options asked = .failure message) := by
  rw [execute]
  cases hr : readProgram asked.text with
  | error errors =>
    refine .inr ⟨fun _ _ h => (nomatch h), _, ?_, rfl⟩
    match errors, Form.ne_nil_of_readProgram hr with
    | e :: errors, _ => exact (StartsLine.render (.cause e.cause)).join _
  | ok program =>
    dsimp only
    cases he : (Program.eval options program .initial).result with
    | error e =>
      refine .inr ⟨?_, _, .render (.evalError e), rfl⟩
      rintro program' value h hv
      cases h
      rw [he] at hv
      cases hv
    | ok value => exact .inl ⟨program, value, rfl, he, rfl⟩

theorem firstErrorLine_reports (report : Report) (texts : List String) :
    (Exit.failure (String.join (Renderer.render report :: texts))).firstErrorLine =
      (Exit.failure report.message).firstErrorLine := by
  obtain ⟨rest, hr⟩ := Renderer.starts_with_message report
  rw [String.join_cons, hr, String.append_assoc, Exit.firstErrorLine_failure]

/-- The name of a text shows behind the first line of a report only. -/
theorem execute_rename (options : Options) (name name' text : String) :
    let exit := execute options ⟨name, text⟩
    let exit' := execute options ⟨name', text⟩
    exit.code = exit'.code ∧ exit.stdout = exit'.stdout ∧
      exit.firstErrorLine = exit'.firstErrorLine := by
  simp only [execute]
  cases hr : readProgram text with
  | error errors =>
    refine ⟨rfl, rfl, ?_⟩
    match errors, Form.ne_nil_of_readProgram hr with
    | e :: errors, _ =>
      exact (firstErrorLine_reports (.ofReadError ⟨name, text⟩ e) _).trans
        (firstErrorLine_reports (.ofReadError ⟨name', text⟩ e) _).symm
  | ok program => exact ⟨rfl, rfl, rfl⟩

theorem run_cases (args : List String) (setting? : String → Option String)
    (file : String → Except FileError String) :
    (∃ value, Yields args setting? file value ∧ run args setting? file = .success value.text) ∨
      (∀ value, ¬ Yields args setting? file value) ∧
        ∃ message, StartsLine message ∧ run args setting? file = .failure message := by
  rw [run]
  cases hs : source args file with
  | error refusal =>
    refine .inr ⟨?_, _, (StartsLine.refusal refusal).append "\n", rfl⟩
    rintro value ⟨asked, -, ha, -⟩
    rw [source_eq_ok_iff.mpr ha] at hs
    cases hs
  | ok asked =>
    have ha := source_eq_ok_iff.mp hs
    rcases execute_cases (options args setting?) asked with ⟨program, value, hr, hv, he⟩ | ⟨hn, hm⟩
    · exact .inl ⟨value, ⟨asked, program, ha, hr, hv⟩, he⟩
    · refine .inr ⟨?_, hm⟩
      rintro value ⟨asked', program, ha', hr, hv⟩
      rw [source_eq_ok_iff.mpr ha'] at hs
      cases hs
      exact hn program value hr hv

/-- Every run exits with code 0, the value and a line end on standard output and nothing on
standard error, or with code 1, nothing on standard output and a message on standard error; the
first exactly when the text that is asked for reads and evaluates to a value. To run a file is to
evaluate its content, up to the name that reports give the text. -/
theorem run_exits_with_value_or_message (args : List String) (setting? : String → Option String)
    (file : String → Except FileError String) :
    let exit := run args setting? file
    ((∃ value, Yields args setting? file value ∧
        exit.code = 0 ∧ exit.stdout = value.text ++ "\n" ∧ exit.stderr = "") ∨
      (∀ value, ¬ Yields args setting? file value) ∧
        exit.code = 1 ∧ exit.stdout = "" ∧ exit.firstErrorLine ≠ "") ∧
    ∀ path content, ".lisp".toList <:+ path.toList → file path = .ok content →
      content ≠ lenientFlag →
        let ran := run ["run", path] setting? file
        let evaluated := run ["eval", content] setting? file
        ran.code = evaluated.code ∧ ran.stdout = evaluated.stdout ∧
          ran.firstErrorLine = evaluated.firstErrorLine := by
  intro exit
  refine ⟨?_, ?_⟩
  · rcases run_cases args setting? file with ⟨value, hy, he⟩ | ⟨hn, message, hm, he⟩
    · refine .inl ⟨value, hy, ?_⟩
      rw [show exit = _ from he]
      exact ⟨rfl, rfl, rfl⟩
    · refine .inr ⟨hn, ?_⟩
      rw [show exit = _ from he]
      exact ⟨rfl, rfl, hm.firstErrorLine_ne_empty⟩
  · intro path content hn hc hf
    have hp : path ≠ lenientFlag := by
      rintro rfl
      exact absurd hn (by decide)
    have hr : lenientFlag ∉ ["run", path] := lenientFlag_not_mem_pair (by decide) hp
    have he : lenientFlag ∉ ["eval", content] := lenientFlag_not_mem_pair (by decide) hf
    have hrs : source ["run", path] file = .ok ⟨path, content⟩ :=
      source_eq_ok_iff.mpr (.file (List.erase_of_not_mem hr) hn hc)
    have hes : source ["eval", content] file = .ok ⟨"<eval>", content⟩ :=
      source_eq_ok_iff.mpr (.inline (List.erase_of_not_mem he))
    rw [run, run, hrs, hes, options_of_not_mem hr, options_of_not_mem he]
    exact execute_rename _ _ _ _

end

attribute [local instance] Renderer.plain

theorem run_exits_with_value_or_message_file :
    let file : String → Except FileError String := fun path =>
      if path = "sum.lisp" then .ok "(+ 1 x" else .error .notFound
    let ran := run ["run", "sum.lisp"] (fun _ => none) file
    let evaluated := run ["eval", "(+ 1 x"] (fun _ => none) file
    ".lisp".toList <:+ "sum.lisp".toList ∧ file "sum.lisp" = .ok "(+ 1 x" ∧
      "(+ 1 x" ≠ lenientFlag ∧ ran.code = evaluated.code ∧ ran.stdout = evaluated.stdout ∧
      ran.firstErrorLine = evaluated.firstErrorLine := by
  intro file ran evaluated
  have hn : ".lisp".toList <:+ "sum.lisp".toList := by decide
  have hc : file "sum.lisp" = .ok "(+ 1 x" := rfl
  have hf : "(+ 1 x" ≠ lenientFlag := by decide
  exact ⟨hn, hc, hf,
    (run_exits_with_value_or_message [] (fun _ => none) file).2 "sum.lisp" _ hn hc hf⟩

end CommandLine

end LispCalc
