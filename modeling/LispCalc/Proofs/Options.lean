import LispCalc.Options
import LispCalc.Proofs.Source.Word
import Mathlib.Data.List.Induction

namespace LispCalc

-- Powers of natural numbers are those of the core library, whatever else is imported.
attribute [local instance (high)] instPowNat

/-- The word is the text without the white space at its ends. -/
structure Trims (text word : List Char) : Prop where
  around : ∃ before behind, text = before ++ (word ++ behind) ∧ (∀ c ∈ before, isWhiteSpace c) ∧
    ∀ c ∈ behind, isWhiteSpace c
  head : ∀ c ∈ word.head?, isWhiteSpace c = false
  last : ∀ c ∈ word.getLast?, isWhiteSpace c = false

theorem exists_cut (p : Char → Bool) (cs : List Char) :
    ∃ run, cs = run ++ cs.dropWhile p ∧ (∀ c ∈ run, p c) ∧
      ∀ c ∈ (cs.dropWhile p).head?, p c = false :=
  ⟨cs.takeWhile p, List.takeWhile_append_dropWhile.symm, fun _ hc => mem_takeWhile hc,
    head_dropWhile cs⟩

theorem trims_trimWhiteSpace (text : List Char) : Trims text (trimWhiteSpace text) := by
  obtain ⟨before, ht, hb, hh⟩ := exists_cut isWhiteSpace text
  rw [trimWhiteSpace]
  generalize text.dropWhile isWhiteSpace = rest at ht hh
  obtain ⟨behind, hr, he, hl⟩ := exists_cut isWhiteSpace rest.reverse
  generalize rest.reverse.dropWhile isWhiteSpace = word at hr hl
  have hw : rest = word.reverse ++ behind.reverse := by
    rw [← List.reverse_append, ← hr, List.reverse_reverse]
  refine ⟨⟨before, behind.reverse, by rw [ht, hw], hb, ?_⟩, ?_, ?_⟩
  · intro c hc
    exact he c (List.mem_reverse.mp hc)
  · intro c hc
    obtain ⟨cs, hcs⟩ := List.head?_eq_some_iff.mp hc
    exact hh c (by rw [hw, hcs]; rfl)
  · rw [List.getLast?_reverse]
    exact hl

theorem dropWhile_before {before word behind : List Char} (hb : ∀ c ∈ before, isWhiteSpace c)
    (hh : ∀ c ∈ word.head?, isWhiteSpace c = false) (he : ∀ c ∈ behind, isWhiteSpace c) :
    (before ++ (word ++ behind)).dropWhile isWhiteSpace =
      if word = [] then [] else word ++ behind := by
  cases word with
  | nil =>
    have hs := span_run (List.forall_mem_append.mpr ⟨hb, he⟩) stops_nil
    rw [List.append_nil] at hs
    exact hs.2
  | cons c cs => exact (span_run hb (stops_cons c _ (hh c rfl))).2

theorem trimWhiteSpace_eq_iff {text word : List Char} :
    trimWhiteSpace text = word ↔ Trims text word := by
  constructor
  · rintro rfl
    exact trims_trimWhiteSpace text
  · rintro ⟨⟨before, behind, rfl, hb, he⟩, hh, hl⟩
    rw [trimWhiteSpace, dropWhile_before hb hh he]
    split
    · rename_i hw
      rw [hw]
      rfl
    · have hr : ∀ c ∈ behind.reverse, isWhiteSpace c := fun c hc => he c (List.mem_reverse.mp hc)
      rw [← List.head?_reverse] at hl
      rw [List.reverse_append, (span_run hr hl).2, List.reverse_reverse]

/-- A number in ASCII digits, at least one of them; zeros may lead. -/
inductive InDigits : List Char → Nat → Prop
  | digit {d : Nat} (h : d < 10) : InDigits [Nat.digitChar d] d
  | append {digits : List Char} {n d : Nat} (hn : InDigits digits n) (h : d < 10) :
    InDigits (digits ++ [Nat.digitChar d]) (10 * n + d)

theorem exists_digitChar {c : Char} (h : c.isDigit) : ∃ d, d < 10 ∧ c = Nat.digitChar d := by
  have hr : 48 ≤ c.toNat ∧ c.toNat ≤ 57 := Char.isDigit_iff_toNat.mp h
  refine ⟨c.toNat - 48, by omega, Char.toNat_inj.mp ?_⟩
  rw [Nat.toNat_digitChar_of_lt_ten (by omega)]
  omega

theorem ofDigitChars_append_digitChar (digits : List Char) {d : Nat} (h : d < 10) :
    Nat.ofDigitChars 10 (digits ++ [Nat.digitChar d]) 0 =
      10 * Nat.ofDigitChars 10 digits 0 + d := by
  rw [Nat.ofDigitChars_append, Nat.ofDigitChars_cons_digitChar_of_lt_ten h, Nat.ofDigitChars_nil]

theorem inDigits_iff {digits : List Char} {n : Nat} :
    InDigits digits n ↔
      digits ≠ [] ∧ (∀ c ∈ digits, c.isDigit) ∧ Nat.ofDigitChars 10 digits 0 = n := by
  have hdigit {d : Nat} (h : d < 10) : (Nat.digitChar d).isDigit := by
    rw [Nat.isDigit_digitChar, decide_eq_true h]
  constructor
  · intro h
    induction h with
    | digit h =>
      refine ⟨List.cons_ne_nil _ _, List.forall_mem_singleton.mpr (hdigit h), ?_⟩
      exact (ofDigitChars_append_digitChar [] h).trans (by rw [Nat.ofDigitChars_nil, Nat.zero_add])
    | append hn h ih =>
      obtain ⟨-, hd, rfl⟩ := ih
      refine ⟨List.append_ne_nil_of_right_ne_nil _ (List.cons_ne_nil _ _), ?_,
        ofDigitChars_append_digitChar _ h⟩
      exact List.forall_mem_append.mpr ⟨hd, List.forall_mem_singleton.mpr (hdigit h)⟩
  · rintro ⟨hne, hd, rfl⟩
    induction digits using List.reverseRecOn with
    | nil => exact (hne rfl).elim
    | append_singleton digits c ih =>
      rw [List.forall_mem_append, List.forall_mem_singleton] at hd
      obtain ⟨d, hlt, rfl⟩ := exists_digitChar hd.2
      rw [ofDigitChars_append_digitChar digits hlt]
      by_cases hn : digits = []
      · rw [hn, Nat.ofDigitChars_nil, Nat.mul_zero, Nat.zero_add]
        exact .digit hlt
      · exact .append (ih hn hd.1) hlt

/-- A text that sets the depth: between white space an optional plus sign and digits, of a
positive number that fits 64 bits. -/
structure SetsDepth (text : String) (depth : Nat) : Prop where
  word : ∃ word digits, Trims text.toList word ∧ (word = digits ∨ word = '+' :: digits) ∧
    InDigits digits depth
  pos : 1 ≤ depth
  le : depth ≤ 2 ^ (64 : Nat) - 1

def Policy.words : Policy → List String
  | .strict => ["strict"]
  | .lenient => ["lenient", "compat"]

/-- A text that sets the policy: one of its words between white space, in ASCII letters of any
case. -/
def SetsPolicy (text : String) (policy : Policy) : Prop :=
  ∃ word, Trims text.toList word ∧ String.ofList (word.map Char.toLower) ∈ policy.words

theorem depth?_cases (text : String) :
    ∃ digits, (trimWhiteSpace text.toList = '+' :: digits ∨
        trimWhiteSpace text.toList = digits ∧ digits.head? ≠ some '+') ∧
      depth? text =
        if digits ≠ [] ∧ digits.all Char.isDigit ∧ 0 < Nat.ofDigitChars 10 digits 0 ∧
            Nat.ofDigitChars 10 digits 0 < 2 ^ (64 : Nat) then
          some (Nat.ofDigitChars 10 digits 0)
        else none := by
  unfold depth?
  generalize trimWhiteSpace text.toList = word
  by_cases hp : ∃ digits, word = '+' :: digits
  · obtain ⟨digits, rfl⟩ := hp
    exact ⟨digits, .inl rfl, rfl⟩
  · refine ⟨word, .inr ⟨rfl, fun hh => hp (List.head?_eq_some_iff.mp hh)⟩, ?_⟩
    dsimp only
    split
    · exact absurd ⟨_, rfl⟩ hp
    · rfl

theorem InDigits.head?_ne_plus {digits : List Char} {n : Nat} (h : InDigits digits n) :
    digits.head? ≠ some '+' := by
  intro hp
  have hd := (inDigits_iff.mp h).2.1 '+' (List.mem_of_head? hp)
  cases hd

theorem depth?_eq_some_iff {text : String} {depth : Nat} :
    depth? text = some depth ↔ SetsDepth text depth := by
  obtain ⟨digits, ht, he⟩ := depth?_cases text
  rw [he]
  constructor
  · intro h
    split at h
    · rename_i hc
      obtain ⟨hne, hd, hpos, hlt⟩ := hc
      injection h with h
      rw [h] at hpos hlt
      refine ⟨⟨_, digits, trims_trimWhiteSpace _, ?_, ?_⟩, hpos, Nat.le_sub_one_of_lt hlt⟩
      · exact ht.symm.imp And.left id
      · exact inDigits_iff.mpr ⟨hne, List.all_eq_true.mp hd, h⟩
    · cases h
  · rintro ⟨⟨word, digits', hw, hs, hd⟩, hpos, hle⟩
    rw [trimWhiteSpace_eq_iff.mpr hw] at ht
    have hdigits : digits = digits' := by
      rcases ht with ht | ⟨ht, hh⟩ <;> rcases hs with hs | hs
      · exact absurd (congrArg List.head? (hs.symm.trans ht)) hd.head?_ne_plus
      · exact (List.cons.inj (ht.symm.trans hs)).2
      · exact ht.symm.trans hs
      · exact absurd (congrArg List.head? (ht.symm.trans hs)) hh
    rw [hdigits]
    obtain ⟨hne, ha, hv⟩ := inDigits_iff.mp hd
    rw [hv]
    exact if_pos ⟨hne, List.all_eq_true.mpr ha, hpos, Nat.lt_of_le_sub_one (Nat.two_pow_pos 64) hle⟩

theorem ofText?_eq_some_iff {text : String} {policy : Policy} :
    Policy.ofText? text = some policy ↔ SetsPolicy text policy := by
  have hw : SetsPolicy text policy ↔ Policy.normalize text ∈ policy.words := by
    constructor
    · rintro ⟨word, ht, hp⟩
      rw [Policy.normalize, trimWhiteSpace_eq_iff.mpr ht]
      exact hp
    · intro hp
      exact ⟨_, trims_trimWhiteSpace _, hp⟩
  rw [hw]
  simp only [Policy.ofText?]
  generalize Policy.normalize text = word
  split
  · rename_i hs
    rw [hs]
    cases policy <;> decide
  split
  · rename_i hl
    simp only [Bool.or_eq_true, decide_eq_true_eq] at hl
    rcases hl with rfl | rfl <;> cases policy <;> decide
  · rename_i hs hn
    simp only [Bool.or_eq_true, decide_eq_true_eq, not_or] at hn
    cases policy <;> simp [Policy.words, hs, hn]

namespace Options

/-- How a setting is read: a text that is accepted gives its value, and everything else the
default; a text that is refused gives a warning besides. -/
inductive Reads {α : Type} (accepts : String → α → Prop) (default : α)
    (warning : String → Warning) :
    Option String → α × List Warning → Prop
  | unset : Reads accepts default warning none (default, [])
  | accepted {text : String} {value : α} (h : accepts text value) :
    Reads accepts default warning (some text) (value, [])
  | refused {text : String} (h : ∀ value, ¬ accepts text value) :
    Reads accepts default warning (some text) (default, [warning text])

/-- The notices about a setting: one warning for a text that is refused, and none otherwise. -/
def Complains {α : Type} (accepts : String → α → Prop) (message : String → String)
    (setting : Option String) (log : List Notice) : Prop :=
  (∀ text ∈ setting, ∃ value, accepts text value) ∧ log = [] ∨
    ∃ text ∈ setting, (∀ value, ¬ accepts text value) ∧ log = [⟨.warn, message text, []⟩]

section

variable {α : Type} {accepts : String → α → Prop} {default : α} {warning : String → Warning}
  {setting : Option String}

theorem reads_of_iff {parse? : String → Option α} {read : Option String → α × List Warning}
    (hp : ∀ text value, parse? text = some value ↔ accepts text value)
    (hunset : read none = (default, []))
    (hsome : ∀ text value, parse? text = some value → read (some text) = (value, []))
    (hnone : ∀ text, parse? text = none → read (some text) = (default, [warning text]))
    (setting : Option String) : Reads accepts default warning setting (read setting) := by
  cases setting with
  | none =>
    rw [hunset]
    exact .unset
  | some text =>
    cases ha : parse? text with
    | some value =>
      rw [hsome text value ha]
      exact .accepted ((hp text value).mp ha)
    | none =>
      rw [hnone text ha]
      refine .refused fun value hv => ?_
      rw [(hp text value).mpr hv] at ha
      cases ha

variable {r : α × List Warning}

theorem Reads.eq_iff (h : Reads accepts default warning setting r)
    (hu : ∀ text value value', accepts text value → accepts text value' → value = value')
    (value : α) :
    r.1 = value ↔ (∃ text ∈ setting, accepts text value) ∨
      value = default ∧ ∀ text ∈ setting, ∀ other, ¬ accepts text other := by
  cases h with
  | unset =>
    constructor
    · rintro rfl
      exact .inr ⟨rfl, fun _ hm => nomatch hm⟩
    · rintro (⟨text, hm, -⟩ | ⟨rfl, -⟩)
      · cases hm
      · rfl
  | @accepted text value' ha =>
    constructor
    · rintro rfl
      exact .inl ⟨text, rfl, ha⟩
    · rintro (⟨text', hm, hv⟩ | ⟨-, hn⟩)
      · cases hm
        exact hu text value' value ha hv
      · exact absurd ha (hn text rfl value')
  | @refused text hr =>
    constructor
    · rintro rfl
      refine .inr ⟨rfl, fun text' hm other => ?_⟩
      cases hm
      exact hr other
    · rintro (⟨text', hm, hv⟩ | ⟨rfl, -⟩)
      · cases hm
        exact absurd hv (hr value)
      · rfl

theorem Reads.complains (h : Reads accepts default warning setting r) :
    Complains accepts (fun text => (warning text).message) setting (r.2.map Warning.notice) := by
  cases h with
  | unset => exact .inl ⟨fun _ hm => (nomatch hm), rfl⟩
  | @accepted text value ha =>
    refine .inl ⟨fun text' hm => ?_, rfl⟩
    cases hm
    exact ⟨value, ha⟩
  | @refused text hr => exact .inr ⟨text, rfl, hr, rfl⟩

end

theorem policyOfSetting_reads (setting : Option String) :
    Reads SetsPolicy .strict .unknownPolicy setting (policyOfSetting setting) := by
  apply reads_of_iff @ofText?_eq_some_iff rfl
  · intro text policy h
    simp only [policyOfSetting, h]
  · intro text h
    simp only [policyOfSetting, h]

theorem maxDepthOfSetting_reads (setting : Option String) :
    Reads SetsDepth defaultMaxDepth .unusableDepth setting (maxDepthOfSetting setting) := by
  apply reads_of_iff @depth?_eq_some_iff rfl
  · intro text depth h
    simp only [maxDepthOfSetting, h]
  · intro text h
    simp only [maxDepthOfSetting, h]

theorem Warning.unknownPolicy_message (text : String) :
    (Warning.unknownPolicy text).message =
      "LISP_EVAL_POLICY: " ++ Policy.unknownMessage text ++ "; using strict" := by
  rw [Warning.message, show policySetting ++ ": " = "LISP_EVAL_POLICY: " by decide]

theorem Warning.unusableDepth_message (text : String) :
    (Warning.unusableDepth text).message =
      "LISP_EVAL_MAX_DEPTH: `" ++ text ++ "` is not a positive integer; using 512" := by
  rw [Warning.message, show maxDepthSetting ++ ": `" = "LISP_EVAL_MAX_DEPTH: `" by decide,
    String.append_assoc]
  rfl

theorem SetsDepth.unique (text : String) (depth depth' : Nat) (h : SetsDepth text depth)
    (h' : SetsDepth text depth') : depth = depth' :=
  Option.some.inj ((depth?_eq_some_iff.mpr h).symm.trans (depth?_eq_some_iff.mpr h'))

theorem SetsPolicy.unique (text : String) (policy policy' : Policy) (h : SetsPolicy text policy)
    (h' : SetsPolicy text policy') : policy = policy' :=
  Option.some.inj ((ofText?_eq_some_iff.mpr h).symm.trans (ofText?_eq_some_iff.mpr h'))

/-- The depth and the policy are what their settings say where they say something that is
accepted, and 512 and strict otherwise. Neither setting has a say in the other's option, and the
warnings are one for each setting that is refused, the one about the policy first. -/
theorem ofSettings_exact (setting? : String → Option String) :
    let options := (ofSettings setting?).1
    let policyText := setting? "LISP_EVAL_POLICY"
    let depthText := setting? "LISP_EVAL_MAX_DEPTH"
    (∀ depth, options.maxDepth = depth ↔ (∃ text ∈ depthText, SetsDepth text depth) ∨
      depth = 512 ∧ ∀ text ∈ depthText, ∀ other, ¬ SetsDepth text other) ∧
    (1 ≤ options.maxDepth ∧ options.maxDepth ≤ 2 ^ (64 : Nat) - 1) ∧
    (∀ policy, options.policy = policy ↔ (∃ text ∈ policyText, SetsPolicy text policy) ∨
      policy = .strict ∧ ∀ text ∈ policyText, ∀ other, ¬ SetsPolicy text other) ∧
    (∀ other : String → Option String,
      (other "LISP_EVAL_MAX_DEPTH" = depthText →
        (ofSettings other).1.maxDepth = options.maxDepth) ∧
      (other "LISP_EVAL_POLICY" = policyText → (ofSettings other).1.policy = options.policy)) ∧
    ∃ policyLog depthLog,
      (ofSettings setting?).2.map Warning.notice = policyLog ++ depthLog ∧
      Complains SetsPolicy (fun text => "LISP_EVAL_POLICY: " ++ Policy.unknownMessage text ++
        "; using strict") policyText policyLog ∧
      Complains SetsDepth (fun text => "LISP_EVAL_MAX_DEPTH: `" ++ text ++
        "` is not a positive integer; using 512") depthText depthLog := by
  intro options policyText depthText
  have hp := policyOfSetting_reads policyText
  have hd := maxDepthOfSetting_reads depthText
  have hdepth := hd.eq_iff SetsDepth.unique
  refine ⟨hdepth, ?_, hp.eq_iff SetsPolicy.unique, ?_, ?_⟩
  · rcases (hdepth options.maxDepth).mp rfl with ⟨text, -, hs⟩ | ⟨he, -⟩
    · exact ⟨hs.pos, hs.le⟩
    · rw [he]
      decide
  · intro other
    constructor
    · intro h
      exact congrArg (fun setting => (maxDepthOfSetting setting).1) h
    · intro h
      exact congrArg (fun setting => (policyOfSetting setting).1) h
  · have hpc := hp.complains
    have hdc := hd.complains
    simp only [Warning.unknownPolicy_message] at hpc
    simp only [Warning.unusableDepth_message] at hdc
    exact ⟨_, _, List.map_append, hpc, hdc⟩

example :
    ofSettings (fun name => if name = policySetting then some "\t Compat\n" else some "+0064") =
    (⟨.lenient, 64⟩, []) := by
  decide

end Options

end LispCalc
