import LispCalc.Source.Token

namespace LispCalc

theorem byteLength_cons (c : Char) (cs : List Char) :
    byteLength (c :: cs) = c.utf8Size + byteLength cs := by
  rw [byteLength, byteLength, List.map_cons, List.sum_cons]

theorem byteLength_append (cs cs' : List Char) :
    byteLength (cs ++ cs') = byteLength cs + byteLength cs' := by
  rw [byteLength, byteLength, byteLength, List.map_append, List.sum_append]

theorem stops_nil {p : Char → Bool} : ∀ c ∈ ([] : List Char).head?, p c = false :=
  fun _ hc => nomatch hc

theorem stops_cons {p : Char → Bool} (c : Char) (rest : List Char) (h : p c = false) :
    ∀ d ∈ (c :: rest).head?, p d = false := by
  intro d hd
  cases hd
  exact h

theorem span_run {p : Char → Bool} {run rest : List Char} (hp : ∀ c ∈ run, p c)
    (hr : ∀ c ∈ rest.head?, p c = false) :
    (run ++ rest).takeWhile p = run ∧ (run ++ rest).dropWhile p = rest := by
  rw [List.takeWhile_append_of_pos hp, List.dropWhile_append_of_pos hp]
  cases rest with
  | nil => simp
  | cons c rest =>
    have hc := hr c rfl
    simp [hc]

theorem run_append_inj {p : Char → Bool} {run run' rest rest' : List Char}
    (hp : ∀ c ∈ run, p c) (hp' : ∀ c ∈ run', p c) (hr : ∀ c ∈ rest.head?, p c = false)
    (hr' : ∀ c ∈ rest'.head?, p c = false) (he : run ++ rest = run' ++ rest') :
    run = run' ∧ rest = rest' := by
  obtain ⟨ht, hd⟩ := span_run hp hr
  obtain ⟨ht', hd'⟩ := span_run hp' hr'
  rw [he] at ht hd
  exact ⟨ht.symm.trans ht', hd.symm.trans hd'⟩

/-- A non-empty run of atom characters. -/
@[ext] structure Atom where
  chars : List Char
  nonempty : chars ≠ []
  valid : ∀ c ∈ chars, isAtomChar c

theorem Atom.exists_cons (a : Atom) : ∃ c cs, a.chars = c :: cs ∧ isAtomChar c := by
  obtain ⟨c, cs, hc⟩ := List.exists_cons_of_ne_nil a.nonempty
  have hm : c ∈ a.chars := by
    rw [hc]
    exact List.mem_cons_self
  exact ⟨c, cs, hc, a.valid c hm⟩

/-- A piece of text that makes one token. -/
inductive Word where
  | opening
  | closing
  | atom (a : Atom)

namespace Word

def text : Word → List Char
  | .opening => ['(']
  | .closing => [')']
  | .atom a => a.chars

def lexeme : Word → Lexeme
  | .opening => .opening
  | .closing => .closing
  | .atom a => .ofAtom a.chars

/-- Only an atom could be longer: what follows it must not go on with an atom character. -/
def EndsBefore (rest : List Char) : Word → Prop
  | .opening | .closing => True
  | .atom _ => ∀ c ∈ rest.head?, isAtomChar c = false

end Word

/-- A comment may end before a line feed, before a carriage return with its line feed, and with the
text. -/
inductive EndsComment : List Char → Prop
  | lineFeed (rest : List Char) : EndsComment ('\n' :: rest)
  | carriageReturn (rest : List Char) : EndsComment ('\r' :: '\n' :: rest)
  | endOfText : EndsComment []

/-- A run of blanks and comments in front of `rest`. -/
inductive IsGap (rest : List Char) : List Char → Prop
  | nil : IsGap rest []
  | blank {c : Char} {gap : List Char} (hc : isBlank c) (h : IsGap rest gap) :
    IsGap rest (c :: gap)
  | comment {body gap : List Char} (hb : ∀ c ∈ body, isLineEnd c = false)
    (he : EndsComment (gap ++ rest)) (h : IsGap rest gap) : IsGap rest (';' :: (body ++ gap))

theorem not_isLineEnd_of_body {body : List Char} (hb : ∀ c ∈ body, isLineEnd c = false) :
    ∀ c ∈ body, !isLineEnd c := by
  intro c hc
  rw [hb c hc]
  rfl

theorem EndsComment.head {rest : List Char} (h : EndsComment rest) :
    ∀ c ∈ rest.head?, (!isLineEnd c) = false := by
  cases h with
  | lineFeed | carriageReturn => exact stops_cons _ _ rfl
  | endOfText => exact stops_nil

theorem EndsComment.closesComment {rest : List Char} (h : EndsComment rest) :
    closesComment rest := by
  cases h <;> rfl

/-- How a text can start: with a blank, a comment or a word. -/
inductive Start : List Char → Prop
  | empty : Start []
  | blank {c : Char} {rest : List Char} (hc : isBlank c) : Start (c :: rest)
  | comment {body rest : List Char} (hb : ∀ c ∈ body, isLineEnd c = false)
    (he : EndsComment rest) : Start (';' :: (body ++ rest))
  | loneReturn {body rest : List Char} (hb : ∀ c ∈ body, isLineEnd c = false)
    (hr : rest.head? ≠ some '\n') : Start (';' :: (body ++ '\r' :: rest))
  | word {w : Word} {rest : List Char} (hw : w.EndsBefore rest) : Start (w.text ++ rest)

theorem isAtomChar_iff {c : Char} :
    isAtomChar c ↔ isBlank c = false ∧ c ≠ '(' ∧ c ≠ ')' ∧ c ≠ ';' := by
  simp only [isAtomChar, Bool.and_eq_true, Bool.not_eq_true', decide_eq_true_eq, and_assoc]

theorem head_dropWhile {p : Char → Bool} (cs : List Char) :
    ∀ c ∈ (cs.dropWhile p).head?, p c = false := by
  intro c hc
  have hp := List.head?_dropWhile_not p cs
  rw [Option.mem_def.mp hc] at hp
  simpa using hp

theorem mem_takeWhile {p : Char → Bool} {cs : List Char} {c : Char} (h : c ∈ cs.takeWhile p) :
    p c :=
  List.all_eq_true.mp List.all_takeWhile c h

theorem start_semicolon (cs : List Char) : Start (';' :: cs) := by
  have hb : ∀ c ∈ cs.takeWhile (!isLineEnd ·), isLineEnd c = false := by
    intro c hc
    simpa using mem_takeWhile hc
  have hr := head_dropWhile (p := (!isLineEnd ·)) cs
  rw [← List.takeWhile_append_dropWhile (p := (!isLineEnd ·)) (l := cs)]
  generalize cs.takeWhile (!isLineEnd ·) = body at hb
  generalize cs.dropWhile (!isLineEnd ·) = rest at hr
  cases rest with
  | nil => exact .comment hb .endOfText
  | cons c rest =>
    have hc : isLineEnd c := by simpa using hr c rfl
    simp only [isLineEnd, Bool.or_eq_true, decide_eq_true_eq] at hc
    rcases hc with rfl | rfl
    · by_cases hf : rest.head? = some '\n'
      · obtain ⟨rest, rfl⟩ := List.head?_eq_some_iff.mp hf
        exact .comment hb (.carriageReturn rest)
      · exact .loneReturn hb hf
    · exact .comment hb (.lineFeed rest)

theorem start_atom {c : Char} (hc : isAtomChar c) (cs : List Char) : Start (c :: cs) := by
  rw [← List.takeWhile_append_dropWhile (p := isAtomChar) (l := cs)]
  have hv : ∀ d ∈ c :: cs.takeWhile isAtomChar, isAtomChar d := by
    intro d hd
    rcases List.mem_cons.mp hd with rfl | hd
    · exact hc
    · exact mem_takeWhile hd
  exact .word (w := .atom ⟨_, List.cons_ne_nil c _, hv⟩) (head_dropWhile cs)

theorem start (cs : List Char) : Start cs := by
  cases cs with
  | nil => exact .empty
  | cons c cs =>
    by_cases hb : isBlank c
    · exact .blank hb
    by_cases hs : c = ';'
    · rw [hs]
      exact start_semicolon cs
    by_cases ho : c = '('
    · rw [ho]
      exact .word (w := .opening) trivial
    by_cases hc : c = ')'
    · rw [hc]
      exact .word (w := .closing) trivial
    · exact start_atom (isAtomChar_iff.mpr ⟨by simpa using hb, ho, hc, hs⟩) cs

namespace Token

theorem scan_nil (offset : Nat) : scan offset [] = .ok [] := by
  rw [scan]

theorem scan_blank {c : Char} (hc : isBlank c) (offset : Nat) (rest : List Char) :
    scan offset (c :: rest) = scan (offset + byteLength [c]) rest := by
  rw [scan, if_pos hc]
  rfl

theorem scan_comment {body rest : List Char} (hb : ∀ c ∈ body, isLineEnd c = false)
    (he : EndsComment rest) (offset : Nat) :
    scan offset (';' :: (body ++ rest)) = scan (offset + byteLength (';' :: body)) rest := by
  obtain ⟨ht, hd⟩ := span_run (not_isLineEnd_of_body hb) he.head
  rw [scan, if_neg (by decide), if_pos rfl]
  simp only [ht, hd, he.closesComment, if_true, byteLength_cons, ← Nat.add_assoc]
  rfl

theorem scan_loneReturn {body rest : List Char} (hb : ∀ c ∈ body, isLineEnd c = false)
    (hr : rest.head? ≠ some '\n') (offset : Nat) :
    scan offset (';' :: (body ++ '\r' :: rest)) =
      .error ⟨.unrecognizedInput, ⟨offset, offset + 1⟩⟩ := by
  obtain ⟨-, hd⟩ := span_run (not_isLineEnd_of_body hb) (stops_cons '\r' rest rfl)
  have hc : closesComment ('\r' :: rest) = false := by
    unfold closesComment
    split
    · rename_i heq
      cases heq
      exact (hr rfl).elim
    · rfl
    · rename_i hn
      exact (hn rest rfl).elim
  rw [scan, if_neg (by decide), if_pos rfl]
  simp only [hd, hc]
  rfl

theorem scan_word (w : Word) {rest : List Char} (hw : w.EndsBefore rest) (offset : Nat) :
    scan offset (w.text ++ rest) =
      (scan (offset + byteLength w.text) rest).map
        (⟨w.lexeme, ⟨offset, offset + byteLength w.text⟩⟩ :: ·) := by
  cases w with
  | opening =>
    change scan offset ('(' :: rest) = _
    rw [scan]
    rfl
  | closing =>
    change scan offset (')' :: rest) = _
    rw [scan]
    rfl
  | atom a =>
    obtain ⟨chars, hn, hv⟩ := a
    cases chars with
    | nil => exact (hn rfl).elim
    | cons c cs =>
      obtain ⟨hc, hcs⟩ := List.forall_mem_cons.mp hv
      obtain ⟨hb, ho, hcl, hs⟩ := isAtomChar_iff.mp hc
      obtain ⟨ht, hd⟩ := span_run hcs hw
      simp only [Word.text, Word.lexeme, List.cons_append]
      rw [scan, if_neg (by rw [hb]; exact Bool.false_ne_true), if_neg hs, if_neg ho, if_neg hcl]
      simp only [ht, hd]

theorem scan_gap {gap rest : List Char} (h : IsGap rest gap) (offset : Nat) :
    scan offset (gap ++ rest) = scan (offset + byteLength gap) rest := by
  induction h generalizing offset with
  | nil => rfl
  | @blank c gap hc h ih =>
    rw [List.cons_append, scan_blank hc, ih, Nat.add_assoc, ← byteLength_append,
      List.singleton_append]
  | @comment body gap hb he h ih =>
    rw [List.cons_append, List.append_assoc, scan_comment hb he, ih, Nat.add_assoc,
      ← byteLength_append, List.cons_append]

end Token

theorem IsGap.head {rest gap : List Char} (h : IsGap rest gap) :
    ∀ c ∈ gap.head?, isBlank c ∨ c = ';' := by
  intro c hc
  cases h with
  | nil => cases hc
  | blank hb h =>
    cases hc
    exact .inl hb
  | comment hb he h =>
    cases hc
    exact .inr rfl

namespace Word

theorem text_ne_nil (w : Word) : w.text ≠ [] := by
  cases w with
  | opening => exact List.cons_ne_nil _ _
  | closing => exact List.cons_ne_nil _ _
  | atom a => exact a.nonempty

theorem forall_mem_text (w : Word) : ∀ c ∈ w.text, isBlank c = false ∧ c ≠ ';' := by
  cases w with
  | opening | closing => exact List.forall_mem_singleton.mpr ⟨rfl, by decide⟩
  | atom a =>
    intro c hc
    obtain ⟨hb, -, -, hs⟩ := isAtomChar_iff.mp (a.valid c hc)
    exact ⟨hb, hs⟩

theorem head_text_append (w : Word) (rest : List Char) :
    ∀ c ∈ (w.text ++ rest).head?, isBlank c = false ∧ c ≠ ';' := by
  intro c hc
  obtain ⟨d, ds, hd⟩ := List.exists_cons_of_ne_nil w.text_ne_nil
  rw [hd] at hc
  cases hc
  apply w.forall_mem_text
  rw [hd]
  exact List.mem_cons_self

end Word

theorem IsGap.append_inj {gap gap' rest rest' : List Char} (h : IsGap rest gap)
    (h' : IsGap rest' gap') (hr : ∀ c ∈ rest.head?, isBlank c = false ∧ c ≠ ';')
    (hr' : ∀ c ∈ rest'.head?, isBlank c = false ∧ c ≠ ';') (he : gap ++ rest = gap' ++ rest') :
    gap = gap' ∧ rest = rest' := by
  have hstop {c : Char} {cs other : List Char} (hc : isBlank c ∨ c = ';')
      (ho : ∀ d ∈ other.head?, isBlank d = false ∧ d ≠ ';') : c :: cs ≠ other := by
    intro heq
    obtain ⟨hb, hs⟩ := ho c (by rw [← heq]; rfl)
    rcases hc with hc | hc
    · rw [hb] at hc
      exact Bool.false_ne_true hc
    · exact hs hc
  induction h generalizing gap' with
  | nil =>
    cases h' with
    | nil => exact ⟨rfl, he⟩
    | blank hb h => exact (hstop (.inl hb) hr he.symm).elim
    | comment hb hc h => exact (hstop (.inr rfl) hr he.symm).elim
  | @blank c gap hb h ih =>
    cases h' with
    | nil => exact (hstop (.inl hb) hr' he).elim
    | blank hb' h' =>
      obtain ⟨rfl, ht⟩ := List.cons.inj he
      obtain ⟨rfl, hrest⟩ := ih h' ht
      exact ⟨rfl, hrest⟩
    | comment hb' hc' h' =>
      obtain ⟨rfl, -⟩ := List.cons.inj he
      cases hb
  | @comment body gap hb hc h ih =>
    cases h' with
    | nil => exact (hstop (.inr rfl) hr' he).elim
    | blank hb' h' =>
      obtain ⟨rfl, -⟩ := List.cons.inj he
      cases hb'
    | @comment body' gap' hb' hc' h' =>
      rw [List.cons_append, List.cons_append, List.append_assoc, List.append_assoc] at he
      obtain ⟨hbody, ht⟩ := run_append_inj (not_isLineEnd_of_body hb) (not_isLineEnd_of_body hb')
        hc.head hc'.head (List.cons.inj he).2
      obtain ⟨rfl, hrest⟩ := ih h' ht
      exact ⟨by rw [hbody], hrest⟩

theorem Word.append_inj {w w' : Word} {rest rest' : List Char} (hw : w.EndsBefore rest)
    (hw' : w'.EndsBefore rest') (he : w.text ++ rest = w'.text ++ rest') :
    w = w' ∧ rest = rest' := by
  have hbracket {a : Atom} {c : Char} {cs cs' : List Char} (hc : isAtomChar c = false) :
      a.chars ++ cs ≠ c :: cs' := by
    intro heq
    obtain ⟨d, ds, hd, hv⟩ := a.exists_cons
    rw [hd, List.cons_append] at heq
    rw [(List.cons.inj heq).1, hc] at hv
    exact Bool.false_ne_true hv
  cases w with
  | opening =>
    cases w' with
    | opening => exact ⟨rfl, (List.cons.inj he).2⟩
    | closing => cases he
    | atom a => exact (hbracket rfl he.symm).elim
  | closing =>
    cases w' with
    | opening => cases he
    | closing => exact ⟨rfl, (List.cons.inj he).2⟩
    | atom a => exact (hbracket rfl he.symm).elim
  | atom a =>
    cases w' with
    | opening | closing => exact (hbracket rfl he).elim
    | atom a' =>
      obtain ⟨hc, hr⟩ := run_append_inj a.valid a'.valid hw hw' he
      exact ⟨congrArg Word.atom (Atom.ext hc), hr⟩

end LispCalc
