import LispCalc.Source.Form

namespace LispCalc

namespace Form

def balance (tokens : List Token) : Int :=
  (tokens.countP (·.lexeme = .opening) : Int) - tokens.countP (·.lexeme = .closing)

/-- The shortest run from the front of `chunk ++ rest` behind which no list is open, or all of
it. -/
structure IsChunk (chunk rest : List Token) : Prop where
  nonempty : chunk ≠ []
  open_before : ∀ run, run <+: chunk → run ≠ [] → run ≠ chunk → 0 < balance run
  closed : balance chunk ≤ 0 ∨ rest = []

inductive Chunked : List (List Token) → List Token → Prop
  | nil : Chunked [] []
  | cons {chunk rest : List Token} {chunks : List (List Token)} (hc : IsChunk chunk rest)
    (hr : Chunked chunks rest) : Chunked (chunk :: chunks) (chunk ++ rest)

def failures (outcomes : List (Except ReadError Expr)) : List ReadError :=
  outcomes.filterMap fun
    | .error e => some e
    | .ok _ => none

def successes (outcomes : List (Except ReadError Expr)) : List Expr :=
  outcomes.filterMap Except.toOption

theorem balance_cons (token : Token) (tokens : List Token) :
    balance (token :: tokens) = balance [token] + balance tokens := by
  simp only [balance, List.countP_cons, List.countP_nil]
  omega

/-- The tokens that `skip` drops. -/
def front (depth : Nat) : List Token → List Token
  | [] => []
  | token :: tokens =>
    token ::
      if depthAfter depth token.lexeme = 0 then []
      else front (depthAfter depth token.lexeme) tokens

theorem front_append_skip (depth : Nat) (tokens : List Token) :
    front depth tokens ++ skip depth tokens = tokens := by
  induction tokens generalizing depth with
  | nil => rfl
  | cons token tokens ih =>
    simp only [front, skip]
    split
    · rfl
    · rw [List.cons_append, ih]

theorem skip_front (depth : Nat) (tokens : List Token) :
    skip depth (front depth tokens) = [] := by
  induction tokens generalizing depth with
  | nil => rfl
  | cons token tokens ih =>
    simp only [front, skip]
    split
    · rfl
    · rw [ih]

theorem depthAfter_eq_balance {depth : Nat} {token : Token}
    (h : depthAfter depth token.lexeme ≠ 0) :
    (depthAfter depth token.lexeme : Int) = depth + balance [token] := by
  cases ht : token.lexeme with
  | opening => simp [depthAfter, balance, ht]
  | closing =>
    rw [ht] at h
    simp only [depthAfter] at h
    simp [depthAfter, balance, ht]
    omega
  | number x => simp [depthAfter, balance, ht]
  | bool b => simp [depthAfter, balance, ht]
  | symbol name => simp [depthAfter, balance, ht]

theorem balance_of_depthAfter_eq_zero {depth : Nat} {token : Token}
    (h : depthAfter depth token.lexeme = 0) : depth + balance [token] ≤ 0 := by
  cases ht : token.lexeme with
  | opening =>
    rw [ht] at h
    cases h
  | closing =>
    rw [ht] at h
    simp only [depthAfter] at h
    simp [balance, ht]
    omega
  | number x | bool b | symbol name =>
    rw [ht] at h
    simp only [depthAfter] at h
    simp [balance, ht, h]

theorem open_before_front {depth : Nat} {tokens run : List Token}
    (h : run <+: front depth tokens) (hn : run ≠ []) (hf : run ≠ front depth tokens) :
    0 < depth + balance run := by
  induction tokens generalizing depth run with
  | nil => exact (hn (List.prefix_nil.mp h)).elim
  | cons token tokens ih =>
    obtain ⟨first, run, rfl⟩ := List.exists_cons_of_ne_nil hn
    simp only [front] at h hf
    obtain ⟨rfl, h⟩ := List.cons_prefix_cons.mp h
    split at h
    · rename_i hd
      rw [if_pos hd] at hf
      exact (hf (by rw [List.prefix_nil.mp h])).elim
    · rename_i hd
      rw [if_neg hd] at hf
      have he := depthAfter_eq_balance hd
      rw [balance_cons]
      by_cases hr : run = []
      · rw [hr]
        simp only [balance, List.countP_nil]
        simp only [balance] at he
        omega
      · have hi := ih h hr fun hc => hf (by rw [hc])
        omega

theorem front_closed (depth : Nat) (tokens : List Token) :
    depth + balance (front depth tokens) ≤ 0 ∨ skip depth tokens = [] := by
  induction tokens generalizing depth with
  | nil => exact .inr rfl
  | cons token tokens ih =>
    simp only [front, skip]
    split
    · rename_i hd
      exact .inl (balance_of_depthAfter_eq_zero hd)
    · rename_i hd
      have he := depthAfter_eq_balance hd
      rw [balance_cons]
      exact (ih _).imp_left (by omega)

theorem isChunk_front (token : Token) (tokens : List Token) :
    IsChunk (front 0 (token :: tokens)) (skip 0 (token :: tokens)) := by
  constructor
  · intro h
    cases h
  · intro run h hn hf
    have hb := open_before_front h hn hf
    omega
  · exact (front_closed 0 (token :: tokens)).imp_left (by omega)

theorem pending_of_place {e : Expr} {span : Span} {frames frames' : List Frame}
    (h : place e span frames = .pending frames') :
    frames'.length = frames.length ∧ frames' ≠ [] := by
  cases frames with
  | nil => cases h
  | cons frame outer =>
    cases h
    exact ⟨rfl, List.cons_ne_nil _ _⟩

theorem finished_of_place {e form : Expr} {span : Span} {frames : List Frame}
    (h : place e span frames = .finished form) : frames = [] := by
  cases frames with
  | nil => rfl
  | cons frame outer => cases h

theorem step_pending {frames frames' : List Frame} {token : Token}
    (h : step frames token = .ok (.pending frames')) :
    frames'.length = depthAfter frames.length token.lexeme ∧ frames' ≠ [] := by
  unfold step at h
  cases ht : token.lexeme with
  | opening =>
    simp only [ht] at h
    split at h
    · cases h
      exact ⟨rfl, List.cons_ne_nil _ _⟩
    · cases h
  | closing =>
    simp only [ht] at h
    cases frames with
    | nil => cases h
    | cons frame outer =>
      simp only at h
      cases ho : ofItems frame.items.reverse (frame.opening.upTo token.span) with
      | error e =>
        rw [ho] at h
        cases h
      | ok e =>
        rw [ho] at h
        exact pending_of_place (Except.ok.inj h)
  | number x | bool b | symbol name =>
    simp only [ht] at h
    exact pending_of_place (Except.ok.inj h)

theorem step_finished {frames : List Frame} {token : Token} {form : Expr}
    (h : step frames token = .ok (.finished form)) :
    depthAfter frames.length token.lexeme = 0 := by
  unfold step at h
  cases ht : token.lexeme with
  | opening =>
    simp only [ht] at h
    split at h <;> cases h
  | closing =>
    simp only [ht] at h
    cases frames with
    | nil => rfl
    | cons frame outer =>
      simp only at h
      cases ho : ofItems frame.items.reverse (frame.opening.upTo token.span) with
      | error e =>
        rw [ho] at h
        cases h
      | ok e =>
        rw [ho] at h
        have hf := finished_of_place (Except.ok.inj h)
        rw [hf]
        rfl
  | number x | bool b | symbol name =>
    simp only [ht] at h
    have hf := finished_of_place (Except.ok.inj h)
    rw [hf]
    rfl

/-- Reading a form looks at the tokens that `skip` would drop, and at no others. -/
theorem read_eq_read_front (eof stop : Nat) {frames : List Frame} {tokens : List Token}
    (h : frames ≠ [] ∨ tokens ≠ []) :
    read eof frames tokens =
      (read stop frames (front frames.length tokens)).map fun r =>
        (r.1, skip frames.length tokens) := by
  induction tokens generalizing frames with
  | nil =>
    cases frames with
    | nil => exact (h.elim (fun hf => hf rfl) fun ht => ht rfl).elim
    | cons frame outer => rfl
  | cons token tokens ih =>
    simp only [front, skip, read]
    cases hs : step frames token with
    | error e => rfl
    | ok progress =>
      cases progress with
      | finished form =>
        simp only [step_finished hs, ↓reduceIte]
        rfl
      | pending frames' =>
        obtain ⟨hl, hf⟩ := step_pending hs
        have hd : frames'.length ≠ 0 := fun hz => hf (List.length_eq_zero_iff.mp hz)
        simp only [← hl, if_neg hd]
        exact ih (.inl hf)

theorem eq_skip_of_read {eof : Nat} {tokens rest : List Token} {form : Expr}
    (h : read eof [] tokens = .ok (form, rest)) : rest = skip 0 tokens := by
  cases tokens with
  | nil => cases h
  | cons token tokens =>
    rw [read_eq_read_front eof eof (.inr (List.cons_ne_nil _ _))] at h
    cases hr : read eof [] (front 0 (token :: tokens)) with
    | error e =>
      rw [List.length_nil, hr] at h
      cases h
    | ok r =>
      rw [List.length_nil, hr] at h
      cases h
      rfl

theorem readAll_nil (eof : Nat) : readAll eof [] = [] := by
  rw [readAll]

theorem readAll_cons (eof : Nat) (token : Token) (tokens : List Token) :
    readAll eof (token :: tokens) =
      (read eof [] (token :: tokens)).map Prod.fst :: readAll eof (skip 0 (token :: tokens)) := by
  rw [readAll]
  split
  · rename_i form rest hr
    rw [hr, eq_skip_of_read hr]
    rfl
  · rename_i e hr
    rw [hr]
    rfl

theorem readAll_of_read {eof : Nat} {tokens rest : List Token} {form : Expr}
    (h : read eof [] tokens = .ok (form, rest)) :
    readAll eof tokens = .ok form :: readAll eof rest := by
  cases tokens with
  | nil => cases h
  | cons token tokens =>
    rw [readAll_cons, h, eq_skip_of_read h]
    rfl

theorem IsChunk.more_eq_nil {chunk more rest' : List Token} (h : IsChunk chunk (more ++ rest'))
    (h' : IsChunk (chunk ++ more) rest') : more = [] := by
  by_cases hm : more = []
  · exact hm
  · have hne : chunk ≠ chunk ++ more := fun hc => hm (List.self_eq_append_right.mp hc)
    have hb := h'.open_before chunk (List.prefix_append _ _) h.nonempty hne
    have hn := h.closed.resolve_left (by omega)
    exact (List.append_eq_nil_iff.mp hn).1

theorem IsChunk.eq_of_append_eq {chunk chunk' rest rest' : List Token}
    (h : IsChunk chunk rest) (h' : IsChunk chunk' rest')
    (he : chunk ++ rest = chunk' ++ rest') : chunk = chunk' ∧ rest = rest' := by
  rcases List.append_eq_append_iff.mp he with ⟨more, rfl, rfl⟩ | ⟨more, rfl, rfl⟩
  · rw [h.more_eq_nil h']
    exact ⟨(List.append_nil _).symm, rfl⟩
  · rw [h'.more_eq_nil h]
    exact ⟨List.append_nil _, rfl⟩

theorem IsChunk.front_skip {chunk rest : List Token} (h : IsChunk chunk rest) :
    front 0 (chunk ++ rest) = chunk ∧ skip 0 (chunk ++ rest) = rest := by
  obtain ⟨token, tokens, hc⟩ := List.exists_cons_of_ne_nil h.nonempty
  have hf : IsChunk (front 0 (chunk ++ rest)) (skip 0 (chunk ++ rest)) := by
    rw [hc, List.cons_append]
    exact isChunk_front token (tokens ++ rest)
  exact hf.eq_of_append_eq h (front_append_skip 0 (chunk ++ rest))

/-- A chunk gives one outcome, which depends on nothing behind it. -/
theorem IsChunk.readAll_append {chunk rest : List Token} (h : IsChunk chunk rest)
    (eof stop : Nat) :
    readAll stop chunk = [(read stop [] chunk).map Prod.fst] ∧
      readAll eof (chunk ++ rest) = readAll stop chunk ++ readAll eof rest := by
  obtain ⟨hf, hr⟩ := h.front_skip
  have hs : skip 0 chunk = [] := by
    have hd := skip_front 0 (chunk ++ rest)
    rwa [hf] at hd
  have hread : read eof [] (chunk ++ rest) = (read stop [] chunk).map fun r => (r.1, rest) := by
    have hn : chunk ++ rest ≠ [] := fun hn => h.nonempty (List.append_eq_nil_iff.mp hn).1
    rw [read_eq_read_front eof stop (.inr hn), List.length_nil, hf, hr]
  obtain ⟨token, tokens, hc⟩ := List.exists_cons_of_ne_nil h.nonempty
  have halone : readAll stop chunk = [(read stop [] chunk).map Prod.fst] := by
    rw [hc] at hs ⊢
    rw [readAll_cons, hs, readAll_nil]
  refine ⟨halone, ?_⟩
  rw [hc, List.cons_append] at hread hr ⊢
  rw [readAll_cons, hr, hread, ← hc, halone]
  cases read stop [] chunk <;> rfl

theorem Chunked.readAll_eq {chunks : List (List Token)} {tokens : List Token}
    (h : Chunked chunks tokens) (eof stop : Nat) :
    readAll eof tokens = chunks.flatMap (readAll stop) := by
  induction h with
  | nil => exact readAll_nil eof
  | cons hc hr ih => rw [(hc.readAll_append eof stop).2, ih, List.flatMap_cons]

theorem Chunked.readAll_chunk {chunks : List (List Token)} {tokens chunk : List Token}
    (h : Chunked chunks tokens) (hc : chunk ∈ chunks) (stop : Nat) :
    readAll stop chunk = [(read stop [] chunk).map Prod.fst] := by
  induction h with
  | nil => cases hc
  | cons hi hr ih =>
    rcases List.mem_cons.mp hc with rfl | hc
    · exact (hi.readAll_append stop stop).1
    · exact ih hc

theorem Chunked.unique {chunks chunks' : List (List Token)} {tokens : List Token}
    (h : Chunked chunks tokens) (h' : Chunked chunks' tokens) : chunks = chunks' := by
  induction h generalizing chunks' with
  | nil =>
    generalize ht : ([] : List Token) = tokens at h'
    cases h' with
    | nil => rfl
    | cons hc hr => exact (hc.nonempty (List.append_eq_nil_iff.mp ht.symm).1).elim
  | @cons chunk rest chunks hc hr ih =>
    generalize ht : chunk ++ rest = tokens at h'
    cases h' with
    | nil => exact (hc.nonempty (List.append_eq_nil_iff.mp ht).1).elim
    | cons hc' hr' =>
      obtain ⟨he, hrest⟩ := hc.eq_of_append_eq hc' ht
      rw [he, ih (hrest ▸ hr')]

theorem exists_chunked (tokens : List Token) : ∃ chunks, Chunked chunks tokens := by
  induction h : tokens.length using Nat.strongRecOn generalizing tokens with
  | ind n ih =>
    cases tokens with
    | nil => exact ⟨[], .nil⟩
    | cons token tokens =>
      have hl := length_skip_cons_lt 0 token tokens
      obtain ⟨chunks, hc⟩ := ih _ (h ▸ hl) _ rfl
      have hf := Chunked.cons (isChunk_front token tokens) hc
      rw [front_append_skip] at hf
      exact ⟨_, hf⟩

theorem Chunked.flatten_eq {chunks : List (List Token)} {tokens : List Token}
    (h : Chunked chunks tokens) : chunks.flatten = tokens := by
  induction h with
  | nil => rfl
  | cons hc hr ih => rw [List.flatten_cons, ih]

theorem Chunked.ne_nil {chunk tokens : List Token} {chunks : List (List Token)}
    (h : Chunked chunks tokens) (hc : chunk ∈ chunks) : tokens ≠ [] := by
  cases h with
  | nil => cases hc
  | cons hi hr => exact fun hn => hi.nonempty (List.append_eq_nil_iff.mp hn).1

theorem Chunked.erase {before after : List (List Token)} {chunk tokens : List Token}
    (h : Chunked (before ++ chunk :: after) tokens) :
    Chunked (before ++ after) (before ++ after).flatten := by
  induction before generalizing tokens with
  | nil =>
    cases h with
    | cons hc hr =>
      have hf := hr.flatten_eq
      rw [List.nil_append, hf]
      exact hr
  | cons first before ih =>
    cases h with
    | cons hc hr =>
      have hn := hr.ne_nil (List.mem_append_right before List.mem_cons_self)
      have hb := hc.closed.resolve_right hn
      exact .cons ⟨hc.nonempty, hc.open_before, .inl hb⟩ (ih hr)

theorem collect_eq (outcomes : List (Except ReadError Expr)) :
    collect outcomes =
      if failures outcomes = [] then .ok (successes outcomes) else .error (failures outcomes) := rfl

theorem ne_nil_of_readProgram {source : String} {errors : List ReadError}
    (h : readProgram source = .error errors) : errors ≠ [] := by
  rw [readProgram] at h
  split at h
  · cases h
    exact List.cons_ne_nil _ _
  · rw [collect_eq] at h
    split at h
    · cases h
    · rename_i hf
      cases h
      exact hf

theorem failures_flatMap (chunks : List (List Token)) (stop : Nat) :
    failures (chunks.flatMap (readAll stop)) =
      chunks.flatMap fun chunk => failures (readAll stop chunk) :=
  List.filterMap_flatMap

theorem successes_flatMap (chunks : List (List Token)) (stop : Nat) :
    successes (chunks.flatMap (readAll stop)) =
      chunks.flatMap fun chunk => successes (readAll stop chunk) :=
  List.filterMap_flatMap

/-- Reading a text gives one outcome for each chunk of its tokens, in order, and each is the
outcome of that chunk alone, wherever its text ends. Taking a chunk out takes its outcome out and
changes no other, and a form that is read ends where it would have been skipped to. -/
theorem readProgram_chunk_by_chunk {source : String} {tokens : List Token}
    (h : tokenize source = .ok tokens) :
    ∃ chunks, Chunked chunks tokens ∧ (∀ other, Chunked other tokens → other = chunks) ∧
      (∀ stop,
        (∀ chunk ∈ chunks, readAll stop chunk = [(read stop [] chunk).map Prod.fst]) ∧
        readAll source.utf8ByteSize tokens = chunks.flatMap (readAll stop) ∧
        readProgram source =
          let errors := chunks.flatMap fun chunk => failures (readAll stop chunk)
          if errors = [] then .ok (chunks.flatMap fun chunk => successes (readAll stop chunk))
          else .error errors) ∧
      (∀ before chunk after, chunks = before ++ chunk :: after → ∀ stop,
        readAll stop (before ++ after).flatten = (before ++ after).flatMap (readAll stop)) ∧
      ∀ eof ahead form rest, read eof [] ahead = .ok (form, rest) → rest = skip 0 ahead := by
  obtain ⟨chunks, hc⟩ := exists_chunked tokens
  refine ⟨chunks, hc, fun other ho => ho.unique hc, ?_, ?_, fun _ _ _ _ => eq_skip_of_read⟩
  · intro stop
    have hr := hc.readAll_eq source.utf8ByteSize stop
    refine ⟨fun chunk hm => hc.readAll_chunk hm stop, hr, ?_⟩
    rw [readProgram, h]
    simp only [hr, collect_eq, failures_flatMap, successes_flatMap]
  · intro before chunk after he stop
    rw [he] at hc
    exact hc.erase.readAll_eq stop stop

theorem readProgram_chunk_by_chunk_unclosed :
    ∃ tokens, tokenize "() ((" = .ok tokens ∧
      ∃ chunks, Chunked chunks tokens ∧
        readProgram "() ((" =
          let errors := chunks.flatMap fun chunk => failures (readAll 0 chunk)
          if errors = [] then .ok (chunks.flatMap fun chunk => successes (readAll 0 chunk))
          else .error errors := by
  have ht : tokenize "() ((" =
      .ok [⟨.opening, ⟨0, 1⟩⟩, ⟨.closing, ⟨1, 2⟩⟩, ⟨.opening, ⟨3, 4⟩⟩, ⟨.opening, ⟨4, 5⟩⟩] := by
    have hl : "() ((".toList = ['(', ')', ' ', '(', '('] := rfl
    rw [tokenize, hl]
    simp only [Token.scan]
    rfl
  obtain ⟨chunks, hc, -, hr, -⟩ := readProgram_chunk_by_chunk ht
  exact ⟨_, ht, chunks, hc, (hr 0).2.2⟩

end Form

end LispCalc
