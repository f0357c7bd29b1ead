import LispCalc.Proofs.Source.Concatenation

namespace LispCalc

/-- A place between two characters of a text that starts at byte `offset`, or at one of its ends. -/
def IsBoundary (offset : Nat) (text : List Char) (place : Nat) : Prop :=
  ∃ before after, text = before ++ after ∧ place = offset + byteLength before

section

variable {offset : Nat} {text : List Char}

theorem isBoundary_append (offset : Nat) (before after : List Char) :
    IsBoundary offset (before ++ after) (offset + byteLength before) :=
  ⟨before, after, rfl, rfl⟩

theorem IsBoundary.behind {place : Nat} {front : List Char}
    (h : IsBoundary (offset + byteLength front) text place) :
    IsBoundary offset (front ++ text) place := by
  obtain ⟨before, after, rfl, rfl⟩ := h
  refine ⟨front ++ before, after, (List.append_assoc _ _ _).symm, ?_⟩
  rw [byteLength_append, Nat.add_assoc]

theorem IsBoundary.le {place : Nat} (h : IsBoundary offset text place) :
    place ≤ offset + byteLength text := by
  obtain ⟨before, after, rfl, rfl⟩ := h
  rw [byteLength_append]
  exact Nat.add_le_add_left (Nat.le_add_right _ _) offset

theorem IsBoundary.offset_le {place : Nat} (h : IsBoundary offset text place) : offset ≤ place := by
  obtain ⟨before, after, -, rfl⟩ := h
  exact Nat.le_add_right _ _

theorem IsBoundary.isValid {source : String} {place : Nat}
    (h : IsBoundary 0 source.toList place) : String.Pos.Raw.IsValid source ⟨place⟩ := by
  obtain ⟨before, after, ht, rfl⟩ := h
  rw [String.Pos.Raw.isValid_iff_exists_append]
  refine ⟨String.ofList before, String.ofList after, ?_, ?_⟩
  · rw [← String.ofList_append, ← ht, String.ofList_toList]
  · rw [String.rawEndPos, ← byteLength_toList, String.toList_ofList, Nat.zero_add]

end

theorem byteLength_pos {piece : List Char} (h : piece ≠ []) : 0 < byteLength piece := by
  obtain ⟨c, cs, rfl⟩ := List.exists_cons_of_ne_nil h
  rw [byteLength_cons]
  exact Nat.add_pos_left c.utf8Size_pos _

/-- The place of a piece of the text that is not empty. -/
structure Span.Marks (offset : Nat) (text : List Char) (span : Span) : Prop where
  start : IsBoundary offset text span.start
  stop : IsBoundary offset text span.stop
  start_lt_stop : span.start < span.stop

namespace Span.Marks

variable {offset : Nat} {text : List Char} {span : Span}

theorem behind {front : List Char} (h : span.Marks (offset + byteLength front) text) :
    span.Marks offset (front ++ text) :=
  ⟨h.start.behind, h.stop.behind, h.start_lt_stop⟩

theorem upTo {span' : Span} (h : span.Marks offset text) (h' : span'.Marks offset text)
    (hs : span.stop ≤ span'.start) : (span.upTo span').Marks offset text := by
  have hl := h.start_lt_stop
  have hl' := h'.start_lt_stop
  have hlt : span.start < span'.stop := by omega
  exact ⟨h.start, h'.stop, hlt⟩

end Span.Marks

/-- The words of a text, each at a place of its own. -/
structure Placed (offset : Nat) (text : List Char) (tokens : List Token) : Prop where
  marks : ∀ token ∈ tokens, token.span.Marks offset text
  apart : tokens.Pairwise fun token token' => token.span.stop ≤ token'.span.start

theorem Placed.of_append_right {offset : Nat} {text : List Char} {tokens tokens' : List Token}
    (h : Placed offset text (tokens ++ tokens')) : Placed offset text tokens' :=
  ⟨fun token hm => h.marks token (List.mem_append_right _ hm),
    h.apart.sublist (List.sublist_append_right _ _)⟩

theorem Layout.placed (layout : Layout) (offset : Nat) :
    Placed offset layout.text (layout.tokens offset) := by
  induction layout generalizing offset with
  | finish gap =>
    constructor
    · intro token hm
      cases hm
    · exact .nil
  | word gap w rest ih =>
    obtain ⟨hm, hp⟩ := ih (offset + byteLength gap + byteLength w.text)
    have hw : (Span.mk (offset + byteLength gap)
        (offset + byteLength gap + byteLength w.text)).Marks offset
          (gap ++ (w.text ++ rest.text)) := by
      refine ⟨isBoundary_append offset gap _, ?_,
        Nat.lt_add_of_pos_right (byteLength_pos w.text_ne_nil)⟩
      exact (isBoundary_append (offset + byteLength gap) w.text rest.text).behind
    constructor
    · refine List.forall_mem_cons.mpr ⟨hw, fun token ht => ?_⟩
      exact (hm token ht).behind.behind
    · refine List.pairwise_cons.mpr ⟨fun token ht => ?_, hp⟩
      exact (hm token ht).start.offset_le

theorem placed_of_tokenize {source : String} {tokens : List Token}
    (h : tokenize source = .ok tokens) : Placed 0 source.toList tokens := by
  obtain ⟨layout, -, ht, rfl⟩ := exists_layout h
  rw [← ht]
  exact layout.placed 0

/-- The span of one of the tokens, or from one of them to a later one. -/
def Covers (tokens : List Token) (span : Span) : Prop :=
  (∃ token ∈ tokens, span = token.span) ∨
    ∃ first last, [first, last].Sublist tokens ∧ span = first.span.upTo last.span

namespace Covers

variable {tokens tokens' : List Token} {span : Span}

theorem of_mem {t : Token} (h : t ∈ tokens) : Covers tokens t.span :=
  .inl ⟨t, h, rfl⟩

theorem sublist (h : Covers tokens span) (hs : tokens.Sublist tokens') : Covers tokens' span := by
  rcases h with ⟨token, hm, he⟩ | ⟨first, last, hl, he⟩
  · exact .inl ⟨token, hs.subset hm, he⟩
  · exact .inr ⟨first, last, hl.trans hs, he⟩

theorem ends (h : Covers tokens span) :
    ∃ first ∈ tokens, ∃ last ∈ tokens,
      span.start = first.span.start ∧ span.stop = last.span.stop := by
  rcases h with ⟨token, hm, rfl⟩ | ⟨first, last, hl, rfl⟩
  · exact ⟨token, hm, token, hm, rfl, rfl⟩
  · exact ⟨first, hl.subset List.mem_cons_self, last, hl.subset (List.mem_cons_of_mem _
      List.mem_cons_self), rfl, rfl⟩

theorem marks (h : Covers tokens span) {offset : Nat} {text : List Char}
    (hp : Placed offset text tokens) : span.Marks offset text := by
  rcases h with ⟨token, hm, rfl⟩ | ⟨first, last, hl, rfl⟩
  · exact hp.marks token hm
  · have ha := List.rel_of_pairwise_cons (hp.apart.sublist hl) List.mem_cons_self
    have hf := hp.marks first (hl.subset List.mem_cons_self)
    have hl := hp.marks last (hl.subset (List.mem_cons_of_mem _ List.mem_cons_self))
    exact hf.upTo hl ha

theorem apart (h : Covers tokens span) {span' : Span} (h' : Covers tokens' span')
    {offset : Nat} {text : List Char} (hp : Placed offset text (tokens ++ tokens')) :
    span.stop ≤ span'.start := by
  obtain ⟨-, -, last, hl, -, he⟩ := h.ends
  obtain ⟨first, hf, -, -, he', -⟩ := h'.ends
  rw [he, he']
  exact (List.pairwise_append.mp hp.apart).2.2 last hl first hf

end Covers

end LispCalc
