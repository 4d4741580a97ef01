import Mathlib.Data.List.Chain
import QueryDoc.Proofs.Genuine
import QueryDoc.Proofs.Syntax.Piece

/-! No token begins before the one in front of it has ended. Only a token without text shares its
offset with the one behind it. -/
namespace QueryDoc

/-- The second token begins behind the first, or it opens the selection set of a token that has no
text. -/
structure Token.Precedes (t u : Token) : Prop where
  head_le : t.head ≤ u.tail
  tail_lt : t.tail < u.tail ∨
    t.tail = u.tail ∧ t.tail = t.head ∧ (t.kind = .query ∨ t.kind = .inlineFragment) ∧
      u.kind = .setOpen

theorem Reads.tail_lt {ts : List Terminal} {c d : Cursor} {us : List Token} (h : Reads ts c us d)
    (ht : ∀ t ∈ ts, t.shape ≠ .empty) : ∀ u ∈ us, u.tail < d.pos := by
  induction h with
  | nil => nofun
  | @cons t ts pos level g w r us d _ text _ rest ih =>
    intro u hu
    rcases List.mem_append.1 hu with hu | hu
    · obtain ⟨v, -, hpos⟩ := rest.rest_eq
      have span := Shape.span_lt (ht t List.mem_cons_self) text
      obtain ⟨tail, -⟩ := Terminal.mem_tokens hu
      simp only at hpos
      omega
    · exact ih (fun t' mem => ht t' (List.mem_cons_of_mem t mem)) u hu

theorem Reads.gap_le_tail {ts : List Terminal} {c d : Cursor} {us : List Token}
    (h : Reads ts c us d) : ∀ u ∈ us, c.pos + Gap.length c.rest ≤ u.tail := by
  cases h with
  | nil => nofun
  | @cons t ts pos level g w r us _ gap text follow rest =>
    obtain ⟨b, v, hv, hb⟩ := Shape.exists_cons text follow
    have length : Gap.length (g ++ (w ++ r)) = g.length := by
      rw [hv, Gap.length_append_stops gap hb]
    intro u hu
    simp only [length]
    rcases List.mem_append.1 hu with hu | hu
    · obtain ⟨tail, -⟩ := Terminal.mem_tokens hu
      omega
    · have lo : pos + g.length + w.length ≤ u.tail := (rest.bounds u hu).1
      omega

namespace Edge

variable {level : Nat} {s s' : State} {label : List Terminal} {x : Lead}

theorem kind_of_mark {k : Kind} (h : Edge level s [.mark k] x s') :
    k = .query ∨ k = .inlineFragment := by
  cases h with
  | shorthand => exact .inl rfl
  | untypedInline => exact .inr rfl
  | operation keyword => simp [Terminal.operations, Terminal.mark, Terminal.keyword] at keyword
  | scalar member => simp [Terminal.scalars, Terminal.mark] at member

theorem of_selectionSet {site : Site} (h : Edge level (.selectionSet site) label x s') :
    label = [.punct .openBrace .setOpen] ∨ label = [.sigil .atSign .directiveName] := by
  cases h with
  | openSet => exact .inl rfl
  | directive => exact .inr rfl
  | closeSet may => cases may
  | fieldAlias may => cases may
  | field may => cases may
  | spread may => cases may
  | variableEnd may => cases may

end Edge

namespace Config

variable {c d e : Config} {us : List Token} {t u : Token}

theorem Path.gap_le_tail (h : c.Path us d) : ∀ u ∈ us, c.pos + Gap.length c.rest ≤ u.tail := by
  induction h with
  | refl => nofun
  | @step c m d us vs first rest ih =>
    obtain ⟨label, -, reads⟩ := first.edge
    intro u hu
    rcases List.mem_append.1 hu with hu | hu
    · exact reads.gap_le_tail u hu
    · exact Nat.le_trans first.gap_le (ih u hu)

/-- The scan goes on behind the offset of a token, unless a token without text asks for the
selection set behind it. -/
theorem Goes.tail_lt (h : c.Goes [t] d) :
    t.tail < d.pos ∨
      t.tail = d.pos ∧ t.tail = t.head ∧ (t.kind = .query ∨ t.kind = .inlineFragment) ∧
        ∃ site, d.state = .selectionSet site := by
  obtain ⟨label, edge, reads⟩ := h.edge
  by_cases plain : ∀ t ∈ label, t.shape ≠ .empty
  · exact .inl (reads.tail_lt plain t List.mem_cons_self)
  · obtain ⟨mark, member, empty⟩ : ∃ t ∈ label, t.shape = .empty := by simpa using plain
    obtain ⟨k, site, rfl, state⟩ := edge.eq_selectionSet member empty
    obtain ⟨n, vs, fit, tokens, rest⟩ := reads_cursor_iff.1 reads
    obtain ⟨rfl, -⟩ := Grammar.fits_mark fit
    obtain ⟨pos, bytes, level, next⟩ := d
    cases rest
    cases tokens
    exact .inr ⟨rfl, rfl, edge.kind_of_mark, site, state⟩

/-- In front of a selection set the next token opens it or stands behind the sigil of a
directive. -/
theorem Goes.first_of_selectionSet {site : Site} (h : c.Goes us d)
    (hs : c.state = .selectionSet site) :
    ∃ u, us = [u] ∧ (u.kind = .setOpen ∨ c.pos < u.tail) := by
  obtain ⟨label, edge, reads⟩ := h.edge
  rw [hs] at edge
  obtain ⟨pos, bytes, level, next⟩ := d
  rcases edge.of_selectionSet with rfl | rfl
  · obtain ⟨n, vs, -, rfl, rest⟩ := reads_cursor_iff.1 reads
    cases rest
    exact ⟨_, rfl, .inl rfl⟩
  · obtain ⟨n, vs, -, rfl, rest⟩ := reads_cursor_iff.1 reads
    cases rest
    refine ⟨_, rfl, .inr ?_⟩
    simp only [Shape.span]
    omega

theorem Goes.precedes (h : c.Goes [t] d) (path : d.Path (u :: us) e) : t.Precedes u := by
  have ahead : d.pos ≤ u.tail := by
    have := path.gap_le_tail u List.mem_cons_self
    omega
  refine ⟨Nat.le_trans h.head_le ahead, ?_⟩
  rcases h.tail_lt with lt | ⟨tail, empty, kind, site, state⟩
  · exact .inl (Nat.lt_of_lt_of_le lt ahead)
  · generalize hv : u :: us = vs at path
    cases path with
    | refl => cases hv
    | step first rest =>
      obtain ⟨v, rfl, opens⟩ := first.first_of_selectionSet state
      obtain ⟨rfl, -⟩ := List.cons.inj hv
      rcases opens with opens | lt
      · rcases Nat.lt_or_eq_of_le ahead with lt | eq
        · exact .inl (tail ▸ lt)
        · exact .inr ⟨tail.trans eq, empty, kind, opens⟩
      · exact .inl (tail ▸ lt)

/-- Along a path every token precedes the next one. -/
theorem Path.isChain (h : c.Path us d) : us.IsChain Token.Precedes := by
  induction h with
  | refl => exact .nil
  | @step c m d us vs first rest ih =>
    cases first with
    | silent => exact ih
    | @token t _ step =>
      cases vs with
      | nil => exact .singleton t
      | cons u vs => exact .cons_cons ((Goes.token step).precedes rest) ih

end Config

/-- The tokens of every scan, complete or not, lie within the document and follow each other in
source order. -/
theorem Scanner.scan_in_order (s : Scanner) (doc : List UInt8) :
    (∀ t ∈ (s.scan doc).state.toList, t.tail ≤ t.head ∧ t.head ≤ doc.length) ∧
      (s.scan doc).state.toList.IsChain Token.Precedes := by
  obtain ⟨d, path, -⟩ := (s.scan_iff_trace doc _ _).1 ⟨rfl, rfl⟩
  refine ⟨fun t ht => ?_, path.isChain⟩
  exact Token.inside_of_fits (path.genuine (Config.severed_start doc) t ht).1

end QueryDoc
