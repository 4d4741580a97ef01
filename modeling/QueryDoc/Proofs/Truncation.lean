import QueryDoc.Proofs.Composition
import QueryDoc.Proofs.Locality
import QueryDoc.Proofs.Nesting
import QueryDoc.Proofs.Order
import QueryDoc.Proofs.Syntax.Failure

/-! The beginning of an accepted document is accepted exactly if the cut lies between two
definitions; everywhere else the scan fails at the cut. -/
namespace QueryDoc

theorem Gap.closing_iff_of_prefix {u bs : List UInt8} (h : u <+: bs) :
    Closing u ↔ u.length ≤ length bs := by
  obtain ⟨r, rfl⟩ := h
  rw [← length_eq_iff]
  have bound := length_le u
  constructor
  · intro closing
    refine Nat.le_of_not_lt fun lt => ?_
    have agree : Agree (length (u ++ r) + 1) (u ++ r) u := by
      refine ⟨by rw [List.length_append]; omega, ?_⟩
      rw [List.take_append_of_le_length (by omega)]
    rw [Agree.gap_eq (n := 0) agree] at closing
    omega
  · intro le
    refine Nat.le_antisymm bound (Nat.le_of_not_lt fun lt => ?_)
    have agree : Agree (length u + 1) u (u ++ r) := by
      refine ⟨by omega, ?_⟩
      rw [List.take_append_of_le_length (by omega)]
    rw [Agree.gap_eq (n := 0) agree] at le
    omega

namespace Edge

variable {level : Nat} {s s' : State} {label : List Terminal} {x : Lead}

theorem span_of_definition {seen : Bool} (h : Edge level (.definition seen) label x s') :
    ∃ t k, label = [t] ∧ t.kind = some k ∧ ∀ n, (t.shape.span n).1 = 0 := by
  cases h with
  | shorthand => exact ⟨_, _, rfl, rfl, fun _ => rfl⟩
  | fragment => exact ⟨_, _, rfl, rfl, fun _ => rfl⟩
  | operation keyword =>
    simp only [Terminal.operations, List.mem_cons, List.not_mem_nil, or_false] at keyword
    rcases keyword with rfl | rfl | rfl <;> exact ⟨_, _, rfl, rfl, fun _ => rfl⟩
  | openSet may => cases may
  | closeSet may => cases may
  | fieldAlias may => cases may
  | field may => cases may
  | spread may => cases may
  | directive site => cases site
  | variableEnd may => cases may

theorem of_setClose (h : Edge level s label x s') (hk : Terminal.kinds label = [.setClose]) :
    label = [.punct .closeBrace .setClose] ∧ s' = .afterSet level := by
  cases h with
  | closeSet => exact ⟨rfl, rfl⟩
  | operation keyword =>
    simp only [Terminal.operations, List.mem_cons, List.not_mem_nil, or_false] at keyword
    rcases keyword with rfl | rfl | rfl <;> cases hk
  | scalar member =>
    simp only [Terminal.scalars, List.mem_cons, List.not_mem_nil, or_false] at member
    rcases member with rfl | rfl | rfl | rfl | rfl | rfl | rfl | rfl | rfl <;> cases hk
  | _ => cases hk

end Edge

namespace Config

variable {c d : Config} {us ts : List Token} {t : Token} {e : Ending}

theorem Path.rest_eq (h : c.Path us d) :
    ∃ u, c.rest = u ++ d.rest ∧ d.pos = c.pos + u.length := by
  induction h with
  | refl => exact ⟨[], rfl, rfl⟩
  | step first _ ih =>
    obtain ⟨u, hu, hp⟩ := first.rest_eq
    obtain ⟨v, hv, hq⟩ := ih
    refine ⟨u ++ v, by rw [hu, hv, List.append_assoc], ?_⟩
    rw [List.length_append]
    omega

theorem Path.trace_behind (h : c.Path us d) (g : c.Trace ts e) :
    ∃ vs, ts = us ++ vs ∧ d.Trace vs e := by
  obtain ⟨vs, f, f', path, ends⟩ := exists_trace d
  obtain ⟨rfl, rfl⟩ := g.unique ⟨f', h.trans path, ends⟩
  exact ⟨vs, rfl, f', path, ends⟩

theorem Goes.pos_of_definition (h : c.Goes us d) (hd : d.state = .definition true) :
    d.pos = c.pos + Gap.length c.rest + 1 := by
  obtain ⟨label, edge, reads⟩ := h.edge
  rw [hd] at edge
  obtain ⟨-, rfl, -⟩ := edge.to_definition
  obtain ⟨n, vs, fit, -, stop⟩ := reads_cursor_iff.1 reads
  obtain ⟨rfl, -⟩ := Shape.fits_punct_iff.1 fit
  obtain ⟨pos, rest, level, state⟩ := d
  cases stop
  rfl

theorem Path.gap_lt (h : c.Path us d) (hd : d.state = .definition true) :
    c = d ∨ c.pos + Gap.length c.rest < d.pos := by
  induction h with
  | refl c => exact .inl rfl
  | step first _ ih =>
    right
    rcases ih hd with rfl | lt
    · rw [first.pos_of_definition hd]
      omega
    · exact Nat.lt_of_le_of_lt first.gap_le lt

theorem Goes.replace_of_definition (h : c.Goes us d) (hd : d.state = .definition true)
    {u : List UInt8} (hu : c.rest = u ++ d.rest) (r : List UInt8) :
    ({ c with rest := u ++ r } : Config).Goes us { d with rest := r } := by
  obtain ⟨label, edge, reads⟩ := h.edge
  have brace : label = [.punct .closeBrace .setClose] := by
    rw [hd] at edge
    exact edge.to_definition.2.1
  have anything : Edge c.level c.state label (Gap.ahead r) d.state := by
    rw [hd] at edge ⊢
    exact edge.of_definition _
  refine goes_of_edge anything (reads.replace (fun t ht w _ _ => ?_) hu)
  rw [brace] at ht
  rw [List.mem_singleton.1 ht]
  trivial

theorem Path.replace (h : c.Path us d) (hd : d.state = .definition true) {u : List UInt8}
    (hu : c.rest = u ++ d.rest) (r : List UInt8) :
    ({ c with rest := u ++ r } : Config).Path us { d with rest := r } := by
  induction h generalizing u with
  | refl c =>
    obtain rfl : u = [] := List.self_eq_append_left.1 hu
    exact .refl _
  | @step c m d us vs first rest ih =>
    obtain ⟨w, hw, -⟩ := first.rest_eq
    obtain ⟨v, hv, pos⟩ := rest.rest_eq
    obtain rfl : u = w ++ v := by
      rw [hw, hv, ← List.append_assoc] at hu
      exact (List.append_cancel_right hu).symm
    rw [List.append_assoc]
    refine .step ?_ (ih hd hv)
    rcases rest.gap_lt hd with rfl | lt
    · exact first.replace_of_definition hd hw (v ++ r)
    · refine first.replace hw ⟨?_, ?_⟩
      · rw [hv, List.length_append]
        rw [hv] at lt
        omega
      · have inside : Gap.length m.rest + 1 ≤ v.length := by omega
        rw [hv] at inside ⊢
        rw [List.take_append_of_le_length inside, List.take_append_of_le_length inside]

theorem Goes.completes (h : c.Goes [t] d) (kind : t.kind = .setClose) (level : t.level = 0) :
    d.state = .definition true ∧ d.pos = t.tail + 1 := by
  obtain ⟨label, edge, reads⟩ := h.edge
  have kinds : Terminal.kinds label = [.setClose] := by
    rw [← reads.kinds_eq, List.map_singleton, kind]
  obtain ⟨rfl, after⟩ := edge.of_setClose kinds
  obtain ⟨n, vs, fit, tokens, stop⟩ := reads_cursor_iff.1 reads
  obtain ⟨rfl, -⟩ := Shape.fits_punct_iff.1 fit
  obtain ⟨pos, rest, depth, state⟩ := d
  cases stop
  cases tokens
  exact ⟨after.trans (if_pos level), rfl⟩

theorem Goes.first_of_definition {seen : Bool} (h : c.Goes us d)
    (hs : c.state = .definition seen) : ∃ u, us = [u] ∧ u.tail = c.pos + Gap.length c.rest := by
  obtain ⟨label, edge, reads⟩ := h.edge
  rw [hs] at edge
  obtain ⟨t, k, rfl, kind, span⟩ := edge.span_of_definition
  obtain ⟨n, vs, -, rfl, stop⟩ := reads_cursor_iff.1 reads
  obtain ⟨pos, rest, level, state⟩ := d
  cases stop
  rw [Terminal.tokens, kind]
  exact ⟨_, rfl, by simp only [span, Nat.add_zero]⟩

/-- A trace that completes a definition and goes on with a gap up to the cut is complete if the
document is cut there. -/
theorem Path.trace_take {doc : List UInt8} {n : Nat} (h : (start doc).Path us d)
    (hd : d.state = .definition true) (lo : d.pos ≤ n)
    (hi : n ≤ d.pos + Gap.length d.rest) : (start (doc.take n)).Trace us .complete := by
  obtain ⟨u, hu, pos⟩ := h.rest_eq
  have hu : doc = u ++ d.rest := hu
  have pos : d.pos = u.length := by
    rw [pos]
    exact Nat.zero_add _
  have cut : doc.take n = u ++ d.rest.take (n - d.pos) := by
    rw [hu, List.take_append, List.take_of_length_le (by omega), pos]
  rw [cut]
  refine ⟨_, h.replace hd hu (d.rest.take (n - d.pos)), ends_complete_iff.2 ⟨hd, ?_⟩⟩
  rw [Gap.closing_iff_of_prefix (List.take_prefix _ _), List.length_take]
  omega

end Config

/-- The token ends a definition in front of offset `n`. -/
def Token.Completes (n : Nat) (t : Token) : Prop := t.kind = .setClose ∧ t.level = 0 ∧ t.tail < n

/-- A definition ends in front of offset `n`, and behind the last that does nothing begins in front
of it. -/
def Token.Between (ts : List Token) (n : Nat) : Prop :=
  ∃ before t after, ts = before ++ t :: after ∧ t.Completes n ∧ (∀ u ∈ after, ¬u.Completes n) ∧
    ∀ u, after.head? = some u → n ≤ u.tail

namespace Config

variable {doc : List UInt8} {n : Nat} {ts us : List Token}

theorem Trace.take_of_between (h : (start doc).Trace ts .complete) (hn : n ≤ doc.length)
    (between : Token.Between ts n) : ∃ us, (start (doc.take n)).Trace us .complete := by
  obtain ⟨before, t, after, rfl, ⟨kind, level, lt⟩, -, next⟩ := between
  obtain ⟨c, d, path, goes, rest⟩ := h.split
  obtain ⟨state, pos⟩ := goes.completes kind level
  have path : (start doc).Path (before ++ [t]) d := path.trans (.step goes (.refl d))
  refine ⟨_, path.trace_take state (by omega) ?_⟩
  have extent : 0 + doc.length = d.pos + d.rest.length := path.extent_eq
  rcases rest.cases_head with ⟨ends, -⟩ | ⟨us, vs, m, goes', -, rfl⟩
  · rw [Gap.length_of_closing (ends_complete_iff.1 ends).2]
    omega
  · obtain ⟨u, rfl, tail⟩ := goes'.first_of_definition state
    rw [← tail]
    exact next u rfl

/-- A document that is cut short is cut between two definitions. -/
theorem Trace.between_of_take (h : (start doc).Trace ts .complete) (hn : n ≤ doc.length)
    (cut : (start (doc.take n)).Trace us .complete) : Token.Between ts n := by
  have ⟨d, path, ends⟩ := cut
  obtain ⟨state, closing⟩ := ends_complete_iff.1 ends
  obtain ⟨u, hu, pos⟩ := path.rest_eq
  have hu : doc.take n = u ++ d.rest := hu
  have length : d.pos + d.rest.length = n := by
    have extent : 0 + (doc.take n).length = d.pos + d.rest.length := path.extent_eq
    rw [List.length_take] at extent
    omega
  have whole : (start doc).Path us { d with rest := d.rest ++ doc.drop n } := by
    have := path.replace state hu (d.rest ++ doc.drop n)
    rwa [← List.append_assoc, ← hu, List.take_append_drop] at this
  obtain ⟨after, rfl, rest⟩ := whole.trace_behind h
  have behind : ∀ v ∈ after, n ≤ v.tail := by
    obtain ⟨f, path', -⟩ := rest
    intro v hv
    have gap := (Gap.closing_iff_of_prefix (List.prefix_append d.rest (doc.drop n))).1 closing
    have := path'.gap_le_tail v hv
    simp only at this
    omega
  obtain ⟨-, first⟩ | ⟨before, t, rfl, kind, level⟩ :=
    path.last_of_definition (placed_start _) state
  · cases first
  · obtain ⟨c, m, front, goes, -⟩ := cut.split
    have extent : 0 + (doc.take n).length = m.pos + m.rest.length :=
      (front.trans (.step goes (.refl m))).extent_eq
    have tail := (goes.completes kind level).2
    rw [List.length_take] at extent
    refine ⟨before, t, after, by simp, ⟨kind, level, by omega⟩, ?_, ?_⟩
    · intro v hv completes
      exact Nat.not_lt.2 (behind v hv) completes.2.2
    · intro v hv
      exact behind v (List.mem_of_mem_head? hv)

end Config

theorem Expect.eq_of_isKeyword {x : Option Expect} (h : x.any Expect.isKeyword = true) :
    x = some .definition ∨ x = some .fragmentName ∨ x = some .keywordOn := by
  cases x with
  | none => cases h
  | some y =>
    cases y with
    | definition => exact .inl rfl
    | fragmentName => exact .inr (.inl rfl)
    | keywordOn => exact .inr (.inr rfl)
    | _ => cases h

/-- The errors of a document that is cut short at offset `n`: at the cut the input ends or a number
breaks off, and in front of it stands a word that is no keyword or no name. -/
def Error.OfCut (n : Nat) (e : Error) : Prop :=
  e.index ≤ n ∧
    (e.index = n ∧ (e.code = .unexpectedEnd ∨ e.code = .invalidNumber) ∨
      e.index < n ∧ e.code = .unexpectedToken ∧
        (e.expected = some .definition ∨ e.expected = some .fragmentName ∨
          e.expected = some .keywordOn))

/-- An accepted document that is cut short fails at the cut, or at a word that the cut has turned
into another one. -/
theorem Scanner.ofCut_of_take (s : Scanner) {doc : List UInt8} (ok : (s.scan doc).outcome = .ok)
    {n : Nat} (hn : n ≤ doc.length) {e : Error}
    (h : (s.scan (doc.take n)).ending = .stopped e) : e.OfCut n := by
  obtain ⟨f, path, ends⟩ := (s.scan_iff_trace (doc.take n) _ _).1 ⟨rfl, h⟩
  obtain ⟨offset, failure, le, err⟩ := ends.failure
  have gap := Gap.length_le f.rest
  have extent : n = f.pos + f.rest.length := by
    have extent : 0 + (doc.take n).length = f.pos + f.rest.length := path.extent_eq
    rw [List.length_take] at extent
    omega
  have front : f.front.length = f.rest.length - Gap.length f.rest := by
    rw [Config.front, List.length_drop]
  have index : e.index = f.pos + (offset + Gap.length f.rest) := by rw [err]; rfl
  refine ⟨by omega, ?_⟩
  rcases Nat.lt_or_ge e.index n with inside | last
  · have keyword : e.expected.any Expect.isKeyword = true := by
      refine Bool.not_eq_false _ ▸ fun plain => ?_
      have agree : Agree (scope (doc.take n) e.index e.expected) (doc.take n) doc := by
        simp only [scope, plain, Bool.false_eq_true, if_false, Nat.add_zero]
        refine ⟨by rw [List.length_take]; omega, ?_⟩
        rw [List.take_take, Nat.min_eq_left inside]
      exact (s.failsLike_of_agree h agree).2.1 ok
    have expected := Expect.eq_of_isKeyword keyword
    refine .inr ⟨inside, ?_, expected⟩
    have inside : offset < f.front.length := by omega
    rcases expected with hx | hx | hx <;> rw [hx] at failure <;>
      exact failure.code_of_expected inside (by simp)
  · have last : offset = f.front.length := by omega
    rw [last] at failure
    exact .inl ⟨by omega, failure.code_of_end⟩

/-- The beginning of an accepted document is accepted exactly if the cut lies between definitions.
Otherwise the error lies at the cut, or at a word in front of it that the cut has shortened. -/
theorem Scanner.scan_take (s : Scanner) (doc : List UInt8) (ok : (s.scan doc).outcome = .ok)
    (n : Nat) (hn : n ≤ doc.length) :
    ((s.scan (doc.take n)).outcome = .ok ↔ Token.Between (s.scan doc).state.toList n) ∧
      (¬Token.Between (s.scan doc).state.toList n →
        ∃ e, (s.scan (doc.take n)).ending = .stopped e ∧ e.OfCut n) := by
  have whole := (s.scan_iff_trace doc _ _).1 ⟨rfl, (s.outcome_eq_ok_iff doc).1 ok⟩
  have cut := (s.scan_iff_trace (doc.take n) _ _).1 ⟨rfl, rfl⟩
  have accepted : (s.scan (doc.take n)).outcome = .ok ↔
      Token.Between (s.scan doc).state.toList n := by
    rw [outcome_eq_ok_iff]
    constructor
    · intro complete
      rw [complete] at cut
      exact whole.between_of_take hn cut
    · intro between
      obtain ⟨us, trace⟩ := whole.take_of_between hn between
      exact (cut.unique trace).2
  refine ⟨accepted, fun elsewhere => ?_⟩
  obtain ⟨f, -, ends⟩ := cut
  generalize he : (s.scan (doc.take n)).ending = ending at ends
  cases ends with
  | finished => exact absurd (accepted.1 ((s.outcome_eq_ok_iff _).2 he)) elsewhere
  | @failed e _ => exact ⟨e, rfl, s.ofCut_of_take ok hn he⟩

/-- The document `{a}query{b}` is cut behind its first definition and inside its keyword, where
`qu` is no keyword any more. -/
theorem Scanner.scan_take_query :
    let doc : List UInt8 := [0x7B, 0x61, 0x7D, 0x71, 0x75, 0x65, 0x72, 0x79, 0x7B, 0x62, 0x7D]
    (standard.scan doc).outcome = .ok ∧ Token.Between (standard.scan doc).state.toList 3 ∧
      ¬Token.Between (standard.scan doc).state.toList 5 ∧
      ∃ e, (standard.scan (doc.take 5)).ending = .stopped e ∧ e.OfCut 5 := by
  intro doc
  have ok : (standard.scan doc).outcome = .ok := by decide +kernel
  have first : (standard.scan (doc.take 3)).outcome = .ok := by decide +kernel
  have keyword : (standard.scan (doc.take 5)).outcome ≠ .ok := by decide +kernel
  have inside : ¬Token.Between (standard.scan doc).state.toList 5 := fun between =>
    keyword ((scan_take standard doc ok 5 (by decide)).1.2 between)
  exact ⟨ok, (scan_take standard doc ok 3 (by decide)).1.1 first, inside,
    (scan_take standard doc ok 5 (by decide)).2 inside⟩

end QueryDoc
