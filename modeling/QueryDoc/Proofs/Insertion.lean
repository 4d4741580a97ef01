import QueryDoc.Proofs.Acceptance
import QueryDoc.Proofs.Composition
import QueryDoc.Proofs.Syntax.Piece

/-! A gap may be put in behind every token that the scan of an accepted document delivers. A token
without text has to stand in front of what follows, so it moves with the gap. -/
namespace QueryDoc

/-- A token once `n` bytes have been put in at an offset. -/
def Token.moved (offset n : Nat) (t : Token) : Token :=
  if t.tail < offset then t else t.shift n

theorem Token.value_moved {doc w : List UInt8} {p : Nat} {t : Token} (hp : p ≤ doc.length)
    (ht : t.tail < p → t.head ≤ p) :
    (t.moved p w.length).value (doc.take p ++ w ++ doc.drop p) = t.value doc := by
  have length : (doc.take p).length = p := by rw [List.length_take, Nat.min_eq_left hp]
  by_cases h : t.tail < p
  · have hh := ht h
    have inside : t.tail ≤ (doc.take p).length := by omega
    have fits : t.head - t.tail ≤ ((doc.take p).drop t.tail).length := by
      rw [List.length_drop]
      omega
    rw [moved, if_pos h, value, List.append_assoc, List.drop_append_of_le_length inside,
      List.take_append_of_le_length fits, List.drop_take, List.take_take, value]
    congr 1
    omega
  · have hs : t.tail + w.length = (doc.take p ++ w).length + (t.tail - p) := by
      rw [List.length_append, length]
      omega
    have hd : p + (t.tail - p) = t.tail := by omega
    rw [moved, if_neg h, value, shift]
    simp only
    rw [hs, List.drop_length_add_append, List.drop_drop, hd, value]
    congr 1
    omega

namespace Reads

variable {ts ts' : List Terminal} {c m e : Cursor} {us us' : List Token} {w u : List UInt8}

theorem insert_front (h : Reads ts m us e) (hw : Gap.Text w) (closing : Gap.Closing e.rest) :
    ∃ e', Reads ts ⟨m.pos, m.level, w ++ m.rest⟩ (us.map (Token.moved m.pos w.length)) e' ∧
      Gap.Closing e'.rest := by
  cases ts with
  | nil =>
    cases h
    exact ⟨_, .nil _, .append hw closing⟩
  | cons t ts =>
    have moved : us.map (Token.moved m.pos w.length) = us.map (Token.shift w.length) :=
      List.map_congr_left fun u hu => if_neg (Nat.not_lt.2 (h.bounds u hu).1)
    rw [moved]
    exact ⟨_, (h.shift w.length).prepend hw, closing⟩

/-- A gap may be put in between any two terminals. -/
theorem insert (first : Reads ts c us m) (second : Reads ts' m us' e) (hw : Gap.Text w)
    (closing : Gap.Closing e.rest) (hu : c.rest = u ++ m.rest) :
    ∃ e', Reads (ts ++ ts') ⟨c.pos, c.level, u ++ (w ++ m.rest)⟩
        ((us ++ us').map (Token.moved m.pos w.length)) e' ∧ Gap.Closing e'.rest := by
  induction first generalizing u with
  | nil c =>
    obtain rfl : u = [] := List.self_eq_append_left.1 hu
    exact second.insert_front hw closing
  | @cons t ts pos level g x r us m gap text follow rest ih =>
    obtain ⟨v, hv, hpos⟩ := rest.rest_eq
    simp only at hv hu hpos
    obtain rfl : u = g ++ (x ++ v) := by
      rw [hv, ← List.append_assoc, ← List.append_assoc] at hu
      rw [← List.append_cancel_right hu, List.append_assoc]
    by_cases mark : t.shape = .empty ∧ v = []
    · obtain ⟨hs, rfl⟩ := mark
      obtain rfl : x = [] := by
        rw [hs] at text
        exact text
      have place : pos + g.length = m.pos := hpos.symm
      have here : Reads (t :: ts) ⟨m.pos, level, m.rest⟩ (t.tokens m.pos level 0 ++ us) m := by
        rw [place, show r = m.rest from hv] at rest
        rw [hv] at follow
        exact .cons (g := []) .nil text follow rest
      obtain ⟨e', reads, closing'⟩ := (here.append second).insert_front hw closing
      refine ⟨e', ?_, closing'⟩
      simp only at reads
      rw [← place] at reads
      have := reads.prepend gap
      rw [place] at this ⊢
      simpa using this
    · obtain ⟨e', reads, closing'⟩ := ih second hv
      have follow' : t.shape.Follow x (v ++ (w ++ m.rest)).head? := by
        cases v with
        | cons b v => simpa [hv] using follow
        | nil =>
          have hs : t.shape ≠ .empty := fun hs => mark ⟨hs, rfl⟩
          cases w with
          | nil => simpa [hv] using follow
          | cons b w =>
            refine Shape.follow_gap hs text ?_
            rintro _ ⟨⟩
            exact hw.not_stops
      have kept : (t.tokens (pos + g.length) level x.length).map (Token.moved m.pos w.length) =
          t.tokens (pos + g.length) level x.length := by
        refine (List.map_congr_left fun u hu => ?_).trans (List.map_id _)
        refine if_pos ?_
        obtain ⟨tail, -⟩ := Terminal.mem_tokens hu
        by_cases hs : t.shape = .empty
        · have inside := List.length_pos_iff.2 fun hv => mark ⟨hs, hv⟩
          have span := t.shape.span_le text
          omega
        · have span := t.shape.span_lt hs text
          omega
      refine ⟨e', ?_, closing'⟩
      have := Reads.cons gap text follow' reads
      rw [← kept] at this
      simpa using this

end Reads

/-- Where the scan of a document stands at its start and behind each token that it delivers. -/
inductive Boundary (doc : List UInt8) : Nat → Prop
  | start : Boundary doc 0
  | token {us : List Token} {t : Token} {c d : Config} (path : (Config.start doc).Path us c)
      (goes : c.Goes [t] d) : Boundary doc d.pos

theorem Boundary.split {doc : List UInt8} {p : Nat} {us : List Token} (h : Boundary doc p)
    (trace : (Config.start doc).Trace us .complete) :
    ∃ ts ts' m e vs vs', Derives ((State.definition false).form 0) (ts ++ ts') ∧
      Reads ts ⟨0, 0, doc⟩ vs m ∧ Reads ts' m vs' e ∧ Gap.Closing e.rest ∧ us = vs ++ vs' ∧
      m.pos = p := by
  have placed := Config.placed_start doc
  cases h with
  | start =>
    obtain ⟨ts, e, derives, reads, closing⟩ := trace.derivable placed
    exact ⟨[], ts, _, e, [], us, derives, .nil _, reads, closing, rfl, rfl⟩
  | @token vs t c d path goes =>
    have path := path.trans (.step goes (.refl d))
    obtain ⟨vs', f, rest⟩ := d.exists_trace
    obtain ⟨last, rest_path, ends⟩ := rest
    obtain ⟨rfl, rfl⟩ := trace.unique ⟨last, path.trans rest_path, ends⟩
    obtain ⟨ts', e, derives, reads, closing⟩ :=
      Config.Trace.derivable ⟨last, rest_path, ends⟩ (path.placed placed)
    obtain ⟨ts, reads', derives'⟩ := path.derives placed derives reads closing
    exact ⟨ts, ts', d.cursor, e, _, vs', derives', reads', reads, closing, rfl, rfl⟩

/-- A gap put in at a boundary of an accepted document leaves it accepted. Its tokens keep their
kinds, levels and values; those behind the gap move by its length. -/
theorem Scanner.scan_insert_gap (s : Scanner) (doc w : List UInt8) (p : Nat)
    (ok : (s.scan doc).outcome = .ok) (hp : Boundary doc p) (hw : Gap.Text w) :
    (s.scan (doc.take p ++ w ++ doc.drop p)).outcome = .ok ∧
      (s.scan (doc.take p ++ w ++ doc.drop p)).state.toList =
        (s.scan doc).state.toList.map (Token.moved p w.length) ∧
      ∀ t ∈ (s.scan doc).state.toList,
        (t.moved p w.length).value (doc.take p ++ w ++ doc.drop p) = t.value doc := by
  have complete := (s.outcome_eq_ok_iff doc).1 ok
  have trace := (s.scan_iff_trace doc _ _).1 ⟨rfl, complete⟩
  obtain ⟨ts, ts', m, e, vs, vs', derives, first, second, closing, tokens, rfl⟩ := hp.split trace
  obtain ⟨u, hu, hpos⟩ := first.rest_eq
  have hu : doc = u ++ m.rest := hu
  have hpos : m.pos = u.length := hpos.trans (Nat.zero_add _)
  have front : doc.take m.pos = u := by rw [hpos, hu, List.take_left]
  have back : doc.drop m.pos = m.rest := by rw [hpos, hu, List.drop_left]
  have inside : m.pos ≤ doc.length := by
    rw [hpos, hu, List.length_append]
    exact Nat.le_add_right _ _
  rw [tokens]
  have accepted : (Config.start (doc.take m.pos ++ w ++ doc.drop m.pos)).Trace
      ((vs ++ vs').map (Token.moved m.pos w.length)) .complete := by
    obtain ⟨e', reads, closing'⟩ := first.insert second hw closing hu
    rw [front, back, List.append_assoc]
    exact Config.Derivable.trace ⟨ts ++ ts', e', derives, reads, closing'⟩ (Config.placed_start _)
  obtain ⟨state, ending⟩ := (s.scan_iff_trace _ _ _).2 accepted
  refine ⟨(s.outcome_eq_ok_iff _).2 ending, state, fun t ht => ?_⟩
  apply Token.value_moved inside
  intro lt
  rcases List.mem_append.1 ht with ht | ht
  · exact (first.bounds t ht).2
  · exact absurd (second.bounds t ht).1 (Nat.not_le.2 lt)

/-- In `{a}` the comment `#x` and its line end may be put in at the start and behind the brace. -/
theorem Scanner.scan_insert_gap_comment :
    let doc : List UInt8 := [0x7B, 0x61, 0x7D]
    let w : List UInt8 := [0x23, 0x78, 0x0A]
    (standard.scan doc).outcome = .ok ∧ Gap.Text w ∧ Boundary doc 0 ∧ Boundary doc 1 ∧
      (standard.scan [0x23, 0x78, 0x0A, 0x7B, 0x61, 0x7D]).outcome = .ok ∧
      (standard.scan [0x7B, 0x23, 0x78, 0x0A, 0x61, 0x7D]).state.toList =
        [⟨.query, 0, 0, 0⟩, ⟨.setOpen, 0, 0, 1⟩, ⟨.field, 4, 5, 1⟩, ⟨.setClose, 5, 5, 0⟩] := by
  intro doc w
  have ok : (standard.scan doc).outcome = .ok := by decide +kernel
  have line : Gap.Line [0x78] := List.forall_mem_singleton.2 rfl
  have gap : Gap.Text w := .comment line rfl .nil
  have tokens : (standard.scan doc).state.toList =
      [⟨.query, 0, 0, 0⟩, ⟨.setOpen, 0, 0, 1⟩, ⟨.field, 1, 2, 1⟩, ⟨.setClose, 2, 2, 0⟩] := by
    decide +kernel
  have path : (Config.start doc).Path [⟨.query, 0, 0, 0⟩]
      ⟨0, doc, 0, .selectionSet .operation⟩ :=
    .step (.token (by decide +kernel)) (.refl _)
  have boundary : Boundary doc 1 :=
    .token (t := ⟨.setOpen, 0, 0, 1⟩) (d := ⟨1, [0x61, 0x7D], 1, .selection⟩) path
      (.token (by decide +kernel))
  have behind := (scan_insert_gap standard doc w 1 ok boundary gap).2.1
  rw [tokens] at behind
  exact ⟨ok, gap, .start, boundary, (scan_insert_gap standard doc w 0 ok .start gap).1, behind⟩

end QueryDoc
