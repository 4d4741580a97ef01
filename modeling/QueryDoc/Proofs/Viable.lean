import QueryDoc.Proofs.Acceptance
import QueryDoc.Proofs.Syntax.Completion
import QueryDoc.Proofs.Syntax.Failure

/-! Everything before the offset of an error is the beginning of some accepted document, which is
completed at the place of the error. -/
namespace QueryDoc

namespace Config

variable {c d : Config} {us : List Token} {err : Error}

/-- The document is cut off at an offset and goes on with other bytes. -/
def cut (c : Config) (index : Nat) (tail : List UInt8) : Config :=
  { c with rest := c.rest.take (index - c.pos) ++ tail }

theorem Ends.viable (h : c.Ends (.stopped err)) (hp : c.Placed) :
    ∃ tail vs, (c.cut err.index tail).Derivable vs ∧
      (err.index = c.pos → tail.head? = some Byte.lineFeed) := by
  obtain ⟨offset, code, x, hm, hl, rfl⟩ := h.stopped
  have index : (c.error (offset + Gap.length c.rest) code x).index - c.pos =
      Gap.length c.rest + offset := by
    simp only [error, Error.here]
    omega
  obtain ⟨g, member, fails⟩ := (Grammar.react_fails c.level c.state).1 hm
  by_cases h0 : offset = 0
  · subst h0
    obtain ⟨ts, hd, hs⟩ := completes_form c.state c.level
    obtain ⟨bs, hbs⟩ := exists_reads hs (Gap.text_take_lineFeed c.rest)
    obtain ⟨us, d, reads, closing⟩ := hbs c.pos c.level
    refine ⟨Byte.lineFeed :: bs, us, ⟨ts, d, hd, ?_, closing⟩, fun _ => rfl⟩
    rw [cut, index]
    exact reads
  · obtain h | ⟨t, label, next, ⟨v, hv⟩, edge⟩ := fails.begins member c.level
    · exact absurd h h0
    obtain ⟨ts, hd, hs⟩ := completes_form next (Terminal.levels (t :: label) c.level)
    obtain ⟨bs, hbs⟩ := exists_reads hs (g := []) (.ignored (by decide) .nil)
    obtain ⟨us, d, reads, hr⟩ := hv (c.pos + Gap.length c.rest) c.level (Byte.lineFeed :: bs) rfl
    obtain ⟨us', d', reads', closing⟩ := hbs d.pos d.level
    have gap : Gap.Text (c.rest.take (Gap.length c.rest)) := by
      refine Gap.text_take fun he => h0 ?_
      rw [front, he] at hl
      exact Nat.eq_zero_of_le_zero hl
    have both : Reads (t :: label ++ ts)
        ⟨c.pos + (c.rest.take (Gap.length c.rest)).length, c.level,
          c.front.take offset ++ (v ++ Byte.lineFeed :: bs)⟩ (us ++ us') d' := by
      rw [Gap.length_take_length]
      refine reads.append ?_
      rw [List.nil_append, ← hr] at reads'
      exact reads'
    refine ⟨v ++ Byte.lineFeed :: bs, us ++ us', ⟨t :: label ++ ts, d', ?_, ?_, closing⟩, ?_⟩
    · refine (edge .nothing).derives hp hd fun hmark => ?_
      have := edge .nothing
      rw [hmark] at this
      cases this.ahead_of_mark
    · have := both.prepend gap
      rw [← List.append_assoc, front, ← List.take_add, ← index] at this
      exact this
    · simp only [error, Error.here]
      omega

theorem Trace.index_gt {site : Site} (h : c.Trace us (.stopped err))
    (hs : c.state = .selectionSet site)
    (hl : Lead.of c.rest = .openBrace ∨ Lead.of c.rest = .atSign) : c.pos < err.index := by
  have gap : Gap.length c.rest = 0 := by
    cases hr : c.rest with
    | nil => rfl
    | cons b r =>
      refine Gap.length_of_stops (Lead.stops b ?_) r
      rw [hr] at hl
      rcases hl with hl | hl <;> exact fun he => nomatch hl.symm.trans he
  have front : c.front = c.rest := by rw [Config.front, gap, List.drop_zero]
  obtain ⟨ends, -⟩ | ⟨vs, ws, d, goes, rest, -⟩ := h.cases_head
  · obtain ⟨offset, code, x, hm, -, rfl⟩ := ends.stopped
    rw [reaction, hs, front] at hm
    have offset_pos : 0 < offset := by
      obtain ⟨g, member, fails⟩ := (Grammar.react_fails c.level _).1 hm
      rcases List.mem_cons.1 member with rfl | member
      · rcases hl with hl | hl <;> simp [hl] at fails
      · obtain rfl := List.mem_singleton.1 member
        obtain ⟨-, -, hm⟩ := fails
        cases hm
        exact Nat.one_pos
    simp only [error, Error.here]
    omega
  · obtain ⟨u, hu, hpos⟩ := goes.rest_eq
    have shorter := goes.size_lt
    have zero : c.state.rank = 0 := by rw [hs]; rfl
    have further := rest.index_bounds.1
    have length := congrArg List.length hu
    rw [List.length_append] at length
    simp only [size, zero] at shorter
    omega

/-- A completion is carried backwards along the path that leads to the error. -/
theorem Path.viable {f : Config} (path : c.Path us f) (ends : f.Ends (.stopped err))
    (hp : c.Placed) :
    ∃ tail vs, (c.cut err.index tail).Derivable vs ∧
      (err.index = c.pos → tail.head? = some Byte.lineFeed) := by
  induction path with
  | refl c => exact ends.viable hp
  | @step c m f us ws first rest ih =>
    obtain ⟨tail, vs, ⟨ts, e, hd, reads, closing⟩, hlf⟩ := ih ends (first.placed hp)
    obtain ⟨label, edge, read⟩ := first.edge
    obtain ⟨u, hu, hpos⟩ := first.rest_eq
    have trace : m.Trace ws (.stopped err) := ⟨f, rest, ends⟩
    obtain ⟨lo, hi⟩ := trace.index_bounds
    have cut_eq : (c.cut err.index tail).rest = u ++ (m.cut err.index tail).rest := by
      have hi : err.index - c.pos = u.length + (err.index - m.pos) := by omega
      simp only [cut, hi, hu]
      rw [List.take_length_add_append, List.append_assoc]
    have kept (h : m.pos < err.index) : (m.cut err.index tail).rest.head? = m.rest.head? := by
      cases hr : m.rest with
      | nil =>
        rw [hr] at hi
        exact absurd h (Nat.not_lt.2 hi)
      | cons b r =>
        have hn : err.index - m.pos = err.index - m.pos - 1 + 1 := by omega
        simp only [cut, hr]
        rw [hn, List.take_succ_cons]
        rfl
    have replaced (h : ¬m.pos < err.index) :
        (m.cut err.index tail).rest.head? = some Byte.lineFeed := by
      have hn : err.index - m.pos = 0 := by omega
      simp only [cut, hn, List.take_zero, List.nil_append]
      exact hlf (by omega)
    have further {t : Terminal} (ht : t ∈ label) (he : t.shape = .empty)
        (hl : Lead.of m.rest = .openBrace ∨ Lead.of m.rest = .atSign) : m.pos < err.index := by
      obtain ⟨k, site, -, hs⟩ := edge.eq_selectionSet ht he
      exact trace.index_gt hs hl
    have follow : ∀ t ∈ label, ∀ w, t.shape.Text w → t.shape.Follow w m.rest.head? →
        t.shape.Follow w (m.cut err.index tail).rest.head? := by
      intro t ht w text follow
      by_cases h : m.pos < err.index
      · rwa [kept h]
      · rw [replaced h]
        refine Shape.follow_lineFeed (fun he => h (further ht he ?_)) text
        rw [he] at follow text
        have lead := Shape.lead_mem (s := .empty) (r := m.rest) rfl follow
        simpa [Shape.leads] using lead
    refine ⟨tail, us ++ vs, ⟨label ++ ts, e, edge.derives hp ?_ ?_, ?_, closing⟩, fun h => ?_⟩
    · have hl : m.level = Terminal.levels label c.level := read.level_eq
      exact hl ▸ hd
    · rintro rfl
      obtain ⟨n, ws, fit, -, done⟩ := reads_cursor_iff.1 read
      obtain ⟨rfl, hl⟩ := Shape.fits_empty_iff.1 fit
      have hm : m.rest = c.front := by
        generalize hc : m.cursor = m' at done
        cases done
        exact congrArg Cursor.rest hc
      rw [← hm] at hl
      have hn : (m.cut err.index tail).ahead = m.ahead :=
        Gap.ahead_congr (kept (further List.mem_cons_self rfl hl)) (by
          rcases hl with hl | hl <;> simp [hl])
      rw [← edge.ahead_of_mark, ← hn]
      exact ahead_of_reads reads closing
    · refine Reads.append ?_ reads
      have := read.replace follow hu
      rw [← cut_eq] at this
      exact this
    · refine hlf ?_
      omega

end Config

/-- Whatever stands before the offset of an error can be completed to an accepted document. -/
theorem Scanner.exists_completion (s : Scanner) (doc : List UInt8) (e : Error)
    (h : (s.scan doc).ending = .stopped e) :
    (∃ tail, (s.scan (doc.take e.index ++ tail)).outcome = .ok) ∧
      (e.index = doc.length → ∃ tail, (s.scan (doc ++ tail)).outcome = .ok) := by
  have completed : ∃ tail, (s.scan (doc.take e.index ++ tail)).outcome = .ok := by
    obtain ⟨f, path, ends⟩ := (s.scan_iff_trace doc _ _).1 ⟨rfl, h⟩
    obtain ⟨tail, vs, derivable, -⟩ := path.viable ends (Config.placed_start doc)
    refine ⟨tail, ?_⟩
    have trace := derivable.trace (Config.placed_start doc)
    rw [outcome_eq_ok_iff]
    exact ((s.scan_iff_trace _ _ _).2 trace).2
  refine ⟨completed, fun he => ?_⟩
  rwa [he, List.take_length] at completed

/-- In `{a(b:1.x` the number breaks off at its last byte, and what precedes it can be completed. -/
theorem Scanner.exists_completion_number :
    let doc : List UInt8 := [0x7B, 0x61, 0x28, 0x62, 0x3A, 0x31, 0x2E, 0x78]
    (standard.scan doc).ending = .stopped ⟨7, some 'x', .invalidNumber, none⟩ ∧
      ∃ tail, (standard.scan (doc.take 7 ++ tail)).outcome = .ok := by
  intro doc
  have failed : (standard.scan doc).ending = .stopped ⟨7, some 'x', .invalidNumber, none⟩ := by
    decide +kernel
  exact ⟨failed, (exists_completion standard doc _ failed).1⟩

end QueryDoc
