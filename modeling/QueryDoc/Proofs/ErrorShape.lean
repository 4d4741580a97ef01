import QueryDoc.Proofs.Capacity
import QueryDoc.Proofs.Characters

/-! The offset of an error, the character found there, the code and what was expected decide each
other as far as they can. -/
namespace QueryDoc

theorem ErrorCode.isRequest_eq_false_iff (code : ErrorCode) :
    code.isRequest = false ↔ code ≠ .aborted ∧ code ≠ .bufferFull := by
  cases code <;> simp [isRequest]

namespace Failure

variable {bs : List UInt8} {offset : Nat} {code : ErrorCode} {x : Option Expect}

theorem isRequest_code (h : Failure bs offset code x) : code.isRequest = false := by
  cases h with
  | unexpected => split <;> rfl
  | type => rfl
  | number => rfl
  | bareName => rfl

theorem length_le_of_end (h : Failure bs offset .unexpectedEnd x) : bs.length ≤ offset := by
  generalize hc : ErrorCode.unexpectedEnd = code at h
  cases h with
  | unexpected =>
    refine Nat.le_of_not_lt fun inside => ?_
    rw [if_pos inside] at hc
    cases hc
  | type => cases hc
  | number => cases hc
  | bareName => cases hc

theorem expected_eq_none_iff (h : Failure bs offset code x) :
    x = none ↔ code = .invalidNumber ∨ code = .invalidValue := by
  cases h with
  | unexpected => split <;> simp
  | type => simp
  | number => simp
  | bareName => simp

theorem expected_of_type (h : Failure bs offset .invalidType x) :
    x = some .variableType ∨ x = some .afterVariableType := by
  generalize hc : ErrorCode.invalidType = code at h
  cases h with
  | unexpected => split at hc <;> cases hc
  | type _ member => exact member.imp (congrArg some) (congrArg some)
  | number => cases hc
  | bareName => cases hc

theorem byte_of_value (h : Failure bs offset .invalidValue x) :
    ∃ b, bs[offset]? = some b ∧ Byte.isName b = false ∧ Byte.isTerminator b = false := by
  generalize hc : ErrorCode.invalidValue = code at h
  cases h with
  | unexpected => split at hc <;> cases hc
  | type => cases hc
  | number => cases hc
  | bareName next name ends => exact ⟨_, next, name, ends⟩

end Failure

/-- What holds between the parts of an error that reports a violation of the grammar. -/
structure Error.Coherent (doc : List UInt8) (e : Error) : Prop where
  index_le : e.index ≤ doc.length
  /-- A character is kept unless the document has ended. -/
  char_eq_none_iff : e.char = none ↔ e.index = doc.length
  index_of_end : e.code = .unexpectedEnd → e.index = doc.length
  code_of_end : e.index = doc.length → e.code = .unexpectedEnd ∨ e.code = .invalidNumber
  expected_eq_none_iff : e.expected = none ↔ e.code = .invalidNumber ∨ e.code = .invalidValue
  expected_of_type : e.code = .invalidType →
    e.expected = some .variableType ∨ e.expected = some .afterVariableType
  byte_of_value : e.code = .invalidValue →
    ∃ b, doc[e.index]? = some b ∧ Byte.isName b = false ∧ Byte.isTerminator b = false
  code_ne : e.code ≠ .aborted ∧ e.code ≠ .bufferFull

namespace Config

variable {doc : List UInt8} {c d : Config} {us : List Token} {e : Error}

theorem seamed_start (doc : List UInt8) : (start doc).cursor.Seamed doc := ⟨rfl, Utf8.seam_zero doc⟩

theorem Path.seamed (h : c.Path us d) (hc : c.cursor.Seamed doc) : d.cursor.Seamed doc := by
  induction h with
  | refl => exact hc
  | step first _ ih => exact ih (first.seamed hc)

theorem drop_eq_front (hc : c.cursor.Seamed doc) :
    doc.drop (c.pos + Gap.length c.rest) = c.front := by
  have rest : doc.drop c.pos = c.rest := hc.rest
  rw [← List.drop_drop, rest, front]

theorem length_eq_front (hc : c.cursor.Seamed doc) :
    doc.length = c.pos + Gap.length c.rest + c.front.length := by
  have rest : doc.drop c.pos = c.rest := hc.rest
  have inside : c.pos ≤ doc.length := hc.seam.1
  have ahead : c.rest.length = doc.length - c.pos := by rw [← rest, List.length_drop]
  have gap := Gap.length_le c.rest
  rw [front, List.length_drop]
  omega

/-- A move that fails reports its failure at the place in the document where it stands. -/
theorem Ends.coherent (h : c.Ends (.stopped e)) (hc : c.cursor.Seamed doc) : e.Coherent doc := by
  obtain ⟨seam, char⟩ := h.seamed hc
  obtain ⟨offset, failure, within, he⟩ := h.failure
  have index : e.index = c.pos + Gap.length c.rest + offset := by
    rw [he]
    simp only [error, Error.here]
    omega
  have length := length_eq_front hc
  have at_end : e.index = doc.length ↔ offset = c.front.length := by omega
  constructor
  case index_le => exact seam.1
  case char_eq_none_iff =>
    rw [char, Utf8.first?_eq_none_iff, List.drop_eq_nil_iff]
    have inside := seam.1
    omega
  case index_of_end =>
    intro code
    have := (code ▸ failure).length_le_of_end
    omega
  case code_of_end =>
    intro last
    exact (at_end.1 last ▸ failure).code_of_end
  case expected_eq_none_iff => exact failure.expected_eq_none_iff
  case expected_of_type =>
    intro code
    exact (code ▸ failure).expected_of_type
  case byte_of_value =>
    intro code
    obtain ⟨b, next, rest⟩ := (code ▸ failure).byte_of_value
    refine ⟨b, ?_, rest⟩
    rw [index, ← List.getElem?_drop, drop_eq_front hc, next]
  case code_ne => exact (ErrorCode.isRequest_eq_false_iff _).1 failure.isRequest_code

theorem Trace.coherent (h : (start doc).Trace us (.stopped e)) : e.Coherent doc := by
  obtain ⟨d, path, ends⟩ := h
  exact ends.coherent (path.seamed (seamed_start doc))

end Config

theorem Options.outcome_of_violation (o : Options) {e : Error} (h : e.code.isRequest = false) :
    o.outcome (.stopped e) = if o.haltOnError then .crash (.violation e) else .error e := by
  rw [outcome, h, Bool.not_false, Bool.and_true]

namespace Scanner

variable (s : Scanner) (doc : List UInt8)

/-- A scan that keeps every token and is not complete has met a violation, and reports it as the
options say. -/
theorem exists_violation (h : (s.scan doc).outcome ≠ .ok) :
    ∃ e, (s.scan doc).outcome =
        (if s.options.haltOnError then .crash (.violation e) else .error e) ∧ e.Coherent doc := by
  have trace := (s.scan_iff_trace doc _ _).1 ⟨rfl, rfl⟩
  have incomplete : (s.scan doc).ending ≠ .complete :=
    fun complete => h ((s.options.outcome_eq_ok_iff _).2 complete)
  cases ending : (s.scan doc).ending with
  | complete => exact absurd ending incomplete
  | stopped e =>
    have coherent := (ending ▸ trace).coherent
    refine ⟨e, ?_, coherent⟩
    have violation := (ErrorCode.isRequest_eq_false_iff _).2 coherent.code_ne
    rw [← s.options.outcome_of_violation violation, ← ending]
    rfl
  | crashed =>
    obtain ⟨d, -, ends⟩ := ending ▸ trace
    cases ends

theorem coherent_of_error {e : Error} (h : (s.scan doc).outcome = .error e) : e.Coherent doc := by
  obtain ⟨e', reported, coherent⟩ := s.exists_violation doc (by rw [h]; exact nofun)
  rw [h] at reported
  split at reported
  · cases reported
  · cases reported
    exact coherent

theorem exists_request {σ : Type} {sink : Sink σ} {init u v : σ} {before after : List Token}
    {t : Token} {code : ErrorCode} (tokens : (s.scan doc).state.toList = before ++ t :: after)
    (passes : sink.Passes init before u) (stop : sink u t = (v, .stop code)) :
    ∃ e, (s.scanInto doc sink init).ending = .stopped e ∧ e.code = code ∧ e.index ≤ doc.length ∧
      e.expected = none := by
  have short : before.length < (s.scan doc).state.toList.length := by
    rw [tokens, List.length_append, List.length_cons]
    omega
  obtain ⟨t', d, found, stops⟩ := s.exists_stop doc short
  rw [tokens, List.take_left] at stops
  obtain rfl : t = t' := by simpa [tokens] using found
  obtain ⟨-, ending⟩ := stops passes stop
  have seamed := Config.seamed_of_run sink init (Config.seamed_start doc) ending
  exact ⟨_, ending, rfl, seamed.seam.1, rfl⟩

/-- Every document that is not accepted has one error, which is returned or breaks the scan down as
the options say, and whose parts fit together. A scan that its receiver ends is told a place of the
document and the code that it asked for, and nothing is expected there. -/
theorem errors_fit :
    ((s.scan doc).outcome ≠ .ok →
      ∃ e, (s.scan doc).outcome =
          (if s.options.haltOnError then .crash (.violation e) else .error e) ∧
        e.Coherent doc) ∧
      ∀ (σ : Type) (sink : Sink σ) (init u v : σ) (before after : List Token) (t : Token)
        (code : ErrorCode), (s.scan doc).state.toList = before ++ t :: after →
          sink.Passes init before u → sink u t = (v, .stop code) →
            ∃ e, (s.scanInto doc sink init).ending = .stopped e ∧
              (code.isRequest = true → (s.scanInto doc sink init).outcome = .error e) ∧
              e.code = code ∧ e.index ≤ doc.length ∧ e.expected = none := by
  refine ⟨s.exists_violation doc, ?_⟩
  intro σ sink init u v before after t code tokens passes stop
  obtain ⟨e, ending, rfl, place, nothing⟩ := s.exists_request doc tokens passes stop
  refine ⟨e, ending, fun request => ?_, rfl, place, nothing⟩
  rw [← s.options.outcome_of_request request, ← ending]
  rfl

/-- In `{a(b:c~}` a bare name runs into a byte that does not end it. A receiver may ask for the end
before that, at the third token. -/
theorem errors_fit_bareName :
    let doc : List UInt8 := [0x7B, 0x61, 0x28, 0x62, 0x3A, 0x63, 0x7E, 0x7D]
    let sink : Sink Nat := fun n _ => (n + 1, if n = 2 then .stop .aborted else .proceed)
    (standard.scan doc).outcome = .error ⟨6, some '~', .invalidValue, none⟩ ∧
      Error.Coherent doc ⟨6, some '~', .invalidValue, none⟩ ∧
      ∃ e, (standard.scanInto doc sink 0).outcome = .error e ∧ e.code = .aborted ∧ e.index ≤ 8 ∧
        e.expected = none := by
  intro doc sink
  obtain ⟨violation, request⟩ := errors_fit standard doc
  have outcome : (standard.scan doc).outcome = .error ⟨6, some '~', .invalidValue, none⟩ := by
    decide +kernel
  have tokens : (standard.scan doc).state.toList = [⟨.query, 0, 0, 0⟩, ⟨.setOpen, 0, 0, 1⟩] ++
      ⟨.field, 1, 2, 1⟩ :: [⟨.argumentsOpen, 2, 2, 1⟩, ⟨.argumentName, 3, 4, 1⟩] := by
    decide +kernel
  have passes : sink.Passes 0 [⟨.query, 0, 0, 0⟩, ⟨.setOpen, 0, 0, 1⟩] 2 :=
    ⟨1, rfl, 2, rfl, rfl⟩
  obtain ⟨e, same, coherent⟩ := violation (by rw [outcome]; exact nofun)
  obtain ⟨a, -, returned, code, place, nothing⟩ :=
    request Nat sink 0 2 3 _ _ _ .aborted tokens passes rfl
  rw [outcome] at same
  cases same
  exact ⟨outcome, coherent, a, returned rfl, code, place, nothing⟩

end Scanner

end QueryDoc
