import QueryDoc.Proofs.Delivery
import QueryDoc.Proofs.Genuine
import QueryDoc.Proofs.Syntax.Failure
import QueryDoc.Proofs.ValidContent

/-! Each place of a scan lies between two characters: lexemes end beside an ASCII byte, and so do
gaps. Tokens and errors therefore cut no character. -/
namespace QueryDoc

open Utf8

namespace Upcoming

theorem whole_spreadLength {bs : List UInt8} (h : dots.isPrefixOf bs = true) :
    Whole bs (spreadLength bs) := by
  have spread : Whole bs 3 := by
    obtain ⟨r, rfl⟩ := List.isPrefixOf_iff_prefix.1 h
    exact whole_ascii (lt_of_all (by decide)) r
  have start := spread.add (Gap.whole_length (bs.drop 3))
  unfold spreadLength
  simp only
  split
  · next on => exact (start.add (Word.whole_on on)).add (Gap.whole_length _)
  · exact start

theorem whole_opening (bs : List UInt8) : Whole bs (opening bs) := by
  unfold opening
  split
  · next h => exact Lead.whole_one h (by simp)
  · next h => exact Lead.whole_one h (by simp)
  · next h =>
      split
      · next fence => exact Block.whole_fence fence
      · exact Lead.whole_one h (by simp)
  · split
    · next spread => exact whole_spreadLength spread
    · exact whole_zero bs
  · exact whole_zero bs

theorem whole_leading (previous : Kind) (bs : List UInt8) : Whole bs (leading previous bs) := by
  have gap := Gap.whole_length bs
  unfold leading
  simp only
  split
  · next on => exact gap.add (Word.whole_on on.2)
  · exact gap

theorem whole_offset (previous : Kind) (bs : List UInt8) : Whole bs (offset previous bs) :=
  ((whole_leading previous bs).add (Gap.whole_linkingLength _)).add (whole_opening _)

end Upcoming

theorem Word.Text.lt {w : List UInt8} (h : Text w) : ∀ b ∈ w, b < 0x80 :=
  fun b hb => Byte.lt_of_isName (h.isName b hb)

theorem Shape.whole {s : Shape} {w : List UInt8} (h : s.Text w) (r : List UInt8) :
    Whole (w ++ r) w.length := by
  cases s with
  | empty =>
    obtain rfl := h
    exact whole_zero r
  | punct p =>
    obtain rfl := h
    exact whole_ascii (lt_of_all (by cases p <;> decide)) r
  | dots =>
    obtain rfl := h
    exact whole_ascii (lt_of_all (by decide)) r
  | word ws => exact whole_ascii (Words.Has.text h).lt r
  | scalar ws => exact whole_ascii (Words.Has.text h).lt r
  | sigil s =>
    obtain ⟨v, text, rfl⟩ := h
    refine whole_ascii (fun b hb => ?_) r
    rcases List.mem_cons.1 hb with rfl | hb
    · cases s <;> decide
    · exact text.lt b hb
  | int => exact whole_ascii (Number.Text.lt h) r
  | float => exact whole_ascii (Number.Text.lt h) r
  | quoted =>
    obtain ⟨v, -, rfl⟩ := h
    exact whole_behind (b := Byte.quote) (by decide) (Byte.quote :: v) r
  | block =>
    obtain ⟨v, -, rfl⟩ := h
    rw [Block.fenced_eq_concat]
    exact whole_behind (by decide) _ r

/-- The cursor stands in the document, and between two characters. -/
structure Cursor.Seamed (doc : List UInt8) (c : Cursor) : Prop where
  rest : doc.drop c.pos = c.rest
  seam : Seam doc c.pos

namespace Cursor.Seamed

variable {doc : List UInt8} {pos level : Nat} {w r : List UInt8}

theorem forward (h : Cursor.Seamed doc ⟨pos, level, w ++ r⟩) (whole : Whole (w ++ r) w.length)
    (level' : Nat) : Cursor.Seamed doc ⟨pos + w.length, level', r⟩ := by
  obtain ⟨rest, seam⟩ := h
  simp only at rest seam
  constructor
  · rw [← List.drop_drop, rest, List.drop_left]
  · refine seam.add (rest ▸ whole) ?_
    simp [rest]

end Cursor.Seamed

theorem Reads.seamed {ts : List Terminal} {c d : Cursor} {us : List Token} {doc : List UInt8}
    (h : Reads ts c us d) (hc : c.Seamed doc) : d.Seamed doc := by
  induction h with
  | nil => exact hc
  | @cons t ts pos level g w r us d gap text follow _ ih =>
    obtain ⟨b, v, first, stops⟩ := t.shape.exists_cons text follow
    have skipped : Whole (g ++ (w ++ r)) g.length := by
      have whole := Gap.whole_length (g ++ (w ++ r))
      rwa [first, Gap.length_append_stops gap stops, ← first] at whole
    exact ih ((hc.forward skipped level).forward (t.shape.whole text r) _)

/-- The error is reported between two characters, with the one that follows. -/
structure Error.Seamed (doc : List UInt8) (e : Error) : Prop where
  seam : Seam doc e.index
  char : e.char = first? (doc.drop e.index)

namespace Config

variable {doc : List UInt8} {c d : Config} {us : List Token}

theorem Goes.seamed (h : c.Goes us d) (hc : c.cursor.Seamed doc) : d.cursor.Seamed doc := by
  obtain ⟨label, -, reads⟩ := h.edge
  exact reads.seamed hc

theorem seamed_error (hc : c.cursor.Seamed doc) {offset : Nat} (whole : Whole c.rest offset)
    (le : offset ≤ c.rest.length) (code : ErrorCode) (x : Option Expect) :
    (c.error offset code x).Seamed doc := by
  have rest : doc.drop c.pos = c.rest := hc.rest
  refine ⟨hc.seam.add ?_ ?_, ?_⟩
  · rwa [show doc.drop c.cursor.pos = c.rest from rest]
  · rwa [show doc.drop c.cursor.pos = c.rest from rest]
  · simp only [error, Error.here, ← rest, List.drop_drop]

theorem Ends.seamed {e : Error} (h : c.Ends (.stopped e)) (hc : c.cursor.Seamed doc) :
    e.Seamed doc := by
  obtain ⟨offset, failure, le, he⟩ := h.failure
  have whole := (Gap.whole_length c.rest).add failure.whole
  rw [front, List.length_drop] at le
  rw [Nat.add_comm] at he
  rw [he]
  have := Gap.length_le c.rest
  exact seamed_error hc whole (by omega) _ _

/-- Whoever ends the scan, the error is reported between two characters. -/
theorem seamed_of_run {σ : Type} (sink : Sink σ) (s : σ) (hc : c.cursor.Seamed doc) {e : Error}
    (h : (c.run sink s).ending = .stopped e) : e.Seamed doc := by
  fun_induction run sink s c with
  | case1 s c d step ih => exact ih ((Goes.silent step).seamed hc) h
  | case2 s c t d step s' _ ih => exact ih ((Goes.token step).seamed hc) h
  | case3 s c t d step s' code _ =>
    cases h
    have place := (Goes.token step).seamed hc
    exact seamed_error place (Upcoming.whole_offset t.kind d.rest) (Upcoming.offset_le _ _) _ _
  | case4 => cases h
  | case5 s c e' step =>
    cases h
    exact (Ends.failed step).seamed hc
  | case6 => cases h

end Config

namespace Token

variable {doc : List UInt8} {t : Token}

/-- The token cuts no character. -/
def Seamed (doc : List UInt8) (t : Token) : Prop := Seam doc t.tail ∧ Seam doc t.head

theorem drop_tail (fits : t.fits doc = true) :
    doc.drop t.tail = t.value doc ++ doc.drop t.head := by
  obtain ⟨k, hk⟩ := Nat.exists_eq_add_of_le (inside_of_fits fits).1
  rw [value, hk, Nat.add_sub_cancel_left, ← List.drop_drop, List.take_append_drop]

theorem take_head (fits : t.fits doc = true) :
    doc.take t.head = doc.take t.tail ++ t.value doc := by
  obtain ⟨k, hk⟩ := Nat.exists_eq_add_of_le (inside_of_fits fits).1
  rw [value, hk, Nat.add_sub_cancel_left, List.take_add]

theorem seamed_of_lt (fits : t.fits doc = true) (ne : t.value doc ≠ [])
    (ascii : ∀ b ∈ t.value doc, b < 0x80) : t.Seamed doc := by
  obtain ⟨le, inside⟩ := inside_of_fits fits
  have behind := drop_tail fits
  have front := take_head fits
  refine ⟨⟨Nat.le_trans le inside, ?_⟩, inside, ?_⟩
  · obtain ⟨b, v, hv⟩ := List.exists_cons_of_ne_nil ne
    rw [behind, hv]
    exact severed_before (ascii b (hv ▸ List.mem_cons_self)) _ _
  · have last := List.dropLast_concat_getLast ne
    rw [front, ← last, ← List.append_assoc]
    exact severed_behind (ascii _ (List.getLast_mem ne)) _ _

theorem IsName.seamed (h : t.IsName doc) (fits : t.fits doc = true) : t.Seamed doc := by
  refine seamed_of_lt fits ?_ h.text.lt
  obtain ⟨b, v, hv, -⟩ := h.text
  rw [hv]
  exact List.cons_ne_nil b v

theorem seamed_of_number {k : Kind} (h : Number.Text k (t.value doc)) (fits : t.fits doc = true) :
    t.Seamed doc := by
  refine seamed_of_lt fits ?_ h.lt
  intro empty
  have lead := Number.lead_append h []
  rw [empty] at lead
  cases lead

theorem IsEmptyAt.seamed {bytes : List UInt8} (h : t.IsEmptyAt doc bytes)
    (ascii : ∀ b ∈ bytes, b < 0x80) : t.Seamed doc := by
  obtain ⟨empty, b, mem, at_⟩ := h
  obtain ⟨lt, rfl⟩ := List.getElem?_eq_some_iff.1 at_
  have seam : Seam doc t.tail := by
    refine ⟨Nat.le_of_lt lt, ?_⟩
    rw [List.drop_eq_getElem_cons lt]
    exact severed_before (ascii _ mem) _ _
  exact ⟨seam, empty ▸ seam⟩

theorem seamed_of_between {b c : UInt8} {v w : List UInt8} (fits : t.fits doc = true)
    (behind : t.IsBehind doc (v ++ [b])) (before : t.IsBefore doc (c :: w)) (hb : b < 0x80)
    (hc : c < 0x80) : t.Seamed doc := by
  obtain ⟨le, inside⟩ := inside_of_fits fits
  refine ⟨⟨Nat.le_trans le inside, ?_⟩, inside, ?_⟩
  · obtain ⟨u, hu⟩ := behind
    rw [← hu, ← List.append_assoc]
    exact severed_behind hb _ _
  · obtain ⟨u, hu⟩ := before
    rw [← hu]
    exact severed_before hc _ _

theorem Genuine.seamed (h : t.Genuine doc) (fits : t.fits doc = true) : t.Seamed doc := by
  have name (h : t.IsName doc) : t.Seamed doc := h.seamed fits
  obtain ⟨kind, tail, head, level⟩ := t
  cases kind with
  | query => exact h.elim (fun h => name h.1) (·.seamed (lt_of_all (by decide)))
  | inlineFragment => exact h.elim name (·.seamed (lt_of_all (by decide)))
  | operationName | typeCondition | fieldAlias | field | argumentName | typeName | objectField =>
    exact name h
  | mutation | subscription | fragment | trueValue | falseValue | nullValue => exact name h.1
  | fragmentName | spreadName | variableName | variableRef | directiveName | enumValue =>
    exact name h.1
  | int | float => exact seamed_of_number h.1 fits
  | quotedString => exact seamed_of_between (v := []) fits h.2.1 h.2.2 (by decide) (by decide)
  | blockString =>
    exact seamed_of_between (v := [Byte.quote, Byte.quote]) fits h.2.1 h.2.2 (by decide) (by decide)
  | _ => exact IsEmptyAt.seamed h (lt_of_all (by decide))

theorem Genuine.body (h : t.Genuine doc) (kind : t.kind = .quotedString) :
    Quoted.Body (t.value doc) := by
  unfold Genuine at h
  rw [kind] at h
  exact h.1

end Token

/-- No scan of a valid document cuts a character, whatever its sink does. The tokens that the sink
is handed begin and end between characters, and the bytes they span and the content they stand for
are valid; the error that ends the scan, if one does, is reported between two characters together
with the one that follows. -/
theorem Scanner.respects_characters {σ : Type} (s : Scanner) (doc : List UInt8) (sink : Sink σ)
    (init : σ) (valid : Valid doc) :
    (∀ t ∈ (s.scanInto doc sink.keeping (init, [])).state.2,
      CharBoundary doc t.tail ∧ CharBoundary doc t.head ∧ Valid (t.value doc) ∧
        Valid (t.kind.content (t.value doc)) ∧
        ∀ size, 0 < size → ∃ chunks, t.chunks? doc size 0 = some chunks ∧
          chunks.flatten = t.kind.content (t.value doc)) ∧
      ∀ e, (s.scanInto doc sink init).ending = .stopped e → Stands doc e.index e.char := by
  constructor
  · intro t ht
    obtain ⟨d, path, -⟩ := (s.scan_iff_trace doc _ _).1 ⟨rfl, rfl⟩
    have member := (s.receives doc sink init).subset ht
    obtain ⟨fits, genuine⟩ := path.genuine (Config.severed_start doc) t member
    obtain ⟨tail, head⟩ := genuine.seamed fits
    have value := tail.valid_between head (Token.inside_of_fits fits).1 valid
    refine ⟨⟨_, tail.stands valid⟩, ⟨_, head.stands valid⟩, value,
      Kind.valid_content genuine.body value, fun size positive => ?_⟩
    exact ⟨_, if_pos fits, Chunks.flatten_collect t.kind (t.value doc) positive⟩
  · intro e ending
    have start : (Config.start doc).cursor.Seamed doc := ⟨rfl, seam_zero doc⟩
    obtain ⟨seam, char⟩ := Config.seamed_of_run sink init start ending
    rw [char]
    exact seam.stands valid

/-- In `{a(b:"é")}€` the string is an accented letter of two bytes, and the scan fails at the sign
of three bytes behind the definition. -/
theorem Scanner.respects_characters_accent :
    let doc : List UInt8 :=
      [0x7B, 0x61, 0x28, 0x62, 0x3A, 0x22, 0xC3, 0xA9, 0x22, 0x29, 0x7D, 0xE2, 0x82, 0xAC]
    Valid doc ∧ CharBoundary doc 6 ∧ CharBoundary doc 8 ∧ Valid [0xC3, 0xA9] ∧
      Stands doc 11 (some '€') := by
  intro doc
  have valid : Valid doc :=
    ⟨['{', 'a', '(', 'b', ':', '"', 'é', '"', ')', '}', '€'], by decide +kernel⟩
  let sink : Sink Nat := fun n _ => (n + 1, .proceed)
  obtain ⟨tokens, error⟩ := respects_characters standard doc sink 0 valid
  have string : ⟨.quotedString, 6, 8, 1⟩ ∈ (standard.scanInto doc sink.keeping (0, [])).state.2 := by
    decide +kernel
  have ending : (standard.scanInto doc sink 0).ending =
      .stopped ⟨11, some '€', .unexpectedToken, some .definition⟩ := by decide +kernel
  obtain ⟨tail, head, value, -⟩ := tokens _ string
  exact ⟨valid, tail, head, value, error _ ending⟩

end QueryDoc
