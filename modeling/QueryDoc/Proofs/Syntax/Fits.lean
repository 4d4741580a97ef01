import QueryDoc.Grammar.React
import QueryDoc.Proofs.Syntax.Terminal

/-! The bytes begin with a text of a shape exactly where its reader succeeds, and both agree on the
length. -/
namespace QueryDoc

namespace Lead

/-- The bytes that a lead tells apart from all others. -/
def marks : List UInt8 :=
  [Byte.quote, Byte.dollar, Byte.atSign, Byte.bang, Byte.colon, Byte.equals, Byte.dot,
    Byte.openParen, Byte.closeParen, Byte.openBrace, Byte.closeBrace, Byte.openBracket,
    Byte.closeBracket]

theorem eq_of_ofByte (b : UInt8) : ∀ c ∈ marks, ofByte b = ofByte c → b = c := by
  -- decided mark by mark: a statement about the members of a list may be decided over all bytes
  have told : marks.all (fun c => decide (ofByte b = ofByte c → b = c)) = true :=
    Byte.forall_of_fin
      (p := fun b => marks.all (fun c => decide (ofByte b = ofByte c → b = c)) = true)
      (by decide +kernel) b
  intro c hc
  exact of_decide_eq_true (List.all_eq_true.1 told c hc)

theorem eq_cons {bs : List UInt8} {c : UInt8} (hc : c ∈ marks) (h : of bs = ofByte c) :
    ∃ r, bs = c :: r := by
  cases bs with
  | nil => exact absurd h.symm (ofByte_ne_nothing c)
  | cons b r =>
    obtain rfl := eq_of_ofByte b c hc h
    exact ⟨r, rfl⟩

end Lead

namespace Punct

theorem byte_mem_marks (p : Punct) : p.byte ∈ Lead.marks := by cases p <;> decide

theorem ofByte_byte (p : Punct) : Lead.ofByte p.byte = p.lead := by cases p <;> rfl

end Punct

namespace Sigil

theorem byte_mem_marks (s : Sigil) : s.byte ∈ Lead.marks := by cases s <;> decide

theorem ofByte_byte (s : Sigil) : Lead.ofByte s.byte = s.lead := by cases s <;> rfl

end Sigil

theorem Grammar.endsScalar_iff {r : List UInt8} :
    Grammar.endsScalar r = true ↔ Word.Ended r.head? := by
  cases r with
  | nil => simp [Grammar.endsScalar, Word.Ended]
  | cons b r => simp [Grammar.endsScalar, Word.Ended]

namespace Shape

variable {bs : List UInt8} {n : Nat}

theorem Fits.lead_mem {s : Shape} (h : s.Fits bs n) : Lead.of bs ∈ s.leads := by
  obtain ⟨w, r, rfl, -, text, follow⟩ := h
  exact Shape.lead_mem text follow

theorem fits_empty_iff :
    empty.Fits bs n ↔ n = 0 ∧ (Lead.of bs = .openBrace ∨ Lead.of bs = .atSign) := by
  constructor
  · intro h
    have hl := h.lead_mem
    obtain ⟨w, r, rfl, rfl, rfl, -⟩ := h
    simpa [leads] using hl
  · rintro ⟨rfl, h⟩
    refine ⟨[], bs, rfl, rfl, rfl, ?_⟩
    rcases h with h | h
    · obtain ⟨r, rfl⟩ := Lead.eq_cons (c := Byte.openBrace) (by decide) h
      exact .inl rfl
    · obtain ⟨r, rfl⟩ := Lead.eq_cons (c := Byte.atSign) (by decide) h
      exact .inr rfl

theorem fits_punct_iff {p : Punct} : (punct p).Fits bs n ↔ n = 1 ∧ Lead.of bs = p.lead := by
  constructor
  · rintro ⟨w, r, rfl, rfl, rfl, -⟩
    exact ⟨rfl, p.lead_append r⟩
  · rintro ⟨rfl, h⟩
    rw [← p.ofByte_byte] at h
    obtain ⟨r, rfl⟩ := Lead.eq_cons p.byte_mem_marks h
    exact ⟨[p.byte], r, rfl, rfl, rfl, trivial⟩

theorem fits_dots_iff :
    dots.Fits bs n ↔ n = 3 ∧ Lead.of bs = .dot ∧ Lead.of (bs.drop 1) = .dot ∧
      Lead.of (bs.drop 2) = .dot := by
  constructor
  · rintro ⟨w, r, rfl, rfl, rfl, -⟩
    exact ⟨rfl, rfl, rfl, rfl⟩
  · rintro ⟨rfl, h₀, h₁, h₂⟩
    have mem : Byte.dot ∈ Lead.marks := by decide
    obtain ⟨r, rfl⟩ := Lead.eq_cons mem h₀
    obtain ⟨s, rfl⟩ := Lead.eq_cons mem h₁
    obtain ⟨t, rfl⟩ := Lead.eq_cons mem h₂
    exact ⟨Upcoming.dots, t, rfl, rfl, rfl, trivial⟩

theorem fits_word_iff {ws : Words} :
    (word ws).Fits bs n ↔ n = Word.length bs ∧ ws.Has (Word.read bs) := by
  constructor
  · rintro ⟨w, r, rfl, rfl, text, follow⟩
    rw [Word.length_append text.text follow, Word.read_append text.text follow]
    exact ⟨rfl, text⟩
  · rintro ⟨rfl, h⟩
    exact ⟨_, _, (Word.read_append_drop bs).symm, rfl, h, Word.apart_drop bs⟩

theorem fits_scalar_iff {ws : Words} :
    (scalar ws).Fits bs n ↔ n = Word.length bs ∧ ws.Has (Word.read bs) ∧
      Grammar.endsScalar (bs.drop n) = true := by
  rw [Grammar.endsScalar_iff]
  constructor
  · rintro ⟨w, r, rfl, rfl, text, follow⟩
    rw [Word.length_append text.text follow.apart, Word.read_append text.text follow.apart,
      List.drop_left]
    exact ⟨rfl, text, follow⟩
  · rintro ⟨rfl, h, follow⟩
    exact ⟨_, _, (Word.read_append_drop bs).symm, rfl, h, follow⟩

theorem fits_sigil_iff {s : Sigil} :
    (sigil s).Fits bs n ↔ n = 1 + Word.length (bs.drop 1) ∧ Lead.of bs = s.lead ∧
      Lead.of (bs.drop 1) = .name := by
  constructor
  · rintro ⟨w, r, rfl, rfl, ⟨v, text, rfl⟩, follow⟩
    rw [List.cons_append, List.drop_succ_cons, List.drop_zero, Word.length_append text follow]
    exact ⟨Nat.add_comm _ _, s.lead_append _, Word.lead_append text r⟩
  · rintro ⟨rfl, h, hn⟩
    rw [← s.ofByte_byte] at h
    obtain ⟨r, rfl⟩ := Lead.eq_cons s.byte_mem_marks h
    refine ⟨s.byte :: Word.read r, r.drop (Word.length r), ?_, Nat.add_comm _ _,
      ⟨_, Word.text_read hn, rfl⟩, Word.apart_drop r⟩
    rw [List.cons_append, Word.read_append_drop]

theorem fits_number {k : Kind} (h : Number.read bs = .ok (k, n)) :
    ∃ w r, bs = w ++ r ∧ w.length = n ∧ Number.Text k w ∧ Word.Ended r.head? := by
  obtain ⟨w, r, rfl, rfl, text, follow⟩ := Number.readFrom_ok h
  exact ⟨w, r, rfl, (Nat.zero_add _).symm, text, follow⟩

theorem fits_int_iff : int.Fits bs n ↔ Number.read bs = .ok (.int, n) := by
  constructor
  · rintro ⟨w, r, rfl, rfl, text, follow⟩
    exact Number.read_append text follow
  · exact fits_number

theorem fits_float_iff : float.Fits bs n ↔ Number.read bs = .ok (.float, n) := by
  constructor
  · rintro ⟨w, r, rfl, rfl, text, follow⟩
    exact Number.read_append text follow
  · exact fits_number

theorem fits_quoted_iff :
    quoted.Fits bs n ↔ Lead.of bs = .quote ∧ Block.fence.isPrefixOf bs = false ∧
      ∃ m, n = m + 2 ∧ Quoted.read (bs.drop 1) = .ok m := by
  constructor
  · rintro ⟨w, r, rfl, rfl, ⟨v, body, rfl⟩, follow⟩
    refine ⟨rfl, Block.isPrefixOf_eq_false fun hp => follow ?_, v.length, by simp, ?_⟩
    · refine List.prefix_of_prefix_length_le hp ?_ ?_
      · cases r with
        | nil => simp
        | cons b r => simp
      · cases r with
        | nil =>
          have := hp.length_le
          simpa using this
        | cons b r =>
          simp only [Block.fence, List.length_append, List.length_cons, List.length_nil,
            List.head?_cons, Option.toList_some]
          omega
    · simpa using Quoted.read_append body r
  · rintro ⟨h, hf, m, rfl, hr⟩
    obtain ⟨r, rfl⟩ := Lead.eq_cons (c := Byte.quote) (by decide) h
    obtain ⟨w, s, hs, rfl, body⟩ := Quoted.readFrom_ok hr
    rw [List.drop_succ_cons, List.drop_zero] at hs
    subst hs
    refine ⟨Byte.quote :: (w ++ [Byte.quote]), s, by simp, by simp, ⟨w, body, rfl⟩, ?_⟩
    intro hp
    refine Bool.eq_false_iff.1 hf (List.isPrefixOf_iff_prefix.2 (hp.trans ?_))
    cases s <;> simp

theorem fits_block_iff :
    block.Fits bs n ↔ Block.fence.isPrefixOf bs = true ∧
      ∃ m, n = m + 6 ∧ Block.read (bs.drop 3) = .ok m := by
  constructor
  · rintro ⟨w, r, rfl, rfl, ⟨v, body, rfl⟩, -⟩
    refine ⟨List.isPrefixOf_iff_prefix.2 ⟨v ++ Block.fence ++ r, by simp⟩, v.length, ?_, ?_⟩
    · simp only [Block.fence, List.length_append, List.length_cons, List.length_nil]
      omega
    · have := Block.read_append body r
      simpa [Block.fence] using this
  · rintro ⟨hf, m, rfl, hr⟩
    obtain ⟨t, rfl⟩ := List.isPrefixOf_iff_prefix.1 hf
    obtain ⟨s, w, r, ht, hs, rfl, body⟩ := Block.readFrom_ok hr
    obtain rfl := List.eq_nil_of_length_eq_zero hs
    replace ht : t = w ++ Block.fence ++ r := ht
    subst ht
    refine ⟨Block.fence ++ (w ++ Block.fence), r, by simp, ?_, ⟨w, body, rfl⟩, trivial⟩
    simp only [Block.fence, List.length_append, List.length_cons, List.length_nil]
    omega

end Shape

end QueryDoc
