import QueryDoc.Proofs.Literal
import QueryDoc.Proofs.Text.Utf8

/-! A text can be written in a quoted string in many ways. The scanner accepts all of them, and the
decoder turns each back into the text. -/
namespace QueryDoc

namespace Quoted

/-- The characters that have an escape of their own, with its letter. -/
def letters : List (Char × UInt8) :=
  [('"', Byte.quote), ('\\', Byte.backslash), ('/', Byte.slash), (Char.ofNat 0x08, Byte.lowerB),
    ('\t', Byte.lowerT), ('\n', Byte.lowerN), (Char.ofNat 0x0C, Byte.lowerF), ('\r', Byte.lowerR)]

/-- Four hexadecimal digits of either case write the code unit. -/
def Digits (unit : Nat) (ds : List UInt8) : Prop :=
  ∃ a b c d, ds.map Byte.hexValue? = [some a, some b, some c, some d] ∧
    unit = a * 0x1000 + b * 0x100 + c * 0x10 + d

/-- A unicode escape with these digits. -/
def unicodeEscape (ds : List UInt8) : List UInt8 := Byte.backslash :: Byte.lowerU :: ds

/-- The ways to write one character. -/
inductive Spelling (c : Char) : List UInt8 → Prop
  | raw (plain : c = '\t' ∨ 0x20 ≤ c.toNat) (quote : c ≠ '"') (backslash : c ≠ '\\') :
      Spelling c (String.utf8EncodeChar c)
  | letter {b : UInt8} (letter : (c, b) ∈ letters) : Spelling c [Byte.backslash, b]
  | unit {ds : List UInt8} (below : c.toNat < 0x10000) (digits : Digits c.toNat ds) :
      Spelling c (unicodeEscape ds)
  | pair {hs ls : List UInt8} (above : 0x10000 ≤ c.toNat)
      (high : Digits (0xD800 + (c.toNat - 0x10000) / 0x400) hs)
      (low : Digits (0xDC00 + (c.toNat - 0x10000) % 0x400) ls) :
      Spelling c (unicodeEscape hs ++ unicodeEscape ls)

/-- The ways to write a text, with a choice for each character. -/
inductive Spells : List Char → List UInt8 → Prop
  | nil : Spells [] []
  | cons {c : Char} {cs : List Char} {w ws : List UInt8} (first : Spelling c w)
      (rest : Spells cs ws) : Spells (c :: cs) (w ++ ws)

/-- The byte stands for itself in a quoted string. -/
structure Plain (b : UInt8) : Prop where
  quote : b ≠ Byte.quote
  backslash : b ≠ Byte.backslash
  control : Byte.isQuotedControl b = false

theorem not_isQuotedControl {b : UInt8} (h : 0x20 ≤ b.toNat) : Byte.isQuotedControl b = false := by
  have : ¬b < 0x20 := by
    rw [UInt8.lt_iff_toNat_lt]
    exact Nat.not_lt.2 h
  simp [Byte.isQuotedControl, this]

theorem plain_of_mem_encode {c : Char} (plain : c = '\t' ∨ 0x20 ≤ c.toNat) (quote : c ≠ '"')
    (backslash : c ≠ '\\') {b : UInt8} (hb : b ∈ String.utf8EncodeChar c) : Plain b := by
  by_cases ascii : c.toNat < 0x80
  · have small : c.val.toNat ≤ 0x7F := Nat.le_of_lt_succ ascii
    simp only [String.utf8EncodeChar, if_pos small, List.mem_singleton] at hb
    have value : b.toNat = c.toNat := by
      rw [hb, UInt8.toNat_ofNat_of_lt' (Nat.lt_of_le_of_lt small (by decide))]
      rfl
    have char : c = Char.ofNat b.toNat := by rw [value, Char.ofNat_toNat]
    refine ⟨?_, ?_, ?_⟩
    · rintro rfl
      exact quote char
    · rintro rfl
      exact backslash char
    · rcases plain with rfl | large
      · obtain rfl : b = Byte.tab := UInt8.toNat_inj.1 value
        decide
      · exact not_isQuotedControl (by omega)
  · have beyond := Utf8.le_of_mem_encode (Nat.le_of_not_lt ascii) hb
    refine ⟨?_, ?_, not_isQuotedControl (by omega)⟩
    · rintro rfl
      exact absurd beyond (by decide)
    · rintro rfl
      exact absurd beyond (by decide)

theorem Body.append_plain {w ws : List UInt8} (h : ∀ b ∈ w, Plain b) (rest : Body ws) :
    Body (w ++ ws) := by
  induction w with
  | nil => exact rest
  | cons b w ih =>
    have plain := h b List.mem_cons_self
    exact .raw plain.quote plain.backslash plain.control
      (ih fun b hb => h b (List.mem_cons_of_mem _ hb))

theorem Digits.body {unit : Nat} {ds ws : List UInt8} (h : Digits unit ds) (rest : Body ws) :
    Body (unicodeEscape ds ++ ws) := by
  obtain ⟨a, b, c, d, hd, -⟩ := h
  refine .unicode ?_ ?_ rest
  · simpa using congrArg List.length hd
  · intro e he
    have member : Byte.hexValue? e ∈ ds.map Byte.hexValue? := List.mem_map_of_mem he
    rw [hd] at member
    simp only [List.mem_cons, List.not_mem_nil, or_false] at member
    rcases member with h | h | h | h <;> simp [Byte.isHexDigit, h]

theorem Spells.body {cs : List Char} {w : List UInt8} (h : Spells cs w) : Body w := by
  induction h with
  | nil => exact .nil
  | @cons c _ _ _ first _ ih =>
    cases first with
    | raw plain quote backslash =>
      apply Body.append_plain _ ih
      intro b hb
      exact plain_of_mem_encode plain quote backslash hb
    | @letter b letter =>
      have table : ∀ l ∈ letters, Byte.isSimpleEscape l.2 = true := by decide
      exact .escape (table (c, b) letter) ih
    | unit below digits => exact digits.body ih
    | pair above high low =>
      rw [List.append_assoc]
      exact high.body (low.body ih)

end Quoted

namespace Unescape.Reader

/-- The reader between two written characters. -/
def between (out : Array UInt8) : Reader := ⟨.plain, none, out⟩

theorem step_plain (out : Array UInt8) {b : UInt8} (h : b ≠ Byte.backslash) :
    (between out).step b = between (out.push b) := by
  simp [step, between, put, h, encode, Utf16.flush]

theorem foldl_plain (out : Array UInt8) {w : List UInt8} (h : ∀ b ∈ w, b ≠ Byte.backslash) :
    w.foldl step (between out) = between (out ++ w) := by
  induction w generalizing out with
  | nil => simp
  | cons b w ih =>
    rw [List.foldl_cons, step_plain out (h b List.mem_cons_self),
      ih _ fun b hb => h b (List.mem_cons_of_mem _ hb)]
    simp

theorem foldl_letter (out : Array UInt8) {c : Char} {b : UInt8} (h : (c, b) ∈ Quoted.letters) :
    [Byte.backslash, b].foldl step (between out) = between (out ++ String.utf8EncodeChar c) := by
  have table : ∀ l ∈ Quoted.letters,
      l.2 ≠ Byte.lowerU ∧ String.utf8EncodeChar l.1 = [escaped l.2] := by decide
  obtain ⟨letter, bytes⟩ := table (c, b) h
  simp [bytes, step, between, put, letter, encode, Utf16.flush]

theorem foldl_unicodeEscape (held : Option Nat) (out : Array UInt8) {unit : Nat} {ds : List UInt8}
    (h : Quoted.Digits unit ds) :
    (Quoted.unicodeEscape ds).foldl step ⟨.plain, held, out⟩ =
      ⟨.plain, (Utf16.feed held unit).1, out ++ encode (Utf16.feed held unit).2⟩ := by
  obtain ⟨a, b, c, d, hd, rfl⟩ := h
  simp only [List.map_eq_cons_iff, List.map_eq_nil_iff] at hd
  obtain ⟨p, _, rfl, hp, q, _, rfl, hq, r, _, rfl, hr, s, _, rfl, hs, rfl⟩ := hd
  have value : a * 0x1000 + b * 0x100 + c * 0x10 + d =
      (((0 * 16 + a) * 16 + b) * 16 + c) * 16 + d := by omega
  rw [value]
  simp only [Quoted.unicodeEscape, List.foldl_cons, List.foldl_nil, step, appendDigit, hp, hq, hr,
    hs, if_true]
  rfl

end Unescape.Reader

theorem Utf16.feed_char {c : Char} (below : c.toNat < 0x10000) :
    feed none c.toNat = (none, [c]) := by
  have valid : c.toNat < 0xD800 ∨ 0xDFFF < c.toNat ∧ c.toNat < 0x110000 := c.valid
  have high : isHigh c.toNat = false := by
    simp only [isHigh, Bool.and_eq_false_iff, decide_eq_false_iff_not]
    omega
  have low : isLow c.toNat = false := by
    simp only [isLow, Bool.and_eq_false_iff, decide_eq_false_iff_not]
    omega
  simp [feed, high, low, flush, Char.ofNat_toNat]

theorem Utf16.feed_surrogates {c : Char} (above : 0x10000 ≤ c.toNat) :
    let high := 0xD800 + (c.toNat - 0x10000) / 0x400
    let low := 0xDC00 + (c.toNat - 0x10000) % 0x400
    feed none high = (some high, []) ∧ feed (some high) low = (none, [c]) := by
  intro high low
  have valid : c.toNat < 0xD800 ∨ 0xDFFF < c.toNat ∧ c.toNat < 0x110000 := c.valid
  have isHigh_high : isHigh high = true := by
    simp only [isHigh, Bool.and_eq_true, decide_eq_true_eq, high]
    omega
  have isHigh_low : isHigh low = false := by
    simp only [isHigh, Bool.and_eq_false_iff, decide_eq_false_iff_not, low]
    omega
  have isLow_low : isLow low = true := by
    simp only [isLow, Bool.and_eq_true, decide_eq_true_eq, low]
    omega
  have whole : 0x10000 + (high - 0xD800) * 0x400 + (low - 0xDC00) = c.toNat := by
    simp only [high, low]
    omega
  constructor
  · simp [feed, isHigh_high, flush]
  · simp [feed, isHigh_low, isLow_low, pair, whole, Char.ofNat_toNat]

namespace Quoted

open Unescape

theorem Spelling.foldl_step {c : Char} {w : List UInt8} (h : Spelling c w) (out : Array UInt8) :
    w.foldl Reader.step (.between out) = .between (out ++ String.utf8EncodeChar c) := by
  cases h with
  | raw plain quote backslash =>
    apply Reader.foldl_plain
    intro b hb
    exact (plain_of_mem_encode plain quote backslash hb).backslash
  | letter letter => exact Reader.foldl_letter out letter
  | unit below digits =>
    rw [Reader.between, Reader.foldl_unicodeEscape _ _ digits, Utf16.feed_char below]
    simp [Reader.between, encode]
  | pair above high low =>
    obtain ⟨first, second⟩ := Utf16.feed_surrogates above
    rw [List.foldl_append, Reader.between, Reader.foldl_unicodeEscape _ _ high, first,
      Reader.foldl_unicodeEscape _ _ low, second]
    simp [Reader.between, encode]

theorem Spells.foldl_step {cs : List Char} {w : List UInt8} (h : Spells cs w) (out : Array UInt8) :
    w.foldl Reader.step (.between out) = .between (out ++ encode cs) := by
  induction h generalizing out with
  | nil => simp [encode]
  | cons first rest ih =>
    rw [List.foldl_append, first.foldl_step, ih]
    simp [encode, ← Array.toList_inj, Reader.between]

theorem Spells.content {cs : List Char} {w : List UInt8} (h : Spells cs w) :
    Unescape.content w = cs.flatMap String.utf8EncodeChar := by
  have read : w.foldl Reader.step .start = .between (#[] ++ encode cs) := h.foldl_step #[]
  rw [Unescape.content, read]
  simp [Reader.between, Reader.finish, encode, Utf16.flush]

end Quoted

/-- Whatever way a text is spelled in a quoted string, the string is accepted, spans its body and
stands for the text. -/
theorem Scanner.conveys_quoted (s : Scanner) {cs : List Char} {body : List UInt8}
    (h : Quoted.Spells cs body) :
    s.Conveys (Literal.document (Byte.quote :: (body ++ [Byte.quote]))) .quotedString body
      (cs.flatMap String.utf8EncodeChar) := by
  have text : Shape.quoted.Text ([Byte.quote] ++ (body ++ [Byte.quote])) := ⟨body, h.body, rfl⟩
  have span : Shape.quoted.span ([Byte.quote] ++ (body ++ [Byte.quote])).length =
      (1, 1 + body.length) := by
    simp only [Shape.span, List.length_append, List.length_cons, List.length_nil, Prod.mk.injEq,
      true_and]
    omega
  have conveys := s.conveys_literal (t := .quoted) (by simp [Terminal.scalars]) rfl text
    (Shape.follow_quoted text (by decide)) span
  rwa [Kind.content, h.content] at conveys

/-- The text `é😀"é`, spelled by its bytes, a surrogate pair, a letter and a code unit. -/
theorem Scanner.conveys_quoted_mixed :
    let body : List UInt8 :=
      [0xC3, 0xA9] ++ ([0x5C, 0x75, 0x44, 0x38, 0x33, 0x64, 0x5C, 0x75, 0x64, 0x65, 0x30, 0x30] ++
        ([0x5C, 0x22] ++ ([0x5C, 0x75, 0x30, 0x30, 0x65, 0x39] ++ [])))
    Quoted.Spells ['é', '😀', '"', 'é'] body ∧
      standard.Conveys (Literal.document (Byte.quote :: (body ++ [Byte.quote]))) .quotedString body
        [0xC3, 0xA9, 0xF0, 0x9F, 0x98, 0x80, 0x22, 0xC3, 0xA9] := by
  intro body
  have raw : Quoted.Spelling 'é' [0xC3, 0xA9] := .raw (.inr (by decide)) (by decide) (by decide)
  have pair : Quoted.Spelling '😀' (Quoted.unicodeEscape [0x44, 0x38, 0x33, 0x64] ++
      Quoted.unicodeEscape [0x64, 0x65, 0x30, 0x30]) :=
    .pair (by decide) ⟨0xD, 0x8, 0x3, 0xD, by decide, by decide⟩
      ⟨0xD, 0xE, 0x0, 0x0, by decide, by decide⟩
  have letter : Quoted.Spelling '"' [0x5C, 0x22] := .letter (by decide)
  have unit : Quoted.Spelling 'é' [0x5C, 0x75, 0x30, 0x30, 0x65, 0x39] :=
    .unit (by decide) ⟨0x0, 0x0, 0xE, 0x9, by decide, by decide⟩
  have spells : Quoted.Spells ['é', '😀', '"', 'é'] body :=
    .cons raw (.cons pair (.cons letter (.cons unit .nil)))
  have bytes : ['é', '😀', '"', 'é'].flatMap String.utf8EncodeChar =
      [0xC3, 0xA9, 0xF0, 0x9F, 0x98, 0x80, 0x22, 0xC3, 0xA9] := by decide +kernel
  have conveys := standard.conveys_quoted spells
  rw [bytes] at conveys
  exact ⟨spells, conveys⟩

end QueryDoc
