import QueryDoc.Lexical
import QueryDoc.Proofs.Text.Number
import QueryDoc.Proofs.Text.Word
import QueryDoc.Byte

/-! No character reaches over a place that has an ASCII byte on either side, and the readers of
lexemes stop at such places. -/
namespace QueryDoc

namespace Utf8

/-- The bytes of a sequence of characters. -/
def Valid (bs : List UInt8) : Prop := ∃ cs : List Char, bs = cs.flatMap String.utf8EncodeChar

/-- This is an ASCII byte, if there is one. -/
def Ascii (next : Option UInt8) : Prop := ∀ b, next = some b → b < 0x80

/-- No character reaches from the bytes in front into the bytes behind. -/
def Severed (front rest : List UInt8) : Prop := Ascii front.getLast? ∨ Ascii rest.head?

/-- Reading `n` bytes leads from a place between characters to another one. -/
def Whole (bs : List UInt8) (n : Nat) : Prop :=
  ∀ front, Severed front bs → Severed (front ++ bs.take n) (bs.drop n)

/-- The offset lies in the document and no character reaches over it. -/
def Seam (doc : List UInt8) (n : Nat) : Prop := n ≤ doc.length ∧ Severed (doc.take n) (doc.drop n)

/-- The document is a sequence of characters, and the first of those from offset `n` on is
`next`. -/
def Stands (doc : List UInt8) (n : Nat) (next : Option Char) : Prop :=
  ∃ before after : List Char,
    doc = before.flatMap String.utf8EncodeChar ++ after.flatMap String.utf8EncodeChar ∧
      n = (before.flatMap String.utf8EncodeChar).length ∧ next = after.head?

/-- The offset is the place between two characters, or one of the two ends. -/
def CharBoundary (doc : List UInt8) (n : Nat) : Prop := ∃ next, Stands doc n next

theorem le_of_mem_encode {c : Char} (h : 0x80 ≤ c.toNat) {b : UInt8}
    (hb : b ∈ String.utf8EncodeChar c) : 0x80 ≤ b.toNat := by
  have byte {n : Nat} (low : 0x80 ≤ n) (high : n < 0x100) : 0x80 ≤ (UInt8.ofNat n).toNat := by
    rwa [UInt8.toNat_ofNat_of_lt' high]
  have ascii : ¬c.val.toNat ≤ 0x7F := by
    have : c.val.toNat = c.toNat := rfl
    omega
  simp only [String.utf8EncodeChar, if_neg ascii] at hb
  split at hb
  · simp only [List.mem_cons, List.not_mem_nil, or_false] at hb
    rcases hb with rfl | rfl <;> exact byte (by omega) (by omega)
  · split at hb
    · simp only [List.mem_cons, List.not_mem_nil, or_false] at hb
      rcases hb with rfl | rfl | rfl <;> exact byte (by omega) (by omega)
    · simp only [List.mem_cons, List.not_mem_nil, or_false] at hb
      rcases hb with rfl | rfl | rfl | rfl <;> exact byte (by omega) (by omega)

theorem eq_singleton_of_lt {c : Char} {b : UInt8} (hb : b ∈ String.utf8EncodeChar c)
    (ascii : b < 0x80) : String.utf8EncodeChar c = [b] := by
  have small : c.val.toNat ≤ 0x7F := by
    refine Nat.le_of_not_lt fun large => ?_
    have beyond : 0x80 ≤ b.toNat := le_of_mem_encode large hb
    have ascii : b.toNat < 0x80 := ascii
    omega
  rw [String.utf8EncodeChar, if_pos small] at hb ⊢
  rw [List.mem_singleton.1 hb]

theorem valid_nil : Valid [] := ⟨[], rfl⟩

theorem valid_ascii {b : UInt8} (h : b < 0x80) : Valid [b] := by
  have lt : b.toNat < 0x80 := h
  have value : (Char.ofNat b.toNat).val.toNat = b.toNat := by
    have valid : b.toNat.isValidChar := .inl (by omega)
    rw [Char.ofNat, dif_pos valid]
    rfl
  have encoded : String.utf8EncodeChar (Char.ofNat b.toNat) = [b] := by
    simp only [String.utf8EncodeChar, value]
    rw [if_pos (by omega)]
    simp
  exact ⟨[Char.ofNat b.toNat], by simp [encoded]⟩

theorem Valid.append {u v : List UInt8} (hu : Valid u) (hv : Valid v) : Valid (u ++ v) := by
  obtain ⟨cs, rfl⟩ := hu
  obtain ⟨ds, rfl⟩ := hv
  exact ⟨cs ++ ds, List.flatMap_append.symm⟩

theorem lt_of_all {w : List UInt8} (h : w.all (· < 0x80) = true) : ∀ b ∈ w, b < 0x80 := by
  simpa using h

theorem severed_nil (rest : List UInt8) : Severed [] rest := .inl nofun

theorem severed_end (front : List UInt8) : Severed front [] := .inr nofun

theorem severed_before {b : UInt8} (h : b < 0x80) (front rest : List UInt8) :
    Severed front (b :: rest) := by
  refine .inr ?_
  rintro _ ⟨⟩
  exact h

theorem severed_behind {b : UInt8} (h : b < 0x80) (front rest : List UInt8) :
    Severed (front ++ [b]) rest := by
  refine .inl ?_
  rw [List.getLast?_concat]
  rintro _ ⟨⟩
  exact h

theorem Severed.of_append {u v rest : List UInt8} (h : Severed (u ++ v) rest) : Severed v rest := by
  cases v with
  | nil => exact severed_nil rest
  | cons b v =>
    rcases h with h | h
    · refine .inl fun c hc => h c ?_
      rw [List.getLast?_append, hc, Option.some_or]
    · exact .inr h

theorem Valid.cut {u v : List UInt8} (h : Valid (u ++ v)) (hs : Severed u v) :
    Valid u ∧ Valid v := by
  obtain ⟨cs, hcs⟩ := h
  induction cs generalizing u with
  | nil =>
    obtain ⟨rfl, rfl⟩ := List.append_eq_nil_iff.1 hcs
    exact ⟨valid_nil, valid_nil⟩
  | cons c cs ih =>
    rw [List.flatMap_cons] at hcs
    have first : Valid (String.utf8EncodeChar c) := ⟨[c], by simp⟩
    rcases List.append_eq_append_iff.1 hcs with ⟨w, hc, hv⟩ | ⟨w, hu, hr⟩
    · have rest : Valid (cs.flatMap String.utf8EncodeChar) := ⟨cs, rfl⟩
      rcases List.eq_nil_or_concat u with rfl | ⟨u, b, rfl⟩
      · refine ⟨valid_nil, ?_⟩
        rw [hv, ← hc.trans (List.nil_append w)]
        exact first.append rest
      · cases w with
        | nil =>
          rw [List.append_nil] at hc
          rw [hv, List.nil_append, ← hc]
          exact ⟨first, rest⟩
        | cons d w =>
          have ascii : ∃ e ∈ String.utf8EncodeChar c, e < 0x80 := by
            rcases hs with hs | hs
            · exact ⟨b, by simp [hc], hs b (by simp)⟩
            · exact ⟨d, by simp [hc], hs d (by rw [hv]; rfl)⟩
          obtain ⟨e, member, lt⟩ := ascii
          have length := congrArg List.length (eq_singleton_of_lt member lt)
          simp only [hc, List.length_append, List.length_cons, List.length_concat,
            List.length_nil] at length
          omega
    · rw [hu] at hs
      obtain ⟨hw, hv⟩ := ih hs.of_append hr.symm
      exact ⟨hu ▸ first.append hw, hv⟩

theorem whole_zero (bs : List UInt8) : Whole bs 0 := by
  intro front h
  simpa using h

theorem Whole.add {bs : List UInt8} {n m : Nat} (hn : Whole bs n) (hm : Whole (bs.drop n) m) :
    Whole bs (n + m) := by
  intro front h
  have := hm _ (hn front h)
  rwa [List.append_assoc, ← List.take_add, List.drop_drop] at this

theorem Whole.cons {b : UInt8} {bs : List UInt8} {n : Nat} (h : b < 0x80) (hn : Whole bs n) :
    Whole (b :: bs) (n + 1) := by
  intro front _
  have := hn _ (severed_behind h front bs)
  rwa [List.append_assoc] at this

theorem whole_behind {b : UInt8} (h : b < 0x80) (v r : List UInt8) :
    Whole (v ++ [b] ++ r) (v ++ [b]).length := by
  intro front _
  rw [List.take_left, List.drop_left, ← List.append_assoc]
  exact severed_behind h (front ++ v) r

theorem whole_ascii {w : List UInt8} (h : ∀ b ∈ w, b < 0x80) (r : List UInt8) :
    Whole (w ++ r) w.length := by
  induction w with
  | nil => exact whole_zero r
  | cons b w ih =>
    exact .cons (h b List.mem_cons_self) (ih fun b hb => h b (List.mem_cons_of_mem _ hb))

theorem seam_zero (doc : List UInt8) : Seam doc 0 := ⟨Nat.zero_le _, severed_nil _⟩

theorem Seam.add {doc : List UInt8} {n k : Nat} (h : Seam doc n) (whole : Whole (doc.drop n) k)
    (le : k ≤ (doc.drop n).length) : Seam doc (n + k) := by
  obtain ⟨inside, severed⟩ := h
  constructor
  · rw [List.length_drop] at le
    omega
  · have := whole _ severed
    rwa [← List.take_add, List.drop_drop] at this

theorem first?_flatMap (cs : List Char) :
    first? (cs.flatMap String.utf8EncodeChar) = cs.head? := by
  cases cs with
  | nil => rfl
  | cons c cs =>
    have first := decode?_encode_append c (cs.flatMap String.utf8EncodeChar)
    rw [List.flatMap_cons]
    generalize hb : String.utf8EncodeChar c ++ cs.flatMap String.utf8EncodeChar = bs at first ⊢
    cases bs with
    | nil =>
      have empty := (List.append_eq_nil_iff.1 hb).1
      exact absurd empty (String.utf8EncodeChar_ne_nil)
    | cons b bs => simp [first?, first]

theorem Seam.stands {doc : List UInt8} {n : Nat} (h : Seam doc n) (valid : Valid doc) :
    Stands doc n (first? (doc.drop n)) := by
  rw [← List.take_append_drop n doc] at valid
  obtain ⟨⟨before, hb⟩, after, ha⟩ := valid.cut h.2
  refine ⟨before, after, ?_, ?_, ?_⟩
  · rw [← hb, ← ha, List.take_append_drop]
  · rw [← hb, List.length_take, Nat.min_eq_left h.1]
  · rw [ha, first?_flatMap]

/-- The bytes between two seams of a valid document are valid. -/
theorem Seam.valid_between {doc : List UInt8} {m n : Nat} (hm : Seam doc m) (hn : Seam doc n)
    (le : m ≤ n) (valid : Valid doc) : Valid ((doc.drop m).take (n - m)) := by
  rw [← List.take_append_drop m doc] at valid
  have behind := (valid.cut hm.2).2
  have inner := hn.2
  obtain ⟨k, rfl⟩ := Nat.exists_eq_add_of_le le
  rw [List.take_add, ← List.drop_drop] at inner
  rw [← List.take_append_drop k (doc.drop m)] at behind
  rw [Nat.add_sub_cancel_left]
  exact (behind.cut inner.of_append).1

end Utf8

open Utf8

/-! The bytes of names, numbers, escapes and gaps, apart from comments, are ASCII. -/

namespace Byte

variable {b : UInt8}

theorem lt_of_isDigit (h : isDigit b = true) : b < 0x80 := by
  simp only [isDigit, Bool.and_eq_true, decide_eq_true_eq] at h
  exact UInt8.lt_of_le_of_lt h.2 (by decide)

theorem lt_of_isLetter (h : isLetter b = true) : b < 0x80 := by
  simp only [isLetter, Bool.or_eq_true, Bool.and_eq_true, decide_eq_true_eq] at h
  rcases h with ⟨-, h⟩ | ⟨-, h⟩ <;> exact UInt8.lt_of_le_of_lt h (by decide)

theorem lt_of_isName (h : isName b = true) : b < 0x80 := by
  simp only [isName, isNameStart, Bool.or_eq_true, beq_iff_eq] at h
  rcases h with (rfl | letter) | digit
  · decide
  · exact lt_of_isLetter letter
  · exact lt_of_isDigit digit

theorem lt_of_isHexDigit (h : isHexDigit b = true) : b < 0x80 := by
  unfold isHexDigit hexValue? at h
  split at h
  · next digit => exact lt_of_isDigit digit
  · split at h
    · next lower =>
        simp only [Bool.and_eq_true, decide_eq_true_eq] at lower
        exact UInt8.lt_of_le_of_lt lower.2 (by decide)
    · split at h
      · next upper =>
          simp only [Bool.and_eq_true, decide_eq_true_eq] at upper
          exact UInt8.lt_of_le_of_lt upper.2 (by decide)
      · cases h

theorem lt_of_isIgnored (h : isIgnored b = true) : b < 0x80 := by
  simp only [isIgnored, isLineEnd, Bool.or_eq_true, beq_iff_eq] at h
  rcases h with ((rfl | rfl) | rfl | rfl) | rfl <;> decide

theorem lt_of_isQuotedControl (h : isQuotedControl b = true) : b < 0x80 := by
  simp only [isQuotedControl, Bool.and_eq_true, decide_eq_true_eq] at h
  exact UInt8.lt_trans h.1 (by decide)

theorem lt_of_isBlockControl (h : isBlockControl b = true) : b < 0x80 := by
  simp only [isBlockControl, Bool.and_eq_true, decide_eq_true_eq] at h
  exact UInt8.lt_trans h.1.1 (by decide)

end Byte

namespace Gap

theorem lt_of_isLinking {b : UInt8} (h : isLinking b = true) : b < 0x80 := by
  simp only [isLinking, Bool.or_eq_true, beq_iff_eq] at h
  rcases h with (ignored | rfl) | rfl
  · exact Byte.lt_of_isIgnored ignored
  · decide
  · decide

/-- A run of gaps ends beside an ASCII byte or at the end. Inside a comment any bytes may stand in
front. -/
theorem severed_count {skips : UInt8 → Bool} (hs : ∀ b, skips b = true → b < 0x80)
    (comment : Bool) (bs front : List UInt8) (h : comment = true ∨ Severed front bs) :
    Severed (front ++ bs.take (count skips comment 0 bs)) (bs.drop (count skips comment 0 bs)) := by
  have lineEnd (b : UInt8) (hb : Byte.isLineEnd b = true) : b < 0x80 :=
    Byte.lt_of_isIgnored (by simp [Byte.isIgnored, hb])
  induction bs generalizing comment front with
  | nil =>
    rw [List.drop_nil]
    exact severed_end _
  | cons b bs ih =>
    have further (comment : Bool) (h : comment = true ∨ b < 0x80) :
        Severed (front ++ (b :: bs).take (1 + count skips comment 0 bs))
          ((b :: bs).drop (1 + count skips comment 0 bs)) := by
      have := ih comment (front ++ [b]) (h.imp_right fun hb => severed_behind hb front bs)
      rwa [List.append_assoc, List.singleton_append, ← List.take_succ_cons,
        ← List.drop_succ_cons, Nat.add_comm] at this
    cases comment with
    | true =>
      rw [count, count_eq_add]
      refine further _ ?_
      by_cases hb : Byte.isLineEnd b = true
      · exact .inr (lineEnd b hb)
      · exact .inl (by simp [hb])
    | false =>
      rw [count]
      split
      · next hb =>
          rw [count_eq_add]
          exact further false (.inr (hs b hb))
      · split
        · rw [count_eq_add]
          exact further true (.inl rfl)
        · exact whole_zero (b :: bs) front (h.resolve_left Bool.false_ne_true)

theorem whole_length (bs : List UInt8) : Whole bs (length bs) := fun front h =>
  severed_count (fun _ => Byte.lt_of_isIgnored) false bs front (.inr h)

theorem whole_linkingLength (bs : List UInt8) : Whole bs (linkingLength bs) := fun front h =>
  severed_count (fun _ => lt_of_isLinking) false bs front (.inr h)

end Gap

theorem Word.whole_length (bs : List UInt8) : Whole bs (length bs) := by
  have names : ∀ b ∈ read bs, b < 0x80 := by
    intro b hb
    exact Byte.lt_of_isName (List.all_eq_true.1 List.all_takeWhile b hb)
  have whole := whole_ascii names (bs.drop (length bs))
  rwa [read_append_drop] at whole

theorem Word.whole_on {bs : List UInt8} (h : isOn bs = true) : Whole bs 2 :=
  length_of_isOn h ▸ whole_length bs

theorem Quoted.severed_error {m : Mode} {n k : Nat} {bs : List UInt8} {x : Expect}
    (h : readFrom m n bs = .error (k, x)) (front : List UInt8)
    (hm : m = .plain ∨ Ascii front.getLast?) :
    ∃ i, k = n + i ∧ Severed (front ++ bs.take i) (bs.drop i) := by
  induction bs generalizing m n front with
  | nil =>
    cases h
    exact ⟨0, rfl, severed_end _⟩
  | cons b bs ih =>
    rw [readFrom] at h
    split at h
    · cases h
    · split at h
      · next q hq =>
          have inside : q = .plain ∨ b < 0x80 := by
            unfold Mode.next? at hq
            split at hq
            · split at hq
              · next hb => exact .inr (hb ▸ by decide)
              · split at hq <;> cases hq
                exact .inl rfl
            · split at hq
              · next hb => exact .inr (hb ▸ by decide)
              · split at hq <;> cases hq
                exact .inl rfl
            · split at hq <;> cases hq
              exact .inl rfl
            · split at hq <;> cases hq
              next hb => exact .inr (Byte.lt_of_isHexDigit hb)
          have last : q = .plain ∨ Ascii (front ++ [b]).getLast? := by
            refine inside.imp_right fun hb => ?_
            rw [List.getLast?_concat]
            rintro _ ⟨⟩
            exact hb
          obtain ⟨i, rfl, severed⟩ := ih h (front ++ [b]) last
          refine ⟨i + 1, by omega, ?_⟩
          rwa [List.append_assoc] at severed
      · next hq =>
          cases h
          refine ⟨0, rfl, ?_⟩
          rw [List.take_zero, List.append_nil, List.drop_zero]
          rcases hm with rfl | ascii
          · simp only [Mode.next?] at hq
            split at hq
            · cases hq
            · split at hq
              · next hb => exact severed_before (Byte.lt_of_isQuotedControl hb) front bs
              · cases hq
          · exact .inl ascii

theorem Quoted.whole_error {bs : List UInt8} {n : Nat} {x : Expect}
    (h : read bs = .error (n, x)) : Whole bs n := by
  intro front _
  obtain ⟨i, rfl, severed⟩ := severed_error h front (.inl rfl)
  rwa [Nat.zero_add]

theorem Block.whole_fence {bs : List UInt8} (h : fence.isPrefixOf bs = true) : Whole bs 3 := by
  obtain ⟨r, rfl⟩ := List.isPrefixOf_iff_prefix.1 h
  exact whole_ascii (lt_of_all (by decide)) r

theorem Block.severed_error {skip n k : Nat} {bs : List UInt8} (h : readFrom skip n bs = .error k)
    (front : List UInt8) : ∃ i, k = n + i ∧ Severed (front ++ bs.take i) (bs.drop i) := by
  fun_induction readFrom skip n bs generalizing front with
  | case1 =>
    cases h
    exact ⟨0, rfl, severed_end _⟩
  | case2 skip n b bs ih =>
    obtain ⟨i, rfl, severed⟩ := ih h (front ++ [b])
    rw [List.append_assoc] at severed
    exact ⟨i + 1, by omega, severed⟩
  | case3 => cases h
  | case4 n b bs _ _ ih =>
    obtain ⟨i, rfl, severed⟩ := ih h (front ++ [b])
    rw [List.append_assoc] at severed
    exact ⟨i + 1, by omega, severed⟩
  | case5 n b bs _ _ hb =>
    cases h
    refine ⟨0, rfl, ?_⟩
    rw [List.take_zero, List.append_nil, List.drop_zero]
    exact severed_before (Byte.lt_of_isBlockControl hb) front bs
  | case6 n b bs _ _ _ ih =>
    obtain ⟨i, rfl, severed⟩ := ih h (front ++ [b])
    rw [List.append_assoc] at severed
    exact ⟨i + 1, by omega, severed⟩

theorem Block.whole_error {bs : List UInt8} {n : Nat} (h : read bs = .error n) : Whole bs n := by
  intro front _
  obtain ⟨i, rfl, severed⟩ := severed_error h front
  rwa [Nat.zero_add]

theorem Number.lt_of_next? {p q : Phase} {b : UInt8} (h : p.next? b = some q) : b < 0x80 := by
  have mark (h : isExponentMark b = true) : b < 0x80 := by
    rcases isExponentMark_iff.1 h with rfl | rfl <;> decide
  cases p <;> simp only [Phase.next?] at h <;> (repeat' split at h) <;> cases h
  any_goals first | exact Byte.lt_of_isDigit ‹_› | exact mark ‹_› | (subst_vars; decide)
  next sign => rcases sign with rfl | rfl <;> decide

theorem Number.lt_of_readFrom {p : Phase} {k : Kind} {n m : Nat} {bs : List UInt8}
    (h : readFrom p n bs = .ok (k, m)) : ∃ i, m = n + i ∧ ∀ b ∈ bs.take i, b < 0x80 := by
  induction bs generalizing p n with
  | nil =>
    unfold readFrom at h
    split at h <;> cases h
    exact ⟨0, rfl, fun b hb => absurd hb List.not_mem_nil⟩
  | cons b bs ih =>
    rw [readFrom] at h
    split at h
    · next q hq =>
        obtain ⟨i, rfl, ascii⟩ := ih h
        refine ⟨i + 1, by omega, fun c hc => ?_⟩
        rcases List.mem_cons.1 hc with rfl | hc
        · exact lt_of_next? hq
        · exact ascii c hc
    · refine ⟨0, ?_, fun b hb => absurd hb List.not_mem_nil⟩
      split at h
      · split at h <;> cases h
        rfl
      · cases h

theorem Number.Text.lt {k : Kind} {w : List UInt8} (h : Text k w) : ∀ b ∈ w, b < 0x80 := by
  have read : read (w ++ []) = .ok (k, w.length) := read_append h nofun
  obtain ⟨i, length, ascii⟩ := lt_of_readFrom read
  rw [List.append_nil] at ascii
  intro b hb
  refine ascii b ?_
  rwa [← Nat.zero_add i, ← length, List.take_length]

theorem Number.whole_readFrom {p : Phase} {n k : Nat} {bs : List UInt8}
    (h : readFrom p n bs = .error k) : ∃ i, k = n + i ∧ Whole bs i := by
  induction bs generalizing p n with
  | nil =>
    refine ⟨0, ?_, whole_zero []⟩
    unfold readFrom at h
    split at h <;> cases h
    rfl
  | cons b bs ih =>
    rw [readFrom] at h
    split at h
    · next q hq =>
        obtain ⟨i, rfl, whole⟩ := ih h
        exact ⟨i + 1, by omega, whole.cons (lt_of_next? hq)⟩
    · refine ⟨0, ?_, whole_zero _⟩
      split at h
      · split at h <;> cases h
        rfl
      · cases h
        rfl

theorem Number.whole_error {bs : List UInt8} {n : Nat} (h : read bs = .error n) : Whole bs n := by
  obtain ⟨i, rfl, whole⟩ := whole_readFrom h
  rwa [Nat.zero_add]

theorem Lead.lt_of_ofByte {b : UInt8} (h : ofByte b ≠ .stray) : b < 0x80 := by
  unfold ofByte at h
  split at h
  · next name => exact Byte.lt_of_isName (Byte.isName_of_isNameStart name)
  · split at h
    · next number =>
        simp only [Bool.or_eq_true, beq_iff_eq] at number
        rcases number with (digit | rfl) | rfl
        · exact Byte.lt_of_isDigit digit
        · decide
        · decide
    · unfold ofPunctuation at h
      split at h <;> first | decide | exact absurd rfl h

theorem Lead.whole_one {bs : List UInt8} {l : Lead} (h : of bs = l)
    (known : l ≠ .nothing ∧ l ≠ .stray) : Whole bs 1 := by
  subst h
  cases bs with
  | nil => exact absurd rfl known.1
  | cons b bs => exact .cons (lt_of_ofByte known.2) (whole_zero bs)

end QueryDoc
