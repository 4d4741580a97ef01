import Mathlib.Data.List.Nodup
import QueryDoc.Error

/-! The message of an error can be read in one way only, because each of its parts ends at the first
character that cannot belong to it. -/
namespace QueryDoc

namespace Printable

/-- A text is cut in one way only, where its first part has nothing but characters of a class and
its second part does not begin with one. -/
theorem cut_unique {p : Char → Bool} {front front' rest rest' : List Char}
    (inside : ∀ c ∈ front, p c = true) (inside' : ∀ c ∈ front', p c = true)
    (outside : ∀ c ∈ rest.head?, p c = false) (outside' : ∀ c ∈ rest'.head?, p c = false)
    (same : front ++ rest = front' ++ rest') : front = front' ∧ rest = rest' := by
  have cut {front rest : List Char} (inside : ∀ c ∈ front, p c = true)
      (outside : ∀ c ∈ rest.head?, p c = false) : (front ++ rest).takeWhile p = front := by
    have nothing : rest.takeWhile p = [] := by
      cases rest with
      | nil => rfl
      | cons c rest => simp [outside c rfl]
    rw [List.takeWhile_append_of_pos inside, nothing, List.append_nil]
  obtain rfl : front = front' := by rw [← cut inside outside, same, cut inside' outside']
  exact ⟨rfl, List.append_cancel_left same⟩

theorem digitChar_injective {a b : Nat} (ha : a < 16) (hb : b < 16)
    (h : Nat.digitChar a = Nat.digitChar b) : a = b := by
  have table : ∀ a < 16, ∀ b < 16, Nat.digitChar a = Nat.digitChar b → a = b := by decide
  exact table a ha b hb h

theorem toDigits_injective {base a b : Nat} (base_gt : 1 < base) (base_le : base ≤ 16)
    (h : Nat.toDigits base a = Nat.toDigits base b) : a = b := by
  induction a using Nat.strongRecOn generalizing b with
  | _ a ih =>
    have digits (n : Nat) := Nat.length_toDigits_pos (b := base) (n := n / base)
    have less (n : Nat) : n % base < 16 :=
      Nat.lt_of_lt_of_le (Nat.mod_lt n (Nat.zero_lt_of_lt base_gt)) base_le
    have length := congrArg List.length h
    rw [Nat.toDigits_eq_if base_gt, Nat.toDigits_eq_if (n := b) base_gt] at h length
    split at h
    · next ha =>
      split at h
      · next hb => exact digitChar_injective (by omega) (by omega) (List.singleton_injective h)
      · next hb =>
        have := digits b
        simp only [if_pos ha, if_neg hb, List.length_append, List.length_singleton] at length
        omega
    · next ha =>
      split at h
      · next hb =>
        have := digits a
        simp only [if_neg ha, if_pos hb, List.length_append, List.length_singleton] at length
        omega
      · obtain ⟨front, last⟩ := List.append_inj' h rfl
        have high : a / base = b / base := ih _ (Nat.div_lt_self (by omega) base_gt) front
        have low : a % base = b % base :=
          digitChar_injective (less a) (less b) (List.singleton_injective last)
        rw [← Nat.div_add_mod a base, high, low, Nat.div_add_mod]

theorem ne_bracket_of_mem_hexadecimal {n : Nat} {c : Char} (h : c ∈ Nat.toDigits 16 n) :
    c ≠ ')' := by
  have table : ∀ a < 16, Nat.digitChar a ≠ ')' := by decide
  induction n using Nat.strongRecOn with
  | _ n ih =>
    rw [Nat.toDigits_eq_if (by decide)] at h
    split at h
    · next small =>
      rw [List.mem_singleton.1 h]
      exact table n small
    · next large =>
      rcases List.mem_append.1 h with h | h
      · exact ih (n / 16) (by omega) h
      · rw [List.mem_singleton.1 h]
        exact table _ (by omega)

/-- A shown character ends at the bracket behind it, even if it is that bracket. -/
theorem shown_bracket_inj {c d : Char} {u v : List Char}
    (h : shown c ++ ')' :: u = shown d ++ ')' :: v) : c = d ∧ u = v := by
  have digits (c : Char) : ∀ x ∈ Nat.toDigits 16 c.toNat, (x != ')') = true := fun x hx =>
    bne_iff_ne.2 (ne_bracket_of_mem_hexadecimal hx)
  have bracket (u : List Char) : ∀ x ∈ (')' :: u).head?, (x != ')') = false := by
    rintro x ⟨⟩
    rfl
  unfold shown at h
  split at h
  · split at h
    · cases h
      exact ⟨rfl, rfl⟩
    · cases h
  · split at h
    · cases h
    · obtain ⟨hex, rest⟩ := cut_unique (digits c) (digits d) (bracket u) (bracket v)
        (List.cons.inj (List.cons.inj h).2).2
      have same := toDigits_injective (by decide) (by decide) hex
      exact ⟨Char.toNat_inj.1 same, (List.cons.inj rest).2⟩

/-- The character in front of the colon of a message, if one is shown there. -/
def bracketed : Option Char → List Char
  | none => []
  | some c => ' ' :: '(' :: (shown c ++ [')'])

theorem head?_bracketed (char : Option Char) (u : List Char) :
    (bracketed char ++ ':' :: u).head? = some ' ' ∨
      (bracketed char ++ ':' :: u).head? = some ':' := by
  cases char with
  | none => exact .inr rfl
  | some c => exact .inl rfl

theorem bracketed_colon_inj {a b : Option Char} {u v : List Char}
    (h : bracketed a ++ ':' :: u = bracketed b ++ ':' :: v) : a = b ∧ u = v := by
  cases a with
  | none =>
    cases b with
    | none => exact ⟨rfl, (List.cons.inj h).2⟩
    | some d => cases h
  | some c =>
    cases b with
    | none => cases h
    | some d =>
      have inner : shown c ++ ')' :: ':' :: u = shown d ++ ')' :: ':' :: v := by
        simpa [bracketed] using h
      obtain ⟨char, rest⟩ := shown_bracket_inj inner
      exact ⟨congrArg some char, (List.cons.inj rest).2⟩

end Printable

theorem ErrorCode.message_injective : Function.Injective message := by
  have distinct : (all.map message).Nodup := by decide +kernel
  intro a b h
  exact List.inj_on_of_nodup_map distinct (mem_all a) (mem_all b) h

theorem ErrorCode.ne_semicolon_of_mem_message (code : ErrorCode) :
    ∀ c ∈ code.message.toList, (c != ';') = true := by
  have table : (all.all fun code => code.message.toList.all (· != ';')) = true := by decide +kernel
  exact List.all_eq_true.1 (List.all_eq_true.1 table code (mem_all code))

theorem Expect.label_injective : Function.Injective label := by
  have distinct : (all.map label).Nodup := by decide +kernel
  intro a b h
  exact List.inj_on_of_nodup_map distinct (mem_all a) (mem_all b) h

namespace Error

variable {e f : Error}

theorem expectedMessage_inj (h : e.expectedMessage = f.expectedMessage) :
    e.expected = f.expected := by
  unfold expectedMessage at h
  split at h
  · next he =>
    split at h
    · next hf => rw [he, hf]
    · next x hf => simp [String.ext_iff] at h
  · next x he =>
    split at h
    · next hf => simp [String.ext_iff] at h
    · next y hf => rw [he, hf, Expect.label_injective ((String.append_right_inj _).1 h)]

theorem head?_expectedMessage (e : Error) : ∀ c ∈ e.expectedMessage.toList.head?, c = ';' := by
  intro c hc
  unfold expectedMessage at hc
  split at hc
  · cases hc
  · simpa [eq_comm] using hc

/-- The character that the message shows. -/
def shownChar (e : Error) : Option Char := if e.code = .unexpectedEnd then none else e.char

theorem toList_charMessage (e : Error) :
    e.charMessage.toList = Printable.bracketed e.shownChar := by
  unfold charMessage shownChar
  split
  · next code => simp [code, Printable.bracketed]
  · next char code => rw [if_neg code, char]; rfl
  · next c char code => simp [if_neg code, char, Printable.bracketed]

theorem toList_message (e : Error) :
    e.message.toList = "error at index ".toList ++ (Nat.toDigits 10 e.index ++
      (Printable.bracketed e.shownChar ++
        ':' :: ' ' :: (e.code.message.toList ++ e.expectedMessage.toList))) := by
  have colon : ": ".toList = [':', ' '] := by decide +kernel
  unfold message
  simp only [String.toList_append, Nat.toList_repr, toList_charMessage, colon, List.append_assoc,
    List.cons_append, List.nil_append]

/-- A message is read from the left: the digits of the offset, the character in brackets, the
wording of the code, and what is left is the expectation. -/
theorem shown_of_message_eq (h : e.message = f.message) :
    e.index = f.index ∧ e.shownChar = f.shownChar ∧ e.code = f.code ∧
      e.expected = f.expected := by
  have texts := congrArg String.toList h
  rw [toList_message, toList_message] at texts
  have digits (n : Nat) : ∀ c ∈ Nat.toDigits 10 n, c.isDigit = true := fun c hc =>
    Nat.isDigit_of_mem_toDigits (by decide) (by decide) hc
  have noDigit (e : Error) (u : List Char) :
      ∀ c ∈ (Printable.bracketed e.shownChar ++ ':' :: u).head?, c.isDigit = false := by
    intro c hc
    rcases Printable.head?_bracketed e.shownChar u with first | first <;> rw [first] at hc <;>
      cases hc <;> rfl
  have semicolon (e : Error) : ∀ c ∈ e.expectedMessage.toList.head?, (c != ';') = false := by
    intro c hc
    rw [e.head?_expectedMessage c hc]
    rfl
  obtain ⟨index, texts⟩ := Printable.cut_unique (digits e.index) (digits f.index) (noDigit e _)
    (noDigit f _) (List.append_cancel_left texts)
  obtain ⟨char, texts⟩ := Printable.bracketed_colon_inj texts
  obtain ⟨code, expected⟩ := Printable.cut_unique e.code.ne_semicolon_of_mem_message
    f.code.ne_semicolon_of_mem_message (semicolon e) (semicolon f) (List.cons.inj texts).2
  exact ⟨Printable.toDigits_injective (by decide) (by decide) index, char,
    ErrorCode.message_injective (String.toList_inj.1 code),
    expectedMessage_inj (String.toList_inj.1 expected)⟩

/-- Two errors have the same message exactly if they agree in their offset, their code and what was
expected, and in their character as well unless the input has ended. An error of a scan into a
buffer has the message of the error that ended the scan, whatever was written before. -/
theorem message_unambiguous (e f : Error) :
    (e.message = f.message ↔ e.index = f.index ∧ e.code = f.code ∧ e.expected = f.expected ∧
        (e.code ≠ .unexpectedEnd → e.char = f.char)) ∧
      ∀ written, (BufferError.mk written e).message = e.message := by
  refine ⟨⟨fun h => ?_, ?_⟩, fun written => rfl⟩
  · obtain ⟨index, char, code, expected⟩ := shown_of_message_eq h
    refine ⟨index, code, expected, fun inside => ?_⟩
    rwa [shownChar, if_neg inside, shownChar, if_neg (code ▸ inside)] at char
  · rintro ⟨index, code, expected, char⟩
    have shown : e.shownChar = f.shownChar := by
      unfold shownChar
      rw [← code]
      split
      · rfl
      · next inside => exact char inside
    have expectedMessage : e.expectedMessage = f.expectedMessage := by
      rw [Error.expectedMessage, Error.expectedMessage, expected]
    refine String.toList_inj.1 ?_
    rw [toList_message, toList_message, index, shown, code, expectedMessage]

example : (Error.mk 3 (some ')') .unexpectedEnd (some .value)).message =
    (Error.mk 3 none .unexpectedEnd (some .value)).message := by decide +kernel

end Error

end QueryDoc
