import QueryDoc.Proofs.Chunking
import QueryDoc.Proofs.Text.Word

/-! The meaning of a quoted string: literal bytes, escaped letters, and runs of code units that are
read as UTF-16. The decoder holds back a high surrogate to arrive at it. -/
namespace QueryDoc

namespace Utf16

/-- The character of a code unit by itself. Neither a surrogate nor an unreadable unit has one. -/
def alone : Option Nat → Char
  | none => Utf8.replacement
  | some unit => if 0xD800 ≤ unit ∧ unit ≤ 0xDFFF then Utf8.replacement else Char.ofNat unit

/-- The characters of code units: surrogates count in pairs, everything else by itself. -/
def decode : List (Option Nat) → List Char
  | [] => []
  | some high :: some low :: units =>
    if (0xD800 ≤ high ∧ high ≤ 0xDBFF) ∧ 0xDC00 ≤ low ∧ low ≤ 0xDFFF then
      Char.ofNat (0x10000 + (high - 0xD800) * 0x400 + (low - 0xDC00)) :: decode units
    else alone (some high) :: decode (some low :: units)
  | unit :: units => alone unit :: decode units

end Utf16

namespace Quoted

/-- What a body is cut into. -/
inductive Part where
  | literal (byte : UInt8)
  /-- A backslash and a letter. -/
  | letter (letter : UInt8)
  /-- A backslash, the letter `u` and up to four bytes behind it. -/
  | unit (digits : List UInt8)
  deriving DecidableEq, Repr

/-- Cuts a body from left to right; a backslash at the very end is left out. -/
def parts : List UInt8 → List Part
  | [] => []
  | b :: bs =>
    if b = Byte.backslash then
      match bs with
      | [] => []
      | c :: bs =>
        if c = Byte.lowerU then .unit (bs.take 4) :: parts (bs.drop 4) else .letter c :: parts bs
    else .literal b :: parts bs
termination_by bs => bs.length
decreasing_by
  all_goals simp only [List.length_cons, List.length_drop]; omega

def controls : List (UInt8 × UInt8) :=
  [(Byte.lowerB, 0x08), (Byte.lowerF, 0x0C), (Byte.lowerN, 0x0A), (Byte.lowerR, 0x0D),
    (Byte.lowerT, 0x09)]

/-- The number that four hexadecimal digits write; other bytes, and fewer, write none. -/
def unit? : List UInt8 → Option Nat
  | [p, q, r, s] => do
    let a ← Byte.hexValue? p
    let b ← Byte.hexValue? q
    let c ← Byte.hexValue? r
    let d ← Byte.hexValue? s
    return a * 0x1000 + b * 0x100 + c * 0x10 + d
  | _ => none

/-- A byte, or all code units that stand next to each other. -/
inductive Run where
  | byte (byte : UInt8)
  | units (units : List (Option Nat))
  deriving DecidableEq, Repr

namespace Run

def bytes : Run → List UInt8
  | byte b => [b]
  | units us => (Utf16.decode us).flatMap String.utf8EncodeChar

/-- Puts a code unit in front; it joins the units that come first. -/
def consUnit (unit : Option Nat) : List Run → List Run
  | units us :: runs => units (unit :: us) :: runs
  | runs => units [unit] :: runs

def ofParts : List Part → List Run
  | [] => []
  | .literal b :: ps => byte b :: ofParts ps
  | .letter c :: ps => byte ((controls.lookup c).getD c) :: ofParts ps
  | .unit digits :: ps => consUnit (unit? digits) (ofParts ps)

end Run

/-- The bytes that a body means. -/
def meaning (raw : List UInt8) : List UInt8 := (Run.ofParts (parts raw)).flatMap Run.bytes

end Quoted

namespace Utf16

theorem isHigh_iff {unit : Nat} : isHigh unit = true ↔ 0xD800 ≤ unit ∧ unit ≤ 0xDBFF := by
  simp [isHigh]

theorem isLow_iff {unit : Nat} : isLow unit = true ↔ 0xDC00 ≤ unit ∧ unit ≤ 0xDFFF := by
  simp [isLow]

theorem decode_cons_of_not_high {unit : Option Nat} (h : ∀ u, unit = some u → isHigh u = false)
    (units : List (Option Nat)) : decode (unit :: units) = alone unit :: decode units := by
  cases unit with
  | none => simp [decode]
  | some u =>
    have not_high : ¬(0xD800 ≤ u ∧ u ≤ 0xDBFF) := by
      rw [← isHigh_iff, h u rfl]
      exact Bool.false_ne_true
    cases units with
    | nil => simp [decode]
    | cons next units =>
      cases next with
      | none => simp [decode]
      | some low => rw [decode, if_neg fun both => not_high both.1]

theorem decode_cons_of_high {high : Nat} (h : isHigh high = true) {units : List (Option Nat)}
    (next : ∀ low, units.head? = some (some low) → isLow low = false) :
    decode (some high :: units) = Utf8.replacement :: decode units := by
  have range := isHigh_iff.1 h
  have lonely : alone (some high) = Utf8.replacement := if_pos ⟨range.1, by omega⟩
  cases units with
  | nil => simp [decode, lonely]
  | cons unit units =>
    cases unit with
    | none => simp [decode, lonely]
    | some low =>
      have not_low : ¬(0xDC00 ≤ low ∧ low ≤ 0xDFFF) := by
        rw [← isLow_iff, next low rfl]
        exact Bool.false_ne_true
      rw [decode, if_neg fun both => not_low both.2, lonely]

/-- The code units that a held surrogate and the units behind it make up. -/
def resume (held : Option Nat) (units : List (Option Nat)) : List (Option Nat) :=
  held.toList.map some ++ units

/-- Only a high surrogate is held back. -/
def Holds (held : Option Nat) : Prop := ∀ unit, held = some unit → isHigh unit = true

theorem holds_feed (held : Option Nat) (unit : Nat) : Holds (feed held unit).1 := by
  unfold feed
  split
  · rintro _ ⟨⟩
    assumption
  · split
    · split <;> exact nofun
    · exact nofun

theorem decode_resume_nil {held : Option Nat} (h : Holds held) :
    decode (resume held []) = flush held := by
  cases held with
  | none => rfl
  | some high => exact decode_cons_of_high (h high rfl) nofun

def fed (unit : Option Nat) : Nat := unit.getD 0xFFFD

theorem decode_cons (unit : Option Nat) (units : List (Option Nat)) :
    decode (unit :: units) =
      (feed none (fed unit)).2 ++ decode (resume (feed none (fed unit)).1 units) := by
  cases unit with
  | none =>
    have not_high : ∀ u, (none : Option Nat) = some u → isHigh u = false := nofun
    rw [decode_cons_of_not_high not_high]
    rfl
  | some u =>
    simp only [fed, Option.getD_some]
    by_cases high : isHigh u = true
    · simp [feed, high, flush, resume]
    · have not_high : ∀ v, some u = some v → isHigh v = false := by
        rintro _ ⟨⟩
        exact Bool.eq_false_iff.2 high
      rw [decode_cons_of_not_high not_high]
      rw [isHigh_iff] at high
      by_cases low : isLow u = true
      · have := isLow_iff.1 low
        have lonely : alone (some u) = Utf8.replacement := if_pos ⟨by omega, this.2⟩
        simp [feed, isHigh_iff, high, low, lonely, resume]
      · rw [isLow_iff] at low
        have plain : alone (some u) = Char.ofNat u := if_neg (by omega)
        simp [feed, isHigh_iff, isLow_iff, high, low, plain, flush, resume]

theorem decode_resume_cons {held : Option Nat} (h : Holds held) (unit : Option Nat)
    (units : List (Option Nat)) :
    decode (resume held (unit :: units)) =
      (feed held (fed unit)).2 ++ decode (resume (feed held (fed unit)).1 units) := by
  cases held with
  | none => exact decode_cons unit units
  | some high =>
    have high_range := isHigh_iff.1 (h high rfl)
    by_cases low : isLow (fed unit) = true
    · obtain ⟨l, rfl⟩ : ∃ l, unit = some l := by
        cases unit with
        | none => exact absurd low (by decide)
        | some l => exact ⟨l, rfl⟩
      have low_range := isLow_iff.1 low
      simp only [fed, Option.getD_some] at low low_range ⊢
      have not_high : ¬isHigh l = true := by
        rw [isHigh_iff]
        omega
      have whole : decode (some high :: some l :: units) = pair high l :: decode units := by
        rw [decode, if_pos ⟨high_range, low_range⟩, pair]
      simp only [feed, not_high, low, if_true]
      exact whole
    · have next : ∀ l, (unit :: units).head? = some (some l) → isLow l = false := by
        rintro l ⟨⟩
        exact Bool.eq_false_iff.2 low
      have first : decode (resume (some high) (unit :: units)) =
          Utf8.replacement :: decode (unit :: units) := decode_cons_of_high (h high rfl) next
      have same : feed (some high) (fed unit) =
          ((feed none (fed unit)).1, Utf8.replacement :: (feed none (fed unit)).2) := by
        unfold feed
        split
        · rfl
        · simp [flush]
      rw [first, decode_cons, same]
      rfl

end Utf16

namespace Quoted

/-- The bytes of runs behind a held surrogate: it joins the units that come first. -/
def bytesBehind (held : Option Nat) : List Run → List UInt8
  | .units us :: runs =>
    Unescape.encode (Utf16.decode (Utf16.resume held us)) ++ runs.flatMap Run.bytes
  | runs => Unescape.encode (Utf16.decode (Utf16.resume held [])) ++ runs.flatMap Run.bytes

theorem bytesBehind_none (runs : List Run) : bytesBehind none runs = runs.flatMap Run.bytes := by
  fun_cases bytesBehind none runs with
  | case1 us runs => rfl
  | case2 => rfl

variable {held : Option Nat}

theorem bytesBehind_nil (h : Utf16.Holds held) :
    bytesBehind held [] = Unescape.encode (Utf16.flush held) := by
  simp [bytesBehind, Utf16.decode_resume_nil h]

theorem bytesBehind_byte (h : Utf16.Holds held) (b : UInt8) (runs : List Run) :
    bytesBehind held (.byte b :: runs) =
      Unescape.encode (Utf16.flush held) ++ b :: bytesBehind none runs := by
  rw [bytesBehind_none]
  simp [bytesBehind, Utf16.decode_resume_nil h, Run.bytes]

theorem bytesBehind_consUnit (h : Utf16.Holds held) (unit : Option Nat) (runs : List Run) :
    bytesBehind held (Run.consUnit unit runs) =
      Unescape.encode (Utf16.feed held (Utf16.fed unit)).2 ++
        bytesBehind (Utf16.feed held (Utf16.fed unit)).1 runs := by
  fun_cases Run.consUnit unit runs with
  | case1 us runs =>
    rw [bytesBehind, bytesBehind, Utf16.decode_resume_cons h]
    simp [Unescape.encode]
  | case2 runs other =>
    rw [bytesBehind, bytesBehind, Utf16.decode_resume_cons h]
    · simp [Unescape.encode]
    · exact other

end Quoted

namespace Unescape

theorem escaped_eq (c : UInt8) : escaped c = (Quoted.controls.lookup c).getD c :=
  Byte.forall_of_fin (p := fun c => escaped c = (Quoted.controls.lookup c).getD c)
    (by decide +kernel) c

theorem Reader.finish_digits (held : Option Nat) (out : Array UInt8) (bs : List UInt8) :
    (bs.foldl step ⟨.unicode 3 (some 0), held, out⟩).finish =
      ((bs.drop 4).foldl step
        (putUnit ⟨.plain, held, out⟩ (Quoted.unit? (bs.take 4)))).finish := by
  match bs with
  | [] | [_] | [_, _] | [_, _, _] => rfl
  | p :: q :: r :: s :: bs =>
    have unit : appendDigit (appendDigit (appendDigit (appendDigit (some 0) p) q) r) s =
        Quoted.unit? [p, q, r, s] := by
      simp only [appendDigit, Quoted.unit?]
      cases Byte.hexValue? p <;> cases Byte.hexValue? q <;> cases Byte.hexValue? r <;>
        cases Byte.hexValue? s <;> simp
      omega
    simp only [List.foldl_cons, step, List.drop_succ_cons, List.drop_zero, List.take_succ_cons,
      List.take_zero, unit]
    rfl

/-- From between two parts on, the decoder adds what the remaining parts mean. -/
theorem toList_finish {held : Option Nat} (h : Utf16.Holds held) (out : Array UInt8)
    (raw : List UInt8) :
    (raw.foldl Reader.step ⟨.plain, held, out⟩).finish.toList =
      out.toList ++ Quoted.bytesBehind held (Quoted.Run.ofParts (Quoted.parts raw)) := by
  have none_held : Utf16.Holds none := nofun
  fun_induction Quoted.parts raw generalizing held out with
  | case1 =>
    rw [Quoted.Run.ofParts, Quoted.bytesBehind_nil h]
    simp [Reader.finish]
  | case2 =>
    rw [Quoted.Run.ofParts, Quoted.bytesBehind_nil h]
    simp [Reader.finish, Reader.step]
  | case3 bs ih =>
    have read : (Byte.backslash :: Byte.lowerU :: bs).foldl Reader.step ⟨.plain, held, out⟩ =
        bs.foldl Reader.step ⟨.unicode 3 (some 0), held, out⟩ := by
      simp [Reader.step]
    rw [read, Reader.finish_digits, Quoted.Run.ofParts, Quoted.bytesBehind_consUnit h]
    have rest := ih (Utf16.holds_feed held (Utf16.fed (Quoted.unit? (bs.take 4))))
      (out ++ encode (Utf16.feed held (Utf16.fed (Quoted.unit? (bs.take 4)))).2)
    rw [Array.toList_appendList, List.append_assoc] at rest
    exact rest
  | case4 c bs letter ih =>
    have read : (Byte.backslash :: c :: bs).foldl Reader.step ⟨.plain, held, out⟩ =
        bs.foldl Reader.step (Reader.put ⟨.plain, held, out⟩ (escaped c)) := by
      simp [Reader.step, letter, Reader.put]
    have rest := ih none_held ((out ++ encode (Utf16.flush held)).push (escaped c))
    rw [read, Reader.put, rest, Quoted.Run.ofParts, Quoted.bytesBehind_byte h, ← escaped_eq]
    simp
  | case5 b bs literal ih =>
    have read : (b :: bs).foldl Reader.step ⟨.plain, held, out⟩ =
        bs.foldl Reader.step (Reader.put ⟨.plain, held, out⟩ b) := by
      simp [Reader.step, literal]
    have rest := ih none_held ((out ++ encode (Utf16.flush held)).push b)
    rw [read, Reader.put, rest, Quoted.Run.ofParts, Quoted.bytesBehind_byte h]
    simp

theorem content_eq_meaning (raw : List UInt8) : content raw = Quoted.meaning raw := by
  have read := @toList_finish none nofun #[] raw
  rw [Quoted.bytesBehind_none] at read
  exact read

end Unescape

/-- Whatever the body of a quoted string is, and whatever buffer it goes through, a receiver that
never stops is handed what the body means. -/
theorem Chunks.handed_quoted_meaning {σ : Type} (raw : List UInt8) (size : Nat)
    (receive : Receiver σ) (s : σ) (room : 0 < size)
    (never : ∀ u chunk, (receive u chunk).2 = false) :
    (handed .quotedString raw size receive s).flatten = Quoted.meaning raw := by
  rw [flatten_handed _ raw room never, Kind.content, Unescape.content_eq_meaning]

/-- The body `a\n\uD83D\uDE00\ud83d\u0041\q\u00zz\` has a pair of surrogates, half a pair in front
of another unit, a letter without a meaning of its own, digits that are none, and a backslash left
over at the end. -/
theorem Chunks.handed_quoted_meaning_mixed :
    let raw : List UInt8 :=
      [0x61, 0x5C, 0x6E, 0x5C, 0x75, 0x44, 0x38, 0x33, 0x44, 0x5C, 0x75, 0x44, 0x45, 0x30, 0x30,
        0x5C, 0x75, 0x64, 0x38, 0x33, 0x64, 0x5C, 0x75, 0x30, 0x30, 0x34, 0x31, 0x5C, 0x71,
        0x5C, 0x75, 0x30, 0x30, 0x7A, 0x7A, 0x5C]
    let receive : Receiver Nat := fun n _ => (n + 1, false)
    (∀ u chunk, (receive u chunk).2 = false) ∧
      (handed .quotedString raw 3 receive 0).flatten =
        [0x61, 0x0A, 0xF0, 0x9F, 0x98, 0x80, 0xEF, 0xBF, 0xBD, 0x41, 0x71, 0xEF, 0xBF, 0xBD] := by
  intro raw receive
  have never : ∀ u chunk, (receive u chunk).2 = false := fun _ _ => rfl
  have bytes : Quoted.meaning raw =
      [0x61, 0x0A, 0xF0, 0x9F, 0x98, 0x80, 0xEF, 0xBF, 0xBD, 0x41, 0x71, 0xEF, 0xBF, 0xBD] := by
    decide +kernel
  exact ⟨never, (handed_quoted_meaning raw 3 receive 0 (by decide) never).trans bytes⟩

end QueryDoc
