import QueryDoc.Proofs.BlockContent
import QueryDoc.Proofs.QuotedContent

/-! The decoders leave out or put in whole characters, so the content of a valid body is valid.
Bytes copied one by one are kept apart until a character is complete. -/
namespace QueryDoc

namespace Utf8

theorem Valid.behind {w r : List UInt8} (h : Valid (w ++ r)) (ascii : ∀ b ∈ w, b < 0x80) :
    Valid r := by
  have whole := whole_ascii ascii r [] (severed_nil _)
  rw [List.nil_append, List.take_left, List.drop_left] at whole
  exact (h.cut whole).2

theorem Valid.around {u r : List UInt8} {b : UInt8} (h : Valid (u ++ b :: r)) (ascii : b < 0x80) :
    Valid u ∧ Valid r := by
  obtain ⟨front, rest⟩ := h.cut (severed_before ascii u r)
  exact ⟨front, Valid.behind (w := [b]) rest fun c hc => List.mem_singleton.1 hc ▸ ascii⟩

theorem valid_encode (cs : List Char) : Valid (Unescape.encode cs) := ⟨cs, rfl⟩

theorem valid_intercalate {sep : List UInt8} (hs : Valid sep) {ls : List (List UInt8)}
    (h : ∀ l ∈ ls, Valid l) : Valid (sep.intercalate ls) := by
  induction ls with
  | nil => exact valid_nil
  | cons l ls ih =>
    have first := h l List.mem_cons_self
    have rest := ih fun m hm => h m (List.mem_cons_of_mem l hm)
    cases ls with
    | nil => simpa [List.intercalate] using first
    | cons m ls =>
      rw [List.intercalate_cons_cons]
      exact (first.append hs).append rest

end Utf8

open Utf8

theorem Quoted.HexDigits.exists_unit {ds : List UInt8} (h : HexDigits ds) (four : ds.length = 4) :
    ∃ unit, Digits unit ds := by
  match ds, four with
  | [p, q, r, s], _ =>
    have value (d : UInt8) (hd : d ∈ [p, q, r, s]) : ∃ n, Byte.hexValue? d = some n :=
      Option.isSome_iff_exists.1 (h d hd)
    obtain ⟨a, ha⟩ := value p (by simp)
    obtain ⟨b, hb⟩ := value q (by simp)
    obtain ⟨c, hc⟩ := value r (by simp)
    obtain ⟨d, hd⟩ := value s (by simp)
    exact ⟨_, a, b, c, d, by simp [ha, hb, hc, hd], rfl⟩

namespace Unescape.Reader

variable {r : Reader} {u : List UInt8}

theorem step_raw (plain : r.mode = .plain) {b : UInt8} (backslash : b ≠ Byte.backslash) :
    r.step b = r.put b := by
  rw [step, plain]
  exact if_neg backslash

theorem step_escape (plain : r.mode = .plain) {b : UInt8}
    (letter : Byte.isSimpleEscape b = true) :
    (r.step Byte.backslash).step b = r.put (escaped b) := by
  have unit : b ≠ Byte.lowerU := by
    rintro rfl
    exact absurd letter (by decide)
  simp [step, plain, unit, put]

theorem foldl_unicode (plain : r.mode = .plain) {unit : Nat} {ds : List UInt8}
    (h : Quoted.Digits unit ds) :
    (Quoted.unicodeEscape ds).foldl step r = r.putUnit (some unit) := by
  have same : r = ⟨.plain, r.held, r.out⟩ := by rw [← plain]
  rw [same, foldl_unicodeEscape r.held r.out h]
  rfl

/-- The bytes written so far are complete characters, followed by bytes that were copied. Copied
bytes are not followed by a surrogate that is held back. -/
structure Copies (r : Reader) (u : List UInt8) : Prop where
  mode : r.mode = .plain
  out : ∃ complete, Valid complete ∧ r.out.toList = complete ++ u
  held : u = [] ∨ r.held = none

theorem Copies.write (h : r.Copies u) (valid : Valid u) {held : Option Nat}
    {out : Array UInt8} {w : List UInt8} (hw : Valid w) (ho : out.toList = r.out.toList ++ w) :
    (⟨.plain, held, out⟩ : Reader).Copies [] := by
  obtain ⟨complete, hc, bytes⟩ := h.out
  refine ⟨rfl, ⟨complete ++ u ++ w, (hc.append valid).append hw, ?_⟩, .inl rfl⟩
  rw [ho, bytes, List.append_nil]

theorem Copies.put (h : r.Copies u) (b : UInt8) : (r.put b).Copies (u ++ [b]) := by
  obtain ⟨complete, hc, bytes⟩ := h.out
  rcases h.held with rfl | none
  · refine ⟨rfl, ⟨complete ++ encode (Utf16.flush r.held), hc.append (valid_encode _), ?_⟩, .inr rfl⟩
    rw [List.append_nil] at bytes
    simp [Reader.put, bytes]
  · refine ⟨rfl, ⟨complete, hc, ?_⟩, .inr rfl⟩
    simp [Reader.put, bytes, none, Utf16.flush, encode]

theorem Copies.finish (h : r.Copies u) (valid : Valid u) : Valid r.finish.toList := by
  obtain ⟨complete, hc, bytes⟩ := h.out
  have finish : r.finish = r.out ++ encode (Utf16.flush r.held) := by
    rw [Reader.finish, h.mode]
  rw [finish, Array.toList_appendList, bytes]
  exact (hc.append valid).append (valid_encode _)

/-- Reading a body of valid bytes writes valid bytes. -/
theorem Copies.valid_foldl {w : List UInt8} (body : Quoted.Body w) (h : r.Copies u)
    (valid : Valid (u ++ w)) : Valid (w.foldl step r).finish.toList := by
  induction body generalizing r u with
  | nil =>
    rw [List.append_nil] at valid
    exact h.finish valid
  | @raw b bs _ backslash _ _ ih =>
    rw [List.foldl_cons, step_raw h.mode backslash]
    refine ih (h.put b) ?_
    rwa [List.append_assoc]
  | @escape b bs letter _ ih =>
    have ascii : b < 0x80 ∧ escaped b < 0x80 := by
      simp only [Byte.isSimpleEscape, Bool.or_eq_true, beq_iff_eq, or_assoc] at letter
      rcases letter with rfl | rfl | rfl | rfl | rfl | rfl | rfl | rfl <;> decide
    obtain ⟨front, rest⟩ := valid.around (b := Byte.backslash) (by decide)
    rw [List.foldl_cons, List.foldl_cons, step_escape h.mode letter]
    refine ih (u := []) (h.write front (w := encode (Utf16.flush r.held) ++ [escaped b]) ?_ ?_) ?_
    · exact (valid_encode _).append (valid_ascii ascii.2)
    · simp
    · exact Valid.behind (w := [b]) rest fun c hc => List.mem_singleton.1 hc ▸ ascii.1
  | @unicode ds bs four digits _ ih =>
    obtain ⟨unit, hu⟩ := digits.exists_unit four
    obtain ⟨front, rest⟩ := valid.around (b := Byte.backslash) (by decide)
    have split : Byte.backslash :: Byte.lowerU :: (ds ++ bs) = Quoted.unicodeEscape ds ++ bs := rfl
    rw [split, List.foldl_append, foldl_unicode h.mode hu]
    have written : (r.putUnit (some unit)).out.toList =
        r.out.toList ++ encode (Utf16.feed r.held unit).2 := by
      simp [putUnit]
    refine ih (u := []) (h.write front (valid_encode _) written) ?_
    refine Valid.behind (w := Byte.lowerU :: ds) rest fun c hc => ?_
    rcases List.mem_cons.1 hc with rfl | hc
    · decide
    · exact Byte.lt_of_isHexDigit (digits c hc)

end Unescape.Reader

theorem Quoted.Body.valid_content {w : List UInt8} (body : Body w) (valid : Valid w) :
    Valid (Unescape.content w) :=
  Unescape.Reader.Copies.valid_foldl (u := []) body ⟨rfl, ⟨[], valid_nil, rfl⟩, .inl rfl⟩ valid

namespace Dedent

theorem Splitter.valid_finish {s : Splitter} {w : List UInt8}
    (complete : ∀ l ∈ s.lines, Valid l) (open_ : Valid (s.line.toList ++ w)) :
    ∀ l ∈ (w.foldl step s).finish, Valid l := by
  induction w generalizing s with
  | nil =>
    intro l hl
    simp only [List.foldl_nil, finish, Array.toList_push, List.mem_append, Array.mem_toList_iff,
      List.mem_singleton] at hl
    rcases hl with hl | rfl
    · exact complete l hl
    · rwa [List.append_nil] at open_
  | cons b w ih =>
    have ended (hb : b < 0x80) (after : Bool) :
        ∀ l ∈ (w.foldl step ⟨s.lines.push s.line.toList, #[], after⟩).finish, Valid l := by
      obtain ⟨line, rest⟩ := open_.around hb
      refine ih (fun l hl => ?_) rest
      rcases Array.mem_push.1 hl with hl | rfl
      · exact complete l hl
      · exact line
    rw [List.foldl_cons, step]
    split
    · next hb =>
        split
        · refine ih complete ?_
          obtain ⟨line, rest⟩ := open_.around (hb ▸ by decide)
          exact line.append rest
        · exact ended (hb ▸ by decide) false
    · split
      · next hb => exact ended (hb ▸ by decide) true
      · refine ih complete ?_
        simpa using open_

theorem valid_lines {raw : List UInt8} (h : Valid raw) : ∀ l ∈ lines raw, Valid l :=
  Splitter.valid_finish nofun h

theorem valid_drop {first line : List UInt8} {rest : List (List UInt8)} (h : line ∈ rest)
    (valid : Valid line) : Valid (line.drop ((Margins.of (first :: rest)).shared.getD 0)) := by
  have ascii {b : UInt8} (h : Byte.isIndent b = true) : b < 0x80 := by
    simp only [Byte.isIndent, Bool.or_eq_true, beq_iff_eq] at h
    rcases h with rfl | rfl <;> decide
  rw [← List.take_append_drop ((Margins.of (first :: rest)).shared.getD 0) line] at valid
  exact valid.behind fun b hb => ascii (isIndent_of_mem_take h hb)

theorem valid_kept {ls : List (List UInt8)} (h : ∀ l ∈ ls, Valid l) : ∀ l ∈ kept ls, Valid l := by
  intro l hl
  simp only [kept] at hl
  split at hl
  · cases hl
  · have member := List.mem_of_mem_take (List.mem_of_mem_drop hl)
    cases ls with
    | nil => cases member
    | cons first rest =>
      rcases List.mem_cons.1 member with rfl | member
      · exact h l List.mem_cons_self
      · obtain ⟨line, hm, rfl⟩ := List.mem_map.1 member
        exact valid_drop hm (h line (List.mem_cons_of_mem first hm))

theorem valid_unescapeTo {out : Array UInt8} {complete u line : List UInt8}
    (bytes : out.toList = complete ++ u) (hc : Valid complete) (valid : Valid (u ++ line)) :
    Valid (unescapeTo out line).toList := by
  induction line generalizing out complete u with
  | nil =>
    rw [unescapeTo, bytes]
    rw [List.append_nil] at valid
    exact hc.append valid
  | cons b line ih =>
    rw [unescapeTo]
    split
    · next escaped =>
        obtain ⟨rfl, -⟩ := Block.eq_of_escapedFence escaped
        obtain ⟨front, rest⟩ := valid.around (by decide)
        exact ih (u := []) (bytes.trans (List.append_nil _).symm) (hc.append front) rest
    · refine ih (u := u ++ [b]) ?_ hc ?_
      · simp [bytes]
      · rwa [List.append_assoc]

theorem valid_content {raw : List UInt8} (h : Valid raw) : Valid (content raw) := by
  refine valid_intercalate (valid_ascii (by decide)) fun l hl => ?_
  obtain ⟨line, hm, rfl⟩ := List.mem_map.1 hl
  exact valid_unescapeTo (u := []) rfl valid_nil (valid_kept (valid_lines h) line hm)

end Dedent

theorem Kind.valid_content {kind : Kind} {raw : List UInt8}
    (body : kind = .quotedString → Quoted.Body raw) (valid : Valid raw) :
    Valid (kind.content raw) := by
  unfold content
  split
  · exact (body rfl).valid_content valid
  · exact Dedent.valid_content valid
  · exact valid

end QueryDoc
