import QueryDoc.Proofs.BlockMeaning
import QueryDoc.Proofs.Characters

/-! Decoding never lengthens a token: every escape pays for the bytes of its code unit, and lines
are counted with a line end each. -/
namespace QueryDoc

namespace Utf16

/-- The bytes that are still to be written for a surrogate that is held back. -/
def owed (held : Option Nat) : Nat := (Unescape.encode (flush held)).length

@[simp] theorem owed_none : owed none = 0 := rfl

theorem owed_le (held : Option Nat) : owed held ≤ 3 := by
  cases held with
  | none => exact Nat.zero_le 3
  | some unit => exact Nat.le_refl 3

theorem length_encode_char_le (c : Char) : (Unescape.encode [c]).length ≤ 4 := by
  have size := c.utf8Size_le_four
  simpa [Unescape.encode, String.length_utf8EncodeChar] using size

/-- A code unit writes at most six bytes more than were owed, those counted that it owes now. -/
theorem length_feed_le (held : Option Nat) (unit : Nat) :
    (Unescape.encode (feed held unit).2).length + owed (feed held unit).1 ≤ owed held + 6 := by
  unfold feed
  split
  · have later := owed_le (some unit)
    change owed held + owed (some unit) ≤ owed held + 6
    omega
  · split
    · cases held with
      | none => exact Nat.le_add_right 3 3
      | some high =>
        have four := length_encode_char_le (pair high unit)
        simp only [owed_none]
        omega
    · have four := length_encode_char_le (Char.ofNat unit)
      have both : (Unescape.encode (flush held ++ [Char.ofNat unit])).length =
          owed held + (Unescape.encode [Char.ofNat unit]).length := by
        simp [owed, Unescape.encode]
      simp only [owed_none, both]
      omega

end Utf16

namespace Unescape

namespace Reader

def due (r : Reader) : Nat := r.out.toList.length + Utf16.owed r.held

theorem due_put (r : Reader) (b : UInt8) : (r.put b).due = r.due + 1 := by
  simp [due, put, Utf16.owed, Utf16.flush, encode, Nat.add_assoc]

theorem due_putUnit_le (r : Reader) (unit : Option Nat) : (r.putUnit unit).due ≤ r.due + 6 := by
  have fed := Utf16.length_feed_le r.held (unit.getD 0xFFFD)
  simp only [due, putUnit, Array.toList_appendList, List.length_append]
  omega

theorem length_finish {r : Reader} (plain : r.mode = .plain) : r.finish.toList.length = r.due := by
  simp [finish, plain, due, Utf16.owed]

theorem length_foldl_le {w : List UInt8} (body : Quoted.Body w) {r : Reader}
    (plain : r.mode = .plain) : (w.foldl step r).finish.toList.length ≤ r.due + w.length := by
  induction body generalizing r with
  | nil => exact Nat.le_of_eq (length_finish plain)
  | @raw b bs _ backslash _ _ ih =>
    have rest := ih (r := r.put b) rfl
    rw [due_put] at rest
    rw [List.foldl_cons, step_raw plain backslash, List.length_cons]
    omega
  | @escape b bs letter _ ih =>
    have rest := ih (r := r.put (escaped b)) rfl
    rw [due_put] at rest
    rw [List.foldl_cons, List.foldl_cons, step_escape plain letter, List.length_cons,
      List.length_cons]
    omega
  | @unicode ds bs four digits _ ih =>
    obtain ⟨unit, hu⟩ := digits.exists_unit four
    have split : Byte.backslash :: Byte.lowerU :: (ds ++ bs) = Quoted.unicodeEscape ds ++ bs := rfl
    have six : (Quoted.unicodeEscape ds).length = 6 := by
      rw [Quoted.unicodeEscape, List.length_cons, List.length_cons, four]
    have rest := ih (r := r.putUnit (some unit)) rfl
    have paid := due_putUnit_le r (some unit)
    rw [split, List.foldl_append, foldl_unicode plain hu, List.length_append, six]
    omega

end Reader

theorem length_content_le {w : List UInt8} (body : Quoted.Body w) :
    (content w).length ≤ w.length := by
  have length := Reader.length_foldl_le body (r := .start) rfl
  have nothing : Reader.start.due = 0 := rfl
  rw [content]
  omega

/-- An escape that no scanner has let pass may be shorter than the replacement character. -/
example : content [Byte.backslash, Byte.lowerU] = [0xEF, 0xBF, 0xBD] := by decide +kernel

end Unescape

namespace Dedent

def extent : List (List UInt8) → Nat
  | [] => 0
  | line :: rest => line.length + 1 + extent rest

theorem extent_modifyHead (b : UInt8) (ls : List (List UInt8)) :
    extent (ls.modifyHead (b :: ·)) ≤ extent ls + 1 := by
  cases ls with
  | nil => exact Nat.zero_le 1
  | cons line rest =>
    simp only [List.modifyHead_cons, extent, List.length_cons]
    omega

theorem extent_split (raw : List UInt8) : extent (Block.split raw) ≤ raw.length + 1 := by
  fun_induction Block.split raw with
  | case1 => exact Nat.le_refl 1
  | case2 bs ih =>
    simp only [extent, List.length_cons, List.length_nil]
    omega
  | case3 b bs _ ended ih =>
    simp only [extent, List.length_cons, List.length_nil]
    omega
  | case4 b bs _ literal ih =>
    have head := extent_modifyHead b (Block.split bs)
    rw [List.length_cons]
    omega

theorem extent_le_of_sublist {ks ls : List (List UInt8)} (h : ks.Sublist ls) :
    extent ks ≤ extent ls := by
  induction h with
  | slnil => exact Nat.le_refl 0
  | cons line _ ih =>
    simp only [extent]
    omega
  | cons_cons line _ ih =>
    simp only [extent]
    omega

theorem extent_map_le {f : List UInt8 → List UInt8} (h : ∀ line, (f line).length ≤ line.length)
    (ls : List (List UInt8)) : extent (ls.map f) ≤ extent ls := by
  induction ls with
  | nil => exact Nat.le_refl 0
  | cons line rest ih =>
    have shorter := h line
    simp only [List.map_cons, extent]
    omega

theorem extent_shorten (n : Nat) (ls : List (List UInt8)) : extent (shorten n ls) ≤ extent ls := by
  cases ls with
  | nil => exact Nat.le_refl 0
  | cons line rest =>
    have others : extent (rest.map (List.drop n)) ≤ extent rest := by
      apply extent_map_le
      intro line
      rw [List.length_drop]
      exact Nat.sub_le _ _
    simp only [shorten, extent]
    omega

theorem extent_kept (ls : List (List UInt8)) : extent (kept ls) ≤ extent ls := by
  simp only [kept]
  split
  · exact Nat.zero_le _
  · refine Nat.le_trans ?_ (extent_shorten ((Margins.of ls).shared.getD 0) ls)
    apply extent_le_of_sublist
    exact (List.drop_sublist _ _).trans (List.take_sublist _ _)

theorem length_unescape_le (line : List UInt8) : (unescape line).length ≤ line.length := by
  rw [unescape_eq_unfence]
  fun_induction Block.unfence line with
  | case1 bs ih =>
    simp only [Block.fence, List.length_append, List.length_cons, List.length_nil]
    omega
  | case2 b bs _ ih =>
    simp only [List.length_cons]
    omega
  | case3 => exact Nat.le_refl 0

theorem length_intercalate (ls : List (List UInt8)) :
    ([Byte.lineFeed].intercalate ls).length = extent ls - 1 := by
  induction ls with
  | nil => rfl
  | cons line rest ih =>
    cases rest with
    | nil => simp [extent]
    | cons next rest =>
      rw [List.intercalate_cons_cons, List.length_append, List.length_append, ih]
      simp only [extent, List.length_cons, List.length_nil]
      omega

theorem length_content_le (raw : List UInt8) : (content raw).length ≤ raw.length := by
  have written := extent_map_le length_unescape_le (kept (lines raw))
  have chosen := extent_kept (lines raw)
  have text := extent_split raw
  rw [← lines_eq_split] at text
  rw [content, length_intercalate]
  omega

end Dedent

/-- What a token stands for is no longer than its span. -/
theorem Kind.length_content_le {kind : Kind} {raw : List UInt8}
    (body : kind = .quotedString → Quoted.Body raw) : (kind.content raw).length ≤ raw.length := by
  unfold content
  split
  · exact Unescape.length_content_le (body rfl)
  · exact Dedent.length_content_le raw
  · exact Nat.le_refl _

namespace Chunks

variable {σ : Type}

theorem length_upToStop_le (receive : Receiver σ) (s : σ) (chunks : List (List UInt8)) :
    (upToStop receive s chunks).flatten.length ≤ chunks.flatten.length := by
  induction chunks generalizing s with
  | nil => exact Nat.le_refl 0
  | cons chunk rest ih =>
    have later := ih (receive s chunk).1
    rw [upToStop]
    split
    · simp
    · simp only [List.flatten_cons, List.length_append]
      omega

theorem length_handed_le (kind : Kind) (raw : List UInt8) (size : Nat) (receive : Receiver σ)
    (s : σ) : (handed kind raw size receive s).flatten.length ≤ (kind.content raw).length := by
  by_cases positive : 0 < size
  · obtain ⟨pieces, cuts⟩ := exists_cuts positive (kind.content raw)
    rw [handed_eq kind positive s cuts, ← cuts.flatten_eq]
    exact length_upToStop_le receive s pieces
  · simp [handed, deliver, positive]

end Chunks

/-- Whatever the document, the size of the buffer and the receiver, the bytes that a token of a scan
is decoded to are at most as many as it spans. -/
theorem Scanner.content_within_span (s : Scanner) (doc : List UInt8) {t : Token}
    (ht : t ∈ (s.scan doc).state.toList) (size : Nat) :
    (∀ (σ : Type) (receive : Chunks.Receiver σ) (init : σ),
      t.tail + (Chunks.handed t.kind (t.value doc) size receive init).flatten.length ≤ t.head) ∧
      ∀ stopAfter, ∃ chunks, t.chunks? doc size stopAfter = some chunks ∧
        t.tail + chunks.flatten.length ≤ t.head := by
  obtain ⟨d, path, -⟩ := (s.scan_iff_trace doc _ _).1 ⟨rfl, rfl⟩
  obtain ⟨fits, genuine⟩ := path.genuine (Config.severed_start doc) t ht
  have content : (t.kind.content (t.value doc)).length ≤ t.head - t.tail := by
    rw [← Token.length_value fits]
    exact Kind.length_content_le genuine.body
  have inside := (Token.inside_of_fits fits).1
  have handed {σ : Type} (receive : Chunks.Receiver σ) (init : σ) :
      t.tail + (Chunks.handed t.kind (t.value doc) size receive init).flatten.length ≤ t.head := by
    have bound := Chunks.length_handed_le t.kind (t.value doc) size receive init
    omega
  constructor
  · intro σ receive init
    exact handed receive init
  · intro stopAfter
    refine ⟨_, if_pos fits, ?_⟩
    rw [Chunks.collect_eq_handed]
    exact handed _ _

/-- The scan of `{a(b:"\ud800é")` fails, and has delivered a string in which a surrogate stands
alone in front of a letter of two bytes. -/
theorem Scanner.content_within_span_surrogate :
    let doc : List UInt8 :=
      [0x7B, 0x61, 0x28, 0x62, 0x3A, 0x22, 0x5C, 0x75, 0x64, 0x38, 0x30, 0x30, 0xC3, 0xA9, 0x22,
        0x29]
    let t : Token := ⟨.quotedString, 6, 14, 1⟩
    (standard.scan doc).outcome ≠ .ok ∧ t ∈ (standard.scan doc).state.toList ∧
      t.chunks? doc 2 0 = some [[0xEF, 0xBF], [0xBD, 0xC3], [0xA9]] ∧
      6 + [[0xEF, 0xBF], [0xBD, 0xC3], [(0xA9 : UInt8)]].flatten.length ≤ 14 := by
  intro doc t
  have member : t ∈ (standard.scan doc).state.toList := by decide +kernel
  have chunks : t.chunks? doc 2 0 = some [[0xEF, 0xBF], [0xBD, 0xC3], [0xA9]] := by decide +kernel
  obtain ⟨collected, same, within⟩ := (content_within_span standard doc member 2).2 0
  rw [chunks] at same
  cases same
  exact ⟨by decide +kernel, member, chunks, within⟩

end QueryDoc
