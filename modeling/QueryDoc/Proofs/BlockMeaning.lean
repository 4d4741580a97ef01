import Mathlib.Data.List.DropRight
import QueryDoc.Proofs.BlockContent

/-! The meaning of a block string, given in stages that each go over all its lines, and the decoder,
which goes over them once, write the same. -/
namespace QueryDoc

namespace Block

/-- Splits a text at every line end; a carriage return and a line feed are one. -/
def split : List UInt8 → List (List UInt8)
  | [] => [[]]
  | Byte.carriageReturn :: Byte.lineFeed :: bs => [] :: split bs
  | b :: bs => if Byte.isLineEnd b then [] :: split bs else (split bs).modifyHead (b :: ·)

/-- The least indentation of the lines behind the first that hold more than indentation. -/
def margin (lines : List (List UInt8)) : Nat :=
  (((lines.drop 1).filter fun line => !line.all Byte.isIndent).map fun line =>
    (line.takeWhile Byte.isIndent).length).min?.getD 0

def outdent (n : Nat) (lines : List (List UInt8)) : List (List UInt8) :=
  lines.take 1 ++ (lines.drop 1).map (List.drop n)

/-- Drops the lines at both ends that hold nothing but indentation. -/
def trim (lines : List (List UInt8)) : List (List UInt8) :=
  (lines.dropWhile fun line => line.all Byte.isIndent).rdropWhile fun line => line.all Byte.isIndent

def unfence : List UInt8 → List UInt8
  | Byte.backslash :: Byte.quote :: Byte.quote :: Byte.quote :: bs => fence ++ unfence bs
  | b :: bs => b :: unfence bs
  | [] => []

/-- The bytes that a body means. -/
def meaning (raw : List UInt8) : List UInt8 :=
  [Byte.lineFeed].intercalate
    ((trim (outdent (margin (split raw)) (split raw))).map unfence)

end Block

namespace Dedent

/-- What is left behind a carriage return, which a line feed may belong to. -/
def behindReturn : List UInt8 → List UInt8
  | Byte.lineFeed :: bs => bs
  | bs => bs

theorem behindReturn_cons {b : UInt8} (h : b ≠ Byte.lineFeed) (bs : List UInt8) :
    behindReturn (b :: bs) = b :: bs := by
  rw [behindReturn]
  rintro _ ⟨⟩
  exact h rfl

theorem split_return (bs : List UInt8) :
    Block.split (Byte.carriageReturn :: bs) = [] :: Block.split (behindReturn bs) := by
  cases bs with
  | nil => rfl
  | cons b bs =>
    by_cases hb : b = Byte.lineFeed
    · subst hb
      rfl
    · rw [behindReturn_cons hb, Block.split, if_pos (by decide)]
      rintro _ _ ⟨⟩
      exact hb rfl

theorem split_feed (bs : List UInt8) :
    Block.split (Byte.lineFeed :: bs) = [] :: Block.split bs := by
  rw [Block.split, if_pos (by decide)]
  exact nofun

theorem split_literal {b : UInt8} (h : Byte.isLineEnd b = false) (bs : List UInt8) :
    Block.split (b :: bs) = (Block.split bs).modifyHead (b :: ·) := by
  rw [Block.split, if_neg (Bool.eq_false_iff.1 h)]
  rintro _ rfl _
  exact absurd h (by decide)

theorem Splitter.finish_eq (line : Array UInt8) (after : Bool) (raw : List UInt8) :
    (raw.foldl step ⟨#[], line, after⟩).finish =
      (Block.split (if after then behindReturn raw else raw)).modifyHead (line.toList ++ ·) := by
  induction raw generalizing line after with
  | nil => cases after <;> simp [finish, behindReturn, Block.split]
  | cons b raw ih =>
    have ended (next : Bool) : (raw.foldl step ⟨#[].push line.toList, #[], next⟩).finish =
        line.toList :: Block.split (if next then behindReturn raw else raw) := by
      rw [finish_foldl, ih #[] next]
      cases Block.split (if next then behindReturn raw else raw) <;> rfl
    rw [List.foldl_cons]
    by_cases feed : b = Byte.lineFeed
    · subst feed
      cases after with
      | true => exact ih line false
      | false =>
        have first : step ⟨#[], line, false⟩ Byte.lineFeed = ⟨#[].push line.toList, #[], false⟩ :=
          rfl
        rw [first, ended, if_neg Bool.false_ne_true, if_neg Bool.false_ne_true, split_feed]
        simp
    · have same : (if after then behindReturn (b :: raw) else b :: raw) = b :: raw := by
        rw [behindReturn_cons feed, ite_self]
      rw [same]
      by_cases ret : b = Byte.carriageReturn
      · subst ret
        rw [step, if_neg feed, if_pos rfl, ended, split_return]
        simp
      · have literal : Byte.isLineEnd b = false := by simp [Byte.isLineEnd, feed, ret]
        rw [step, if_neg feed, if_neg ret, ih, split_literal literal]
        simp [Function.comp_def]

theorem lines_eq_split (raw : List UInt8) : lines raw = Block.split raw := by
  rw [lines, Splitter.start, Splitter.finish_eq]
  cases h : Block.split raw <;> simp [h]

theorem toList_unescapeTo (out : Array UInt8) (line : List UInt8) :
    (unescapeTo out line).toList = out.toList ++ Block.unfence line := by
  fun_induction Block.unfence line generalizing out with
  | case1 bs ih =>
    change (unescapeTo out (Block.escapedFence ++ bs)).toList = _
    rw [unescapeTo_escapedFence, ih]
    simp
  | case2 b bs other ih =>
    have literal : ¬Block.escapedFence <+: b :: bs := by
      rintro ⟨r, hr⟩
      obtain ⟨rfl, rfl⟩ := List.cons.inj hr
      exact other r rfl rfl
    rw [unescapeTo_literal out literal, ih]
    simp
  | case3 => simp [unescapeTo]

theorem unescape_eq_unfence (line : List UInt8) : unescape line = Block.unfence line := by
  rw [unescape, toList_unescapeTo]
  rfl

theorem shared_eq_margin (ls : List (List UInt8)) :
    (Margins.of ls).shared.getD 0 = Block.margin ls := by
  cases ls with
  | nil => rfl
  | cons first rest =>
    have uncounted : (Margins.add ⟨none, none, 0⟩ first 0).shared = none := by
      unfold Margins.add
      split <;> rfl
    rw [Margins.of, Margins.addAll, Margins.shared_addAll, uncounted]
    rfl

theorem shorten_eq_outdent (n : Nat) (ls : List (List UInt8)) :
    shorten n ls = Block.outdent n ls := by
  cases ls <;> rfl

theorem isBlank_drop {first line : List UInt8} {rest : List (List UInt8)} (h : line ∈ rest) :
    isBlank (line.drop ((Margins.of (first :: rest)).shared.getD 0)) = isBlank line := by
  generalize hn : (Margins.of (first :: rest)).shared.getD 0 = n
  have front : (line.take n).all Byte.isIndent = true := by
    rw [List.all_eq_true]
    intro b hb
    rw [← hn] at hb
    exact isIndent_of_mem_take h hb
  calc isBlank (line.drop n)
      = ((line.take n).all Byte.isIndent && (line.drop n).all Byte.isIndent) := by
        rw [front, Bool.true_and, isBlank]
    _ = isBlank line := by rw [← List.all_append, List.take_append_drop, isBlank]

theorem map_isBlank_shorten (ls : List (List UInt8)) :
    (shorten ((Margins.of ls).shared.getD 0) ls).map isBlank = ls.map isBlank := by
  cases ls with
  | nil => rfl
  | cons first rest =>
    rw [shorten, List.map_cons, List.map_cons, List.map_map]
    congr 1
    exact List.map_congr_left fun line hl => isBlank_drop hl

/-- Lines that begin and end with one that is not blank. -/
structure Bounded (ls : List (List UInt8)) : Prop where
  nonempty : ls ≠ []
  first : ∀ line, ls.head? = some line → isBlank line = false
  last : ∀ line, ls.getLast? = some line → isBlank line = false

def AllBlank (ls : List (List UInt8)) : Prop := ∀ line ∈ ls, isBlank line = true

/-- Lines are all blank, or there are blank ones around some that begin and end with text. -/
theorem allBlank_or_bounded (ls : List (List UInt8)) :
    AllBlank ls ∨ ∃ before mid after, ls = before ++ (mid ++ after) ∧ AllBlank before ∧
      Bounded mid ∧ AllBlank after := by
  cases hr : ls.dropWhile isBlank with
  | nil => exact .inl (List.dropWhile_eq_nil_iff.1 hr)
  | cons line rest =>
    have text : isBlank line = false := by
      have := List.head?_dropWhile_not isBlank ls
      rwa [hr, List.head?_cons] at this
    let mid := (line :: rest).rdropWhile isBlank
    have nonempty : mid ≠ [] := by
      intro empty
      have blank := List.rdropWhile_eq_nil_iff.1 empty line List.mem_cons_self
      exact absurd (text.symm.trans blank) Bool.false_ne_true
    refine .inr ⟨ls.takeWhile isBlank, mid, (line :: rest).rtakeWhile isBlank, ?_, ?_,
      ⟨nonempty, ?_, ?_⟩, ?_⟩
    · rw [List.rdropWhile_append_rtakeWhile, ← hr, List.takeWhile_append_dropWhile]
    · exact fun l hl => List.mem_takeWhile_imp hl
    · intro first hf
      obtain ⟨tail, ht⟩ := List.rdropWhile_prefix isBlank (line :: rest)
      have head : (line :: rest).head? = some first := by
        rw [← ht, List.head?_append_of_ne_nil _ nonempty]
        exact hf
      obtain rfl := Option.some.inj head
      exact text
    · intro last hl
      have not_blank := List.rdropWhile_last_not isBlank (line :: rest) nonempty
      rw [List.getLast?_eq_some_getLast nonempty, Option.some.injEq] at hl
      exact hl ▸ Bool.eq_false_iff.2 not_blank
    · exact fun l hl => List.mem_rtakeWhile_imp hl

section
variable {ls ms before mid after : List (List UInt8)}

theorem AllBlank.of_map (h : AllBlank ls) (same : ms.map isBlank = ls.map isBlank) :
    AllBlank ms := by
  intro line hl
  have member : isBlank line ∈ ls.map isBlank := same ▸ List.mem_map_of_mem hl
  obtain ⟨other, ho, flag⟩ := List.mem_map.1 member
  exact flag ▸ h other ho

theorem Bounded.of_map (h : Bounded ls) (same : ms.map isBlank = ls.map isBlank) :
    Bounded ms := by
  have outer {o o' : Option (List UInt8)} (same : o.map isBlank = o'.map isBlank)
      (ho : ∀ line, o' = some line → isBlank line = false) :
      ∀ line, o = some line → isBlank line = false := by
    rintro line rfl
    obtain ⟨other, rfl, flag⟩ := Option.map_eq_some_iff.1 same.symm
    exact flag ▸ ho other rfl
  refine ⟨?_, outer ?_ h.first, outer ?_ h.last⟩
  · rintro rfl
    exact h.nonempty (List.map_eq_nil_iff.1 same.symm)
  · rw [← List.head?_map, same, List.head?_map]
  · rw [← List.getLast?_map, same, List.getLast?_map]

theorem trim_of_allBlank (h : AllBlank ls) : Block.trim ls = [] := by
  have none_left : ls.dropWhile isBlank = [] := List.dropWhile_eq_nil_iff.2 h
  exact (congrArg (List.rdropWhile isBlank) none_left).trans (List.rdropWhile_nil isBlank)

theorem trim_append (hb : AllBlank before) (hm : Bounded mid) (ha : AllBlank after) :
    Block.trim (before ++ (mid ++ after)) = mid := by
  have front : (before ++ (mid ++ after)).dropWhile isBlank = mid ++ after := by
    obtain ⟨line, rest, rfl⟩ := List.exists_cons_of_ne_nil hm.nonempty
    have text : ¬isBlank line = true := Bool.eq_false_iff.1 (hm.first line rfl)
    rw [List.dropWhile_append_of_pos hb, List.cons_append, List.dropWhile_cons_of_neg text]
  have back : (mid ++ after).rdropWhile isBlank = mid := by
    have blank : ∀ line ∈ after.reverse, isBlank line = true := fun line hl =>
      ha line (List.mem_reverse.1 hl)
    rw [List.rdropWhile, List.reverse_append, List.dropWhile_append_of_pos blank]
    exact List.rdropWhile_eq_self_iff.2 fun ne =>
      Bool.eq_false_iff.1 (hm.last _ (List.getLast?_eq_some_getLast ne))
  exact (congrArg (List.rdropWhile isBlank) front).trans back

/-- The lines that the decoder writes are those that are left when the shortened lines are
trimmed. -/
theorem kept_eq_trim (ls : List (List UInt8)) :
    kept ls = Block.trim (Block.outdent (Block.margin ls) ls) := by
  rw [← shared_eq_margin, ← shorten_eq_outdent]
  have flags := map_isBlank_shorten ls
  obtain blank | ⟨before, mid, after, rfl, hb, hm, ha⟩ := allBlank_or_bounded ls
  · have none_counted : Margins.of ls = ⟨none, none, 0⟩ := Margins.addAll_of_blank _ 0 blank
    rw [trim_of_allBlank (blank.of_map flags), kept, none_counted]
  · rw [kept_append hb ha hm.nonempty hm.first hm.last]
    generalize shorten _ _ = shortened at flags ⊢
    rw [List.map_append, List.map_append] at flags
    obtain ⟨before', rest', rfl, flags_before, flags_rest⟩ := List.map_eq_append_iff.1 flags
    obtain ⟨mid', after', rfl, flags_mid, flags_after⟩ := List.map_eq_append_iff.1 flags_rest
    have length_before : before.length = before'.length := by
      simpa using (congrArg List.length flags_before).symm
    have length_mid : mid.length = mid'.length := by
      simpa using (congrArg List.length flags_mid).symm
    rw [trim_append (hb.of_map flags_before) (hm.of_map flags_mid) (ha.of_map flags_after),
      length_before, length_mid, List.drop_left, List.take_left]

end

theorem content_eq_meaning (raw : List UInt8) : content raw = Block.meaning raw := by
  have written : unescape = Block.unfence := funext unescape_eq_unfence
  rw [content, kept_eq_trim, lines_eq_split, written, Block.meaning]

end Dedent

/-- Whatever the body of a block string is, and whatever buffer it goes through, a receiver that
never stops is handed what the body means. -/
theorem Chunks.handed_block_meaning {σ : Type} (raw : List UInt8) (size : Nat)
    (receive : Receiver σ) (s : σ) (room : 0 < size)
    (never : ∀ u chunk, (receive u chunk).2 = false) :
    (handed .blockString raw size receive s).flatten = Block.meaning raw := by
  rw [flatten_handed _ raw room never, Kind.content, Dedent.content_eq_meaning]

/-- A first line that keeps its indentation, an escaped fence, blank lines shorter and longer than
the margin of four, and a blank line at the end; the line ends are of all three forms. -/
theorem Chunks.handed_block_meaning_margin :
    let raw : List UInt8 :=
      [0x20, 0x20, 0x61, 0x0D, 0x0A, 0x20, 0x20, 0x20, 0x20, 0x62, 0x5C, 0x22, 0x22, 0x22, 0x0D,
        0x20, 0x0A, 0x20, 0x20, 0x20, 0x20, 0x20, 0x20, 0x0D, 0x0A, 0x20, 0x20, 0x20, 0x20, 0x63,
        0x0A, 0x09]
    let receive : Receiver Nat := fun n _ => (n + 1, false)
    (∀ u chunk, (receive u chunk).2 = false) ∧
      (handed .blockString raw 3 receive 0).flatten =
        [0x20, 0x20, 0x61, 0x0A, 0x62, 0x22, 0x22, 0x22, 0x0A, 0x0A, 0x20, 0x20, 0x0A, 0x63] := by
  intro raw receive
  have never : ∀ u chunk, (receive u chunk).2 = false := fun _ _ => rfl
  have bytes : Block.meaning raw =
      [0x20, 0x20, 0x61, 0x0A, 0x62, 0x22, 0x22, 0x22, 0x0A, 0x0A, 0x20, 0x20, 0x0A, 0x63] := by
    decide +kernel
  exact ⟨never, (handed_block_meaning raw 3 receive 0 (by decide) never).trans bytes⟩

end QueryDoc
