import QueryDoc.Proofs.BlockMeaning

/-! The decoder of block strings forgets where in the body its lines stood. Here every line keeps
its span, up to the choice of the lines that are written. -/
namespace QueryDoc.Dedent

/-- The offsets of a text from `start` on and before `stop`. -/
structure Span where
  start : Nat
  stop : Nat
  le : start ≤ stop
  deriving DecidableEq, Repr

namespace Span

def upTo (n : Nat) : Span := ⟨0, n, Nat.zero_le n⟩

def shift (n : Nat) (p : Span) : Span := ⟨p.start + n, p.stop + n, Nat.add_le_add_right p.le n⟩

def take (n : Nat) (p : Span) : Span :=
  ⟨p.start, min (p.start + n) p.stop, Nat.le_min.2 ⟨Nat.le_add_right _ n, p.le⟩⟩

def drop (n : Nat) (p : Span) : Span := ⟨min (p.start + n) p.stop, p.stop, Nat.min_le_right _ _⟩

def bytes (raw : List UInt8) (p : Span) : List UInt8 := (raw.drop p.start).take (p.stop - p.start)

/-- The first span ends before the second begins, and they do not touch. -/
def Before (p q : Span) : Prop := p.stop < q.start

theorem bytes_shift {u : List UInt8} {n : Nat} (h : u.length = n) (raw : List UInt8) (p : Span) :
    (p.shift n).bytes (u ++ raw) = p.bytes raw := by
  subst h
  simp only [bytes, shift, Nat.add_sub_add_right]
  rw [Nat.add_comm, ← List.drop_drop, List.drop_left]

theorem bytes_take (raw : List UInt8) (n : Nat) (p : Span) :
    (p.take n).bytes raw = (p.bytes raw).take n := by
  have length : min (p.start + n) p.stop - p.start = min n (p.stop - p.start) := by omega
  simp only [bytes, take, length, List.take_take]

theorem bytes_drop (raw : List UInt8) (n : Nat) (p : Span) :
    (p.drop n).bytes raw = (p.bytes raw).drop n := by
  simp only [bytes, drop, List.drop_take, List.drop_drop]
  rcases Nat.le_total (p.start + n) p.stop with le | le
  · rw [Nat.min_eq_left le, Nat.sub_add_eq]
  · rw [Nat.min_eq_right le, Nat.sub_self, Nat.sub_sub, Nat.sub_eq_zero_of_le le]
    rfl

theorem length_bytes_le (raw : List UInt8) (p : Span) : (p.bytes raw).length ≤ p.stop - p.start :=
  List.length_take_le _ _

theorem start_le_drop (n : Nat) (p : Span) : p.start ≤ (p.drop n).start :=
  Nat.le_min.2 ⟨Nat.le_add_right _ n, p.le⟩

theorem Before.shift {p q : Span} (h : p.Before q) (n : Nat) : (p.shift n).Before (q.shift n) :=
  Nat.add_lt_add_right h n

theorem Before.drop {p q : Span} (h : p.Before q) (n : Nat) : p.Before (q.drop n) :=
  Nat.lt_of_lt_of_le h (q.start_le_drop n)

theorem eq_or_before {ps : List Span} (h : ps.Pairwise Before) {p q : Span} (hp : p ∈ ps)
    (hq : q ∈ ps) : p = q ∨ p.Before q ∨ q.Before p := by
  induction h with
  | nil => cases hp
  | cons before _ ih =>
    rcases List.mem_cons.1 hp with rfl | laterP
    · rcases List.mem_cons.1 hq with rfl | laterQ
      · exact .inl rfl
      · exact .inr (.inl (before q laterQ))
    · rcases List.mem_cons.1 hq with rfl | laterQ
      · exact .inr (.inr (before p laterP))
      · exact ih laterP laterQ

end Span

/-- The spans of the lines of a text. -/
def lineSpans : List UInt8 → List Span
  | [] => [.upTo 0]
  | Byte.carriageReturn :: Byte.lineFeed :: bs => .upTo 0 :: (lineSpans bs).map (Span.shift 2)
  | b :: bs =>
    if Byte.isLineEnd b then .upTo 0 :: (lineSpans bs).map (Span.shift 1)
    else ((lineSpans bs).map (Span.shift 1)).modifyHead fun p => .upTo p.stop

/-- These bytes end one line of a text, and what follows them belongs to the next. -/
inductive Ends : (u bs : List UInt8) → Prop where
  | pair {bs : List UInt8} : Ends [Byte.carriageReturn, Byte.lineFeed] bs
  | single {b : UInt8} {bs : List UInt8} (ended : Byte.isLineEnd b = true)
      (alone : ∀ r, b = Byte.carriageReturn → bs ≠ Byte.lineFeed :: r) : Ends [b] bs

/-- Every text is built from behind, by literal bytes and by line ends. -/
@[elab_as_elim]
theorem Ends.induction {motive : List UInt8 → Prop} (nil : motive [])
    (ended : ∀ u bs, Ends u bs → motive bs → motive (u ++ bs))
    (literal : ∀ b bs, Byte.isLineEnd b = false → motive bs → motive (b :: bs)) :
    ∀ raw, motive raw
  | [] => nil
  | [b] => by
    cases hb : Byte.isLineEnd b with
    | true => exact ended [b] [] (.single hb fun _ _ => nofun) nil
    | false => exact literal b [] hb nil
  | b :: c :: bs => by
    by_cases pair : b = Byte.carriageReturn ∧ c = Byte.lineFeed
    · rw [pair.1, pair.2]
      exact ended _ bs .pair (Ends.induction nil ended literal bs)
    · have rest := Ends.induction nil ended literal (c :: bs)
      cases hb : Byte.isLineEnd b with
      | true =>
        refine ended [b] (c :: bs) (.single hb ?_) rest
        rintro r rfl ⟨⟩
        exact pair ⟨rfl, rfl⟩
      | false => exact literal b (c :: bs) hb rest

namespace Ends

variable {u bs : List UInt8}

theorem split_eq (h : Ends u bs) : Block.split (u ++ bs) = [] :: Block.split bs := by
  cases h with
  | pair => rfl
  | single ended alone =>
    rw [List.singleton_append, Block.split, if_pos ended]
    exact alone

theorem lineSpans_eq (h : Ends u bs) :
    lineSpans (u ++ bs) = .upTo 0 :: (lineSpans bs).map (Span.shift u.length) := by
  cases h with
  | pair => rfl
  | single ended alone =>
    rw [List.singleton_append, lineSpans, if_pos ended]
    · rfl
    · exact alone

theorem length_pos (h : Ends u bs) : 0 < u.length := by
  cases h with
  | pair => exact Nat.two_pos
  | single => exact Nat.one_pos

theorem isLineEnd (h : Ends u bs) : ∀ b ∈ u, Byte.isLineEnd b = true := by
  cases h with
  | pair => exact List.forall_mem_cons.2 ⟨rfl, List.forall_mem_singleton.2 rfl⟩
  | single ended => exact List.forall_mem_singleton.2 ended

end Ends

theorem lineSpans_literal {b : UInt8} (h : Byte.isLineEnd b = false) (bs : List UInt8) :
    lineSpans (b :: bs) =
      ((lineSpans bs).map (Span.shift 1)).modifyHead fun p => .upTo p.stop := by
  rw [lineSpans, if_neg (Bool.eq_false_iff.1 h)]
  rintro _ rfl _
  exact absurd h (by decide)

theorem lineSpans_eq_cons (raw : List UInt8) :
    ∃ ps, lineSpans raw = .upTo (raw.takeWhile fun b => !Byte.isLineEnd b).length :: ps := by
  induction raw using Ends.induction with
  | nil => exact ⟨[], rfl⟩
  | ended u bs ends ih =>
    refine ⟨(lineSpans bs).map (Span.shift u.length), ?_⟩
    rw [ends.lineSpans_eq]
    cases ends with
    | pair => rfl
    | single ended => simp [ended]
  | literal b bs literal ih =>
    obtain ⟨ps, front⟩ := ih
    refine ⟨ps.map (Span.shift 1), ?_⟩
    simp [lineSpans_literal literal, front, literal, Span.shift, Span.upTo]

theorem lineSpans_cons {b : UInt8} (h : Byte.isLineEnd b = false) {bs : List UInt8} {n : Nat}
    {ps : List Span} (front : lineSpans bs = .upTo n :: ps) :
    lineSpans (b :: bs) = .upTo (n + 1) :: ps.map (Span.shift 1) := by
  rw [lineSpans_literal h, front]
  rfl

theorem map_bytes_shift {u : List UInt8} {n : Nat} (h : u.length = n) (raw : List UInt8)
    (ps : List Span) :
    (ps.map (Span.shift n)).map (Span.bytes (u ++ raw)) = ps.map (Span.bytes raw) := by
  rw [List.map_map]
  exact List.map_congr_left fun p _ => Span.bytes_shift h raw p

theorem map_bytes_lineSpans (raw : List UInt8) :
    (lineSpans raw).map (Span.bytes raw) = lines raw := by
  rw [lines_eq_split]
  induction raw using Ends.induction with
  | nil => rfl
  | ended u bs ends ih =>
    rw [ends.lineSpans_eq, ends.split_eq, List.map_cons, map_bytes_shift rfl, ih]
    rfl
  | literal b bs literal ih =>
    obtain ⟨ps, front⟩ := lineSpans_eq_cons bs
    rw [lineSpans_cons literal front, split_literal literal, ← ih, front, List.map_cons,
      List.map_cons, List.modifyHead_cons]
    congr 1
    exact map_bytes_shift (u := [b]) rfl bs ps

theorem pairwise_shift {ps : List Span} (h : ps.Pairwise Span.Before) (n : Nat) :
    (ps.map (Span.shift n)).Pairwise Span.Before :=
  h.map _ fun _ _ before => before.shift n

theorem pairwise_lineSpans (raw : List UInt8) : (lineSpans raw).Pairwise Span.Before := by
  induction raw using Ends.induction with
  | nil => exact List.pairwise_singleton _ _
  | ended u bs ends ih =>
    rw [ends.lineSpans_eq]
    refine List.pairwise_cons.2 ⟨fun q hq => ?_, pairwise_shift ih u.length⟩
    obtain ⟨p, -, rfl⟩ := List.mem_map.1 hq
    exact Nat.lt_of_lt_of_le ends.length_pos (Nat.le_add_left _ p.start)
  | literal b bs literal ih =>
    obtain ⟨ps, front⟩ := lineSpans_eq_cons bs
    rw [lineSpans_cons literal front]
    rw [front] at ih
    obtain ⟨first, rest⟩ := List.pairwise_cons.1 (pairwise_shift ih 1)
    exact List.pairwise_cons.2 ⟨first, rest⟩

/-- The indentation that every line but the first loses. -/
def margin (raw : List UInt8) : Nat := (Margins.of (lines raw)).shared.getD 0

def outdented (raw : List UInt8) : List Span :=
  match lineSpans raw with
  | [] => []
  | p :: rest => p :: rest.map (Span.drop (margin raw))

def removedSpans (raw : List UInt8) : List Span :=
  ((lineSpans raw).drop 1).map (Span.take (margin raw))

section
variable {α β : Type}

/-- Of one entry for each line, those of the lines that are written. -/
def chosen (ls : List (List UInt8)) (xs : List α) : List α :=
  match (Margins.of ls).first with
  | none => []
  | some first => (xs.take ((Margins.of ls).last + 1)).drop first

/-- Of one entry for each line, those of the lines that are dropped. -/
def leftOut (ls : List (List UInt8)) (xs : List α) : List α :=
  match (Margins.of ls).first with
  | none => xs
  | some first => xs.take first ++ xs.drop ((Margins.of ls).last + 1)

theorem chosen_map (f : α → β) (ls : List (List UInt8)) (xs : List α) :
    chosen ls (xs.map f) = (chosen ls xs).map f := by
  unfold chosen
  split
  · rfl
  · rw [List.map_drop, List.map_take]

theorem leftOut_map (f : α → β) (ls : List (List UInt8)) (xs : List α) :
    leftOut ls (xs.map f) = (leftOut ls xs).map f := by
  unfold leftOut
  split
  · rfl
  · rw [List.map_append, List.map_drop, List.map_take]

theorem chosen_sublist (ls : List (List UInt8)) (xs : List α) : (chosen ls xs).Sublist xs := by
  unfold chosen
  split
  · exact List.nil_sublist xs
  · exact (List.drop_sublist _ _).trans (List.take_sublist _ _)

end

def writtenSpans (raw : List UInt8) : List Span := chosen (lines raw) (outdented raw)

def droppedSpans (raw : List UInt8) : List Span := leftOut (lines raw) (lineSpans raw)

theorem map_bytes_outdented (raw : List UInt8) :
    (outdented raw).map (Span.bytes raw) = shorten (margin raw) (lines raw) := by
  have whole := map_bytes_lineSpans raw
  rw [outdented]
  split
  · next empty =>
      rw [← whole, empty]
      rfl
  · next p rest spans =>
      rw [← whole, spans, List.map_cons, List.map_cons, shorten, List.map_map, List.map_map]
      congr 1
      exact List.map_congr_left fun q _ => q.bytes_drop raw (margin raw)

/-- The spans hold the lines that the decoder writes. -/
theorem map_bytes_writtenSpans (raw : List UInt8) :
    (writtenSpans raw).map (Span.bytes raw) = kept (lines raw) := by
  rw [writtenSpans, ← chosen_map, map_bytes_outdented]
  rfl

theorem pairwise_writtenSpans (raw : List UInt8) : (writtenSpans raw).Pairwise Span.Before := by
  have order := pairwise_lineSpans raw
  refine List.Pairwise.sublist (chosen_sublist _ _) ?_
  rw [outdented]
  split
  · exact List.Pairwise.nil
  · next p rest spans =>
      rw [spans] at order
      obtain ⟨first, order⟩ := List.pairwise_cons.1 order
      refine List.pairwise_cons.2 ⟨fun q hq => ?_, order.map _ fun _ _ before => before.drop _⟩
      obtain ⟨r, hr, rfl⟩ := List.mem_map.1 hq
      exact (first r hr).drop _

theorem isIndent_of_removed {raw : List UInt8} {p : Span} (hp : p ∈ removedSpans raw) {b : UInt8}
    (hb : b ∈ p.bytes raw) : Byte.isIndent b = true := by
  obtain ⟨q, hq, rfl⟩ := List.mem_map.1 hp
  rw [Span.bytes_take] at hb
  obtain ⟨ps, spans⟩ := lineSpans_eq_cons raw
  have whole := map_bytes_lineSpans raw
  rw [spans, List.map_cons] at whole
  rw [spans] at hq
  rw [margin, ← whole] at hb
  exact isIndent_of_mem_take (List.mem_map_of_mem hq) hb

theorem allBlank_leftOut (ls : List (List UInt8)) : AllBlank (leftOut ls ls) := by
  obtain blank | ⟨before, mid, after, rfl, hb, hm, ha⟩ := allBlank_or_bounded ls
  · have none_counted : Margins.of ls = ⟨none, none, 0⟩ := Margins.addAll_of_blank _ 0 blank
    rw [leftOut, none_counted]
    exact blank
  · obtain ⟨first, last⟩ := Margins.of_append hb ha hm.nonempty hm.first hm.last
    rw [leftOut, first, last]
    simp only
    rw [List.take_left, ← List.drop_drop, List.drop_left, List.drop_left]
    exact fun line hl => (List.mem_append.1 hl).elim (hb line) (ha line)

theorem isIndent_of_dropped {raw : List UInt8} {p : Span} (hp : p ∈ droppedSpans raw) {b : UInt8}
    (hb : b ∈ p.bytes raw) : Byte.isIndent b = true := by
  have left : p.bytes raw ∈ leftOut (lines raw) (lines raw) := by
    nth_rewrite 2 [← map_bytes_lineSpans raw]
    rw [leftOut_map]
    exact List.mem_map_of_mem hp
  exact List.all_eq_true.1 (allBlank_leftOut _ _ left) b hb

theorem isBlank_of_leftOut {raw : List UInt8} {p : Span}
    (hp : p ∈ leftOut (lines raw) (outdented raw)) : isBlank (p.bytes raw) = true := by
  have flags : (leftOut (lines raw) (shorten (margin raw) (lines raw))).map isBlank =
      (leftOut (lines raw) (lines raw)).map isBlank := by
    rw [← leftOut_map, ← leftOut_map, margin, map_isBlank_shorten]
  have blank := (allBlank_leftOut (lines raw)).of_map flags
  rw [← map_bytes_outdented, leftOut_map] at blank
  exact blank _ (List.mem_map_of_mem hp)

end QueryDoc.Dedent
