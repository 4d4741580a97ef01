import QueryDoc.Proofs.ErrorShape
import QueryDoc.Proofs.LineSpans
import QueryDoc.Proofs.Upcoming

/-! The reader of a block string skips the escaped fences of its body and the decoder replaces them.
Both are repeated with a note of the offsets at which they meet one. -/
namespace QueryDoc

namespace Block

/-- The offsets at which escaped fences stand in a text. -/
def escapes (w : List UInt8) : List Nat :=
  (List.range w.length).filter fun o => escapedFence.isPrefixOf (w.drop o)

theorem length_escapedFence : escapedFence.length = 4 := rfl

theorem eq_quote_of_mem {b : UInt8} (h : b ∈ fence) : b = Byte.quote :=
  List.eq_of_mem_replicate (n := 3) h

theorem mem_escapes {w : List UInt8} {o : Nat} : o ∈ escapes w ↔ escapedFence <+: w.drop o := by
  rw [escapes, List.mem_filter, List.mem_range, List.isPrefixOf_iff_prefix]
  refine ⟨And.right, fun h => ⟨?_, h⟩⟩
  have length := h.length_le
  rw [List.length_drop, length_escapedFence] at length
  omega

theorem add_length_le {w : List UInt8} {o : Nat} (h : o ∈ escapes w) :
    o + escapedFence.length ≤ w.length := by
  have length := (mem_escapes.1 h).length_le
  rw [List.length_drop] at length
  rw [length_escapedFence] at length ⊢
  omega

theorem escapes_cons (b : UInt8) (bs : List UInt8) :
    escapes (b :: bs) =
      (if escapedFence.isPrefixOf (b :: bs) then [0] else []) ++ (escapes bs).map (1 + ·) := by
  have later : ((List.range bs.length).map Nat.succ).filter
        (fun o => escapedFence.isPrefixOf ((b :: bs).drop o)) = (escapes bs).map (1 + ·) := by
    rw [List.filter_map, escapes]
    exact List.map_congr_left fun o _ => Nat.add_comm o 1
  rw [escapes, List.length_cons, List.range_succ_eq_map, List.filter_cons, later, List.drop_zero]
  split <;> rfl

theorem escapes_literal {b : UInt8} {bs : List UInt8} (h : ¬escapedFence <+: b :: bs) :
    escapes (b :: bs) = (escapes bs).map (1 + ·) := by
  rw [escapes_cons, isPrefixOf_eq_false h]
  rfl

theorem map_add_map_add (m n : Nat) (os : List Nat) :
    (os.map (n + ·)).map (m + ·) = os.map (m + n + ·) := by
  rw [List.map_map]
  exact List.map_congr_left fun o _ => (Nat.add_assoc m n o).symm

theorem escapes_append {u : List UInt8} (h : ∀ b ∈ u, b ≠ Byte.backslash) (v : List UInt8) :
    escapes (u ++ v) = (escapes v).map (u.length + ·) := by
  induction u with
  | nil => simp
  | cons b u ih =>
    have literal : ¬escapedFence <+: b :: (u ++ v) := fun hp =>
      h b List.mem_cons_self (List.cons_prefix_cons.1 hp).1.symm
    rw [List.cons_append, escapes_literal literal, ih fun c hc => h c (List.mem_cons_of_mem b hc),
      map_add_map_add, Nat.add_comm 1, List.length_cons]

theorem escapes_escapedFence (bs : List UInt8) :
    escapes (escapedFence ++ bs) = 0 :: (escapes bs).map (4 + ·) := by
  have quotes : escapes (fence ++ bs) = (escapes bs).map (3 + ·) := by
    refine escapes_append (fun b hb => ?_) bs
    rw [eq_quote_of_mem hb]
    decide
  have first : escapes (escapedFence ++ bs) = 0 :: (escapes (fence ++ bs)).map (1 + ·) :=
    escapes_cons Byte.backslash (fence ++ bs)
  rw [first, quotes, map_add_map_add]

/-- Reads on as `readFrom` does, and notes the offsets of the escaped fences that it skips. -/
def noteFrom : (skip : Nat) → (n : Nat) → List UInt8 → Except Nat Nat × List Nat
  | _, n, [] => (.error n, [])
  | skip + 1, n, _ :: bs => noteFrom skip (n + 1) bs
  | 0, n, b :: bs =>
    if fence.isPrefixOf (b :: bs) then (.ok n, [])
    else if escapedFence.isPrefixOf (b :: bs) then
      let rest := noteFrom 3 (n + 1) bs
      (rest.1, n :: rest.2)
    else if Byte.isBlockControl b then (.error n, [])
    else noteFrom 0 (n + 1) bs

/-- Reads the body that follows an opening fence, and notes the offsets in it of the escaped fences
that it skips. -/
def noting (bs : List UInt8) : Except Nat Nat × List Nat := noteFrom 0 0 bs

theorem noteFrom_fst (skip n : Nat) (bs : List UInt8) :
    (noteFrom skip n bs).1 = readFrom skip n bs := by
  fun_induction readFrom skip n bs with
  | case1 => simp [noteFrom]
  | case2 skip n b bs ih => rw [noteFrom, ih]
  | case3 n b bs closes => rw [noteFrom, if_pos closes]
  | case4 n b bs closes escaped ih => rw [noteFrom, if_neg closes, if_pos escaped, ih]
  | case5 n b bs closes escaped control =>
    rw [noteFrom, if_neg closes, if_neg escaped, if_pos control]
  | case6 n b bs closes escaped control ih =>
    rw [noteFrom, if_neg closes, if_neg escaped, if_neg control, ih]

theorem noteFrom_escapedFence (n : Nat) (bs : List UInt8) :
    noteFrom 0 n (escapedFence ++ bs) =
      ((noteFrom 0 (n + 4) bs).1, n :: (noteFrom 0 (n + 4) bs).2) := rfl

theorem noteFrom_literal {b : UInt8} {bs : List UInt8} (control : Byte.isBlockControl b = false)
    (goesOn : ¬fence <+: b :: bs) (literal : ¬escapedFence <+: b :: bs) (n : Nat) :
    noteFrom 0 n (b :: bs) = noteFrom 0 (n + 1) bs := by
  rw [noteFrom, isPrefixOf_eq_false goesOn, isPrefixOf_eq_false literal, control]
  rfl

/-- Up to the closing fence the reader skips the escaped fences of the body. -/
theorem noteFrom_snd {w : List UInt8} (body : Body w) (n : Nat) (r : List UInt8) :
    (noteFrom 0 n (w ++ fence ++ r)).2 = (escapes w).map (n + ·) := by
  induction body generalizing n with
  | nil => rfl
  | @escaped bs _ ih =>
    have front : escapedFence ++ bs ++ fence ++ r = escapedFence ++ (bs ++ fence ++ r) := by simp
    rw [front, noteFrom_escapedFence, ih, escapes_escapedFence, List.map_cons, map_add_map_add]
    rfl
  | @raw b bs control goesOn literal _ ih =>
    have front : b :: bs ++ fence ++ r = b :: (bs ++ fence ++ r) := rfl
    rw [front, noteFrom_literal control (not_prefix_behind (by decide) goesOn r)
      (not_prefix_behind (by decide) literal r), ih, escapes_literal (not_prefix_append literal),
      map_add_map_add]

theorem noting_append {w : List UInt8} (body : Body w) (r : List UInt8) :
    noting (w ++ fence ++ r) = (read (w ++ fence ++ r), escapes w) := by
  refine Prod.ext (noteFrom_fst 0 0 _) ?_
  have skipped := noteFrom_snd body 0 r
  simp only [Nat.zero_add, List.map_id'] at skipped
  exact skipped

end Block

namespace Dedent

namespace Span

/-- An escaped fence at this offset lies within the span. -/
def Covers (p : Span) (o : Nat) : Prop := p.start ≤ o ∧ o + Block.escapedFence.length ≤ p.stop

/-- No byte of an escaped fence at this offset lies within the span. -/
def Misses (p : Span) (o : Nat) : Prop :=
  ∀ i, o ≤ i → i < o + Block.escapedFence.length → ¬(p.start ≤ i ∧ i < p.stop)

theorem unique_of_covers {ps : List Span} (order : ps.Pairwise Before) {p : Span} {o : Nat}
    (hp : p ∈ ps) (covers : p.Covers o) : ∃! q, q ∈ ps ∧ q.Covers o := by
  refine ⟨p, ⟨hp, covers⟩, fun q ⟨hq, others⟩ => ?_⟩
  obtain ⟨start, stop⟩ := covers
  obtain ⟨start', stop'⟩ := others
  rcases eq_or_before order hq hp with same | before | before
  · exact same
  · simp only [Before] at before
    omega
  · simp only [Before] at before
    omega

theorem misses_of_isIndent {raw : List UInt8} {p : Span} {o : Nat}
    (h : ∀ b ∈ p.bytes raw, Byte.isIndent b = true) (ho : o ∈ Block.escapes raw) : p.Misses o := by
  intro i lower upper ⟨start, stop⟩
  obtain ⟨r, hr⟩ := Block.mem_escapes.1 ho
  have near : i - o < Block.escapedFence.length := by omega
  have here : raw[i]? = Block.escapedFence[i - o]? := by
    rw [← List.getElem?_append_left near, hr, List.getElem?_drop, Nat.add_sub_of_le lower]
  obtain ⟨b, hb⟩ : ∃ b, Block.escapedFence[i - o]? = some b :=
    ⟨_, List.getElem?_eq_getElem near⟩
  have inside : b ∈ p.bytes raw := by
    refine List.mem_of_getElem? (i := i - p.start) ?_
    rw [bytes, List.getElem?_take_of_lt (by omega), List.getElem?_drop, Nat.add_sub_of_le start,
      here, hb]
  have indent := h b inside
  rcases List.mem_cons.1 (List.mem_of_getElem? hb) with rfl | quote
  · exact absurd indent (by decide)
  · rw [Block.eq_quote_of_mem quote] at indent
    exact absurd indent (by decide)

end Span

/-- The offsets in a text of the escaped fences within a span of it. -/
def escapesIn (raw : List UInt8) (p : Span) : List Nat :=
  (Block.escapes (p.bytes raw)).map (p.start + ·)

theorem covers_of_mem {raw : List UInt8} {p : Span} {o : Nat} (h : o ∈ escapesIn raw p) :
    p.Covers o := by
  obtain ⟨k, hk, rfl⟩ := List.mem_map.1 h
  have fits := Block.add_length_le hk
  have length := p.length_bytes_le raw
  have le := p.le
  constructor
  · omega
  · omega

theorem escapesIn_shift {u : List UInt8} {n : Nat} (h : u.length = n) (raw : List UInt8)
    (p : Span) : escapesIn (u ++ raw) (p.shift n) = (escapesIn raw p).map (n + ·) := by
  rw [escapesIn, Span.bytes_shift h, escapesIn, Block.map_add_map_add, Nat.add_comm n]
  rfl

theorem flatMap_shift {u : List UInt8} {n : Nat} (h : u.length = n) (raw : List UInt8)
    (ps : List Span) :
    (ps.map (Span.shift n)).flatMap (escapesIn (u ++ raw)) =
      (ps.flatMap (escapesIn raw)).map (n + ·) := by
  rw [List.flatMap_map, List.map_flatMap]
  exact List.flatMap_congr fun p _ => escapesIn_shift h raw p

theorem isPrefixOf_takeWhile (b : UInt8) (bs : List UInt8) :
    Block.escapedFence.isPrefixOf (b :: bs.takeWhile fun b => !Byte.isLineEnd b) =
      Block.escapedFence.isPrefixOf (b :: bs) := by
  have inside : ∀ b ∈ Block.fence, (!Byte.isLineEnd b) = true := by
    intro b hb
    rw [Block.eq_quote_of_mem hb]
    rfl
  rw [Bool.eq_iff_iff]
  constructor
  · intro h
    have line : b :: bs.takeWhile (fun b => !Byte.isLineEnd b) <+: b :: bs :=
      (List.prefix_cons_inj b).2 (List.takeWhile_prefix _)
    exact List.isPrefixOf_iff_prefix.2 ((List.isPrefixOf_iff_prefix.1 h).trans line)
  · intro h
    obtain ⟨rfl, r, rfl⟩ := Block.eq_of_escapedFence h
    rw [List.takeWhile_append_of_pos inside]
    exact List.isPrefixOf_iff_prefix.2 (List.prefix_append Block.escapedFence _)

theorem escapesIn_upTo (raw : List UInt8) (n : Nat) :
    escapesIn raw (.upTo n) = Block.escapes (raw.take n) := by
  simp [escapesIn, Span.bytes, Span.upTo]

theorem escapesIn_firstLine (b : UInt8) {bs : List UInt8} {n : Nat}
    (hn : n = (bs.takeWhile fun b => !Byte.isLineEnd b).length) :
    escapesIn (b :: bs) (.upTo (n + 1)) =
      (if Block.escapedFence.isPrefixOf (b :: bs) then [0] else []) ++
        (escapesIn bs (.upTo n)).map (1 + ·) := by
  have line : bs.take n = bs.takeWhile fun b => !Byte.isLineEnd b := by
    rw [hn]
    exact (List.prefix_iff_eq_take.1 (List.takeWhile_prefix _)).symm
  rw [escapesIn_upTo, escapesIn_upTo, List.take_succ_cons, Block.escapes_cons, line,
    isPrefixOf_takeWhile]

/-- Every escaped fence stands in a line. -/
theorem flatMap_lineSpans (raw : List UInt8) :
    (lineSpans raw).flatMap (escapesIn raw) = Block.escapes raw := by
  induction raw using Ends.induction with
  | nil => rfl
  | ended u bs ends ih =>
    have plain : ∀ b ∈ u, b ≠ Byte.backslash := by
      rintro b hb rfl
      exact absurd (ends.isLineEnd _ hb) (by decide)
    rw [ends.lineSpans_eq, List.flatMap_cons, flatMap_shift rfl, ih, Block.escapes_append plain]
    rfl
  | literal b bs literal ih =>
    obtain ⟨ps, front⟩ := lineSpans_eq_cons bs
    have others := flatMap_shift (u := [b]) rfl bs ps
    rw [front, List.flatMap_cons] at ih
    rw [Block.escapes_cons, ← ih, List.map_append, ← List.append_assoc, ← escapesIn_firstLine b rfl,
      lineSpans_cons literal front, List.flatMap_cons]
    exact congrArg (_ ++ ·) others

theorem ne_backslash_of_isIndent {b : UInt8} (h : Byte.isIndent b = true) : b ≠ Byte.backslash := by
  rintro rfl
  exact absurd h (by decide)

theorem escapesIn_of_isBlank {raw : List UInt8} {p : Span} (h : isBlank (p.bytes raw) = true) :
    escapesIn raw p = [] := by
  have none := Block.escapes_append
    (fun b hb => ne_backslash_of_isIndent (List.all_eq_true.1 h b hb)) []
  rw [List.append_nil] at none
  rw [escapesIn, none]
  rfl

theorem escapesIn_drop {raw : List UInt8} {p : Span} {n : Nat}
    (h : ∀ b ∈ (p.take n).bytes raw, Byte.isIndent b = true) :
    escapesIn raw (p.drop n) = escapesIn raw p := by
  rw [Span.bytes_take] at h
  have moved := Block.escapes_append (fun b hb => ne_backslash_of_isIndent (h b hb))
    ((p.bytes raw).drop n)
  rw [List.take_append_drop] at moved
  rw [escapesIn, escapesIn, moved, Span.bytes_drop, Block.map_add_map_add]
  rcases Nat.le_total (p.bytes raw).length n with short | long
  · rw [List.drop_eq_nil_of_le short]
    rfl
  · have le := p.length_bytes_le raw
    have start : (p.drop n).start = p.start + n := by
      have ordered := p.le
      exact Nat.min_eq_left (by omega)
    rw [start, List.length_take_of_le long]

theorem flatMap_outdented (raw : List UInt8) :
    (outdented raw).flatMap (escapesIn raw) = Block.escapes raw := by
  rw [← flatMap_lineSpans raw, outdented]
  split
  · next empty => rw [empty]
  · next p rest spans =>
      rw [spans, List.flatMap_cons, List.flatMap_cons, List.flatMap_map]
      refine congrArg (_ ++ ·) (List.flatMap_congr fun q hq => escapesIn_drop fun b hb => ?_)
      refine isIndent_of_removed (p := q.take (margin raw)) (List.mem_map_of_mem ?_) hb
      rw [spans]
      exact hq

theorem flatMap_chosen {α β : Type} {f : α → List β} {ls : List (List UInt8)} {xs : List α}
    (h : ∀ x ∈ leftOut ls xs, f x = []) : (chosen ls xs).flatMap f = xs.flatMap f := by
  unfold chosen
  unfold leftOut at h
  split
  · next none =>
      rw [none] at h
      exact (List.flatMap_eq_nil_iff.2 h).symm
  · next first some =>
      rw [some] at h
      generalize (Margins.of ls).last + 1 = last at h ⊢
      have before : ((xs.take last).take first).flatMap f = [] := by
        refine List.flatMap_eq_nil_iff.2 fun x hx => h x (List.mem_append_left _ ?_)
        rw [List.take_take, Nat.min_comm, ← List.take_take] at hx
        exact List.mem_of_mem_take hx
      have after : (xs.drop last).flatMap f = [] :=
        List.flatMap_eq_nil_iff.2 fun x hx => h x (List.mem_append_right _ hx)
      calc ((xs.take last).drop first).flatMap f
          = ((xs.take last).take first ++ (xs.take last).drop first).flatMap f := by
            rw [List.flatMap_append, before, List.nil_append]
        _ = (xs.take last ++ xs.drop last).flatMap f := by
            rw [List.take_append_drop, List.flatMap_append, after, List.append_nil]
        _ = xs.flatMap f := by rw [List.take_append_drop]

/-- The written lines hold all escaped fences. -/
theorem flatMap_writtenSpans (raw : List UInt8) :
    (writtenSpans raw).flatMap (escapesIn raw) = Block.escapes raw := by
  rw [← flatMap_outdented raw]
  exact flatMap_chosen fun p hp => escapesIn_of_isBlank (isBlank_of_leftOut hp)

/-- Writes a line on as `unescapeTo` does, and notes the offsets of the escaped fences that it
replaces; the line stands at offset `n`. -/
def noteTo (n : Nat) (out : Array UInt8) : List UInt8 → Array UInt8 × List Nat
  | [] => (out, [])
  | b :: bs =>
    if Block.escapedFence.isPrefixOf (b :: bs) then
      let rest := noteTo (n + 1) out bs
      (rest.1, n :: rest.2)
    else noteTo (n + 1) (out.push b) bs

theorem noteTo_eq (n : Nat) (out : Array UInt8) (line : List UInt8) :
    noteTo n out line = (unescapeTo out line, (Block.escapes line).map (n + ·)) := by
  induction line generalizing n out with
  | nil => rfl
  | cons b bs ih =>
    rw [noteTo, unescapeTo, Block.escapes_cons]
    split
    · rw [ih, List.map_append, Block.map_add_map_add]
      rfl
    · rw [ih, List.nil_append, Block.map_add_map_add]

section
variable {ω ε : Type} (write : ω → List UInt8 → Except ε ω)

/-- Writes the lines of a body that stand at these spans as `writeLines` does, and notes the offsets
of the escaped fences that it replaces, as far as it comes. -/
def noteLines (raw : List UInt8) (w : ω) : List Span → Except ε ω × List Nat
  | [] => (.ok w, [])
  | [p] =>
    let line := noteTo p.start #[] (p.bytes raw)
    (write w line.1.toList, line.2)
  | p :: rest =>
    let line := noteTo p.start #[] (p.bytes raw)
    match write w line.1.toList >>= (write · [Byte.lineFeed]) with
    | .error e => (.error e, line.2)
    | .ok w =>
      let later := noteLines raw w rest
      (later.1, line.2 ++ later.2)

/-- Decodes a body as `stream` does, and notes the offsets in it of the escaped fences that it
replaces. -/
def noteStream (w : ω) (raw : List UInt8) : Except ε ω × List Nat :=
  noteLines write raw w (writtenSpans raw)

theorem noteLines_fst (raw : List UInt8) (w : ω) (ps : List Span) :
    (noteLines write raw w ps).1 = writeLines write w (ps.map (Span.bytes raw)) := by
  have line (p : Span) :
      (noteTo p.start #[] (p.bytes raw)).1.toList = unescape (p.bytes raw) := by
    rw [noteTo_eq]
    rfl
  induction ps generalizing w with
  | nil => rfl
  | cons p ps ih =>
    cases ps with
    | nil => exact congrArg (write w) (line p)
    | cons q ps =>
      rw [noteLines, List.map_cons, writeLines, line]
      · cases first : write w (unescape (p.bytes raw)) with
        | error e => rfl
        | ok v =>
          cases feed : write v [Byte.lineFeed] with
          | error e => simp [bind, Except.bind, feed]
          | ok v' => simp [bind, Except.bind, feed, ih]
      · simp
      · simp

theorem noteStream_fst (w : ω) (raw : List UInt8) :
    (noteStream write w raw).1 = stream write w raw := by
  rw [noteStream, noteLines_fst, map_bytes_writtenSpans, stream]

theorem noteLines_snd (raw : List UInt8) (w : ω) (ps : List Span) :
    (noteLines write raw w ps).2 <+: ps.flatMap (escapesIn raw) ∧
      ∀ v, (noteLines write raw w ps).1 = .ok v →
        (noteLines write raw w ps).2 = ps.flatMap (escapesIn raw) := by
  have line (p : Span) : (noteTo p.start #[] (p.bytes raw)).2 = escapesIn raw p := by
    rw [noteTo_eq]
    rfl
  fun_induction noteLines write raw w ps with
  | case1 => exact ⟨List.prefix_rfl, fun _ _ => rfl⟩
  | case2 w p first => simp [first, line]
  | case3 w p rest _ first e stopped =>
    rw [List.flatMap_cons, ← line]
    exact ⟨List.prefix_append _ _, nofun⟩
  | case4 w p rest _ first v _ later ih =>
    obtain ⟨found, all⟩ := ih
    rw [List.flatMap_cons, ← line]
    exact ⟨(List.prefix_append_right_inj _).2 found, fun v' h => congrArg _ (all v' h)⟩

theorem noteStream_snd (w : ω) (raw : List UInt8) :
    (noteStream write w raw).2 <+: Block.escapes raw ∧
      ∀ v, stream write w raw = .ok v → (noteStream write w raw).2 = Block.escapes raw := by
  rw [← noteStream_fst, ← flatMap_writtenSpans]
  exact noteLines_snd write raw w (writtenSpans raw)

end

/-- What decoding does to an escaped fence at this offset of a body. -/
structure Whole (raw : List UInt8) (o : Nat) : Prop where
  /-- No line end cuts it. -/
  line : ∃! p, p ∈ lineSpans raw ∧ p.Covers o
  /-- It lies within one line that is written, without the indentation of the line. -/
  written : ∃! p, p ∈ writtenSpans raw ∧ p.Covers o
  indentation : ∀ p ∈ removedSpans raw, p.Misses o
  dropped : ∀ p ∈ droppedSpans raw, p.Misses o

theorem whole_of_mem {raw : List UInt8} {o : Nat} (h : o ∈ Block.escapes raw) : Whole raw o := by
  have within {ps : List Span} (order : ps.Pairwise Span.Before)
      (all : ps.flatMap (escapesIn raw) = Block.escapes raw) : ∃! p, p ∈ ps ∧ p.Covers o := by
    rw [← all] at h
    obtain ⟨p, hp, ho⟩ := List.mem_flatMap.1 h
    exact Span.unique_of_covers order hp (covers_of_mem ho)
  exact
    { line := within (pairwise_lineSpans raw) (flatMap_lineSpans raw)
      written := within (pairwise_writtenSpans raw) (flatMap_writtenSpans raw)
      indentation := fun p hp => Span.misses_of_isIndent (fun b => isIndent_of_removed hp) h
      dropped := fun p hp => Span.misses_of_isIndent (fun b => isIndent_of_dropped hp) h }

end Dedent

theorem Edge.of_blockString {level : Nat} {s s' : State} {label : List Terminal} {x : Lead}
    (h : Edge level s label x s') (hk : Terminal.kinds label = [.blockString]) :
    label = [.block] ∧ ∃ use cs e, s = .value use cs e ∧ s' = .afterValue use cs := by
  cases h with
  | operation keyword =>
    simp only [Terminal.operations, List.mem_cons, List.not_mem_nil, or_false] at keyword
    rcases keyword with rfl | rfl | rfl <;> cases hk
  | scalar member =>
    simp only [Terminal.scalars, List.mem_cons, List.not_mem_nil, or_false] at member
    rcases member with rfl | rfl | rfl | rfl | rfl | rfl | rfl | rfl | rfl <;> cases hk
    exact ⟨rfl, _, _, _, rfl, rfl⟩
  | _ => cases hk

namespace Config

variable {doc : List UInt8} {before : List Token} {c d : Config} {t : Token}

theorem Goes.of_blockString (h : c.Goes [t] d) (kind : t.kind = .blockString) :
    c.reaction = Grammar.blockString c.front d.state ∧ c.pos + Gap.length c.rest + 3 = t.tail := by
  obtain ⟨label, edge, reads⟩ := h.edge
  have kinds : Terminal.kinds label = [.blockString] := by
    rw [← reads.kinds_eq, List.map_singleton, kind]
  obtain ⟨rfl, use, cs, e, here, next⟩ := edge.of_blockString kinds
  obtain ⟨n, vs, fit, tokens, -⟩ := reads_cursor_iff.1 reads
  have lead : Lead.of c.front = .quote := List.mem_singleton.1 fit.lead_mem
  have fence := (Shape.fits_block_iff.1 fit).1
  constructor
  · rw [reaction, here, next]
    change Grammar.value use cs e c.front = _
    rw [Grammar.value, lead]
    exact if_pos fence
  · cases tokens
    rfl

end Config

theorem Token.Genuine.fenced {doc : List UInt8} {t : Token} (h : t.Genuine doc)
    (fits : t.fits doc = true) (kind : t.kind = .blockString) :
    Block.Body (t.value doc) ∧ ∃ r, doc.drop t.tail = t.value doc ++ Block.fence ++ r := by
  unfold Genuine at h
  rw [kind] at h
  obtain ⟨body, -, r, closing⟩ := h
  exact ⟨body, r, by rw [drop_tail fits, ← closing, List.append_assoc]⟩

/-- A block string in a scan is read by a move of it, and what the reader meets behind the opening
fence is the body and the closing fence. -/
theorem Scanner.exists_reads (s : Scanner) {doc : List UInt8} {t : Token}
    (ht : t ∈ (s.scan doc).state.toList) (kind : t.kind = .blockString) :
    ∃ before c d r, (Config.start doc).Path before c ∧ c.step = .token t d ∧
      c.reaction = Grammar.blockString c.front d.state ∧
      c.pos + Gap.length c.rest + 3 = t.tail ∧
      Block.Body (t.value doc) ∧ c.front.drop 3 = t.value doc ++ Block.fence ++ r := by
  have trace := (s.scan_iff_trace doc _ _).1 ⟨rfl, rfl⟩
  obtain ⟨fits, genuine⟩ : t.fits doc = true ∧ t.Genuine doc := by
    obtain ⟨e, path, -⟩ := trace
    exact path.genuine (Config.severed_start doc) t ht
  obtain ⟨body, r, behind⟩ := genuine.fenced fits kind
  obtain ⟨before, after, split⟩ := List.append_of_mem ht
  rw [split] at trace
  obtain ⟨c, d, path, goes, -⟩ := trace.split
  obtain ⟨reaction, tail⟩ := goes.of_blockString kind
  have ahead : c.front.drop 3 = t.value doc ++ Block.fence ++ r := by
    rw [← Config.drop_eq_front (path.seamed (Config.seamed_start doc)), List.drop_drop, tail,
      behind]
  cases goes with
  | token step => exact ⟨before, c, d, r, path, step, reaction, tail, body, ahead⟩

/-- In every block string that a scan delivers, the reader skips and the decoder replaces exactly
the escaped fences of the body, and to note their offsets changes nothing about either, whatever the
decoder writes to: one that is stopped has replaced the first of them. No line end cuts an escaped
fence and no indentation that is removed; each lies within one written line and none in a line that
is dropped. -/
theorem Scanner.escapes_agree (s : Scanner) (doc : List UInt8) {t : Token}
    (ht : t ∈ (s.scan doc).state.toList) (kind : t.kind = .blockString) :
    let raw := t.value doc
    (∃ before c d, (Config.start doc).Path before c ∧ c.step = .token t d ∧
        c.reaction = Grammar.blockString c.front d.state ∧
        c.pos + Gap.length c.rest + 3 = t.tail ∧
        Block.noting (c.front.drop 3) = (Block.read (c.front.drop 3), Block.escapes raw)) ∧
      (∀ (ω ε : Type) (write : ω → List UInt8 → Except ε ω) (w : ω),
        let noted := Dedent.noteStream write w raw
        noted.1 = t.kind.stream write w raw ∧ noted.2 <+: Block.escapes raw ∧
          ∀ v, t.kind.stream write w raw = .ok v → noted.2 = Block.escapes raw) ∧
      (∀ (σ : Type) (size : Nat) (room : 0 < size) (receive : Chunks.Receiver σ) (u : σ),
        let noted := Dedent.noteStream (Chunks.Writer.write receive) (.start u room) raw
        Chunks.Writer.conclude receive noted.1 = Chunks.deliver t.kind raw size receive u ∧
          ((∀ v chunk, (receive v chunk).2 = false) → noted.2 = Block.escapes raw)) ∧
      (Dedent.lineSpans raw).map (Dedent.Span.bytes raw) = Dedent.lines raw ∧
      (Dedent.writtenSpans raw).map (Dedent.Span.bytes raw) = Dedent.kept (Dedent.lines raw) ∧
      ∀ o ∈ Block.escapes raw, Dedent.Whole raw o := by
  intro raw
  have stream {ω ε : Type} (write : ω → List UInt8 → Except ε ω) (w : ω) :
      t.kind.stream write w raw = Dedent.stream write w raw := by
    rw [kind]
    rfl
  refine ⟨?_, fun ω ε write w => ?_, fun σ size room receive u => ?_,
    Dedent.map_bytes_lineSpans raw, Dedent.map_bytes_writtenSpans raw,
    fun o ho => Dedent.whole_of_mem ho⟩
  · obtain ⟨before, c, d, r, path, step, reaction, tail, body, ahead⟩ := s.exists_reads ht kind
    refine ⟨before, c, d, path, step, reaction, tail, ?_⟩
    rw [ahead]
    exact Block.noting_append body r
  · rw [stream]
    exact ⟨Dedent.noteStream_fst write w raw, Dedent.noteStream_snd write w raw⟩
  · obtain ⟨-, all⟩ := Dedent.noteStream_snd (Chunks.Writer.write receive) (.start u room) raw
    constructor
    · rw [Dedent.noteStream_fst, Chunks.deliver, dif_pos room, stream]
    · intro never
      obtain ⟨v, whole⟩ := Dedent.exists_writeLines (Chunks.Writer.exists_write never)
        (.start u room) (Dedent.kept (Dedent.lines raw))
      exact all v whole

/-- The scan of `{a(b:` and a block string with an indentation of two fails. The first line of the
body is blank. The second begins with an escaped fence, the fourth holds one between a backslash and
a quote, and the last is one directly in front of the closing fence. -/
theorem Scanner.escapes_agree_margin :
    let raw : List UInt8 :=
      [0x09, 0x0D, 0x0A, 0x20, 0x20, 0x5C, 0x22, 0x22, 0x22, 0x0A, 0x0D, 0x20, 0x20, 0x20, 0x5C,
        0x5C, 0x22, 0x22, 0x22, 0x22, 0x0A, 0x20, 0x20, 0x5C, 0x22, 0x22, 0x22]
    let doc : List UInt8 :=
      [0x7B, 0x61, 0x28, 0x62, 0x3A] ++ Block.fence ++ raw ++ Block.fence
    let t : Token := ⟨.blockString, 8, 35, 1⟩
    let write : List UInt8 → List UInt8 → Except Empty (List UInt8) := fun w bs => .ok (w ++ bs)
    t ∈ (standard.scan doc).state.toList ∧ (standard.scan doc).outcome ≠ .ok ∧
      Block.noting (doc.drop 8) = (.ok 27, [5, 15, 23]) ∧
      (Dedent.stream write [] raw).toOption = some [0x22, 0x22, 0x22, 0x0A, 0x0A, 0x20, 0x5C, 0x22,
        0x22, 0x22, 0x22, 0x0A, 0x22, 0x22, 0x22] ∧
      (Dedent.noteStream write [] raw).2 = [5, 15, 23] ∧
      ∀ o ∈ [5, 15, 23], Dedent.Whole raw o := by
  intro raw doc t write
  have member : t ∈ (standard.scan doc).state.toList := by decide +kernel
  have value : t.value doc = raw := by decide +kernel
  have escapes : Block.escapes raw = [5, 15, 23] := by decide +kernel
  obtain ⟨⟨before, c, d, path, -, -, tail, read⟩, decoded, -, -, -, whole⟩ :=
    escapes_agree standard doc member rfl
  rw [value] at decoded whole read
  rw [escapes] at decoded whole read
  obtain ⟨-, -, all⟩ := decoded _ _ write []
  have ahead : c.front.drop 3 = doc.drop 8 := by
    rw [← Config.drop_eq_front (path.seamed (Config.seamed_start doc)), List.drop_drop, tail]
  rw [ahead] at read
  refine ⟨member, by decide +kernel, read.trans ?_, by decide +kernel, all _ rfl, whole⟩
  exact congrArg (·, [5, 15, 23]) (by decide +kernel)

end QueryDoc
