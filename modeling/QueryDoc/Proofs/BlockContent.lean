import QueryDoc.Proofs.Literal

/-! Lines laid out in a block string, behind a common padding and with every fence escaped, are
accepted by the scanner and come back from the decoder. -/
namespace QueryDoc

namespace Block

/-- A line with a backslash in front of every fence, from left to right. -/
def escape : List UInt8 → List UInt8
  | Byte.quote :: Byte.quote :: Byte.quote :: bs => escapedFence ++ escape bs
  | b :: bs => b :: escape bs
  | [] => []

/-- A line as it is laid out. -/
def padded (padding line : List UInt8) : List UInt8 := padding ++ escape line

/-- The body of a block string with a line feed and then each line behind the padding. -/
def layout (padding : List UInt8) (lines : List (List UInt8)) : List UInt8 :=
  Byte.lineFeed :: (lines.map (padded padding)).flatMap (· ++ [Byte.lineFeed])

/-- Lines that a block string can stand for: the outer ones are not blank, and a line that is not
blank begins at the margin. -/
structure Lines (lines : List (List UInt8)) : Prop where
  nonempty : lines ≠ []
  bytes : ∀ line ∈ lines, ∀ b ∈ line, b = Byte.tab ∨ 0x20 ≤ b
  first : ∀ line, lines.head? = some line → Dedent.isBlank line = false
  last : ∀ line, lines.getLast? = some line → Dedent.isBlank line = false
  margin : ∃ line ∈ lines, Dedent.isBlank line = false ∧
    ∀ b, line.head? = some b → Byte.isIndent b = false

theorem escape_cons {b : UInt8} {bs : List UInt8} (h : ¬fence <+: b :: bs) :
    escape (b :: bs) = b :: escape bs := by
  rw [escape]
  rintro r rfl rfl
  exact h (List.prefix_append fence r)

theorem escape_eq_quote {bs r : List UInt8} (h : escape bs = Byte.quote :: r) :
    ∃ bs', bs = Byte.quote :: bs' ∧ ¬fence <+: bs ∧ r = escape bs' := by
  fun_cases escape bs with
  | case1 bs => cases h
  | case2 b bs fresh =>
    rw [escape] at h
    · obtain ⟨rfl, rfl⟩ := List.cons.inj h
      refine ⟨bs, rfl, ?_, rfl⟩
      rintro ⟨t, ht⟩
      obtain ⟨-, ht⟩ := List.cons.inj ht
      exact fresh t rfl ht.symm
    · exact fresh
  | case3 => cases h

theorem two_quotes_of_escape {bs : List UInt8} (h : [Byte.quote, Byte.quote] <+: escape bs) :
    [Byte.quote, Byte.quote] <+: bs := by
  obtain ⟨t, ht⟩ := h
  obtain ⟨bs', rfl, -, hr⟩ := escape_eq_quote ht.symm
  obtain ⟨bs'', rfl, -, -⟩ := escape_eq_quote hr.symm
  exact List.prefix_append [Byte.quote, Byte.quote] bs''

theorem not_fence_escape (bs : List UInt8) : ¬fence <+: escape bs := by
  rintro ⟨t, ht⟩
  obtain ⟨bs', rfl, fresh, hr⟩ := escape_eq_quote ht.symm
  have two : [Byte.quote, Byte.quote] <+: bs' :=
    two_quotes_of_escape (hr ▸ List.prefix_append [Byte.quote, Byte.quote] t)
  exact fresh ((List.prefix_cons_inj Byte.quote).2 two)

theorem fence_of_cons_escape {b : UInt8} {bs : List UInt8} (h : fence <+: b :: escape bs) :
    fence <+: b :: bs := by
  obtain ⟨rfl, two⟩ := List.cons_prefix_cons.1 h
  exact (List.prefix_cons_inj Byte.quote).2 (two_quotes_of_escape two)

theorem not_escapedFence_cons_escape (b : UInt8) (bs : List UInt8) :
    ¬escapedFence <+: b :: escape bs :=
  fun h => not_fence_escape bs (List.cons_prefix_cons.1 h).2

theorem Body.line {line rest : List UInt8} (h : ∀ b ∈ line, Byte.isBlockControl b = false)
    (hr : Body rest) : Body (escape line ++ Byte.lineFeed :: rest) := by
  fun_induction escape line with
  | case1 bs ih =>
    rw [List.append_assoc]
    exact .escaped (ih fun b hb => h b (by simp [hb]))
  | case2 b bs fresh ih =>
    have cut {x : List UInt8} (hx : Byte.lineFeed ∉ x)
        (hp : x <+: b :: (escape bs ++ Byte.lineFeed :: rest) ++ fence) : x <+: b :: escape bs := by
      apply prefix_of_prefix_lineFeed hx (v := rest ++ fence)
      simpa using hp
    refine .raw (h b List.mem_cons_self) ?_ ?_ (ih fun b hb => h b (List.mem_cons_of_mem _ hb))
    · intro hp
      obtain ⟨t, ht⟩ := fence_of_cons_escape (cut (by decide) hp)
      obtain ⟨rfl, rfl⟩ := List.cons.inj ht
      exact fresh t rfl rfl
    · intro hp
      exact not_escapedFence_cons_escape b bs (cut (by decide) hp)
  | case3 =>
    refine .raw (by decide) ?_ ?_ hr
    · intro hp
      cases (List.cons_prefix_cons.1 hp).1
    · intro hp
      cases (List.cons_prefix_cons.1 hp).1

theorem escape_padding {padding : List UInt8} (hp : ∀ b ∈ padding, Byte.isIndent b = true)
    (line : List UInt8) : escape (padding ++ line) = padding ++ escape line := by
  induction padding with
  | nil => rfl
  | cons b padding ih =>
    rw [List.cons_append, escape_cons, ih fun b hb => hp b (List.mem_cons_of_mem _ hb)]
    · rfl
    · intro h
      obtain ⟨rfl, -⟩ := List.cons_prefix_cons.1 h
      exact absurd (hp _ List.mem_cons_self) (by decide)

theorem byte_of_line {b : UInt8} (h : b = Byte.tab ∨ 0x20 ≤ b) :
    Byte.isBlockControl b = false ∧ Byte.isLineEnd b = false :=
  Byte.forall_of_fin (p := fun b => b = Byte.tab ∨ 0x20 ≤ b →
    Byte.isBlockControl b = false ∧ Byte.isLineEnd b = false) (by decide +kernel) b h

theorem byte_of_indent {b : UInt8} (h : Byte.isIndent b = true) : b = Byte.tab ∨ 0x20 ≤ b := by
  simp only [Byte.isIndent, Bool.or_eq_true, beq_iff_eq] at h
  rcases h with rfl | rfl
  · exact .inr (by decide)
  · exact .inl rfl

theorem body_layout {padding : List UInt8} {lines : List (List UInt8)}
    (hp : ∀ b ∈ padding, Byte.isIndent b = true)
    (h : ∀ line ∈ lines, ∀ b ∈ line, Byte.isBlockControl b = false) :
    Body (layout padding lines) := by
  have rest : Body ((lines.map (padded padding)).flatMap (· ++ [Byte.lineFeed])) := by
    induction lines with
    | nil => exact .nil
    | cons line lines ih =>
      have bytes : ∀ b ∈ padding ++ line, Byte.isBlockControl b = false := by
        intro b hb
        rcases List.mem_append.1 hb with hb | hb
        · exact (byte_of_line (byte_of_indent (hp b hb))).1
        · exact h line List.mem_cons_self b hb
      have first := Body.line bytes (ih fun line hl => h line (List.mem_cons_of_mem _ hl))
      rw [escape_padding hp] at first
      simpa [padded] using first
  exact @Body.line [] _ nofun rest

theorem mem_escape {line : List UInt8} {b : UInt8} (h : b ∈ escape line) :
    b ∈ line ∨ b = Byte.backslash := by
  fun_induction escape line with
  | case1 bs ih =>
    rcases List.mem_append.1 h with h | h
    · rcases List.mem_cons.1 h with rfl | h
      · exact .inr rfl
      · exact .inl (List.mem_append_left bs h)
    · exact (ih h).imp_left (List.mem_append_right fence)
  | case2 c bs fresh ih =>
    rcases List.mem_cons.1 h with rfl | h
    · exact .inl List.mem_cons_self
    · exact (ih h).imp_left (List.mem_cons_of_mem c)
  | case3 => cases h

end Block

namespace Dedent

namespace Splitter

theorem foldl_open (ls : Array (List UInt8)) (line : Array UInt8) {w : List UInt8}
    (h : ∀ b ∈ w, Byte.isLineEnd b = false) :
    w.foldl step ⟨ls, line, false⟩ = ⟨ls, line ++ w, false⟩ := by
  induction w generalizing line with
  | nil => simp
  | cons b w ih =>
    have hb := h b List.mem_cons_self
    simp only [Byte.isLineEnd, Bool.or_eq_false_iff, beq_eq_false_iff_ne] at hb
    rw [List.foldl_cons, step, if_neg hb.1, if_neg hb.2,
      ih _ fun b hb => h b (List.mem_cons_of_mem _ hb)]
    simp

theorem finish_foldl (ls : Array (List UInt8)) (line : Array UInt8) (after : Bool)
    (r : List UInt8) :
    (r.foldl step ⟨ls, line, after⟩).finish =
      ls.toList ++ (r.foldl step ⟨#[], line, after⟩).finish := by
  induction r generalizing ls line after with
  | nil => simp [finish]
  | cons b r ih =>
    simp only [List.foldl_cons, step]
    split
    · split
      · exact ih ls line false
      · rw [ih, ih (#[].push line.toList)]
        simp
    · split
      · rw [ih, ih (#[].push line.toList)]
        simp
      · exact ih ls _ false

end Splitter

theorem lines_append {w : List UInt8} (h : ∀ b ∈ w, Byte.isLineEnd b = false) (r : List UInt8) :
    lines (w ++ Byte.lineFeed :: r) = w :: lines r := by
  rw [lines, Splitter.start, List.foldl_append, Splitter.foldl_open _ _ h, List.foldl_cons,
    Splitter.step, if_pos rfl]
  simp only [Bool.false_eq_true, if_false]
  rw [Splitter.finish_foldl]
  simp [lines, Splitter.start]

theorem lines_flatMap {ls : List (List UInt8)} (h : ∀ w ∈ ls, ∀ b ∈ w, Byte.isLineEnd b = false) :
    lines (ls.flatMap (· ++ [Byte.lineFeed])) = ls ++ [[]] := by
  induction ls with
  | nil => rfl
  | cons w ls ih =>
    rw [List.flatMap_cons, List.append_assoc, List.singleton_append,
      lines_append (h w List.mem_cons_self), ih fun w hw => h w (List.mem_cons_of_mem _ hw)]
    rfl

theorem unescapeTo_literal (out : Array UInt8) {b : UInt8} {bs : List UInt8}
    (h : ¬Block.escapedFence <+: b :: bs) :
    unescapeTo out (b :: bs) = unescapeTo (out.push b) bs := by
  rw [unescapeTo, if_neg fun hp => h (List.isPrefixOf_iff_prefix.1 hp)]

theorem unescapeTo_escapedFence (out : Array UInt8) (bs : List UInt8) :
    unescapeTo out (Block.escapedFence ++ bs) = unescapeTo (out ++ Block.fence) bs := by
  have quote (out : Array UInt8) (bs : List UInt8) :
      unescapeTo out (Byte.quote :: bs) = unescapeTo (out.push Byte.quote) bs :=
    unescapeTo_literal out fun hp => nomatch (List.cons_prefix_cons.1 hp).1
  have escaped := List.isPrefixOf_iff_prefix.2 (List.prefix_append Block.escapedFence bs)
  calc unescapeTo out (Block.escapedFence ++ bs)
      = unescapeTo out (Block.fence ++ bs) := if_pos escaped
    _ = unescapeTo (((out.push Byte.quote).push Byte.quote).push Byte.quote) bs := by
        simp only [Block.fence, List.cons_append, List.nil_append, quote]
    _ = unescapeTo (out ++ Block.fence) bs := by simp [Block.fence]

theorem unescape_escape (line : List UInt8) : unescape (Block.escape line) = line := by
  have from_ (out : Array UInt8) :
      (unescapeTo out (Block.escape line)).toList = out.toList ++ line := by
    fun_induction Block.escape line generalizing out with
    | case1 bs ih =>
      rw [unescapeTo_escapedFence, ih]
      simp [Block.fence]
    | case2 b bs fresh ih =>
      rw [unescapeTo_literal out (Block.not_escapedFence_cons_escape b bs), ih]
      simp
    | case3 => simp [unescapeTo]
  simpa [unescape] using from_ #[]

namespace Margins

theorem addAll_append (m : Margins) (n : Nat) (ks ls : List (List UInt8)) :
    m.addAll n (ks ++ ls) = (m.addAll n ks).addAll (n + ks.length) ls := by
  induction ks generalizing m n with
  | nil => rfl
  | cons k ks ih =>
    rw [List.cons_append, addAll, addAll, ih, List.length_cons, Nat.add_assoc, Nat.add_comm 1]

theorem addAll_of_blank (m : Margins) (n : Nat) {ls : List (List UInt8)}
    (h : ∀ line ∈ ls, isBlank line = true) : m.addAll n ls = m := by
  induction ls generalizing n with
  | nil => rfl
  | cons line ls ih =>
    rw [addAll, add, if_pos (h line List.mem_cons_self),
      ih _ fun line hl => h line (List.mem_cons_of_mem _ hl)]

theorem first_addAll {m : Margins} {k : Nat} (h : m.first = some k) (n : Nat)
    (ls : List (List UInt8)) : (m.addAll n ls).first = some k := by
  induction ls generalizing m n with
  | nil => exact h
  | cons line ls ih =>
    apply ih
    rw [add]
    split
    · exact h
    · simp [h]

/-- Behind the first line, what is shared is the least indentation of the lines that are not
blank. -/
theorem shared_addAll (m : Margins) (n : Nat) (ls : List (List UInt8)) :
    (m.addAll (n + 1) ls).shared =
      (m.shared.toList ++ (ls.filter fun line => !isBlank line).map indent).min? := by
  induction ls generalizing m n with
  | nil => cases h : m.shared <;> simp [addAll, h]
  | cons line ls ih =>
    rw [addAll, ih, add]
    split
    · next blank => simp [blank]
    · next text =>
        cases h : m.shared with
        | none => simp [text]
        | some k =>
          simp only [text, Option.toList_some, List.filter_cons, Bool.not_false, if_true,
            List.map_cons, List.singleton_append, List.min?_cons', List.foldl_cons,
            Nat.add_one_ne_zero, if_false]

theorem of_append {before mid after : List (List UInt8)}
    (hb : ∀ line ∈ before, isBlank line = true) (ha : ∀ line ∈ after, isBlank line = true)
    (ne : mid ≠ []) (first : ∀ line, mid.head? = some line → isBlank line = false)
    (last : ∀ line, mid.getLast? = some line → isBlank line = false) :
    (of (before ++ (mid ++ after))).first = some before.length ∧
      (of (before ++ (mid ++ after))).last + 1 = before.length + mid.length := by
  have inner : of (before ++ (mid ++ after)) = addAll ⟨none, none, 0⟩ before.length mid := by
    rw [of, addAll_append, addAll_of_blank _ _ hb, addAll_append, addAll_of_blank _ _ ha,
      Nat.zero_add]
  rw [inner]
  constructor
  · obtain ⟨line, rest, rfl⟩ := List.exists_cons_of_ne_nil ne
    rw [addAll]
    apply first_addAll
    simp [add, first line rfl]
  · obtain ⟨rest, line, rfl⟩ : ∃ rest line, mid = rest ++ [line] :=
      ⟨_, _, (List.dropLast_concat_getLast ne).symm⟩
    rw [addAll_append]
    simp [addAll, add, last line (by simp), Nat.add_assoc]

end Margins

theorem shared_le_indent {first line : List UInt8} {rest : List (List UInt8)} (h : line ∈ rest)
    (text : isBlank line = false) :
    (Margins.of (first :: rest)).shared.getD 0 ≤ indent line := by
  rw [Margins.of, Margins.addAll, Margins.shared_addAll]
  apply List.min?_getD_le_of_mem
  refine List.mem_append_right _ (List.mem_map_of_mem (List.mem_filter.2 ⟨h, ?_⟩))
  rw [text]
  rfl

theorem isIndent_of_mem_take {first line : List UInt8} {rest : List (List UInt8)} (h : line ∈ rest)
    {b : UInt8} (hb : b ∈ line.take ((Margins.of (first :: rest)).shared.getD 0)) :
    Byte.isIndent b = true := by
  cases text : isBlank line with
  | true => exact List.all_eq_true.1 text b (List.mem_of_mem_take hb)
  | false =>
    have front : line.take ((Margins.of (first :: rest)).shared.getD 0) <+:
        line.takeWhile Byte.isIndent :=
      List.prefix_of_prefix_length_le (List.take_prefix _ line) (List.takeWhile_prefix _)
        (Nat.le_trans (List.length_take_le _ line) (shared_le_indent h text))
    exact List.all_eq_true.1 List.all_takeWhile b (front.subset hb)

theorem kept_append {before mid after : List (List UInt8)}
    (hb : ∀ line ∈ before, isBlank line = true) (ha : ∀ line ∈ after, isBlank line = true)
    (ne : mid ≠ []) (first : ∀ line, mid.head? = some line → isBlank line = false)
    (last : ∀ line, mid.getLast? = some line → isBlank line = false) :
    let ls := before ++ (mid ++ after)
    kept ls =
      ((shorten ((Margins.of ls).shared.getD 0) ls).drop before.length).take mid.length := by
  intro ls
  obtain ⟨hf, hl⟩ := Margins.of_append hb ha ne first last
  simp only [kept, ls, hf, hl]
  rw [List.drop_take, Nat.add_sub_cancel_left]

theorem isBlank_escape (line : List UInt8) : isBlank (Block.escape line) = isBlank line := by
  fun_induction Block.escape line with
  | case1 bs ih => rfl
  | case2 b bs fresh ih =>
    simp only [isBlank, List.all_cons] at ih ⊢
    rw [ih]
  | case3 => rfl

theorem indent_escape_eq_zero {line : List UInt8}
    (margin : ∀ b, line.head? = some b → Byte.isIndent b = false) :
    indent (Block.escape line) = 0 := by
  fun_cases Block.escape line with
  | case1 bs => rfl
  | case2 b bs fresh => simp [indent, margin b rfl]
  | case3 => rfl

section
variable {padding : List UInt8} (hp : ∀ b ∈ padding, Byte.isIndent b = true)
include hp

theorem isBlank_padded (line : List UInt8) : isBlank (Block.padded padding line) = isBlank line := by
  rw [Block.padded, isBlank, List.all_append, List.all_eq_true.2 hp, Bool.true_and,
    ← isBlank_escape line, isBlank]

theorem indent_padded (line : List UInt8) :
    indent (Block.padded padding line) = padding.length + indent (Block.escape line) := by
  rw [Block.padded, indent, List.takeWhile_append_of_pos hp, List.length_append, indent]

/-- The lines of a layout, between the line that the opening fence begins and the one that the
closing fence ends. -/
theorem lines_layout {ls : List (List UInt8)}
    (h : ∀ line ∈ ls, ∀ b ∈ line, Byte.isLineEnd b = false) :
    lines (Block.layout padding ls) = [[]] ++ (ls.map (Block.padded padding) ++ [[]]) := by
  have inside : ∀ w ∈ ls.map (Block.padded padding), ∀ b ∈ w, Byte.isLineEnd b = false := by
    intro w hw b hb
    obtain ⟨line, hl, rfl⟩ := List.mem_map.1 hw
    rcases List.mem_append.1 hb with hb | hb
    · exact (Block.byte_of_line (Block.byte_of_indent (hp b hb))).2
    · rcases Block.mem_escape hb with hb | rfl
      · exact h line hl b hb
      · decide
  have first := @lines_append [] nofun
    ((ls.map (Block.padded padding)).flatMap (· ++ [Byte.lineFeed]))
  rw [lines_flatMap inside] at first
  exact first

theorem shared_layout {ls : List (List UInt8)}
    (margin : ∃ line ∈ ls, isBlank line = false ∧
      ∀ b, line.head? = some b → Byte.isIndent b = false) :
    (Margins.of ([[]] ++ (ls.map (Block.padded padding) ++ [[]]))).shared =
      some padding.length := by
  have behind (rest : List (List UInt8)) :
      Margins.of ([[]] ++ rest) = Margins.addAll ⟨none, none, 0⟩ (0 + 1) rest := rfl
  rw [behind, Margins.shared_addAll, List.min?_eq_some_iff]
  simp only [Option.toList_none, List.nil_append, List.mem_map, List.mem_filter]
  constructor
  · obtain ⟨line, hl, text, head⟩ := margin
    refine ⟨Block.padded padding line, ⟨?_, ?_⟩, ?_⟩
    · exact List.mem_append_left _ (List.mem_map_of_mem hl)
    · rw [isBlank_padded hp, text]
      rfl
    · rw [indent_padded hp, indent_escape_eq_zero head]
      rfl
  · rintro n ⟨w, ⟨hw, text⟩, rfl⟩
    rcases List.mem_append.1 hw with hw | hw
    · obtain ⟨line, -, rfl⟩ := List.mem_map.1 hw
      rw [indent_padded hp]
      exact Nat.le_add_right _ _
    · rw [List.mem_singleton.1 hw] at text
      cases text

/-- The decoder takes a layout back to its lines. -/
theorem content_layout {ls : List (List UInt8)} (h : Block.Lines ls) :
    content (Block.layout padding ls) = [Byte.lineFeed].intercalate ls := by
  have blank : ∀ line ∈ [([] : List UInt8)], isBlank line = true := by simp [isBlank]
  have outer {o : Option (List UInt8)} (ho : ∀ line, o = some line → isBlank line = false) :
      ∀ line, o.map (Block.padded padding) = some line → isBlank line = false := by
    intro line hl
    obtain ⟨line', hl', rfl⟩ := Option.map_eq_some_iff.1 hl
    rw [isBlank_padded hp]
    exact ho line' hl'
  have keeps := @kept_append [[]] (ls.map (Block.padded padding)) [[]] blank blank
    (by simpa using h.nonempty) (by rw [List.head?_map]; exact outer h.first)
    (by rw [List.getLast?_map]; exact outer h.last)
  have written : kept (lines (Block.layout padding ls)) = ls.map Block.escape := by
    rw [lines_layout hp fun line hl b hb => (Block.byte_of_line (h.bytes line hl b hb)).2,
      keeps, shared_layout hp h.margin]
    simp [shorten, Function.comp_def, Block.padded]
  rw [content, written, List.map_map]
  simp [Function.comp_def, unescape_escape]

end

end Dedent

/-- Lines that are laid out in a block string behind any padding are accepted, and the string
stands for the lines. -/
theorem Scanner.conveys_block (s : Scanner) {padding : List UInt8} {lines : List (List UInt8)}
    (hp : ∀ b ∈ padding, Byte.isIndent b = true) (h : Block.Lines lines) :
    s.Conveys (Literal.document (Block.fence ++ (Block.layout padding lines ++ Block.fence)))
      .blockString (Block.layout padding lines) ([Byte.lineFeed].intercalate lines) := by
  have body : Block.Body (Block.layout padding lines) :=
    Block.body_layout hp fun line hl b hb => (Block.byte_of_line (h.bytes line hl b hb)).1
  have span : Shape.block.span
        (Block.fence ++ (Block.layout padding lines ++ Block.fence)).length =
      (3, 3 + (Block.layout padding lines).length) := by
    simp only [Shape.span, Block.fence, List.length_append, List.length_cons, List.length_nil,
      Prod.mk.injEq, true_and]
    omega
  have conveys := s.conveys_literal (t := .block) (by simp [Terminal.scalars]) rfl
    ⟨_, body, rfl⟩ trivial span
  rwa [Kind.content, Dedent.content_layout hp h] at conveys

/-- Behind a tab and a space stand `a""""`, a blank line of one space, and ` \"""` with a backslash
of its own in front of its fence. -/
theorem Scanner.conveys_block_fences :
    let padding : List UInt8 := [0x09, 0x20]
    let lines : List (List UInt8) :=
      [[0x61, 0x22, 0x22, 0x22, 0x22], [0x20], [0x20, 0x5C, 0x22, 0x22, 0x22]]
    let body : List UInt8 :=
      [0x0A, 0x09, 0x20, 0x61, 0x5C, 0x22, 0x22, 0x22, 0x22, 0x0A, 0x09, 0x20, 0x20, 0x0A,
        0x09, 0x20, 0x20, 0x5C, 0x5C, 0x22, 0x22, 0x22, 0x0A]
    (∀ b ∈ padding, Byte.isIndent b = true) ∧ Block.Lines lines ∧
      Block.layout padding lines = body ∧
      standard.Conveys (Literal.document (Block.fence ++ (body ++ Block.fence))) .blockString body
        [0x61, 0x22, 0x22, 0x22, 0x22, 0x0A, 0x20, 0x0A, 0x20, 0x5C, 0x22, 0x22, 0x22] := by
  intro padding lines body
  have indents : ∀ b ∈ padding, Byte.isIndent b = true := by decide +kernel
  have atMargin : ∀ b, lines[0].head? = some b → Byte.isIndent b = false := by
    rintro _ ⟨⟩
    decide +kernel
  have fit : Block.Lines lines :=
    { nonempty := by decide +kernel
      bytes := by decide +kernel
      first := by rintro _ ⟨⟩; decide +kernel
      last := by rintro _ ⟨⟩; decide +kernel
      margin := ⟨lines[0], by decide +kernel, by decide +kernel, atMargin⟩ }
  exact ⟨indents, fit, by decide +kernel, standard.conveys_block indents fit⟩

end QueryDoc
