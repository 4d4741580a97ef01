import QueryDoc.Proofs.Acceptance

/-! The offset reported when a receiver ends the scan is the place of the token that would come
next. At most a link, the dots of a spread or a keyword stand between two tokens. -/
namespace QueryDoc

namespace State

/-- The terminals without a token that were read since the last token. -/
def since : State → List Terminal
  | value _ _ .value => [.link .colon]
  | value _ _ .defaultValue => [.link .equals]
  | variableType 0 => [.link .colon]
  | afterSpread => [.dots]
  | fragmentType => [.on]
  | _ => []

/-- Whether the last token is the name of a fragment. -/
def named : State → Bool
  | fragmentOn => true
  | fragmentType => true
  | _ => false

theorem since_of_maySelect {s : State} (h : s.maySelect = true) :
    s.since = [] ∧ s.named = false := by
  unfold maySelect mayCloseSet at h
  cases s <;> simp at h <;> exact ⟨rfl, rfl⟩

theorem since_of_mayEndVariable {s : State} (h : s.mayEndVariable = true) :
    s.since = [] ∧ s.named = false := by
  unfold mayEndVariable at h
  split at h
  · exact ⟨rfl, rfl⟩
  · exact ⟨rfl, rfl⟩
  · cases h

theorem since_resume_site (site : Site) : site.resume.since = [] ∧ site.resume.named = false := by
  cases site <;> exact ⟨rfl, rfl⟩

theorem since_resume_owner (owner : Owner) :
    owner.resume.since = [] ∧ owner.resume.named = false := by
  cases owner with
  | field => exact ⟨rfl, rfl⟩
  | directive site => exact since_resume_site site

theorem since_resume_use (use : Use) : use.resume.since = [] ∧ use.resume.named = false := by
  cases use <;> exact ⟨rfl, rfl⟩

theorem since_afterSet (level : Nat) :
    (afterSet level).since = [] ∧ (afterSet level).named = false := by
  unfold afterSet
  split <;> exact ⟨rfl, rfl⟩

end State

/-- The kinds of the tokens that the terminals deliver. -/
def Terminal.kinds (ts : List Terminal) : List Kind := ts.filterMap Terminal.kind

theorem Reads.kinds_eq {ts : List Terminal} {c d : Cursor} {us : List Token}
    (h : Reads ts c us d) : us.map Token.kind = Terminal.kinds ts := by
  induction h with
  | nil => rfl
  | @cons t ts _ _ _ _ _ us _ _ _ _ _ ih =>
    rw [List.map_append, ih, Terminal.tokens]
    cases hk : t.kind <;> simp [Terminal.kinds, hk]

theorem Terminal.Leaf.kinds {t : Terminal} (h : t.Leaf) :
    ∃ k, Terminal.kinds [t] = [k] ∧ k ≠ .fragmentName := by
  obtain ⟨k, hk, hn⟩ := h.kind
  exact ⟨k, by simp [Terminal.kinds, hk], hn⟩

theorem Terminal.Leaf.kind_ne_none {t : Terminal} (h : t.Leaf) : t.kind ≠ none := by
  obtain ⟨k, hk, -⟩ := h.kind
  simp [hk]

namespace Edge

variable {level : Nat} {s s' : State} {label : List Terminal} {x : Lead}

theorem since_of_silent (h : Edge level s label x s') (hk : Terminal.kinds label = []) :
    s'.since = s.since ++ label ∧ s'.named = s.named := by
  cases h with
  | operation keyword =>
    obtain ⟨k, hk', -⟩ := (Terminal.leaf_of_operation keyword).kinds
    exact nomatch hk'.symm.trans hk
  | scalar member =>
    obtain ⟨k, hk', -⟩ := (Terminal.leaf_of_scalar member).kinds
    exact nomatch hk'.symm.trans hk
  | spread may =>
    obtain ⟨hs, hn⟩ := State.since_of_maySelect may
    rw [hs, hn]
    exact ⟨rfl, rfl⟩
  | directiveEnd _ => exact State.since_resume_site _
  | variableEnd may _ =>
    obtain ⟨hs, hn⟩ := State.since_of_mayEndVariable may
    rw [hs, hn]
    exact ⟨rfl, rfl⟩
  | valueEnd => exact State.since_resume_use _
  | _ => first | exact ⟨rfl, rfl⟩ | cases hk

theorem since_of_token (h : Edge level s label x s') {k : Kind}
    (hk : Terminal.kinds label = [k]) : s'.since = [] ∧ s'.named = (k == .fragmentName) := by
  cases h with
  | operation keyword =>
    obtain ⟨k', hk', hn⟩ := (Terminal.leaf_of_operation keyword).kinds
    cases hk'.symm.trans hk
    exact ⟨rfl, (beq_false_of_ne hn).symm⟩
  | scalar member =>
    obtain ⟨k', hk', hn⟩ := (Terminal.leaf_of_scalar member).kinds
    cases hk'.symm.trans hk
    exact ⟨rfl, (beq_false_of_ne hn).symm⟩
  | closeSet may =>
    cases hk
    exact State.since_afterSet level
  | argumentsEnd =>
    cases hk
    exact State.since_resume_owner _
  | _ => cases hk <;> exact ⟨rfl, rfl⟩

end Edge

theorem Gap.linkingLength_of_lead {bs : List UInt8} (hs : Lead.of bs ≠ .stray)
    (hc : Lead.of bs ≠ .colon) (he : Lead.of bs ≠ .equals) : linkingLength bs = 0 := by
  cases bs with
  | nil => rfl
  | cons b r =>
    have byte : Lead.ofByte b ≠ .stray → Lead.ofByte b ≠ .colon → Lead.ofByte b ≠ .equals →
        isLinking b = false ∧ b ≠ Byte.hash :=
      Byte.forall_of_fin (p := fun b => Lead.ofByte b ≠ .stray → Lead.ofByte b ≠ .colon →
        Lead.ofByte b ≠ .equals → isLinking b = false ∧ b ≠ Byte.hash) (by decide +kernel) b
    obtain ⟨hl, hh⟩ := byte hs hc he
    rw [linkingLength, count, hl, if_neg Bool.false_ne_true, if_neg hh]

theorem Gap.linkingLength_of_gap {bs : List UInt8} (h : bs.drop (length bs) ≠ []) :
    linkingLength bs = length bs + linkingLength (bs.drop (length bs)) := by
  obtain ⟨g, b, r, rfl, hg, hb⟩ | hc := split bs
  · rw [length_append_stops hg hb, List.drop_left]
    exact count_append (fun b hb => by simp [isLinking, hb]) (by decide) hg (b :: r)
  · exact absurd (drop_length_eq_nil_iff.2 hc) h

theorem Gap.linkingLength_link {p : Punct} (hp : p = .colon ∨ p = .equals) (r : List UInt8) :
    linkingLength (p.byte :: r) = 1 + linkingLength r := by
  have hl : isLinking p.byte = true := by rcases hp with rfl | rfl <;> rfl
  rw [linkingLength, count, hl, if_pos rfl, count_eq_add]
  rfl

theorem Shape.leads_of_plain {s : Shape} (h : s.plain = true) {x : Lead} (hx : x ∈ s.leads) :
    x ≠ .colon ∧ x ≠ .equals := by
  cases s with
  | empty => cases h
  | dots => cases h
  | punct p =>
    rw [List.mem_singleton.1 hx]
    revert h
    cases p <;> decide
  | sigil s =>
    rw [List.mem_singleton.1 hx]
    cases s <;> exact ⟨nofun, nofun⟩
  | _ =>
    rw [List.mem_singleton.1 hx]
    exact ⟨nofun, nofun⟩

namespace Upcoming

variable {bs : List UInt8} {n : Nat}

/-- The length of the links and of the opening that stand in front of the next token. -/
def lead (bs : List UInt8) : Nat :=
  Gap.linkingLength bs + opening (bs.drop (Gap.linkingLength bs))

theorem offset_eq (k : Kind) (bs : List UInt8) :
    offset k bs = leading k bs + lead (bs.drop (leading k bs)) := by
  simp only [offset, lead, List.drop_drop, Nat.add_assoc]

theorem leading_of_ne {k : Kind} (hk : k ≠ .fragmentName) (bs : List UInt8) :
    leading k bs = Gap.length bs := by
  simp [leading, hk]

theorem lead_eq_opening (hs : Lead.of bs ≠ .stray) (hc : Lead.of bs ≠ .colon)
    (he : Lead.of bs ≠ .equals) : lead bs = opening bs := by
  rw [lead, Gap.linkingLength_of_lead hs hc he, List.drop_zero, Nat.zero_add]

theorem lead_of_gap (h : bs.drop (Gap.length bs) ≠ []) :
    lead bs = Gap.length bs + lead (bs.drop (Gap.length bs)) := by
  simp only [lead, Gap.linkingLength_of_gap h, List.drop_drop, Nat.add_assoc]

theorem lead_link {p : Punct} (hp : p = .colon ∨ p = .equals) (r : List UInt8) :
    lead (p.byte :: r) = 1 + lead r := by
  rw [lead, Gap.linkingLength_link hp, Nat.add_comm 1, List.drop_succ_cons, lead]
  omega

theorem lead_of_fits {s : Shape} (h : s.Fits bs n) (hs : s.plain = true) :
    lead bs = (s.span n).1 := by
  have first := h.lead_mem
  obtain ⟨hc, he⟩ := Shape.leads_of_plain hs first
  rw [lead_eq_opening (Shape.leads_ne_nothing first).2 hc he, opening]
  cases s with
  | empty => cases hs
  | dots => cases hs
  | punct p =>
    rw [List.mem_singleton.1 first]
    cases p <;> rfl
  | sigil s =>
    rw [List.mem_singleton.1 first]
    cases s <;> rfl
  | quoted =>
    obtain ⟨lead, fence, -⟩ := Shape.fits_quoted_iff.1 h
    rw [lead, fence]
    rfl
  | block =>
    rw [List.mem_singleton.1 first, (Shape.fits_block_iff.1 h).1]
    rfl
  | _ =>
    rw [List.mem_singleton.1 first]
    rfl

end Upcoming

/-- The terminals from one token up to the next. The flag tells whether the first of the two is the
name of a fragment, behind which a type condition has to stand. -/
inductive Between : Bool → List Terminal → Prop
  | plain {t : Terminal} {ts : List Terminal} (plain : t.shape.plain = true)
      (kind : t.kind ≠ none) : Between false (t :: ts)
  | linked {p : Punct} {t : Terminal} {ts : List Terminal} (link : p = .colon ∨ p = .equals)
      (plain : t.shape.plain = true) (kind : t.kind ≠ none) : Between false (.link p :: t :: ts)
  | condition : Between true [.on, .name .typeCondition]
  | spreadName : Between false [.dots, .nameNotOn .spreadName]
  | typedInline : Between false [.dots, .on, .name .inlineFragment]
  | untypedInline : Between false [.dots, .mark .inlineFragment]
  | shorthand : Between false [.mark .query]

namespace State

/-- At most a link was read since the last token. -/
def AtMostLink (s : State) : Prop :=
  s.named = false ∧ (s.since = [] ∨ ∃ p, (p = .colon ∨ p = .equals) ∧ s.since = [.link p])

theorem atMostLink_of_since {s : State} (h : s.since = [] ∧ s.named = false) : s.AtMostLink :=
  ⟨h.2, .inl h.1⟩

theorem atMostLink_value (use : Use) (cs : List Container) (e : Expect) :
    (value use cs e).AtMostLink := by
  refine ⟨rfl, ?_⟩
  cases e with
  | value => exact .inr ⟨_, .inl rfl, rfl⟩
  | defaultValue => exact .inr ⟨_, .inr rfl, rfl⟩
  | _ => exact .inl rfl

theorem atMostLink_variableType (depth : Nat) : (variableType depth).AtMostLink := by
  refine ⟨rfl, ?_⟩
  cases depth with
  | zero => exact .inr ⟨_, .inl rfl, rfl⟩
  | succ depth => exact .inl rfl

theorem AtMostLink.between {s : State} (h : s.AtMostLink) {t : Terminal} {ts : List Terminal}
    (plain : t.shape.plain = true) (kind : t.kind ≠ none) :
    Between s.named (s.since ++ t :: ts) := by
  obtain ⟨hn, hs | ⟨p, hp, hs⟩⟩ := h
  · rw [hn, hs]
    exact .plain plain kind
  · rw [hn, hs]
    exact .linked hp plain kind

theorem since_of_mayOpenSet {s : State} (h : s.mayOpenSet = true) :
    s.since = [] ∧ s.named = false := by
  unfold mayOpenSet at h
  split at h
  all_goals first | exact ⟨rfl, rfl⟩ | cases h

theorem since_of_site? {s : State} {site : Site} (h : s.site? = some site) :
    s.since = [] ∧ s.named = false := by
  unfold site? at h
  split at h
  all_goals first | exact ⟨rfl, rfl⟩ | cases h

theorem maySelect_of_mayCloseSet {s : State} (h : s.mayCloseSet = true) : s.maySelect = true := by
  simp [maySelect, h]

end State

/-- Whatever was read since the last token, an edge with a token completes one of the ways to the
next one. -/
theorem Edge.between {level : Nat} {s s' : State} {label : List Terminal} {x : Lead}
    (h : Edge level s label x s') (hk : Terminal.kinds label ≠ []) :
    Between s.named (s.since ++ label) := by
  cases h with
  | shorthand => exact .shorthand
  | fragmentType => exact .condition
  | spreadName => exact .spreadName
  | typedInline => exact .typedInline
  | untypedInline => exact .untypedInline
  | operation keyword =>
    have leaf := Terminal.leaf_of_operation keyword
    exact .plain leaf.plain leaf.kind_ne_none
  | scalar member =>
    have leaf := Terminal.leaf_of_scalar member
    exact (State.atMostLink_value _ _ _).between leaf.plain leaf.kind_ne_none
  | listOpen => exact (State.atMostLink_value _ _ _).between rfl nofun
  | objectOpen => exact (State.atMostLink_value _ _ _).between rfl nofun
  | listType => exact (State.atMostLink_variableType _).between rfl nofun
  | namedType => exact (State.atMostLink_variableType _).between rfl nofun
  | openSet may =>
    exact (State.atMostLink_of_since (State.since_of_mayOpenSet may)).between rfl nofun
  | closeSet may =>
    have since := State.since_of_maySelect (State.maySelect_of_mayCloseSet may)
    exact (State.atMostLink_of_since since).between rfl nofun
  | fieldAlias may =>
    exact (State.atMostLink_of_since (State.since_of_maySelect may)).between rfl nofun
  | field may _ =>
    exact (State.atMostLink_of_since (State.since_of_maySelect may)).between rfl nofun
  | directive at_ =>
    exact (State.atMostLink_of_since (State.since_of_site? at_)).between rfl nofun
  | _ => first | exact absurd rfl hk | exact .plain rfl nofun

theorem Shape.Fits.ne_nil {s : Shape} {bs : List UInt8} {n : Nat} (h : s.Fits bs n) : bs ≠ [] := by
  intro he
  exact (Shape.leads_ne_nothing h.lead_mem).1 (Lead.of_eq_nothing_iff.2 he)

theorem Terminal.tail_eq {t : Terminal} (kind : t.kind ≠ none) {pos level n : Nat} {u : Token}
    {us vs : List Token} (h : u :: us = t.tokens pos level n ++ vs) :
    u.tail = pos + (t.shape.span n).1 := by
  obtain ⟨k, hk⟩ := Option.ne_none_iff_exists'.1 kind
  rw [tokens, hk] at h
  obtain ⟨rfl, -⟩ := List.cons.inj h
  rfl

namespace Upcoming

variable {pos level : Nat} {bs : List UInt8} {u : Token} {us : List Token} {e : Cursor}

theorem offset_of_ne {k : Kind} (hk : k ≠ .fragmentName) (h : bs.drop (Gap.length bs) ≠ []) :
    offset k bs = lead bs := by
  rw [offset_eq, leading_of_ne hk, lead_of_gap h]

theorem leading_of_isOn (h : Word.isOn (bs.drop (Gap.length bs)) = true) :
    leading .fragmentName bs = Gap.length bs + 2 := by
  simp [leading, h]

theorem offset_of_closing (k : Kind) (h : Gap.Closing bs) : offset k bs = bs.length := by
  have rest : bs.drop (Gap.length bs) = [] := Gap.drop_length_eq_nil_iff.2 h
  have hl : leading k bs = Gap.length bs := by
    simp only [leading, rest]
    exact if_neg fun h => nomatch h.2
  rw [offset_eq, hl, rest, Gap.length_of_closing h]
  rfl

theorem lead_of_plain {t : Terminal} {ts : List Terminal}
    (reads : Reads (t :: ts) ⟨pos, level, bs⟩ (u :: us) e) (plain : t.shape.plain = true)
    (kind : t.kind ≠ none) : pos + lead bs = u.tail := by
  obtain ⟨n, vs, fit, hu, -⟩ := reads_cons_iff.1 reads
  rw [Terminal.tail_eq kind hu, lead_of_gap fit.ne_nil, lead_of_fits fit plain, Nat.add_assoc]

theorem spreadLength_dots (r : List UInt8) :
    spreadLength (dots ++ r) =
      if Word.isOn (r.drop (Gap.length r)) then
        3 + Gap.length r + 2 + Gap.length (r.drop (Gap.length r + 2))
      else 3 + Gap.length r := by
  have drop (m : Nat) : (dots ++ r).drop (3 + m) = r.drop m := by
    change (dots ++ r).drop (dots.length + m) = r.drop m
    exact List.drop_length_add_append m
  have first : (dots ++ r).drop 3 = r := rfl
  simp only [spreadLength, first, drop, Nat.add_assoc]

theorem lead_of_dots {ts : List Terminal} (reads : Reads (.dots :: ts) ⟨pos, level, bs⟩ us e) :
    ∃ r, lead bs = Gap.length bs + spreadLength (dots ++ r) ∧
      Reads ts ⟨pos + Gap.length bs + 3, level, r⟩ us e := by
  obtain ⟨n, vs, fit, rfl, rest⟩ := reads_cons_iff.1 reads
  have gap := lead_of_gap fit.ne_nil
  obtain ⟨w, r, hr, rfl, rfl, -⟩ := fit
  have first : Lead.of (dots ++ r) = .dot := rfl
  refine ⟨r, ?_, ?_⟩
  · rw [gap, hr, lead_eq_opening (by simp [first]) (by simp [first]) (by simp [first])]
    rfl
  · rw [← List.drop_drop, hr, List.drop_left] at rest
    exact rest

theorem spreadLength_le (h : dots.isPrefixOf bs = true) : spreadLength bs ≤ bs.length := by
  obtain ⟨r, rfl⟩ := List.isPrefixOf_iff_prefix.1 h
  have gap := Gap.length_le r
  rw [spreadLength_dots, List.length_append]
  have three : dots.length = 3 := rfl
  split
  · next on =>
      have word := Word.length_le (r.drop (Gap.length r))
      have next := Gap.length_le (r.drop (Gap.length r + 2))
      rw [Word.length_of_isOn on, List.length_drop] at word
      rw [List.length_drop] at next
      omega
  · omega

theorem opening_le (bs : List UInt8) : opening bs ≤ bs.length := by
  unfold opening
  split
  · next h => exact Lead.length_pos h nofun
  · next h => exact Lead.length_pos h nofun
  · next h =>
      split
      · next fence => exact (List.isPrefixOf_iff_prefix.1 fence).length_le
      · exact Lead.length_pos h nofun
  · split
    · next h => exact spreadLength_le h
    · exact Nat.zero_le _
  · exact Nat.zero_le _

theorem leading_le (k : Kind) (bs : List UInt8) : leading k bs ≤ bs.length := by
  have gap := Gap.length_le bs
  simp only [leading]
  split
  · next h =>
      have word := Word.length_le (bs.drop (Gap.length bs))
      rw [Word.length_of_isOn h.2, List.length_drop] at word
      omega
  · exact gap

theorem offset_le (k : Kind) (bs : List UInt8) : offset k bs ≤ bs.length := by
  have first := leading_le k bs
  have links := Gap.linkingLength_le (bs.drop (leading k bs))
  have last := opening_le (bs.drop (leading k bs + Gap.linkingLength (bs.drop (leading k bs))))
  rw [List.length_drop] at links last
  simp only [offset]
  omega

theorem lead_of_spread {t : Terminal} (reads : Reads [.dots, t] ⟨pos, level, bs⟩ (u :: us) e)
    (kind : t.kind ≠ none) (span : ∀ n, (t.shape.span n).1 = 0)
    (word : ∀ {bs n}, t.shape.Fits bs n → Word.isOn bs = false) : pos + lead bs = u.tail := by
  obtain ⟨r, hr, rest⟩ := lead_of_dots reads
  obtain ⟨n, vs, fit, hu, -⟩ := reads_cons_iff.1 rest
  rw [Terminal.tail_eq kind hu, span, hr, spreadLength_dots, word fit, if_neg Bool.false_ne_true]
  omega

theorem reads_on {ts : List Terminal} (h : Reads (.on :: ts) ⟨pos, level, bs⟩ us e) :
    Word.isOn (bs.drop (Gap.length bs)) = true ∧
      Reads ts ⟨pos + Gap.length bs + 2, level, bs.drop (Gap.length bs + 2)⟩ us e := by
  obtain ⟨n, vs, fit, rfl, rest⟩ := reads_cons_iff.1 h
  obtain ⟨hn, on⟩ := Shape.fits_word_iff.1 fit
  have is_on : Word.isOn (bs.drop (Gap.length bs)) = true := beq_iff_eq.2 on
  rw [Word.length_of_isOn is_on] at hn
  subst hn
  exact ⟨is_on, rest⟩

theorem lead_of_inline {k : Kind}
    (reads : Reads [.dots, .on, .name k] ⟨pos, level, bs⟩ (u :: us) e) :
    pos + lead bs = u.tail := by
  obtain ⟨r, hr, rest⟩ := lead_of_dots reads
  obtain ⟨on, rest⟩ := reads_on rest
  obtain ⟨n, vs, -, hu, -⟩ := reads_cons_iff.1 rest
  rw [Terminal.tail_eq (t := .name k) nofun hu, hr, spreadLength_dots, on, if_pos rfl]
  simp only [Shape.span]
  omega

end Upcoming

/-- The place that is told from the last token and the bytes behind it is that of the next token. -/
theorem Between.tail_eq {named : Bool} {ts : List Terminal} (h : Between named ts) {k : Kind}
    (hk : named = (k == .fragmentName)) {pos level : Nat} {bs : List UInt8} {u : Token}
    {us : List Token} {e : Cursor} (reads : Reads ts ⟨pos, level, bs⟩ (u :: us) e)
    (mark : ts = [.mark .query] → Gap.ahead e.rest = .openBrace) :
    pos + Upcoming.offset k bs = u.tail := by
  have front : bs.drop (Gap.length bs) ≠ [] := by
    cases ts with
    | nil => cases h
    | cons t ts =>
      obtain ⟨n, vs, fit, -, -⟩ := reads_cons_iff.1 reads
      exact fit.ne_nil
  have offset (hk : false = (k == .fragmentName)) : Upcoming.offset k bs = Upcoming.lead bs :=
    Upcoming.offset_of_ne (beq_eq_false_iff_ne.1 hk.symm) front
  cases h with
  | plain plain kind =>
    rw [offset hk]
    exact Upcoming.lead_of_plain reads plain kind
  | linked link plain kind =>
    rw [offset hk]
    obtain ⟨n, vs, fit, rfl, rest⟩ := reads_cons_iff.1 reads
    obtain ⟨w, r, hr, rfl, rfl, -⟩ := fit
    rw [← List.drop_drop, hr, List.drop_left] at rest
    rw [Upcoming.lead_of_gap front, hr, List.singleton_append, Upcoming.lead_link link,
      ← Upcoming.lead_of_plain rest plain kind, List.length_singleton]
    omega
  | condition =>
    obtain rfl : k = .fragmentName := eq_of_beq hk.symm
    obtain ⟨on, rest⟩ := Upcoming.reads_on reads
    rw [Upcoming.offset_eq, Upcoming.leading_of_isOn on, ← Upcoming.lead_of_plain rest rfl nofun]
    omega
  | spreadName =>
    rw [offset hk]
    refine Upcoming.lead_of_spread reads nofun (fun _ => rfl) fun fit => ?_
    exact beq_false_of_ne (Shape.fits_word_iff.1 fit).2.2
  | typedInline =>
    rw [offset hk]
    exact Upcoming.lead_of_inline reads
  | untypedInline =>
    rw [offset hk]
    refine Upcoming.lead_of_spread reads nofun (fun _ => rfl) fun fit => Word.isOn_of_lead ?_
    rcases (Shape.fits_empty_iff.1 fit).2 with h | h <;> simp [h]
  | shorthand =>
    rw [offset hk]
    obtain ⟨n, vs, fit, hu, rest⟩ := reads_cons_iff.1 reads
    obtain ⟨rfl, same⟩ := Grammar.fits_mark fit
    cases rest
    have ahead := mark rfl
    rw [← List.drop_drop, same] at ahead
    rw [Terminal.tail_eq (t := .mark .query) nofun hu, Upcoming.lead_of_gap front,
      Upcoming.lead_eq_opening, Upcoming.opening, ahead]
    · rfl
    all_goals simp [ahead]

end QueryDoc
