import QueryDoc.Proofs.Syntax.Edge
import QueryDoc.Proofs.Syntax.Fits

/-! Every move goes along an edge whose terminals are written at the bytes that it reads. -/
namespace QueryDoc

/-- What the first byte behind the gap announces. -/
def Gap.ahead (bs : List UInt8) : Lead := Lead.of (bs.drop (Gap.length bs))

theorem Gap.ahead_eq {bs : List UInt8} (h : Lead.of bs ≠ .stray) : ahead bs = Lead.of bs := by
  cases bs with
  | nil => rfl
  | cons b bs => rw [ahead, length_of_stops (Lead.stops b h), List.drop_zero]

theorem Gap.ahead_congr {bs bs' : List UInt8} (h : bs'.head? = bs.head?)
    (hl : Lead.of bs ≠ .stray) : ahead bs' = ahead bs := by
  have lead : Lead.of bs' = Lead.of bs := by
    cases bs <;> cases bs' <;> cases h <;> rfl
  rw [ahead_eq hl, ahead_eq (lead ▸ hl), lead]

theorem Word.value_cases {w : List UInt8} (h : Text w) :
    ∃ ws : Words, ws.Has w ∧ ⟨.scalar ws, some (value w)⟩ ∈ Terminal.scalars := by
  unfold value
  split
  · next hw => exact ⟨.only .trueWord, hw, by simp [Terminal.scalars]⟩
  · split
    · next hw => exact ⟨.only .falseWord, hw, by simp [Terminal.scalars]⟩
    · split
      · next hw => exact ⟨.only .nullWord, hw, by simp [Terminal.scalars]⟩
      · next ht hf hn => exact ⟨.notLiteral, ⟨h, ht, hf, hn⟩, by simp [Terminal.scalars]⟩

theorem Word.definition?_cases {w : List UInt8} {k : Kind} (h : definition? w = some k) :
    (w = fragment ∧ k = .fragment) ∨
      ∃ v : Keyword, w = v.bytes ∧ .keyword v k ∈ Terminal.operations ∧ k ≠ .fragment := by
  unfold definition? at h
  split at h
  · next hw => cases h; exact .inr ⟨.query, hw, by simp [Terminal.operations], by simp⟩
  · split at h
    · next hw => cases h; exact .inr ⟨.mutation, hw, by simp [Terminal.operations], by simp⟩
    · split at h
      · next hw => cases h; exact .inr ⟨.subscription, hw, by simp [Terminal.operations], by simp⟩
      · split at h
        · next hw => cases h; exact .inl ⟨hw, rfl⟩
        · cases h

theorem Shape.Fits.reads {t : Terminal} {bs : List UInt8} {n : Nat} (h : t.shape.Fits bs n)
    (pos level : Nat) : Reads [t] ⟨pos, level, bs⟩ (t.tokens pos level n)
      ⟨pos + n, t.levelAfter level, bs.drop n⟩ := by
  obtain ⟨w, r, rfl, rfl, text, follow⟩ := h
  rw [List.drop_left]
  have reads : Reads [t] ⟨pos, level, [] ++ (w ++ r)⟩ _ _ := .cons .nil text follow (.nil _)
  simpa using reads

theorem Shape.Fits.reads_gap {t : Terminal} {bs : List UInt8} {n : Nat}
    (h : t.shape.Fits (bs.drop (Gap.length bs)) n) (pos level : Nat) :
    Reads [t] ⟨pos, level, bs⟩ (t.tokens (pos + Gap.length bs) level n)
      ⟨pos + Gap.length bs + n, t.levelAfter level, bs.drop (Gap.length bs + n)⟩ := by
  have reads := (h.reads (pos + Gap.length bs) level).from_gap
  rwa [List.drop_drop] at reads

namespace Move

/-- Unless it fails, the move goes along an edge whose terminals are written at the front of the
bytes, or ends the document where it may end. -/
def Follows (level : Nat) (s : State) (bs : List UInt8) : Move → Prop
  | become next => Edge level s [] (Lead.of bs) next
  | skip n next => ∃ t label, Edge level s (t :: label) (Gap.ahead (bs.drop n)) next ∧
      ∀ pos, Reads (t :: label) ⟨pos, level, bs⟩ [] ⟨pos + n, level, bs.drop n⟩
  | deliver x next => ∃ t label, Edge level s (t :: label) (Gap.ahead (bs.drop x.resume)) next ∧
      ∀ pos, Reads (t :: label) ⟨pos, level, bs⟩
        [⟨x.kind, pos + x.tail, pos + x.head, x.kind.levelAfter level⟩]
        ⟨pos + x.resume, x.kind.levelAfter level, bs.drop x.resume⟩
  | fail .. => True
  | finish => s = .definition true ∧ bs = []

variable {level : Nat} {s next : State} {bs : List UInt8}

theorem follows_deliver {t : Terminal} {k : Kind} {n : Nat} (hk : t.kind = some k)
    (fit : t.shape.Fits bs n) (edge : Edge level s [t] (Gap.ahead (bs.drop n)) next) :
    (deliver ⟨k, (t.shape.span n).1, (t.shape.span n).2, n⟩ next).Follows level s bs := by
  refine ⟨t, [], edge, fun pos => ?_⟩
  simpa [Terminal.tokens, Terminal.levelAfter, hk] using fit.reads pos level

theorem follows_skip {t : Terminal} {n : Nat} (hk : t.kind = none) (fit : t.shape.Fits bs n)
    (edge : Edge level s [t] (Gap.ahead (bs.drop n)) next) : (skip n next).Follows level s bs := by
  refine ⟨t, [], edge, fun pos => ?_⟩
  simpa [Terminal.tokens, Terminal.levelAfter, hk] using fit.reads pos level

theorem follows_punctuation {p : Punct} {k : Kind} (h : Lead.of bs = p.lead)
    (edge : ∀ x, Edge level s [.punct p k] x next) :
    (punctuation k next).Follows level s bs :=
  follows_deliver (t := .punct p k) rfl (Shape.fits_punct_iff.2 ⟨rfl, h⟩) (edge _)

theorem follows_mark {k : Kind} (h : Lead.of bs = .openBrace ∨ Lead.of bs = .atSign)
    (edge : Edge level s [.mark k] (Gap.ahead bs) next) : (mark k next).Follows level s bs :=
  follows_deliver (t := .mark k) rfl (Shape.fits_empty_iff.2 ⟨rfl, h⟩) edge

theorem follows_word (ws : Words) {k : Kind} (h : ws.Has (Word.read bs))
    (edge : Edge level s [⟨.word ws, some k⟩] (Gap.ahead (bs.drop (Word.length bs))) next) :
    (word k bs 0 next).Follows level s bs := by
  rw [word, List.drop_zero, Nat.zero_add]
  exact follows_deliver (t := ⟨.word ws, some k⟩) rfl (Shape.fits_word_iff.2 ⟨rfl, h⟩) edge

theorem follows_name {k : Kind} (h : Lead.of bs = .name)
    (edge : Edge level s [.name k] (Gap.ahead (bs.drop (Word.length bs))) next) :
    (word k bs 0 next).Follows level s bs := follows_word .any (Word.text_read h) edge

theorem follows_sigil {g : Sigil} {k : Kind} {x : Expect} (h : Lead.of bs = g.lead)
    (edge : ∀ x, Edge level s [.sigil g k] x next) : (sigil k bs x next).Follows level s bs := by
  unfold sigil
  split
  · next hn =>
      have fit : (Shape.sigil g).Fits bs (1 + Word.length (bs.drop 1)) :=
        Shape.fits_sigil_iff.2 ⟨rfl, h, hn⟩
      exact follows_deliver (t := .sigil g k) rfl fit (edge _)
  · trivial

theorem follows_colon {x : Expect} (edge : ∀ x, Edge level s [.link .colon] x next) :
    (colon bs x next).Follows level s bs := by
  unfold colon
  split
  · next h => exact follows_skip (t := .link .colon) rfl (Shape.fits_punct_iff.2 ⟨rfl, h⟩) (edge _)
  · trivial

end Move

namespace Grammar

variable {level : Nat} {s : State}

theorem follows_directive {site : Site} {bs : List UInt8} (hs : s.site? = some site)
    (h : Lead.of bs = .atSign) : (directive site bs).Follows level s bs :=
  Move.follows_sigil (g := .atSign) h fun _ => .directive hs

theorem follows_afterDirective (site : Site) (bs : List UInt8) :
    (afterDirective site bs).Follows level (.afterDirective site) bs := by
  unfold afterDirective
  split
  · next h => exact Move.follows_punctuation (p := .openParen) h fun _ => .directiveArguments
  · next h => exact .directiveEnd h

theorem follows_argument (owner : Owner) (first : Bool) (bs : List UInt8) :
    (argument owner first bs).Follows level (.argument owner first) bs := by
  unfold argument
  split
  · next h => exact Move.follows_punctuation (p := .closeParen) h fun _ => .argumentsEnd
  · next h => exact Move.follows_name h .argumentName
  · trivial
  · trivial

theorem follows_openSet {bs : List UInt8} (hs : s.mayOpenSet = true)
    (h : Lead.of bs = .openBrace) : openSet.Follows level s bs :=
  Move.follows_punctuation (p := .openBrace) h fun _ => .openSet hs

theorem follows_field {bs : List UInt8} (hs : s.maySelect = true) (h : Lead.of bs = .name) :
    (field bs).Follows level s bs := by
  have text := Word.text_read h
  unfold field
  simp only
  split
  · next hc =>
      refine ⟨_, _, .fieldAlias hs, fun pos => ?_⟩
      have name := Shape.Fits.reads (t := .name .fieldAlias) (Shape.fits_word_iff.2 ⟨rfl, text⟩)
        pos level
      rw [← List.drop_drop] at hc
      have fit : (Terminal.link .colon).shape.Fits _ 1 := Shape.fits_punct_iff.2 ⟨rfl, hc⟩
      have colon := fit.reads_gap (pos + Word.length bs) level
      rw [List.drop_drop] at colon
      simpa [Terminal.tokens, Terminal.levelAfter, Kind.levelAfter, Shape.span, Nat.add_assoc] using
        name.append colon
  · next hc => exact Move.follows_name h (.field hs (by rwa [Gap.ahead, List.drop_drop]))

theorem follows_spread {bs : List UInt8} (hs : s.maySelect = true) (h : Lead.of bs = .dot) :
    (spread bs).Follows level s bs := by
  unfold spread
  split
  · next h₁ h₂ =>
      exact Move.follows_skip (t := .dots) rfl (Shape.fits_dots_iff.2 ⟨rfl, h, h₁, h₂⟩)
        (.spread hs)
  · trivial
  · trivial

theorem follows_selectionOrEnd {x : Expect} (bs : List UInt8) (hs : s.mayCloseSet = true) :
    (selectionOrEnd level x bs).Follows level s bs := by
  have select : s.maySelect = true := by simp [State.maySelect, hs]
  unfold selectionOrEnd
  split
  · next h => exact Move.follows_punctuation (p := .closeBrace) h fun _ => .closeSet hs
  · next h => exact follows_field select h
  · next h => exact follows_spread select h
  · trivial

theorem follows_selectionSet (site : Site) (bs : List UInt8) :
    (selectionSet site bs).Follows level (.selectionSet site) bs := by
  unfold selectionSet
  split
  · next h => exact follows_directive rfl h
  · next h => exact follows_openSet rfl h
  · trivial

theorem follows_selection (bs : List UInt8) : (selection bs).Follows level .selection bs := by
  unfold selection
  split
  · next h => exact follows_field rfl h
  · next h => exact follows_spread rfl h
  · trivial

theorem follows_afterField (argumentsAllowed : Bool) (bs : List UInt8) :
    (afterField level argumentsAllowed bs).Follows level (.afterField argumentsAllowed) bs := by
  unfold afterField
  split
  · next h => exact Move.follows_punctuation (p := .openParen) h fun _ => .fieldArguments
  · next h => exact follows_directive rfl h
  · next h => exact follows_openSet rfl h
  · exact follows_selectionOrEnd bs rfl
  · exact follows_selectionOrEnd bs rfl

theorem follows_aliasedField (bs : List UInt8) :
    (aliasedField bs).Follows level .aliasedField bs := by
  unfold aliasedField
  split
  · next h => exact Move.follows_name h .aliasedField
  · trivial

theorem follows_inlineFragment {bs : List UInt8} (h : Word.isOn bs = true) :
    (inlineFragment bs).Follows level .afterSpread bs := by
  have on : Terminal.on.shape.Fits bs 2 :=
    Shape.fits_word_iff.2 ⟨(Word.length_of_isOn h).symm, eq_of_beq h⟩
  unfold inlineFragment
  simp only
  split
  · next hn =>
      refine ⟨_, _, .typedInline, fun pos => ?_⟩
      rw [← List.drop_drop] at hn
      have fit : (Terminal.name .inlineFragment).shape.Fits _ _ :=
        Shape.fits_word_iff.2 ⟨rfl, Word.text_read hn⟩
      have name := fit.reads_gap (pos + 2) level
      rw [List.drop_drop, List.drop_drop] at name
      simpa [Terminal.tokens, Terminal.levelAfter, Kind.levelAfter, Shape.span, Nat.add_assoc] using
        (on.reads (t := .on) pos level).append name
  · trivial

theorem follows_afterSpread (bs : List UInt8) :
    (afterSpread bs).Follows level .afterSpread bs := by
  unfold afterSpread
  split
  · next h => exact follows_inlineFragment h
  · next h =>
      have mark (h : Lead.of bs = .openBrace ∨ Lead.of bs = .atSign) :
          (Move.mark .inlineFragment (.selectionSet .inlineFragment)).Follows level .afterSpread
            bs := by
        refine Move.follows_mark h (.untypedInline ?_)
        rw [Gap.ahead_eq (by rcases h with h | h <;> simp [h])]
        exact h
      split
      · next hn =>
          have not_on : Word.read bs ≠ Word.onWord := by simpa [Word.isOn] using h
          exact Move.follows_word .notOn ⟨Word.text_read hn, not_on⟩ .spreadName
      · next h => exact mark (.inl h)
      · next h => exact mark (.inr h)
      · trivial

theorem follows_afterSpreadName (bs : List UInt8) :
    (afterSpreadName level bs).Follows level .afterSpreadName bs := by
  unfold afterSpreadName
  split
  · next h => exact follows_directive rfl h
  · exact follows_selectionOrEnd bs rfl

theorem follows_definition (seen : Bool) (bs : List UInt8) :
    (definition seen bs).Follows level (.definition seen) bs := by
  unfold definition
  split
  · next h => exact ⟨rfl, Lead.of_eq_nothing_iff.1 h⟩
  · next h =>
      refine Move.follows_mark (.inl h) ?_
      rw [Gap.ahead_eq (by simp [h]), h]
      exact .shorthand
  · split
    · next h =>
        rcases Word.definition?_cases h with ⟨hw, -⟩ | ⟨w, -, -, hk⟩
        · exact Move.follows_word (.only .fragment) hw .fragment
        · exact absurd rfl hk
    · next k hk h =>
        rcases Word.definition?_cases h with ⟨-, rfl⟩ | ⟨w, hw, member, -⟩
        · exact absurd rfl hk
        · exact Move.follows_word (.only w) hw (.operation member)
    · trivial

theorem follows_operationHead (named : Bool) (bs : List UInt8) :
    (operationHead named bs).Follows level (.operationHead named) bs := by
  unfold operationHead
  split
  · next h => exact Move.follows_name h .operationName
  · next h => exact Move.follows_punctuation (p := .openParen) h fun _ => .openVariables
  · next h => exact follows_directive rfl h
  · next h => exact follows_openSet rfl h
  · trivial
  · trivial

theorem follows_fragmentName (bs : List UInt8) :
    (fragmentName bs).Follows level .fragmentName bs := by
  unfold fragmentName
  split
  · next h hn =>
      have not_on : Word.read bs ≠ Word.onWord := by simpa [Word.isOn] using hn
      exact Move.follows_word .notOn ⟨Word.text_read h, not_on⟩ .fragmentName
  · trivial

theorem follows_fragmentOn (bs : List UInt8) : (fragmentOn bs).Follows level .fragmentOn bs := by
  unfold fragmentOn
  split
  · next h =>
      exact Move.follows_skip (t := .on) rfl
        (Shape.fits_word_iff.2 ⟨(Word.length_of_isOn h).symm, eq_of_beq h⟩) .fragmentOn
  · trivial

theorem follows_fragmentType (bs : List UInt8) :
    (fragmentType bs).Follows level .fragmentType bs := by
  unfold fragmentType
  split
  · next h => exact Move.follows_name h .fragmentType
  · trivial

theorem follows_variableName (first : Bool) (bs : List UInt8) :
    (variableName first bs).Follows level (.variableName first) bs := by
  unfold variableName
  split
  · next h => exact Move.follows_punctuation (p := .closeParen) h fun _ => .variablesEnd
  · next h => exact Move.follows_sigil (g := .dollar) h fun _ => .variableName
  · trivial
  · trivial

theorem follows_badType {x : Expect} {bs : List UInt8} : (badType bs x).Follows level s bs := by
  unfold badType
  split <;> trivial

theorem follows_variableType (depth : Nat) (bs : List UInt8) :
    (variableType depth bs).Follows level (.variableType depth) bs := by
  unfold variableType
  split
  · next h => exact Move.follows_punctuation (p := .openBracket) h fun _ => .listType
  · next h => exact Move.follows_name h .namedType
  · exact follows_badType

theorem follows_afterVariable {x : Expect} (bs : List UInt8) (hs : s.mayEndVariable = true)
    (hd : s.site? = some .variableDefinition) : (afterVariable x bs).Follows level s bs := by
  unfold afterVariable
  split
  · next h => exact follows_directive hd h
  · next h => exact .variableEnd hs (.inl h)
  · next h => exact .variableEnd hs (.inr h)
  · trivial

theorem follows_afterVariableType (depth : Nat) (nonNull : Bool) (bs : List UInt8) :
    (afterVariableType depth nonNull bs).Follows level (.afterVariableType depth nonNull) bs := by
  unfold afterVariableType
  split
  · next h => exact Move.follows_punctuation (p := .bang) h fun _ => .nonNull
  · exact follows_badType
  · next h => exact Move.follows_punctuation (p := .closeBracket) h fun _ => .listTypeEnd
  · exact follows_badType
  · exact follows_badType
  · next h =>
      exact Move.follows_skip (t := .link .equals) rfl (Shape.fits_punct_iff.2 ⟨rfl, h⟩)
        .defaultValue
  · exact follows_afterVariable bs rfl rfl

theorem follows_quotedString {next : State} {bs : List UInt8} (h : Lead.of bs = .quote)
    (hf : Block.fence.isPrefixOf bs = false) (edge : ∀ x, Edge level s [.quoted] x next) :
    (quotedString bs next).Follows level s bs := by
  unfold quotedString
  split
  · next n hn =>
      have fit : Shape.quoted.Fits bs (n + 2) := Shape.fits_quoted_iff.2 ⟨h, hf, n, rfl, hn⟩
      exact Move.follows_deliver (t := .quoted) rfl fit (edge _)
  · trivial

theorem follows_blockString {next : State} {bs : List UInt8}
    (hf : Block.fence.isPrefixOf bs = true) (edge : ∀ x, Edge level s [.block] x next) :
    (blockString bs next).Follows level s bs := by
  unfold blockString
  split
  · next n hn =>
      have fit : Shape.block.Fits bs (n + 6) := Shape.fits_block_iff.2 ⟨hf, n, rfl, hn⟩
      exact Move.follows_deliver (t := .block) rfl fit (edge _)
  · trivial

theorem follows_number {next : State} {bs : List UInt8}
    (edge : ∀ t ∈ Terminal.scalars, ∀ x, Edge level s [t] x next) :
    (number bs next).Follows level s bs := by
  unfold number
  split
  · next k n hn =>
      obtain ⟨w, r, -, -, text, -⟩ := Shape.fits_number hn
      rcases text.kind with rfl | rfl
      · exact Move.follows_deliver (t := .int) rfl (Shape.fits_int_iff.2 hn)
          (edge _ (by simp [Terminal.scalars]) _)
      · exact Move.follows_deliver (t := .float) rfl (Shape.fits_float_iff.2 hn)
          (edge _ (by simp [Terminal.scalars]) _)
  · trivial

theorem follows_bareName {next : State} {bs : List UInt8} (h : Lead.of bs = .name)
    (edge : ∀ t ∈ Terminal.scalars, ∀ x, Edge level s [t] x next) :
    (bareName bs next).Follows level s bs := by
  obtain ⟨ws, has, member⟩ := Word.value_cases (Word.text_read h)
  unfold bareName
  simp only
  split
  · next hs =>
      rw [Move.word, List.drop_zero, Nat.zero_add]
      exact Move.follows_deliver (t := ⟨.scalar ws, some (Word.value (Word.read bs))⟩) rfl
        (Shape.fits_scalar_iff.2 ⟨rfl, has, hs⟩) (edge _ member _)
  · trivial

theorem follows_value (use : Use) (cs : List Container) (x : Expect) (bs : List UInt8) :
    (value use cs x bs).Follows level (.value use cs x) bs := by
  have scalar : ∀ t ∈ Terminal.scalars, ∀ y,
      Edge level (.value use cs x) [t] y (.afterValue use cs) := fun _ ht _ => .scalar ht
  unfold value
  split
  · next h =>
      split
      · next hf => exact follows_blockString hf (scalar _ (by simp [Terminal.scalars]))
      · next hf =>
          exact follows_quotedString h (Bool.eq_false_iff.2 hf)
            (scalar _ (by simp [Terminal.scalars]))
  · next h =>
      exact Move.follows_sigil (g := .dollar) h (scalar _ (by simp [Terminal.scalars]))
  · next h => exact Move.follows_punctuation (p := .openBracket) h fun _ => .listOpen
  · next h => exact Move.follows_punctuation (p := .openBrace) h fun _ => .objectOpen
  · exact follows_number scalar
  · next h => exact follows_bareName h scalar
  · trivial

theorem follows_afterValue (use : Use) (cs : List Container) (bs : List UInt8) :
    (afterValue use cs bs).Follows level (.afterValue use cs) bs := by
  unfold afterValue
  split
  · exact .valueEnd
  · exact .nextField
  · split
    · next h => exact Move.follows_punctuation (p := .closeBracket) h fun _ => .listClose
    · next h => exact .nextValue h

theorem follows_objectField (use : Use) (cs : List Container) (bs : List UInt8) :
    (objectField use cs bs).Follows level (.objectField use cs) bs := by
  unfold objectField
  split
  · next h => exact Move.follows_punctuation (p := .closeBrace) h fun _ => .objectClose
  · next h => exact Move.follows_name h .objectField
  · trivial

theorem follows_react (level : Nat) (state : State) (bs : List UInt8) :
    (react level state bs).Follows level state bs := by
  cases state with
  | definition seen => exact follows_definition seen bs
  | operationHead named => exact follows_operationHead named bs
  | selectionSet site => exact follows_selectionSet site bs
  | fragmentName => exact follows_fragmentName bs
  | fragmentOn => exact follows_fragmentOn bs
  | fragmentType => exact follows_fragmentType bs
  | selection => exact follows_selection bs
  | selectionOrEnd => exact follows_selectionOrEnd bs rfl
  | afterField argumentsAllowed => exact follows_afterField argumentsAllowed bs
  | aliasedField => exact follows_aliasedField bs
  | afterSpread => exact follows_afterSpread bs
  | afterSpreadName => exact follows_afterSpreadName bs
  | afterDirective site => exact follows_afterDirective site bs
  | argument owner first => exact follows_argument owner first bs
  | argumentColon owner => exact Move.follows_colon fun _ => .argumentColon
  | variableName first => exact follows_variableName first bs
  | variableColon => exact Move.follows_colon fun _ => .variableColon
  | variableType depth => exact follows_variableType depth bs
  | afterVariableType depth nonNull => exact follows_afterVariableType depth nonNull bs
  | afterVariable => exact follows_afterVariable bs rfl rfl
  | value use containers expected => exact follows_value use containers expected bs
  | afterValue use containers => exact follows_afterValue use containers bs
  | objectField use containers => exact follows_objectField use containers bs
  | objectColon use containers => exact Move.follows_colon fun _ => .objectColon

end Grammar

end QueryDoc
