import QueryDoc.Grammar.React
import QueryDoc.Proofs.Syntax.Terminal

/-! Every way in which a place refuses the bytes ahead, as a table that all statements about failing
moves are read from. -/
namespace QueryDoc

/-- Whether a whole word is compared with keywords. -/
def Expect.isKeyword : Expect → Bool
  | definition => true
  | fragmentName => true
  | keywordOn => true
  | _ => false

/-- A reason to fail in front of the bytes ahead. -/
inductive Ground where
  | here (refuses : Lead → Bool) (expected : Expect)
  | word (refuses : Lead → List UInt8 → Bool) (expected : Expect)
    (keyword : expected.isKeyword = true)
  | type (refuses : Lead → Bool) (expected : Expect)
    (member : expected = .variableType ∨ expected = .afterVariableType)
  | sigil (sigil : Sigil) (kind : Kind) (expected : Expect)
  | dots
  | condition
  | quoted
  | block
  | number
  | bareName

/-- The move that the place makes for this reason. -/
def Ground.Fails (bs : List UInt8) (m : Move) : Ground → Prop
  | here refuses x => refuses (Lead.of bs) = true ∧ .unexpected bs 0 x = m
  | word refuses x _ => refuses (Lead.of bs) (Word.read bs) = true ∧ .unexpected bs 0 x = m
  | type refuses x _ => refuses (Lead.of bs) = true ∧ Grammar.badType bs x = m
  | sigil s _ x => Lead.of bs = s.lead ∧ Lead.of (bs.drop 1) ≠ .name ∧ .unexpected bs 1 x = m
  | dots => Lead.of bs = .dot ∧
      (Lead.of (bs.drop 1) ≠ .dot ∧ .unexpected bs 1 .spread = m ∨
        Lead.of (bs.drop 1) = .dot ∧ Lead.of (bs.drop 2) ≠ .dot ∧ .unexpected bs 2 .spread = m)
  | condition => Word.isOn bs = true ∧
      Lead.of (bs.drop (2 + Gap.length (bs.drop 2))) ≠ .name ∧
      .unexpected bs (2 + Gap.length (bs.drop 2)) .inlineFragment = m
  | quoted => Lead.of bs = .quote ∧ Block.fence.isPrefixOf bs = false ∧
      ∃ p, Quoted.read (bs.drop 1) = .error p ∧ .unexpected bs (p.1 + 1) p.2 = m
  | block => Block.fence.isPrefixOf bs = true ∧
      ∃ n, Block.read (bs.drop 3) = .error n ∧ .unexpected bs (n + 3) .endOfBlockString = m
  | number => Lead.of bs = .number ∧
      ∃ n, Number.read bs = .error n ∧ .fail n .invalidNumber none = m
  | bareName => Lead.of bs = .name ∧ Grammar.endsScalar (bs.drop (Word.length bs)) = false ∧
      .fail (Word.length bs) .invalidValue none = m

def Ground.directive : Ground := .sigil .atSign .directiveName .directiveName

def Ground.unless (leads : List Lead) (x : Expect) : Ground := .here (fun l => !leads.contains l) x

/-- All that can go wrong at the place. -/
def State.grounds : State → List Ground
  | definition seen =>
    [.word (fun l w => l != .openBrace && !(seen && l == .nothing) && (Word.definition? w).isNone)
      .definition rfl]
  | operationHead false =>
    [.unless [.name, .openParen, .atSign, .openBrace] .afterDefinitionKeyword, .directive]
  | operationHead true => [.unless [.openParen, .atSign, .openBrace] .afterOperationName, .directive]
  | selectionSet _ => [.unless [.atSign, .openBrace] .selectionSet, .directive]
  | fragmentName => [.word (fun l w => l != .name || w == Word.onWord) .fragmentName rfl]
  | fragmentOn => [.word (fun _ w => w != Word.onWord) .keywordOn rfl]
  | fragmentType => [.unless [.name] .fragmentTypeCondition]
  | selection => [.unless [.name, .dot] .selection, .dots]
  | selectionOrEnd => [.unless [.closeBrace, .name, .dot] .afterSelection, .dots]
  | afterField true =>
    [.unless [.openParen, .atSign, .openBrace, .closeBrace, .name, .dot] .afterFieldName, .directive,
      .dots]
  | afterField false =>
    [.unless [.atSign, .openBrace, .closeBrace, .name, .dot] .afterFieldArguments, .directive, .dots]
  | aliasedField => [.unless [.name] .afterAlias]
  | afterSpread => [.condition, .unless [.name, .openBrace, .atSign] .fragment]
  | afterSpreadName =>
    [.unless [.atSign, .closeBrace, .name, .dot] .afterSelection, .directive, .dots]
  | afterDirective _ => []
  | argument _ true => [.unless [.name] .argumentName]
  | argument _ false => [.unless [.closeParen, .name] .afterArgumentValue]
  | argumentColon _ => [.unless [.colon] .argumentColon]
  | variableName true => [.unless [.dollar] .variableName, .sigil .dollar .variableName .variableName]
  | variableName false =>
    [.unless [.closeParen, .dollar] .afterVariableDefinition,
      .sigil .dollar .variableName .variableName]
  | variableColon => [.unless [.colon] .variableColon]
  | variableType _ =>
    [.type (fun l => !List.contains [.openBracket, .name] l) .variableType (.inl rfl)]
  | afterVariableType 0 nonNull =>
    [.type (fun l => l == .bang && nonNull || l == .closeBracket) .afterVariableType (.inr rfl),
      .unless [.bang, .closeBracket, .equals, .atSign, .dollar, .closeParen] .afterVariableType,
      .directive]
  | afterVariableType (_ + 1) nonNull =>
    [.type (fun l => l == .bang && nonNull) .afterVariableType (.inr rfl),
      .type (fun l => !List.contains [.bang, .closeBracket] l) .variableType (.inl rfl)]
  | afterVariable => [.unless [.atSign, .dollar, .closeParen] .afterVariableDefinition, .directive]
  | value _ _ x =>
    [.unless [.quote, .dollar, .openBracket, .openBrace, .number, .name] x, .quoted, .block,
      .sigil .dollar .variableRef .variableReference, .number, .bareName]
  | afterValue _ _ => []
  | objectField _ _ => [.unless [.closeBrace, .name] .afterObjectValue]
  | objectColon _ _ => [.unless [.colon] .objectFieldColon]

attribute [simp] Ground.unless Ground.Fails Ground.directive

section
variable {bs : List UInt8} {offset : Nat} {code : ErrorCode} {x : Option Expect} {k : Kind}
  {next : State}

namespace Move

@[simp] theorem punctuation_ne_fail : punctuation k next ≠ .fail offset code x := nofun

@[simp] theorem mark_ne_fail : mark k next ≠ .fail offset code x := nofun

@[simp] theorem word_ne_fail {n : Nat} : word k bs n next ≠ .fail offset code x := nofun

theorem sigil_fails {g : Sigil} {y : Expect} (h : Lead.of bs = g.lead) :
    sigil k bs y next = .fail offset code x ↔
      (Ground.sigil g k y).Fails bs (.fail offset code x) := by
  unfold sigil
  split <;> simp_all [-List.drop_one]

theorem colon_fails {y : Expect} : colon bs y next = .fail offset code x ↔
    (Ground.unless [.colon] y).Fails bs (.fail offset code x) := by
  unfold colon
  split <;> simp_all

end Move

namespace Grammar

/-- Something goes wrong at the place, and the move says what. -/
def Fails (s : State) (bs : List UInt8) (m : Move) : Prop := ∃ g ∈ s.grounds, g.Fails bs m

theorem directive_fails {site : Site} (h : Lead.of bs = .atSign) :
    directive site bs = .fail offset code x ↔ Ground.directive.Fails bs (.fail offset code x) :=
  Move.sigil_fails (g := .atSign) h

theorem variable_fails {y : Expect} (h : Lead.of bs = .dollar) :
    Move.sigil k bs y next = .fail offset code x ↔
      (Ground.sigil .dollar k y).Fails bs (.fail offset code x) :=
  Move.sigil_fails (g := .dollar) h

theorem field_ne_fail : field bs ≠ .fail offset code x := by
  unfold field
  simp only
  split <;> nofun

theorem spread_fails (h : Lead.of bs = .dot) :
    spread bs = .fail offset code x ↔ Ground.dots.Fails bs (.fail offset code x) := by
  unfold spread
  by_cases h₁ : Lead.of (bs.drop 1) = .dot
  · by_cases h₂ : Lead.of (bs.drop 2) = .dot
    · simp [-List.drop_one, h, h₁, h₂]
    · simp [-List.drop_one, h, h₁, h₂]
  · simp [-List.drop_one, h, h₁]

theorem selectionOrEnd_fails {level : Nat} {y : Expect} :
    selectionOrEnd level y bs = .fail offset code x ↔
      (Ground.unless [.closeBrace, .name, .dot] y).Fails bs (.fail offset code x) ∨
        Ground.dots.Fails bs (.fail offset code x) := by
  unfold selectionOrEnd
  split <;> simp_all [closeSet, field_ne_fail, spread_fails]

theorem definition_fails (seen : Bool) :
    definition seen bs = .fail offset code x ↔
      Fails (.definition seen) bs (.fail offset code x) := by
  cases word : Word.definition? (Word.read bs) with
  | none =>
    unfold definition Fails
    cases seen <;> split <;> simp_all [State.grounds]
  | some kind =>
    refine iff_of_false ?_ (by simp [Fails, State.grounds, word])
    unfold definition
    rw [word]
    split
    · exact nofun
    · exact nofun
    · split
      · exact nofun
      · exact nofun
      · next h => cases h

theorem operationHead_fails (named : Bool) :
    operationHead named bs = .fail offset code x ↔
      Fails (.operationHead named) bs (.fail offset code x) := by
  unfold operationHead Fails
  cases named <;> split <;> simp_all [State.grounds, openSet, directive_fails, Sigil.lead]

theorem fragmentName_fails :
    fragmentName bs = .fail offset code x ↔ Fails .fragmentName bs (.fail offset code x) := by
  unfold fragmentName Fails
  split
  · simp_all [State.grounds, Word.isOn]
  · next h =>
      have refused : Lead.of bs ≠ .name ∨ Word.read bs = Word.onWord := by
        simpa [Word.isOn, Classical.or_iff_not_imp_left] using h
      simp [State.grounds, refused]

theorem fragmentOn_fails :
    fragmentOn bs = .fail offset code x ↔ Fails .fragmentOn bs (.fail offset code x) := by
  unfold fragmentOn Fails Word.isOn
  cases on : Word.read bs == Word.onWord <;> simp [State.grounds, bne, on]

theorem fragmentType_fails :
    fragmentType bs = .fail offset code x ↔ Fails .fragmentType bs (.fail offset code x) := by
  unfold fragmentType Fails
  split <;> simp_all [State.grounds]

theorem aliasedField_fails :
    aliasedField bs = .fail offset code x ↔ Fails .aliasedField bs (.fail offset code x) := by
  unfold aliasedField Fails
  split <;> simp_all [State.grounds]

theorem afterField_fails (level : Nat) (argumentsAllowed : Bool) :
    afterField level argumentsAllowed bs = .fail offset code x ↔
      Fails (.afterField argumentsAllowed) bs (.fail offset code x) := by
  unfold afterField Fails
  cases argumentsAllowed <;> split <;>
    simp_all [State.grounds, openSet, directive_fails, selectionOrEnd_fails, Sigil.lead]

theorem afterSpreadName_fails (level : Nat) :
    afterSpreadName level bs = .fail offset code x ↔
      Fails .afterSpreadName bs (.fail offset code x) := by
  unfold afterSpreadName Fails
  split <;> simp_all [State.grounds, directive_fails, selectionOrEnd_fails, Sigil.lead]

theorem inlineFragment_fails (h : Word.isOn bs = true) :
    inlineFragment bs = .fail offset code x ↔ Ground.condition.Fails bs (.fail offset code x) := by
  unfold inlineFragment
  simp only
  split
  · next hn => simp [hn]
  · next hn =>
      have missing : Lead.of (bs.drop (2 + Gap.length (bs.drop 2))) ≠ .name := hn
      simp [h, missing]

theorem afterSpread_fails :
    afterSpread bs = .fail offset code x ↔ Fails .afterSpread bs (.fail offset code x) := by
  unfold afterSpread Fails
  by_cases on : Word.isOn bs = true
  · rw [if_pos on, inlineFragment_fails on]
    simp [State.grounds, Word.lead_of_isOn on]
  · rw [if_neg on]
    split <;> simp_all [State.grounds]

theorem selectionSet_fails (site : Site) :
    selectionSet site bs = .fail offset code x ↔
      Fails (.selectionSet site) bs (.fail offset code x) := by
  unfold selectionSet Fails
  split <;> simp_all [State.grounds, openSet, directive_fails, Sigil.lead]

theorem selection_fails :
    selection bs = .fail offset code x ↔ Fails .selection bs (.fail offset code x) := by
  unfold selection Fails
  split <;> simp_all [State.grounds, field_ne_fail, spread_fails]

theorem argument_fails (owner : Owner) (first : Bool) :
    argument owner first bs = .fail offset code x ↔
      Fails (.argument owner first) bs (.fail offset code x) := by
  unfold argument Fails
  cases first <;> split <;> simp_all [State.grounds]

theorem variableName_fails (first : Bool) :
    variableName first bs = .fail offset code x ↔
      Fails (.variableName first) bs (.fail offset code x) := by
  unfold variableName Fails
  cases first <;> split <;> simp_all [State.grounds, variable_fails, Sigil.lead]

theorem variableType_fails (depth : Nat) :
    variableType depth bs = .fail offset code x ↔
      Fails (.variableType depth) bs (.fail offset code x) := by
  unfold variableType Fails
  split <;> simp_all [State.grounds]

theorem afterVariable_fails {y : Expect} :
    afterVariable y bs = .fail offset code x ↔
      (Ground.unless [.atSign, .dollar, .closeParen] y).Fails bs (.fail offset code x) ∨
        Ground.directive.Fails bs (.fail offset code x) := by
  unfold afterVariable
  split <;> simp_all [directive_fails, Sigil.lead]

theorem afterVariableType_fails (depth : Nat) (nonNull : Bool) :
    afterVariableType depth nonNull bs = .fail offset code x ↔
      Fails (.afterVariableType depth nonNull) bs (.fail offset code x) := by
  unfold afterVariableType Fails
  cases depth <;> cases nonNull <;> split <;>
    simp_all [State.grounds, afterVariable_fails, Sigil.lead]

theorem quotedString_fails (h : Lead.of bs = .quote) (hf : Block.fence.isPrefixOf bs = false) :
    quotedString bs next = .fail offset code x ↔
      Ground.quoted.Fails bs (.fail offset code x) := by
  unfold quotedString
  cases hr : Quoted.read (bs.drop 1) with
  | ok n => simp [-List.drop_one, hr]
  | error p => simp [-List.drop_one, h, hf, hr]

theorem blockString_fails (hf : Block.fence.isPrefixOf bs = true) :
    blockString bs next = .fail offset code x ↔ Ground.block.Fails bs (.fail offset code x) := by
  unfold blockString
  cases hr : Block.read (bs.drop 3) <;> simp [hf, hr]

theorem number_fails (h : Lead.of bs = .number) :
    number bs next = .fail offset code x ↔ Ground.number.Fails bs (.fail offset code x) := by
  unfold number
  cases hr : Number.read bs <;> simp [h, hr]

theorem bareName_fails (h : Lead.of bs = .name) :
    bareName bs next = .fail offset code x ↔ Ground.bareName.Fails bs (.fail offset code x) := by
  unfold bareName
  cases ends : endsScalar (bs.drop (Word.length bs)) <;> simp [h, ends]

theorem lead_of_fence (h : Block.fence.isPrefixOf bs = true) : Lead.of bs = .quote := by
  obtain ⟨r, rfl⟩ := List.isPrefixOf_iff_prefix.1 h
  rfl

theorem value_fails (use : Use) (cs : List Container) (y : Expect) :
    value use cs y bs = .fail offset code x ↔
      Fails (.value use cs y) bs (.fail offset code x) := by
  have block (h : Lead.of bs ≠ .quote) : Block.fence.isPrefixOf bs = false :=
    Bool.eq_false_iff.2 fun hf => h (lead_of_fence hf)
  unfold value Fails
  cases h : Lead.of bs with
  | quote =>
    cases hf : Block.fence.isPrefixOf bs with
    | false => simp [State.grounds, h, hf, quotedString_fails h hf, Sigil.lead]
    | true => simp [State.grounds, h, hf, blockString_fails hf, Sigil.lead]
  | dollar => simp [State.grounds, h, block, variable_fails h]
  | number => simp [State.grounds, h, block, number_fails h, Sigil.lead]
  | name => simp [State.grounds, h, block, bareName_fails h, Sigil.lead]
  | _ => simp [State.grounds, h, block, Sigil.lead]

theorem afterDirective_ne_fail (site : Site) : afterDirective site bs ≠ .fail offset code x := by
  unfold afterDirective
  cases Lead.of bs <;> exact nofun

theorem afterValue_ne_fail (use : Use) (cs : List Container) :
    afterValue use cs bs ≠ .fail offset code x := by
  unfold afterValue
  split
  · exact nofun
  · exact nofun
  · split <;> exact nofun

theorem objectField_fails (use : Use) (cs : List Container) :
    objectField use cs bs = .fail offset code x ↔
      Fails (.objectField use cs) bs (.fail offset code x) := by
  unfold objectField Fails
  split <;> simp_all [State.grounds]

theorem react_fails (level : Nat) (state : State) :
    react level state bs = .fail offset code x ↔ Fails state bs (.fail offset code x) := by
  cases state with
  | definition seen => exact definition_fails seen
  | operationHead named => exact operationHead_fails named
  | selectionSet site => exact selectionSet_fails site
  | fragmentName => exact fragmentName_fails
  | fragmentOn => exact fragmentOn_fails
  | fragmentType => exact fragmentType_fails
  | selection => exact selection_fails
  | selectionOrEnd => simp [react, selectionOrEnd_fails, Fails, State.grounds]
  | afterField argumentsAllowed => exact afterField_fails level argumentsAllowed
  | aliasedField => exact aliasedField_fails
  | afterSpread => exact afterSpread_fails
  | afterSpreadName => exact afterSpreadName_fails level
  | afterDirective site => simp [react, afterDirective_ne_fail, Fails, State.grounds]
  | argument owner first => exact argument_fails owner first
  | argumentColon owner => simp [react, argumentColon, Move.colon_fails, Fails, State.grounds]
  | variableName first => exact variableName_fails first
  | variableColon => simp [react, variableColon, Move.colon_fails, Fails, State.grounds]
  | variableType depth => exact variableType_fails depth
  | afterVariableType depth nonNull => exact afterVariableType_fails depth nonNull
  | afterVariable => simp [react, afterVariable_fails, Fails, State.grounds]
  | value use cs y => exact value_fails use cs y
  | afterValue use cs => simp [react, afterValue_ne_fail, Fails, State.grounds]
  | objectField use cs => exact objectField_fails use cs
  | objectColon use cs => simp [react, objectColon, Move.colon_fails, Fails, State.grounds]

end Grammar
end
end QueryDoc
