import QueryDoc.Grammar.Value

/-! Selection sets, definitions, and the grammar as one function. Every move reads a byte or lowers
the rank of the place, so a scan ends on every input. -/
namespace QueryDoc.Grammar

def openSet : Move := .punctuation .setOpen .selection

/-- The end of the set at depth `level`; the outermost one ends its definition. -/
def closeSet (level : Nat) : Move :=
  .punctuation .setClose (if level - 1 = 0 then .definition true else .selectionOrEnd)

def selectionSet (site : Site) (bs : List UInt8) : Move :=
  match Lead.of bs with
  | .atSign => directive site bs
  | .openBrace => openSet
  | _ => .unexpected bs 0 .selectionSet

/-- A field, or an alias together with its colon. -/
def field (bs : List UInt8) : Move :=
  let stop := Word.length bs
  let colon := stop + Gap.length (bs.drop stop)
  match Lead.of (bs.drop colon) with
  | .colon => .deliver ⟨.fieldAlias, 0, stop, colon + 1⟩ .aliasedField
  | _ => .word .field bs 0 (.afterField true)

/-- Three adjacent dots, of which the first is the first byte. -/
def spread (bs : List UInt8) : Move :=
  match Lead.of (bs.drop 1), Lead.of (bs.drop 2) with
  | .dot, .dot => .skip 3 .afterSpread
  | .dot, _ => .unexpected bs 2 .spread
  | _, _ => .unexpected bs 1 .spread

def selection (bs : List UInt8) : Move :=
  match Lead.of bs with
  | .name => field bs
  | .dot => spread bs
  | _ => .unexpected bs 0 .selection

/-- A selection or the end of the set; otherwise `expected` is reported. -/
def selectionOrEnd (level : Nat) (expected : Expect) (bs : List UInt8) : Move :=
  match Lead.of bs with
  | .closeBrace => closeSet level
  | .name => field bs
  | .dot => spread bs
  | _ => .unexpected bs 0 expected

def aliasedField (bs : List UInt8) : Move :=
  match Lead.of bs with
  | .name => .word .field bs 0 (.afterField true)
  | _ => .unexpected bs 0 .afterAlias

def afterField (level : Nat) (argumentsAllowed : Bool) (bs : List UInt8) : Move :=
  match Lead.of bs, argumentsAllowed with
  | .openParen, true => .punctuation .argumentsOpen (.argument .field true)
  | .atSign, _ => directive .field bs
  | .openBrace, _ => openSet
  | _, true => selectionOrEnd level .afterFieldName bs
  | _, false => selectionOrEnd level .afterFieldArguments bs

/-- The type that has to follow the keyword of a type condition at the first byte. -/
def inlineFragment (bs : List UInt8) : Move :=
  let start := 2 + Gap.length (bs.drop 2)
  match Lead.of (bs.drop start) with
  | .name => .word .inlineFragment bs start (.selectionSet .inlineFragment)
  | _ => .unexpected bs start .inlineFragment

/-- A spread name, or an inline fragment with or without a type condition. -/
def afterSpread (bs : List UInt8) : Move :=
  if Word.isOn bs then inlineFragment bs
  else
    match Lead.of bs with
    | .name => .word .spreadName bs 0 .afterSpreadName
    | .openBrace => .mark .inlineFragment (.selectionSet .inlineFragment)
    | .atSign => .mark .inlineFragment (.selectionSet .inlineFragment)
    | _ => .unexpected bs 0 .fragment

def afterSpreadName (level : Nat) (bs : List UInt8) : Move :=
  match Lead.of bs with
  | .atSign => directive .spread bs
  | _ => selectionOrEnd level .afterSelection bs

theorem advances_selectionSet (site : Site) (bs : List UInt8) :
    (selectionSet site bs).Advances bs 0 := by
  unfold selectionSet
  split
  · next h => exact advances_directive h
  · next h => exact Move.advances_punctuation h (by simp)
  · exact Move.advances_unexpected (Nat.zero_le _)

theorem advances_field {bs : List UInt8} {rank : Nat} (h : Lead.of bs = .name) :
    (field bs).Advances bs rank := by
  unfold field
  simp only
  split
  · next hc =>
      have := Lead.length_pos hc (by simp)
      rw [List.length_drop] at this
      refine ⟨⟨Nat.zero_le _, ?_, ?_⟩, .inl (Nat.succ_pos _)⟩ <;> simp only <;> omega
  · exact Move.advances_name h

theorem advances_spread {bs : List UInt8} {rank : Nat} (h : Lead.of bs = .dot) :
    (spread bs).Advances bs rank := by
  have h0 := Lead.length_pos h (by simp)
  unfold spread
  split
  · next h2 =>
      have := Lead.length_pos h2 (by simp)
      rw [List.length_drop] at this
      exact ⟨Nat.succ_pos _, by omega⟩
  · next h1 _ =>
      have := Lead.length_pos h1 (by simp)
      rw [List.length_drop] at this
      exact Move.advances_unexpected (by omega)
  · exact Move.advances_unexpected h0

theorem advances_selection (bs : List UInt8) : (selection bs).Advances bs 0 := by
  unfold selection
  split
  · next h => exact advances_field h
  · next h => exact advances_spread h
  · exact Move.advances_unexpected (Nat.zero_le _)

theorem advances_selectionOrEnd (level : Nat) (x : Expect) (bs : List UInt8) :
    (selectionOrEnd level x bs).Advances bs 0 := by
  unfold selectionOrEnd
  split
  · next h => exact Move.advances_punctuation h (by simp)
  · next h => exact advances_field h
  · next h => exact advances_spread h
  · exact Move.advances_unexpected (Nat.zero_le _)

theorem advances_aliasedField (bs : List UInt8) : (aliasedField bs).Advances bs 0 := by
  unfold aliasedField
  split
  · next h => exact Move.advances_name h
  · exact Move.advances_unexpected (Nat.zero_le _)

theorem advances_afterField (level : Nat) (argumentsAllowed : Bool) (bs : List UInt8) :
    (afterField level argumentsAllowed bs).Advances bs 0 := by
  unfold afterField
  split
  · next h => exact Move.advances_punctuation h (by simp)
  · next h => exact advances_directive h
  · next h => exact Move.advances_punctuation h (by simp)
  · exact advances_selectionOrEnd _ _ _
  · exact advances_selectionOrEnd _ _ _

theorem advances_inlineFragment {bs : List UInt8} {rank : Nat} (h : Word.isOn bs = true) :
    (inlineFragment bs).Advances bs rank := by
  have h2 := Word.length_le bs
  rw [Word.length_of_isOn h] at h2
  have hg := Gap.length_le (bs.drop 2)
  rw [List.length_drop] at hg
  unfold inlineFragment
  simp only
  split
  · next hn => exact Move.advances_word (Move.word_length_pos hn)
  · exact Move.advances_unexpected (by omega)

theorem advances_afterSpread (bs : List UInt8) : (afterSpread bs).Advances bs 1 := by
  unfold afterSpread
  split
  · next h => exact advances_inlineFragment h
  · split
    · next h => exact Move.advances_name h
    · exact Move.advances_mark Nat.one_pos
    · exact Move.advances_mark Nat.one_pos
    · exact Move.advances_unexpected (Nat.zero_le _)

theorem advances_afterSpreadName (level : Nat) (bs : List UInt8) :
    (afterSpreadName level bs).Advances bs 0 := by
  unfold afterSpreadName
  split
  · next h => exact advances_directive h
  · exact advances_selectionOrEnd _ _ _

def definition (seen : Bool) (bs : List UInt8) : Move :=
  match Lead.of bs, seen with
  | .nothing, true => .finish
  | .openBrace, _ => .mark .query (.selectionSet .operation)
  | _, _ =>
    match Word.definition? (Word.read bs) with
    | some .fragment => .word .fragment bs 0 .fragmentName
    | some kind => .word kind bs 0 (.operationHead false)
    | none => .unexpected bs 0 .definition

/-- The name of an operation unless it is `named`, its variables, directives or selection set. -/
def operationHead (named : Bool) (bs : List UInt8) : Move :=
  match Lead.of bs, named with
  | .name, false => .word .operationName bs 0 (.operationHead true)
  | .openParen, _ => .punctuation .variablesOpen (.variableName true)
  | .atSign, _ => directive .operation bs
  | .openBrace, _ => openSet
  | _, true => .unexpected bs 0 .afterOperationName
  | _, false => .unexpected bs 0 .afterDefinitionKeyword

/-- The name of a fragment, which is not the keyword of its type condition. -/
def fragmentName (bs : List UInt8) : Move :=
  match Lead.of bs, Word.isOn bs with
  | .name, false => .word .fragmentName bs 0 .fragmentOn
  | _, _ => .unexpected bs 0 .fragmentName

def fragmentOn (bs : List UInt8) : Move :=
  if Word.isOn bs then .skip 2 .fragmentType else .unexpected bs 0 .keywordOn

def fragmentType (bs : List UInt8) : Move :=
  match Lead.of bs with
  | .name => .word .typeCondition bs 0 (.selectionSet .fragmentDefinition)
  | _ => .unexpected bs 0 .fragmentTypeCondition

theorem advances_definition (seen : Bool) (bs : List UInt8) :
    (definition seen bs).Advances bs 1 := by
  unfold definition
  split
  · trivial
  · exact Move.advances_mark Nat.one_pos
  · split
    · next h => exact Move.advances_word (Word.length_pos_of_definition? h)
    · next h => exact Move.advances_word (Word.length_pos_of_definition? h)
    · exact Move.advances_unexpected (Nat.zero_le _)

theorem advances_operationHead (named : Bool) (bs : List UInt8) :
    (operationHead named bs).Advances bs 0 := by
  unfold operationHead
  split
  · next h => exact Move.advances_name h
  · next h => exact Move.advances_punctuation h (by simp)
  · next h => exact advances_directive h
  · next h => exact Move.advances_punctuation h (by simp)
  · exact Move.advances_unexpected (Nat.zero_le _)
  · exact Move.advances_unexpected (Nat.zero_le _)

theorem advances_fragmentName (bs : List UInt8) : (fragmentName bs).Advances bs 0 := by
  unfold fragmentName
  split
  · next h _ => exact Move.advances_name h
  · exact Move.advances_unexpected (Nat.zero_le _)

theorem advances_fragmentOn (bs : List UInt8) : (fragmentOn bs).Advances bs 0 := by
  unfold fragmentOn
  split
  · next h => exact ⟨Nat.two_pos, Word.length_of_isOn h ▸ Word.length_le bs⟩
  · exact Move.advances_unexpected (Nat.zero_le _)

theorem advances_fragmentType (bs : List UInt8) : (fragmentType bs).Advances bs 0 := by
  unfold fragmentType
  split
  · next h => exact Move.advances_name h
  · exact Move.advances_unexpected (Nat.zero_le _)

/-- The move at a place with selection sets `level` deep; the bytes begin with no gap. -/
def react (level : Nat) (state : State) (bs : List UInt8) : Move :=
  match state with
  | .definition seen => definition seen bs
  | .operationHead named => operationHead named bs
  | .selectionSet site => selectionSet site bs
  | .fragmentName => fragmentName bs
  | .fragmentOn => fragmentOn bs
  | .fragmentType => fragmentType bs
  | .selection => selection bs
  | .selectionOrEnd => selectionOrEnd level .afterSelection bs
  | .afterField argumentsAllowed => afterField level argumentsAllowed bs
  | .aliasedField => aliasedField bs
  | .afterSpread => afterSpread bs
  | .afterSpreadName => afterSpreadName level bs
  | .afterDirective site => afterDirective site bs
  | .argument owner first => argument owner first bs
  | .argumentColon owner => argumentColon owner bs
  | .variableName first => variableName first bs
  | .variableColon => variableColon bs
  | .variableType depth => variableType depth bs
  | .afterVariableType depth nonNull => afterVariableType depth nonNull bs
  | .afterVariable => afterVariable .afterVariableDefinition bs
  | .value use containers expected => value use containers expected bs
  | .afterValue use containers => afterValue use containers bs
  | .objectField use containers => objectField use containers bs
  | .objectColon use containers => objectColon use containers bs

/-- The move at a place, with offsets that count the gap in front of it. -/
def move (level : Nat) (state : State) (bs : List UInt8) : Move :=
  let gap := Gap.length bs
  (react level state (bs.drop gap)).shift gap

theorem advances_react (level : Nat) (state : State) (bs : List UInt8) :
    (react level state bs).Advances bs state.rank := by
  cases state with
  | definition seen => exact advances_definition seen bs
  | operationHead named => exact advances_operationHead named bs
  | selectionSet site => exact advances_selectionSet site bs
  | fragmentName => exact advances_fragmentName bs
  | fragmentOn => exact advances_fragmentOn bs
  | fragmentType => exact advances_fragmentType bs
  | selection => exact advances_selection bs
  | selectionOrEnd => exact advances_selectionOrEnd level _ bs
  | afterField argumentsAllowed => exact advances_afterField level argumentsAllowed bs
  | aliasedField => exact advances_aliasedField bs
  | afterSpread => exact advances_afterSpread bs
  | afterSpreadName => exact advances_afterSpreadName level bs
  | afterDirective site => exact advances_afterDirective site bs
  | argument owner first => exact advances_argument owner first bs
  | argumentColon owner => exact Move.advances_colon
  | variableName first => exact advances_variableName first bs
  | variableColon => exact Move.advances_colon
  | variableType depth => exact advances_variableType depth bs
  | afterVariableType depth nonNull => exact advances_afterVariableType depth nonNull bs
  | afterVariable => exact advances_afterVariable _ bs
  | value use containers expected => exact advances_value use containers expected bs
  | afterValue use containers => exact advances_afterValue use containers bs
  | objectField use containers => exact advances_objectField use containers bs
  | objectColon use containers => exact Move.advances_colon

/-- Every move reads a byte or lowers the rank, and stays within the input. -/
theorem advances_move (level : Nat) (state : State) (bs : List UInt8) :
    (move level state bs).Advances bs state.rank :=
  (advances_react level state _).shift (Gap.length_le bs)

end QueryDoc.Grammar
