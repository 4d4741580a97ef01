import QueryDoc.Grammar.Move
import QueryDoc.Lexical

/-! Directives with their arguments, variable definitions with their types, and values. A number or a
bare name ends before a terminator; a string ends at its closing quotes, whatever follows them. -/
namespace QueryDoc.Grammar

def directive (site : Site) (bs : List UInt8) : Move :=
  .sigil .directiveName bs .directiveName (.afterDirective site)

def afterDirective (site : Site) (bs : List UInt8) : Move :=
  match Lead.of bs with
  | .openParen => .punctuation .argumentsOpen (.argument (.directive site) true)
  | _ => .become site.resume

def argument (owner : Owner) (first : Bool) (bs : List UInt8) : Move :=
  match Lead.of bs, first with
  | .closeParen, false => .punctuation .argumentsClose owner.resume
  | .name, _ => .word .argumentName bs 0 (.argumentColon owner)
  | _, true => .unexpected bs 0 .argumentName
  | _, false => .unexpected bs 0 .afterArgumentValue

def argumentColon (owner : Owner) (bs : List UInt8) : Move :=
  .colon bs .argumentColon (.value (.argument owner) [] .value)

theorem advances_directive {site : Site} {bs : List UInt8} {rank : Nat}
    (h : Lead.of bs = .atSign) : (directive site bs).Advances bs rank :=
  Move.advances_sigil h (by simp)

theorem advances_afterDirective (site : Site) (bs : List UInt8) :
    (afterDirective site bs).Advances bs 2 := by
  unfold afterDirective
  split
  · next h => exact Move.advances_punctuation h (by simp)
  · exact Nat.lt_succ_of_le (State.rank_resume_site site)

theorem advances_argument (owner : Owner) (first : Bool) (bs : List UInt8) :
    (argument owner first bs).Advances bs 0 := by
  unfold argument
  split
  · next h => exact Move.advances_punctuation h (by simp)
  · next h => exact Move.advances_name h
  · exact Move.advances_unexpected (Nat.zero_le _)
  · exact Move.advances_unexpected (Nat.zero_le _)

def variableName (first : Bool) (bs : List UInt8) : Move :=
  match Lead.of bs, first with
  | .closeParen, false => .punctuation .variablesClose (.selectionSet .operation)
  | .dollar, _ => .sigil .variableName bs .variableName .variableColon
  | _, true => .unexpected bs 0 .variableName
  | _, false => .unexpected bs 0 .afterVariableDefinition

def variableColon (bs : List UInt8) : Move := .colon bs .variableColon (.variableType 0)

/-- A type cannot go on like this, or the input has ended. -/
def badType (bs : List UInt8) (expected : Expect) : Move :=
  match Lead.of bs with
  | .nothing => .fail 0 .unexpectedEnd (some expected)
  | _ => .fail 0 .invalidType (some expected)

def variableType (depth : Nat) (bs : List UInt8) : Move :=
  match Lead.of bs with
  | .openBracket => .punctuation .listTypeOpen (.variableType (depth + 1))
  | .name => .word .typeName bs 0 (.afterVariableType depth false)
  | _ => badType bs .variableType

/-- The directives of a variable, the next variable or the end of the list; otherwise `expected`
is reported. -/
def afterVariable (expected : Expect) (bs : List UInt8) : Move :=
  match Lead.of bs with
  | .atSign => directive .variableDefinition bs
  | .dollar => .become (.variableName false)
  | .closeParen => .become (.variableName false)
  | _ => .unexpected bs 0 expected

def afterVariableType (depth : Nat) (nonNull : Bool) (bs : List UInt8) : Move :=
  match Lead.of bs, nonNull, depth with
  | .bang, false, _ => .punctuation .nonNull (.afterVariableType depth true)
  | .bang, true, _ => badType bs .afterVariableType
  | .closeBracket, _, outer + 1 => .punctuation .listTypeClose (.afterVariableType outer false)
  | .closeBracket, _, 0 => badType bs .afterVariableType
  | _, _, _ + 1 => badType bs .variableType
  | .equals, _, 0 => .skip 1 (.value .variableDefault [] .defaultValue)
  | _, _, 0 => afterVariable .afterVariableType bs

theorem advances_badType {bs : List UInt8} {x : Expect} {rank : Nat} :
    (badType bs x).Advances bs rank := by
  unfold badType
  split <;> exact Nat.zero_le _

theorem advances_variableName (first : Bool) (bs : List UInt8) :
    (variableName first bs).Advances bs 0 := by
  unfold variableName
  split
  · next h => exact Move.advances_punctuation h (by simp)
  · next h => exact Move.advances_sigil h (by simp)
  · exact Move.advances_unexpected (Nat.zero_le _)
  · exact Move.advances_unexpected (Nat.zero_le _)

theorem advances_variableType (depth : Nat) (bs : List UInt8) :
    (variableType depth bs).Advances bs 0 := by
  unfold variableType
  split
  · next h => exact Move.advances_punctuation h (by simp)
  · next h => exact Move.advances_name h
  · exact advances_badType

theorem advances_afterVariable (x : Expect) (bs : List UInt8) :
    (afterVariable x bs).Advances bs 1 := by
  unfold afterVariable
  split
  · next h => exact advances_directive h
  · exact Nat.one_pos
  · exact Nat.one_pos
  · exact Move.advances_unexpected (Nat.zero_le _)

theorem advances_afterVariableType (depth : Nat) (nonNull : Bool) (bs : List UInt8) :
    (afterVariableType depth nonNull bs).Advances bs 1 := by
  unfold afterVariableType
  split
  · next h => exact Move.advances_punctuation h (by simp)
  · exact advances_badType
  · next h => exact Move.advances_punctuation h (by simp)
  · exact advances_badType
  · exact advances_badType
  · next h => exact ⟨Nat.one_pos, Lead.length_pos h (by simp)⟩
  · exact advances_afterVariable _ _

/-- Whether a number or a bare name may end in front of these bytes. -/
def endsScalar : List UInt8 → Bool
  | [] => true
  | b :: _ => Byte.isTerminator b

def quotedString (bs : List UInt8) (next : State) : Move :=
  match Quoted.read (bs.drop 1) with
  | .ok n => .deliver ⟨.quotedString, 1, n + 1, n + 2⟩ next
  | .error (n, expected) => .unexpected bs (n + 1) expected

def blockString (bs : List UInt8) (next : State) : Move :=
  match Block.read (bs.drop 3) with
  | .ok n => .deliver ⟨.blockString, 3, n + 3, n + 6⟩ next
  | .error n => .unexpected bs (n + 3) .endOfBlockString

def number (bs : List UInt8) (next : State) : Move :=
  match Number.read bs with
  | .ok (kind, n) => .deliver ⟨kind, 0, n, n⟩ next
  | .error n => .fail n .invalidNumber none

def bareName (bs : List UInt8) (next : State) : Move :=
  let stop := Word.length bs
  if endsScalar (bs.drop stop) then .word (Word.value (Word.read bs)) bs 0 next
  else .fail stop .invalidValue none

def value (use : Use) (containers : List Container) (expected : Expect) (bs : List UInt8) :
    Move :=
  match Lead.of bs with
  | .quote =>
    if Block.fence.isPrefixOf bs then blockString bs (.afterValue use containers)
    else quotedString bs (.afterValue use containers)
  | .dollar => .sigil .variableRef bs .variableReference (.afterValue use containers)
  | .openBracket => .punctuation .listOpen (.afterValue use (.list :: containers))
  | .openBrace => .punctuation .objectOpen (.objectField use (.object :: containers))
  | .number => number bs (.afterValue use containers)
  | .name => bareName bs (.afterValue use containers)
  | _ => .unexpected bs 0 expected

/-- Closes a list that ends here, or goes on inside the innermost container or past the whole
value. -/
def afterValue (use : Use) (containers : List Container) (bs : List UInt8) : Move :=
  match containers with
  | [] => .become use.resume
  | .object :: _ => .become (.objectField use containers)
  | .list :: outer =>
    match Lead.of bs with
    | .closeBracket => .punctuation .listClose (.afterValue use outer)
    | _ => .become (.value use containers .afterListValue)

def objectField (use : Use) (containers : List Container) (bs : List UInt8) : Move :=
  match Lead.of bs with
  | .closeBrace => .punctuation .objectClose (.afterValue use containers.tail)
  | .name => .word .objectField bs 0 (.objectColon use containers)
  | _ => .unexpected bs 0 .afterObjectValue

def objectColon (use : Use) (containers : List Container) (bs : List UInt8) : Move :=
  .colon bs .objectFieldColon (.value use containers .value)

theorem advances_quotedString {bs : List UInt8} {next : State} {rank : Nat}
    (h : Lead.of bs = .quote) : (quotedString bs next).Advances bs rank := by
  have h0 := Lead.length_pos h (by simp)
  unfold quotedString
  split
  · next n hn =>
      have := Quoted.read_ok_lt hn
      rw [List.length_drop] at this
      refine ⟨⟨?_, ?_, ?_⟩, .inl (Nat.succ_pos _)⟩ <;> simp only <;> omega
  · next n x hn =>
      have := Quoted.read_error_le hn
      rw [List.length_drop] at this
      exact Move.advances_unexpected (by omega)

theorem advances_blockString {bs : List UInt8} {next : State} {rank : Nat}
    (h : Block.fence.isPrefixOf bs = true) : (blockString bs next).Advances bs rank := by
  have h3 := Block.length_of_fence h
  unfold blockString
  split
  · next n hn =>
      have := Block.read_ok_le hn
      rw [List.length_drop] at this
      refine ⟨⟨?_, ?_, ?_⟩, .inl (Nat.succ_pos _)⟩ <;> simp only <;> omega
  · next n hn =>
      have := Block.read_error_le hn
      rw [List.length_drop] at this
      exact Move.advances_unexpected (by omega)

theorem advances_number {bs : List UInt8} {next : State} {rank : Nat} :
    (number bs next).Advances bs rank := by
  unfold number
  split
  · next k n hn =>
      have := Number.read_ok_bounds hn
      exact ⟨⟨Nat.zero_le _, Nat.le_refl _, this.2⟩, .inl this.1⟩
  · next n hn => exact Number.read_error_le hn

theorem advances_bareName {bs : List UInt8} {next : State} {rank : Nat}
    (h : Lead.of bs = .name) : (bareName bs next).Advances bs rank := by
  unfold bareName
  simp only
  split
  · exact Move.advances_name h
  · exact Word.length_le bs

theorem advances_value (use : Use) (containers : List Container) (x : Expect) (bs : List UInt8) :
    (value use containers x bs).Advances bs 0 := by
  unfold value
  split
  · next h =>
      split
      · next hf => exact advances_blockString hf
      · exact advances_quotedString h
  · next h => exact Move.advances_sigil h (by simp)
  · next h => exact Move.advances_punctuation h (by simp)
  · next h => exact Move.advances_punctuation h (by simp)
  · exact advances_number
  · next h => exact advances_bareName h
  · exact Move.advances_unexpected (Nat.zero_le _)

theorem advances_afterValue (use : Use) (containers : List Container) (bs : List UInt8) :
    (afterValue use containers bs).Advances bs 2 := by
  unfold afterValue
  split
  · exact Nat.lt_succ_of_le (State.rank_resume_use use)
  · exact Nat.two_pos
  · split
    · next h => exact Move.advances_punctuation h (by simp)
    · exact Nat.two_pos

theorem advances_objectField (use : Use) (containers : List Container) (bs : List UInt8) :
    (objectField use containers bs).Advances bs 0 := by
  unfold objectField
  split
  · next h => exact Move.advances_punctuation h (by simp)
  · next h => exact Move.advances_name h
  · exact Move.advances_unexpected (Nat.zero_le _)

end QueryDoc.Grammar
