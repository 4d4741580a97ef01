import QueryDoc.Byte

/-! Why a scan ends early, what it looked for there, and the message of one line that says so. -/
namespace QueryDoc

inductive ErrorCode where
  | aborted
  | unexpectedToken
  | unexpectedEnd
  | invalidNumber
  | invalidValue
  | invalidType
  | bufferFull
  deriving DecidableEq, Repr

namespace ErrorCode

def all : List ErrorCode :=
  [aborted, unexpectedToken, unexpectedEnd, invalidNumber, invalidValue, invalidType, bufferFull]

theorem mem_all (c : ErrorCode) : c ∈ all := by cases c <;> decide

/-- The identifier of a code in records. -/
def name : ErrorCode → String
  | aborted => "CallbackFn"
  | unexpectedToken => "UnexpectedToken"
  | unexpectedEnd => "UnexpectedEof"
  | invalidNumber => "InvalidNumber"
  | invalidValue => "InvalidValue"
  | invalidType => "InvalidType"
  | bufferFull => "CapacityExceeded"

def ofName? (s : String) : Option ErrorCode := all.find? (·.name == s)

/-- The wording of a code in messages. -/
def message : ErrorCode → String
  | aborted => "callback function returned error"
  | unexpectedToken => "unexpected token"
  | unexpectedEnd => "unexpected end of file"
  | invalidNumber => "invalid number value"
  | invalidValue => "invalid value"
  | invalidType => "invalid type"
  | bufferFull => "token buffer capacity exceeded"

/-- Requests of the receiver, as opposed to violations of the grammar. -/
def isRequest : ErrorCode → Bool
  | aborted => true
  | bufferFull => true
  | _ => false

theorem ofName?_name (c : ErrorCode) : ofName? c.name = some c := by cases c <;> decide

end ErrorCode

inductive Expect where
  | definition
  | afterDefinitionKeyword
  | afterOperationName
  | selectionSet
  | selection
  | afterSelection
  | afterFieldName
  | afterFieldArguments
  | afterAlias
  | spread
  | fragment
  | fragmentName
  | keywordOn
  | fragmentTypeCondition
  | inlineFragment
  | directiveName
  | argumentName
  | argumentColon
  | afterArgumentValue
  | value
  | defaultValue
  | variableReference
  | objectFieldColon
  | afterObjectValue
  | afterListValue
  | endOfString
  | endOfBlockString
  | escape
  | unicodeEscape
  | variableName
  | variableColon
  | variableType
  | afterVariableType
  | afterVariableDefinition
  deriving DecidableEq, Repr

namespace Expect

def all : List Expect :=
  [definition, afterDefinitionKeyword, afterOperationName, selectionSet, selection, afterSelection,
    afterFieldName, afterFieldArguments, afterAlias, spread, fragment, fragmentName, keywordOn,
    fragmentTypeCondition, inlineFragment, directiveName, argumentName, argumentColon,
    afterArgumentValue, value, defaultValue, variableReference, objectFieldColon, afterObjectValue,
    afterListValue, endOfString, endOfBlockString, escape, unicodeEscape, variableName,
    variableColon, variableType, afterVariableType, afterVariableDefinition]

theorem mem_all (e : Expect) : e ∈ all := by cases e <;> decide

/-- The identifier of an expectation in records. -/
def name : Expect → String
  | definition => "Definition"
  | afterDefinitionKeyword => "AfterDefKeyword"
  | afterOperationName => "AfterOperationName"
  | selectionSet => "SelectionSet"
  | selection => "Selection"
  | afterSelection => "AfterSelection"
  | afterFieldName => "AfterFieldName"
  | afterFieldArguments => "AfterFieldArgs"
  | afterAlias => "AfterAlias"
  | spread => "Spread"
  | fragment => "Fragment"
  | fragmentName => "FragmentName"
  | keywordOn => "KeywordOn"
  | fragmentTypeCondition => "FragmentTypeCondition"
  | inlineFragment => "InlineFragment"
  | directiveName => "DirectiveName"
  | argumentName => "ArgumentName"
  | argumentColon => "ColonAfterArgumentName"
  | afterArgumentValue => "AfterArgumentValue"
  | value => "Value"
  | defaultValue => "DefaultVariableValue"
  | variableReference => "VariableReference"
  | objectFieldColon => "ColonAfterObjectFieldName"
  | afterObjectValue => "AfterObjectValue"
  | afterListValue => "AfterArrayValue"
  | endOfString => "EndOfString"
  | endOfBlockString => "EndOfBlockString"
  | escape => "EscapedSequence"
  | unicodeEscape => "EscapedUnicodeSequence"
  | variableName => "VariableName"
  | variableColon => "ColonAfterVariableName"
  | variableType => "VariableType"
  | afterVariableType => "AfterVariableType"
  | afterVariableDefinition => "AfterVariableDefinition"

def ofName? (s : String) : Option Expect := all.find? (·.name == s)

/-- The wording of an expectation in messages. -/
def label : Expect → String
  | definition => "definition"
  | afterDefinitionKeyword => "operation name, variable list or selection set"
  | afterOperationName => "variable list or selection set"
  | selectionSet => "selection set"
  | selection => "selection"
  | afterSelection => "selection or end of selection set"
  | afterFieldName => "alias, argument list, selection set or end of selection set"
  | afterFieldArguments => "selection, selection set or end of selection set"
  | afterAlias => "field name"
  | spread => "spread"
  | fragment => "fragment name or inline fragment"
  | fragmentName => "fragment name"
  | keywordOn => "keyword on"
  | fragmentTypeCondition => "fragment type condition"
  | inlineFragment => "inline fragment type condition"
  | directiveName => "directive name"
  | argumentName => "argument name"
  | argumentColon => "colon after argument name"
  | afterArgumentValue => "argument name or end of argument list"
  | value => "value"
  | defaultValue => "default variable value"
  | variableReference => "referenced variable name"
  | objectFieldColon => "colon after object field name"
  | afterObjectValue => "object field name or end of object"
  | afterListValue => "value or end of array"
  | endOfString => "end of string"
  | endOfBlockString => "end of block string"
  | escape => "escaped sequence"
  | unicodeEscape => "escaped unicode sequence"
  | variableName => "variable name"
  | variableColon => "colon after variable name"
  | variableType => "variable type"
  | afterVariableType => "variable name, default value or end of variable list"
  | afterVariableDefinition => "variable name or end of variable list"

theorem ofName?_name (e : Expect) : ofName? e.name = some e := by cases e <;> decide

end Expect

structure Error where
  index : Nat
  char : Option Char
  code : ErrorCode
  expected : Option Expect
  deriving DecidableEq, Repr

namespace Error

/-- The error at offset `index`, where the input goes on with `rest`. -/
def here (index : Nat) (rest : List UInt8) (code : ErrorCode) (expected : Option Expect) : Error :=
  ⟨index, Utf8.first? rest, code, expected⟩

def isAborted (e : Error) : Bool := e.code == .aborted

def isBufferFull (e : Error) : Bool := e.code == .bufferFull

/-- The character in parentheses; left out where the input has ended. -/
def charMessage (e : Error) : String :=
  match e.code, e.char with
  | .unexpectedEnd, _ => ""
  | _, none => ""
  | _, some c => " (" ++ String.ofList (Printable.shown c) ++ ")"

def expectedMessage (e : Error) : String :=
  match e.expected with
  | none => ""
  | some x => "; expected " ++ x.label

def message (e : Error) : String :=
  "error at index " ++ Nat.repr e.index ++ e.charMessage ++ ": " ++ e.code.message ++
    e.expectedMessage

end Error

/-- A scan into a buffer also reports how many records it wrote before it ended. -/
structure BufferError where
  written : Nat
  error : Error
  deriving DecidableEq, Repr

def BufferError.message (e : BufferError) : String := e.error.message

end QueryDoc
