/-! The closed set of kinds of tokens, with the names that records and diagnostics use, and the
records themselves: a token names a span of the document it was scanned from. -/
namespace QueryDoc

inductive Kind where
  | query
  | mutation
  | subscription
  | fragment
  | operationName
  | directiveName
  | variablesOpen
  | variablesClose
  | argumentsOpen
  | argumentsClose
  | setOpen
  | setClose
  | typeCondition
  | fragmentName
  | inlineFragment
  | spreadName
  | fieldAlias
  | field
  | argumentName
  | enumValue
  | listOpen
  | listClose
  | quotedString
  | blockString
  | int
  | float
  | trueValue
  | falseValue
  | nullValue
  | variableName
  | typeName
  | listTypeOpen
  | listTypeClose
  | nonNull
  | variableRef
  | objectOpen
  | objectClose
  | objectField
  deriving DecidableEq, Repr

namespace Kind

def all : List Kind :=
  [query, mutation, subscription, fragment, operationName, directiveName, variablesOpen,
    variablesClose, argumentsOpen, argumentsClose, setOpen, setClose, typeCondition, fragmentName,
    inlineFragment, spreadName, fieldAlias, field, argumentName, enumValue, listOpen, listClose,
    quotedString, blockString, int, float, trueValue, falseValue, nullValue, variableName, typeName,
    listTypeOpen, listTypeClose, nonNull, variableRef, objectOpen, objectClose, objectField]

theorem mem_all (k : Kind) : k ∈ all := by cases k <;> decide

/-- The identifier of a kind in records. -/
def name : Kind → String
  | query => "DefQuery"
  | mutation => "DefMutation"
  | subscription => "DefSubscription"
  | fragment => "DefFragment"
  | operationName => "OperationName"
  | directiveName => "DirectiveName"
  | variablesOpen => "VarList"
  | variablesClose => "VarListEnd"
  | argumentsOpen => "ArgList"
  | argumentsClose => "ArgListEnd"
  | setOpen => "Set"
  | setClose => "SetEnd"
  | typeCondition => "FragTypeCond"
  | fragmentName => "FragName"
  | inlineFragment => "FragInline"
  | spreadName => "NamedSpread"
  | fieldAlias => "FieldAlias"
  | field => "Field"
  | argumentName => "ArgName"
  | enumValue => "EnumVal"
  | listOpen => "Arr"
  | listClose => "ArrEnd"
  | quotedString => "Str"
  | blockString => "StrBlock"
  | int => "Int"
  | float => "Float"
  | trueValue => "True"
  | falseValue => "False"
  | nullValue => "Null"
  | variableName => "VarName"
  | typeName => "VarTypeName"
  | listTypeOpen => "VarTypeArr"
  | listTypeClose => "VarTypeArrEnd"
  | nonNull => "VarTypeNotNull"
  | variableRef => "VarRef"
  | objectOpen => "Obj"
  | objectClose => "ObjEnd"
  | objectField => "ObjField"

def ofName? (s : String) : Option Kind := all.find? (·.name == s)

/-- The label of a kind in diagnostics. -/
def label : Kind → String
  | query => "query definition"
  | mutation => "mutation definition"
  | subscription => "subscription definition"
  | fragment => "fragment definition"
  | operationName => "operation name"
  | directiveName => "directive name"
  | variablesOpen => "variable list"
  | variablesClose => "variable list end"
  | argumentsOpen => "argument list"
  | argumentsClose => "argument list end"
  | setOpen => "selection set"
  | setClose => "selection set end"
  | typeCondition => "fragment type condition"
  | fragmentName => "fragment name"
  | inlineFragment => "fragment inline"
  | spreadName => "named spread"
  | fieldAlias => "field alias"
  | field => "field"
  | argumentName => "argument name"
  | enumValue => "enum value"
  | listOpen => "array"
  | listClose => "array end"
  | quotedString => "string"
  | blockString => "block string"
  | int => "integer"
  | float => "float"
  | trueValue => "true"
  | falseValue => "false"
  | nullValue => "null"
  | variableName => "variable name"
  | typeName => "variable type"
  | listTypeOpen => "variable type array"
  | listTypeClose => "variable type array end"
  | nonNull => "variable type not null"
  | variableRef => "variable reference"
  | objectOpen => "object"
  | objectClose => "object end"
  | objectField => "object field"

/-- The content of a string differs from its spelling; every other token stands for itself. -/
def isString : Kind → Bool
  | quotedString => true
  | blockString => true
  | _ => false

/-- The depth of selection sets once a token of this kind is delivered at depth `level`. -/
def levelAfter (level : Nat) : Kind → Nat
  | setOpen => level + 1
  | setClose => level - 1
  | _ => level

theorem ofName?_name (k : Kind) : ofName? k.name = some k := by cases k <;> decide

end Kind

/-- The span is `tail ≤ i < head`; `level` is the depth of selection sets. -/
structure Token where
  kind : Kind
  tail : Nat
  head : Nat
  level : Nat
  deriving DecidableEq, Repr

namespace Token

/-- The record that fills a buffer before a scan writes to it. -/
def blank : Token := ⟨.query, 0, 0, 0⟩

instance : Inhabited Token := ⟨blank⟩

/-- The bytes that the token spans in its document. -/
def value (doc : List UInt8) (t : Token) : List UInt8 := (doc.drop t.tail).take (t.head - t.tail)

/-- Whether the span lies within the document, as that of every delivered token does. -/
def fits (doc : List UInt8) (t : Token) : Bool := t.tail ≤ t.head && t.head ≤ doc.length

theorem length_value {doc : List UInt8} {t : Token} (h : t.fits doc = true) :
    (t.value doc).length = t.head - t.tail := by
  simp only [fits, Bool.and_eq_true, decide_eq_true_eq] at h
  simp only [value, List.length_take, List.length_drop]
  omega

end Token

end QueryDoc
