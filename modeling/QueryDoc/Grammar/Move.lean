import QueryDoc.Error
import QueryDoc.Lexical
import QueryDoc.Token

/-! A state is a place between two lexemes of a document, and a move is what the grammar does there
with the bytes ahead: it delivers at most one lexeme. -/
namespace QueryDoc

/-- What a directive is attached to. -/
inductive Site where
  | operation
  | fragmentDefinition
  | inlineFragment
  | spread
  | field
  | variableDefinition
  deriving DecidableEq, Repr

/-- What an argument list belongs to. -/
inductive Owner where
  | field
  | directive (site : Site)
  deriving DecidableEq, Repr

/-- What a whole value belongs to. -/
inductive Use where
  | argument (owner : Owner)
  | variableDefault
  deriving DecidableEq, Repr

inductive Container where
  | list
  | object
  deriving DecidableEq, Repr

inductive State where
  /-- Before a definition; the input may end once one is `seen`. -/
  | definition (seen : Bool)
  /-- After an operation keyword, or after the operation's name. -/
  | operationHead (named : Bool)
  /-- Before a selection set that has to come, and the directives in front of it. -/
  | selectionSet (site : Site)
  | fragmentName
  | fragmentOn
  | fragmentType
  /-- At the start of a selection set, which is not empty. -/
  | selection
  | selectionOrEnd
  /-- After a field's name, or after its argument list or a directive. -/
  | afterField (argumentsAllowed : Bool)
  | aliasedField
  | afterSpread
  | afterSpreadName
  | afterDirective (site : Site)
  /-- Before an argument, or the end of the list unless the argument is the `first`. -/
  | argument (owner : Owner) (first : Bool)
  | argumentColon (owner : Owner)
  /-- Before a variable, or the end of the list unless the variable is the `first`. -/
  | variableName (first : Bool)
  | variableColon
  /-- Before a type inside `depth` list types. -/
  | variableType (depth : Nat)
  | afterVariableType (depth : Nat) (nonNull : Bool)
  | afterVariable
  /-- Before a value inside the containers, innermost first. -/
  | value (use : Use) (containers : List Container) (expected : Expect)
  | afterValue (use : Use) (containers : List Container)
  | objectField (use : Use) (containers : List Container)
  | objectColon (use : Use) (containers : List Container)
  deriving DecidableEq, Repr

/-- Where the scan goes on once the directive and its arguments have ended. -/
def Site.resume : Site → State
  | .operation => .selectionSet .operation
  | .fragmentDefinition => .selectionSet .fragmentDefinition
  | .inlineFragment => .selectionSet .inlineFragment
  | .spread => .afterSpreadName
  | .field => .afterField false
  | .variableDefinition => .afterVariable

/-- Where the scan goes on once the argument list has ended. -/
def Owner.resume : Owner → State
  | .field => .afterField false
  | .directive site => site.resume

/-- Where the scan goes on once the value has ended. -/
def Use.resume : Use → State
  | .argument owner => .argument owner false
  | .variableDefault => .afterVariable

namespace State

/-- The lists and objects open at this place, innermost first. -/
def containers : State → List Container
  | value _ cs _ => cs
  | afterValue _ cs => cs
  | objectField _ cs => cs
  | objectColon _ cs => cs
  | _ => []

/-- How many moves may follow one another from here before one of them reads a byte. -/
def rank : State → Nat
  | afterValue _ _ => 2
  | afterDirective _ => 2
  | afterVariable => 1
  | afterVariableType _ _ => 1
  | definition _ => 1
  | afterSpread => 1
  | _ => 0

theorem rank_le (s : State) : s.rank ≤ 2 := by cases s <;> simp [rank]

theorem rank_resume_site (s : Site) : s.resume.rank ≤ 1 := by cases s <;> simp [Site.resume, rank]

theorem rank_resume_use (u : Use) : u.resume.rank ≤ 1 := by cases u <;> simp [Use.resume, rank]

end State

/-- A span of a token, and the offset from which the scan goes on after it. -/
structure Lexeme where
  kind : Kind
  tail : Nat
  head : Nat
  resume : Nat
  deriving DecidableEq, Repr

inductive Move where
  /-- Changes the state and reads nothing. -/
  | become (next : State)
  /-- Reads bytes that belong to no token. -/
  | skip (length : Nat) (next : State)
  | deliver (lexeme : Lexeme) (next : State)
  | fail (offset : Nat) (code : ErrorCode) (expected : Option Expect)
  /-- The document is complete. -/
  | finish
  deriving DecidableEq, Repr

namespace Lexeme

def shift (n : Nat) (x : Lexeme) : Lexeme := ⟨x.kind, x.tail + n, x.head + n, x.resume + n⟩

/-- The offsets are ordered and lie within the bytes. -/
def Within (bs : List UInt8) (x : Lexeme) : Prop :=
  x.tail ≤ x.head ∧ x.head ≤ x.resume ∧ x.resume ≤ bs.length

end Lexeme

namespace Move

def shift (n : Nat) : Move → Move
  | become next => become next
  | skip length next => skip (length + n) next
  | deliver lexeme next => deliver (lexeme.shift n) next
  | fail offset code expected => fail (offset + n) code expected
  | finish => finish

/-- The bytes at `offset` fit nothing that may stand there, or they have run out. -/
def unexpected (bs : List UInt8) (offset : Nat) (expected : Expect) : Move :=
  fail offset (if offset < bs.length then .unexpectedToken else .unexpectedEnd) (some expected)

/-- Delivers a lexeme with an empty span at the first byte, which is read. -/
def punctuation (kind : Kind) (next : State) : Move := deliver ⟨kind, 0, 0, 1⟩ next

/-- Delivers a lexeme with an empty span in front of the first byte, which is not read. -/
def mark (kind : Kind) (next : State) : Move := deliver ⟨kind, 0, 0, 0⟩ next

/-- Delivers the word that begins at `offset`. -/
def word (kind : Kind) (bs : List UInt8) (offset : Nat) (next : State) : Move :=
  let stop := offset + Word.length (bs.drop offset)
  deliver ⟨kind, offset, stop, stop⟩ next

/-- Delivers the name that has to follow the sigil at the first byte. -/
def sigil (kind : Kind) (bs : List UInt8) (expected : Expect) (next : State) : Move :=
  match Lead.of (bs.drop 1) with
  | .name => word kind bs 1 next
  | _ => unexpected bs 1 expected

/-- Reads the colon that has to stand at the first byte. -/
def colon (bs : List UInt8) (expected : Expect) (next : State) : Move :=
  match Lead.of bs with
  | .colon => skip 1 next
  | _ => unexpected bs 0 expected

/-- Offsets lie within the bytes, and a move that reads none of them lowers the rank. -/
def Advances (bs : List UInt8) (rank : Nat) : Move → Prop
  | become next => next.rank < rank
  | skip length _ => 0 < length ∧ length ≤ bs.length
  | deliver lexeme next => lexeme.Within bs ∧ (0 < lexeme.resume ∨ next.rank < rank)
  | fail offset _ _ => offset ≤ bs.length
  | finish => True

theorem advances_unexpected {bs : List UInt8} {offset rank : Nat} {x : Expect}
    (h : offset ≤ bs.length) : (unexpected bs offset x).Advances bs rank := h

theorem advances_punctuation {bs : List UInt8} {rank : Nat} {k : Kind} {s : State} {l : Lead}
    (h : Lead.of bs = l) (hl : l ≠ .nothing) : (punctuation k s).Advances bs rank :=
  ⟨⟨Nat.le_refl 0, Nat.zero_le 1, Lead.length_pos h hl⟩, .inl Nat.one_pos⟩

theorem advances_mark {bs : List UInt8} {rank : Nat} {k : Kind} {s : State}
    (h : s.rank < rank) : (mark k s).Advances bs rank :=
  ⟨⟨Nat.le_refl 0, Nat.le_refl 0, Nat.zero_le _⟩, .inr h⟩

theorem advances_word {bs : List UInt8} {offset rank : Nat} {k : Kind} {s : State}
    (h : 0 < Word.length (bs.drop offset)) : (word k bs offset s).Advances bs rank := by
  have hle := Word.length_le (bs.drop offset)
  rw [List.length_drop] at hle
  refine ⟨⟨Nat.le_add_right _ _, Nat.le_refl _, ?_⟩, .inl ?_⟩ <;> simp only <;> omega

theorem word_length_pos {bs : List UInt8} (h : Lead.of bs = .name) : 0 < Word.length bs := by
  cases bs with
  | nil => cases h
  | cons b bs =>
    exact Word.length_pos (Byte.isName_of_isNameStart (Lead.ofByte_eq_name_iff.1 h))

theorem advances_name {bs : List UInt8} {rank : Nat} {k : Kind} {s : State}
    (h : Lead.of bs = .name) : (word k bs 0 s).Advances bs rank :=
  advances_word (word_length_pos h)

theorem advances_sigil {bs : List UInt8} {rank : Nat} {k : Kind} {x : Expect} {s : State}
    {l : Lead} (h : Lead.of bs = l) (hl : l ≠ .nothing) : (sigil k bs x s).Advances bs rank := by
  unfold sigil
  split
  · next hn => exact advances_word (word_length_pos hn)
  · exact advances_unexpected (Lead.length_pos h hl)

theorem advances_colon {bs : List UInt8} {rank : Nat} {x : Expect} {s : State} :
    (colon bs x s).Advances bs rank := by
  unfold colon
  split
  · next h => exact ⟨Nat.one_pos, Lead.length_pos h (by simp)⟩
  · exact advances_unexpected (Nat.zero_le _)

theorem Advances.shift {bs : List UInt8} {n rank : Nat} {m : Move} (hn : n ≤ bs.length)
    (h : m.Advances (bs.drop n) rank) : (m.shift n).Advances bs rank := by
  cases m <;> simp only [Move.shift, Advances, Lexeme.Within, Lexeme.shift, List.length_drop] at h ⊢
    <;> omega

end Move

end QueryDoc
