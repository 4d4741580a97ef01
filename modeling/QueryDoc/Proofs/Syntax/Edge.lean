import QueryDoc.Grammar.Move
import QueryDoc.Proofs.Syntax.Phrase

/-! The grammar as a diagram: which terminals lead from one place to the next, and what the byte
behind them must announce where the places cannot tell. -/
namespace QueryDoc

namespace State

/-- What a directive at this place is attached to, if one may stand there. -/
def site? : State → Option Site
  | operationHead _ => some .operation
  | selectionSet site => some site
  | afterField _ => some .field
  | afterSpreadName => some .spread
  | afterVariable => some .variableDefinition
  | afterVariableType 0 _ => some .variableDefinition
  | _ => none

def mayOpenSet : State → Bool
  | operationHead _ => true
  | selectionSet _ => true
  | afterField _ => true
  | _ => false

def mayCloseSet : State → Bool
  | selectionOrEnd => true
  | afterField _ => true
  | afterSpreadName => true
  | _ => false

def maySelect (s : State) : Bool := s == selection || s.mayCloseSet

def mayEndVariable : State → Bool
  | afterVariable => true
  | afterVariableType 0 _ => true
  | _ => false

end State

/-- Where the scan goes on after the end of a selection set at depth `level`. -/
def State.afterSet (level : Nat) : State :=
  if level - 1 = 0 then .definition true else .selectionOrEnd

/-- The terminals lead from one place to the other in front of the announced byte. -/
inductive Edge (level : Nat) : State → List Terminal → Lead → State → Prop
  | shorthand {seen : Bool} :
      Edge level (.definition seen) [.mark .query] .openBrace (.selectionSet .operation)
  | operation {seen : Bool} {t : Terminal} {x : Lead} (keyword : t ∈ Terminal.operations) :
      Edge level (.definition seen) [t] x (.operationHead false)
  | fragment {seen : Bool} {x : Lead} :
      Edge level (.definition seen) [.keyword .fragment .fragment] x .fragmentName
  | operationName {x : Lead} :
      Edge level (.operationHead false) [.name .operationName] x (.operationHead true)
  | openVariables {named : Bool} {x : Lead} :
      Edge level (.operationHead named) [.punct .openParen .variablesOpen] x (.variableName true)
  | fragmentName {x : Lead} :
      Edge level .fragmentName [.nameNotOn .fragmentName] x .fragmentOn
  | fragmentOn {x : Lead} : Edge level .fragmentOn [.on] x .fragmentType
  | fragmentType {x : Lead} :
      Edge level .fragmentType [.name .typeCondition] x (.selectionSet .fragmentDefinition)
  | openSet {s : State} {x : Lead} (may : s.mayOpenSet = true) :
      Edge level s [.punct .openBrace .setOpen] x .selection
  | closeSet {s : State} {x : Lead} (may : s.mayCloseSet = true) :
      Edge level s [.punct .closeBrace .setClose] x (.afterSet level)
  | fieldAlias {s : State} {x : Lead} (may : s.maySelect = true) :
      Edge level s [.name .fieldAlias, .link .colon] x .aliasedField
  | field {s : State} {x : Lead} (may : s.maySelect = true) (plain : x ≠ .colon) :
      Edge level s [.name .field] x (.afterField true)
  | spread {s : State} {x : Lead} (may : s.maySelect = true) : Edge level s [.dots] x .afterSpread
  | aliasedField {x : Lead} : Edge level .aliasedField [.name .field] x (.afterField true)
  | typedInline {x : Lead} :
      Edge level .afterSpread [.on, .name .inlineFragment] x (.selectionSet .inlineFragment)
  | untypedInline {x : Lead} (ahead : x = .openBrace ∨ x = .atSign) :
      Edge level .afterSpread [.mark .inlineFragment] x (.selectionSet .inlineFragment)
  | spreadName {x : Lead} :
      Edge level .afterSpread [.nameNotOn .spreadName] x .afterSpreadName
  | directive {s : State} {site : Site} {x : Lead} (at_ : s.site? = some site) :
      Edge level s [.sigil .atSign .directiveName] x (.afterDirective site)
  | directiveArguments {site : Site} {x : Lead} :
      Edge level (.afterDirective site) [.punct .openParen .argumentsOpen] x
        (.argument (.directive site) true)
  | directiveEnd {site : Site} {x : Lead} (plain : x ≠ .openParen) :
      Edge level (.afterDirective site) [] x site.resume
  | fieldArguments {x : Lead} :
      Edge level (.afterField true) [.punct .openParen .argumentsOpen] x (.argument .field true)
  | argumentsEnd {owner : Owner} {x : Lead} :
      Edge level (.argument owner false) [.punct .closeParen .argumentsClose] x owner.resume
  | argumentName {owner : Owner} {first : Bool} {x : Lead} :
      Edge level (.argument owner first) [.name .argumentName] x (.argumentColon owner)
  | argumentColon {owner : Owner} {x : Lead} :
      Edge level (.argumentColon owner) [.link .colon] x (.value (.argument owner) [] .value)
  | variablesEnd {x : Lead} :
      Edge level (.variableName false) [.punct .closeParen .variablesClose] x
        (.selectionSet .operation)
  | variableName {first : Bool} {x : Lead} :
      Edge level (.variableName first) [.sigil .dollar .variableName] x .variableColon
  | variableColon {x : Lead} : Edge level .variableColon [.link .colon] x (.variableType 0)
  | listType {depth : Nat} {x : Lead} :
      Edge level (.variableType depth) [.punct .openBracket .listTypeOpen] x
        (.variableType (depth + 1))
  | namedType {depth : Nat} {x : Lead} :
      Edge level (.variableType depth) [.name .typeName] x (.afterVariableType depth false)
  | nonNull {depth : Nat} {x : Lead} :
      Edge level (.afterVariableType depth false) [.punct .bang .nonNull] x
        (.afterVariableType depth true)
  | listTypeEnd {depth : Nat} {nonNull : Bool} {x : Lead} :
      Edge level (.afterVariableType (depth + 1) nonNull)
        [.punct .closeBracket .listTypeClose] x (.afterVariableType depth false)
  | defaultValue {nonNull : Bool} {x : Lead} :
      Edge level (.afterVariableType 0 nonNull) [.link .equals] x
        (.value .variableDefault [] .defaultValue)
  | variableEnd {s : State} {x : Lead} (may : s.mayEndVariable = true)
      (ahead : x = .dollar ∨ x = .closeParen) : Edge level s [] x (.variableName false)
  | scalar {use : Use} {cs : List Container} {e : Expect} {t : Terminal} {x : Lead}
      (member : t ∈ Terminal.scalars) : Edge level (.value use cs e) [t] x (.afterValue use cs)
  | listOpen {use : Use} {cs : List Container} {e : Expect} {x : Lead} :
      Edge level (.value use cs e) [.punct .openBracket .listOpen] x
        (.afterValue use (.list :: cs))
  | objectOpen {use : Use} {cs : List Container} {e : Expect} {x : Lead} :
      Edge level (.value use cs e) [.punct .openBrace .objectOpen] x
        (.objectField use (.object :: cs))
  | valueEnd {use : Use} {x : Lead} : Edge level (.afterValue use []) [] x use.resume
  | nextValue {use : Use} {cs : List Container} {x : Lead} (plain : x ≠ .closeBracket) :
      Edge level (.afterValue use (.list :: cs)) [] x
        (.value use (.list :: cs) .afterListValue)
  | listClose {use : Use} {cs : List Container} {x : Lead} :
      Edge level (.afterValue use (.list :: cs)) [.punct .closeBracket .listClose] x
        (.afterValue use cs)
  | nextField {use : Use} {cs : List Container} {x : Lead} :
      Edge level (.afterValue use (.object :: cs)) [] x (.objectField use (.object :: cs))
  | objectClose {use : Use} {cs : List Container} {x : Lead} :
      Edge level (.objectField use cs) [.punct .closeBrace .objectClose] x
        (.afterValue use cs.tail)
  | objectField {use : Use} {cs : List Container} {x : Lead} :
      Edge level (.objectField use cs) [.name .objectField] x (.objectColon use cs)
  | objectColon {use : Use} {cs : List Container} {x : Lead} :
      Edge level (.objectColon use cs) [.link .colon] x (.value use cs .value)

theorem Edge.ahead_of_mark {level : Nat} {s s' : State} {x : Lead}
    (h : Edge level s [.mark .query] x s') : x = .openBrace := by
  cases h with
  | shorthand => rfl
  | operation keyword => simp [Terminal.operations] at keyword
  | scalar member => simp [Terminal.scalars] at member

theorem Edge.eq_selectionSet {level : Nat} {s s' : State} {label : List Terminal} {x : Lead}
    (h : Edge level s label x s') {t : Terminal} (ht : t ∈ label) (he : t.shape = .empty) :
    ∃ k site, label = [.mark k] ∧ s' = .selectionSet site := by
  cases h with
  | shorthand => exact ⟨_, _, rfl, rfl⟩
  | untypedInline => exact ⟨_, _, rfl, rfl⟩
  | operation keyword =>
    obtain rfl := List.mem_singleton.1 ht
    have plain := (Terminal.leaf_of_operation keyword).plain
    rw [he] at plain
    cases plain
  | scalar member =>
    obtain rfl := List.mem_singleton.1 ht
    have plain := (Terminal.leaf_of_scalar member).plain
    rw [he] at plain
    cases plain
  | _ =>
    first
      | exact absurd ht List.not_mem_nil
      | (obtain rfl := List.mem_singleton.1 ht; cases he)
      | (rcases List.mem_cons.1 ht with rfl | ht
         · cases he
         · obtain rfl := List.mem_singleton.1 ht
           cases he)

/-- The depth of selection sets behind the terminals. -/
def Terminal.levels (ts : List Terminal) (level : Nat) : Nat :=
  ts.foldl (fun l t => t.levelAfter l) level

theorem Reads.level_eq {ts : List Terminal} {c d : Cursor} {us : List Token}
    (h : Reads ts c us d) : d.level = Terminal.levels ts c.level := by
  induction h with
  | nil => rfl
  | cons _ _ _ _ ih => exact ih

def Site.nested : Site → Bool
  | inlineFragment => true
  | spread => true
  | field => true
  | _ => false

def Site.needsSet : Site → Bool
  | operation => true
  | fragmentDefinition => true
  | inlineFragment => true
  | _ => false

def Owner.nested : Owner → Bool
  | field => true
  | directive site => site.nested

def Use.nested : Use → Bool
  | argument owner => owner.nested
  | variableDefault => false

namespace State

/-- Whether the place lies inside a selection set. -/
def nested : State → Bool
  | selectionSet site => site.nested
  | selection => true
  | selectionOrEnd => true
  | afterField _ => true
  | aliasedField => true
  | afterSpread => true
  | afterSpreadName => true
  | afterDirective site => site.nested
  | argument owner _ => owner.nested
  | argumentColon owner => owner.nested
  | value use _ _ => use.nested
  | afterValue use _ => use.nested
  | objectField use _ => use.nested
  | objectColon use _ => use.nested
  | _ => false

/-- The innermost container among the fields of an object is that object, and a selection set has
to come only where its owner needs one. -/
def Proper : State → Prop
  | selectionSet site => site.needsSet = true
  | objectField _ cs => ∃ outer, cs = .object :: outer
  | objectColon _ cs => ∃ outer, cs = .object :: outer
  | _ => True

/-- The place may be reached at this depth of selection sets. -/
structure Placed (level : Nat) (s : State) : Prop where
  depth : s.nested = true ↔ 0 < level
  proper : s.Proper

theorem nested_resume_site (site : Site) : site.resume.nested = site.nested := by
  cases site <;> rfl

theorem nested_resume_owner (owner : Owner) : owner.resume.nested = owner.nested := by
  cases owner with
  | field => rfl
  | directive site => exact nested_resume_site site

theorem nested_resume_use (use : Use) : use.resume.nested = use.nested := by
  cases use <;> rfl

theorem proper_resume_site (site : Site) : site.resume.Proper := by
  cases site <;> trivial

theorem proper_resume_owner (owner : Owner) : owner.resume.Proper := by
  cases owner with
  | field => trivial
  | directive site => exact proper_resume_site site

theorem proper_resume_use (use : Use) : use.resume.Proper := by
  cases use <;> trivial

theorem nested_of_site? {s : State} {site : Site} (h : s.site? = some site) :
    s.nested = site.nested := by
  unfold site? at h
  split at h <;> cases h <;> rfl

theorem nested_of_mayCloseSet {s : State} (h : s.mayCloseSet = true) : s.nested = true := by
  unfold mayCloseSet at h
  split at h
  all_goals first | rfl | cases h

theorem nested_of_maySelect {s : State} (h : s.maySelect = true) : s.nested = true := by
  rcases Bool.or_eq_true_iff.1 h with h | h
  · rw [eq_of_beq h]
    rfl
  · exact nested_of_mayCloseSet h

theorem nested_of_mayEndVariable {s : State} (h : s.mayEndVariable = true) : s.nested = false := by
  unfold mayEndVariable at h
  split at h
  all_goals first | rfl | cases h

theorem Placed.change {level : Nat} {s s' : State} (h : s.Placed level)
    (hn : s'.nested = s.nested) (ho : s'.Proper) : s'.Placed level := ⟨by rw [hn, h.depth], ho⟩

end State

open State in
/-- Edges lead to places at the depth that belongs to them. -/
theorem Edge.placed {level : Nat} {s s' : State} {label : List Terminal} {x : Lead}
    (h : Edge level s label x s') (hp : s.Placed level) :
    s'.Placed (Terminal.levels label level) := by
  cases h with
  | @operation seen t x keyword =>
    change (State.operationHead false).Placed (t.levelAfter level)
    rw [(Terminal.leaf_of_operation keyword).level]
    exact hp.change rfl trivial
  | openSet may => exact ⟨⟨fun _ => Nat.succ_pos level, fun _ => rfl⟩, trivial⟩
  | closeSet may =>
    have hl : 0 < level := hp.depth.1 (nested_of_mayCloseSet may)
    change (State.afterSet level).Placed (level - 1)
    unfold State.afterSet
    split
    · next h0 => exact ⟨⟨nofun, fun h => absurd h0 (Nat.ne_of_gt h)⟩, trivial⟩
    · next h0 => exact ⟨⟨fun _ => Nat.pos_of_ne_zero h0, fun _ => rfl⟩, trivial⟩
  | fieldAlias may => exact hp.change (nested_of_maySelect may).symm trivial
  | field may _ => exact hp.change (nested_of_maySelect may).symm trivial
  | spread may => exact hp.change (nested_of_maySelect may).symm trivial
  | directive at_ => exact hp.change (nested_of_site? at_).symm trivial
  | directiveEnd _ => exact hp.change (nested_resume_site _) (proper_resume_site _)
  | argumentsEnd => exact hp.change (nested_resume_owner _) (proper_resume_owner _)
  | variableEnd may _ => exact hp.change (nested_of_mayEndVariable may).symm trivial
  | @scalar use cs e t x member =>
    change (State.afterValue use cs).Placed (t.levelAfter level)
    rw [(Terminal.leaf_of_scalar member).level]
    exact hp.change rfl trivial
  | objectOpen => exact hp.change rfl ⟨_, rfl⟩
  | valueEnd => exact hp.change (nested_resume_use _) (proper_resume_use _)
  | nextField => exact hp.change rfl ⟨_, rfl⟩
  | objectField => exact hp.change rfl hp.proper
  | _ => exact hp.change rfl (by trivial)

end QueryDoc
