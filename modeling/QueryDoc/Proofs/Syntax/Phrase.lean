import QueryDoc.Proofs.Syntax.Terminal

/-! The rules of the language as phrases over terminals. A document writes a sequence of terminals
that derives from them, with gaps between its lexemes and one at its end. -/
namespace QueryDoc

namespace Terminal

/-- A token without text in front of what follows. -/
abbrev mark (k : Kind) : Terminal := ⟨.empty, some k⟩

abbrev punct (p : Punct) (k : Kind) : Terminal := ⟨.punct p, some k⟩

/-- A colon or an equals sign, which no token spans. -/
abbrev link (p : Punct) : Terminal := ⟨.punct p, none⟩

abbrev dots : Terminal := ⟨.dots, none⟩

abbrev name (k : Kind) : Terminal := ⟨.word .any, some k⟩

abbrev nameNotOn (k : Kind) : Terminal := ⟨.word .notOn, some k⟩

abbrev keyword (w : Keyword) (k : Kind) : Terminal := ⟨.word (.only w), some k⟩

abbrev on : Terminal := ⟨.word (.only .onWord), none⟩

abbrev sigil (s : Sigil) (k : Kind) : Terminal := ⟨.sigil s, some k⟩

abbrev literal (w : Keyword) (k : Kind) : Terminal := ⟨.scalar (.only w), some k⟩

abbrev enum : Terminal := ⟨.scalar .notLiteral, some .enumValue⟩

abbrev int : Terminal := ⟨.int, some .int⟩

abbrev float : Terminal := ⟨.float, some .float⟩

abbrev quoted : Terminal := ⟨.quoted, some .quotedString⟩

abbrev block : Terminal := ⟨.block, some .blockString⟩

def scalars : List Terminal :=
  [sigil .dollar .variableRef, int, float, quoted, block, literal .trueWord .trueValue,
    literal .falseWord .falseValue, literal .nullWord .nullValue, enum]

def operations : List Terminal :=
  [keyword .query .query, keyword .mutation .mutation, keyword .subscription .subscription]

/-- A terminal with a text and a token of its own, which is not the name of a fragment and leaves
the depth as it is. -/
structure Leaf (t : Terminal) : Prop where
  plain : t.shape.plain = true
  kind : ∃ k, t.kind = some k ∧ k ≠ .fragmentName
  level : ∀ level, t.levelAfter level = level

theorem leaf_of_scalar {t : Terminal} (h : t ∈ scalars) : t.Leaf := by
  simp only [scalars, List.mem_cons, List.not_mem_nil, or_false] at h
  rcases h with rfl | rfl | rfl | rfl | rfl | rfl | rfl | rfl | rfl <;>
    exact ⟨rfl, ⟨_, rfl, nofun⟩, fun _ => rfl⟩

theorem leaf_of_operation {t : Terminal} (h : t ∈ operations) : t.Leaf := by
  simp only [operations, List.mem_cons, List.not_mem_nil, or_false] at h
  rcases h with rfl | rfl | rfl <;> exact ⟨rfl, ⟨_, rfl, nofun⟩, fun _ => rfl⟩

end Terminal

inductive Rule where
  | document
  | definition
  | variableDefinitions
  | variableDefinition
  | type
  | selectionSet
  | selection
  | arguments
  | argument
  | directives
  | directive
  | value
  | objectField
  deriving DecidableEq, Repr

inductive Phrase where
  | token (t : Terminal)
  | rule (r : Rule)
  | seq (a b : Phrase)
  | alt (a b : Phrase)
  /-- The phrase or nothing. -/
  | opt (a : Phrase)
  /-- The phrase any number of times. -/
  | star (a : Phrase)
  /-- The phrase at least once. -/
  | plus (a : Phrase)
  deriving DecidableEq, Repr

namespace Phrase

instance : Append Phrase := ⟨seq⟩

instance : OrOp Phrase := ⟨alt⟩

end Phrase

open Phrase in
/-- What each rule stands for. -/
def Rule.body : Rule → Phrase
  | document => (rule definition).plus
  | definition =>
    token (.mark .query) ++ rule selectionSet |||
    (token (.keyword .query .query) ||| token (.keyword .mutation .mutation) |||
        token (.keyword .subscription .subscription)) ++
      (token (.name .operationName)).opt ++ (rule variableDefinitions).opt ++ (rule directives).opt ++
      rule selectionSet |||
    token (.keyword .fragment .fragment) ++ token (.nameNotOn .fragmentName) ++ token .on ++
      token (.name .typeCondition) ++ (rule directives).opt ++ rule selectionSet
  | variableDefinitions =>
    token (.punct .openParen .variablesOpen) ++ (rule variableDefinition).plus ++
      token (.punct .closeParen .variablesClose)
  | variableDefinition =>
    token (.sigil .dollar .variableName) ++ token (.link .colon) ++ rule type ++
      (token (.link .equals) ++ rule value).opt ++ (rule directives).opt
  | type =>
    (token (.name .typeName) |||
        token (.punct .openBracket .listTypeOpen) ++ rule type ++
          token (.punct .closeBracket .listTypeClose)) ++
      (token (.punct .bang .nonNull)).opt
  | selectionSet =>
    token (.punct .openBrace .setOpen) ++ (rule selection).plus ++
      token (.punct .closeBrace .setClose)
  | selection =>
    (token (.name .fieldAlias) ++ token (.link .colon)).opt ++ token (.name .field) ++
      (rule arguments).opt ++ (rule directives).opt ++ (rule selectionSet).opt |||
    token .dots ++ token (.nameNotOn .spreadName) ++ (rule directives).opt |||
    token .dots ++ (token .on ++ token (.name .inlineFragment) ||| token (.mark .inlineFragment)) ++
      (rule directives).opt ++ rule selectionSet
  | arguments =>
    token (.punct .openParen .argumentsOpen) ++ (rule argument).plus ++
      token (.punct .closeParen .argumentsClose)
  | argument => token (.name .argumentName) ++ token (.link .colon) ++ rule value
  | directives => (rule directive).plus
  | directive => token (.sigil .atSign .directiveName) ++ (rule arguments).opt
  | value =>
    token (.sigil .dollar .variableRef) ||| token .int ||| token .float ||| token .quoted |||
    token .block ||| token (.literal .trueWord .trueValue) |||
    token (.literal .falseWord .falseValue) ||| token (.literal .nullWord .nullValue) |||
    token .enum |||
    token (.punct .openBracket .listOpen) ++ (rule value).star ++
      token (.punct .closeBracket .listClose) |||
    token (.punct .openBrace .objectOpen) ++ (rule objectField).star ++
      token (.punct .closeBrace .objectClose)
  | objectField => token (.name .objectField) ++ token (.link .colon) ++ rule value

/-- The terminals derive from the phrases, one after the other. -/
inductive Derives : List Phrase → List Terminal → Prop
  | nil : Derives [] []
  | token {t : Terminal} {f : List Phrase} {ts : List Terminal} (rest : Derives f ts) :
      Derives (.token t :: f) (t :: ts)
  | rule {r : Rule} {f : List Phrase} {ts : List Terminal} (body : Derives (r.body :: f) ts) :
      Derives (.rule r :: f) ts
  | seq {a b : Phrase} {f : List Phrase} {ts : List Terminal} (both : Derives (a :: b :: f) ts) :
      Derives ((a ++ b) :: f) ts
  | left {a b : Phrase} {f : List Phrase} {ts : List Terminal} (one : Derives (a :: f) ts) :
      Derives ((a ||| b) :: f) ts
  | right {a b : Phrase} {f : List Phrase} {ts : List Terminal} (other : Derives (b :: f) ts) :
      Derives ((a ||| b) :: f) ts
  | absent {a : Phrase} {f : List Phrase} {ts : List Terminal} (rest : Derives f ts) :
      Derives (a.opt :: f) ts
  | present {a : Phrase} {f : List Phrase} {ts : List Terminal} (one : Derives (a :: f) ts) :
      Derives (a.opt :: f) ts
  | done {a : Phrase} {f : List Phrase} {ts : List Terminal} (rest : Derives f ts) :
      Derives (a.star :: f) ts
  | more {a : Phrase} {f : List Phrase} {ts : List Terminal}
      (next : Derives (a :: a.star :: f) ts) : Derives (a.star :: f) ts
  | plus {a : Phrase} {f : List Phrase} {ts : List Terminal}
      (first : Derives (a :: a.star :: f) ts) : Derives (a.plus :: f) ts

/-- The bytes derive from the grammar, and the derivation delivers these tokens. -/
def Document (doc : List UInt8) (us : List Token) : Prop :=
  ∃ ts d, Derives [.rule .document] ts ∧ Reads ts ⟨0, 0, doc⟩ us d ∧ Gap.Closing d.rest

/-- The phrases may begin with the terminal, and the last ones are what is then left to derive. -/
inductive Heads : List Phrase → Terminal → List Phrase → Prop
  | token {t : Terminal} {f : List Phrase} : Heads (.token t :: f) t f
  | rule {r : Rule} {f g : List Phrase} {t : Terminal} (body : Heads (r.body :: f) t g) :
      Heads (.rule r :: f) t g
  | seq {a b : Phrase} {f g : List Phrase} {t : Terminal} (both : Heads (a :: b :: f) t g) :
      Heads ((a ++ b) :: f) t g
  | left {a b : Phrase} {f g : List Phrase} {t : Terminal} (one : Heads (a :: f) t g) :
      Heads ((a ||| b) :: f) t g
  | right {a b : Phrase} {f g : List Phrase} {t : Terminal} (other : Heads (b :: f) t g) :
      Heads ((a ||| b) :: f) t g
  | absent {a : Phrase} {f g : List Phrase} {t : Terminal} (rest : Heads f t g) :
      Heads (a.opt :: f) t g
  | present {a : Phrase} {f g : List Phrase} {t : Terminal} (one : Heads (a :: f) t g) :
      Heads (a.opt :: f) t g
  | done {a : Phrase} {f g : List Phrase} {t : Terminal} (rest : Heads f t g) :
      Heads (a.star :: f) t g
  | more {a : Phrase} {f g : List Phrase} {t : Terminal} (next : Heads (a :: a.star :: f) t g) :
      Heads (a.star :: f) t g
  | plus {a : Phrase} {f g : List Phrase} {t : Terminal} (first : Heads (a :: a.star :: f) t g) :
      Heads (a.plus :: f) t g

theorem Heads.derives {f g : List Phrase} {t : Terminal} {ts : List Terminal} (h : Heads f t g)
    (hg : Derives g ts) : Derives f (t :: ts) := by
  induction h with
  | token => exact .token hg
  | rule _ ih => exact .rule (ih hg)
  | seq _ ih => exact .seq (ih hg)
  | left _ ih => exact .left (ih hg)
  | right _ ih => exact .right (ih hg)
  | absent _ ih => exact .absent (ih hg)
  | present _ ih => exact .present (ih hg)
  | done _ ih => exact .done (ih hg)
  | more _ ih => exact .more (ih hg)
  | plus _ ih => exact .plus (ih hg)

theorem Derives.heads {f : List Phrase} {t : Terminal} {ts : List Terminal}
    (h : Derives f (t :: ts)) : ∃ g, Heads f t g ∧ Derives g ts := by
  generalize hu : t :: ts = us at h
  induction h with
  | nil => cases hu
  | @token t f ts rest => cases hu; exact ⟨f, .token, rest⟩
  | rule _ ih => obtain ⟨g, hg, hd⟩ := ih hu; exact ⟨g, .rule hg, hd⟩
  | seq _ ih => obtain ⟨g, hg, hd⟩ := ih hu; exact ⟨g, .seq hg, hd⟩
  | left _ ih => obtain ⟨g, hg, hd⟩ := ih hu; exact ⟨g, .left hg, hd⟩
  | right _ ih => obtain ⟨g, hg, hd⟩ := ih hu; exact ⟨g, .right hg, hd⟩
  | absent _ ih => obtain ⟨g, hg, hd⟩ := ih hu; exact ⟨g, .absent hg, hd⟩
  | present _ ih => obtain ⟨g, hg, hd⟩ := ih hu; exact ⟨g, .present hg, hd⟩
  | done _ ih => obtain ⟨g, hg, hd⟩ := ih hu; exact ⟨g, .done hg, hd⟩
  | more _ ih => obtain ⟨g, hg, hd⟩ := ih hu; exact ⟨g, .more hg, hd⟩
  | plus _ ih => obtain ⟨g, hg, hd⟩ := ih hu; exact ⟨g, .plus hg, hd⟩

/-! How the first terminal and the absence of terminals are computed, phrase by phrase. -/

section
variable {a b : Phrase} {f g : List Phrase} {t u : Terminal} {r : Rule}

@[simp] theorem heads_nil : ¬Heads [] t g := nofun

@[simp] theorem heads_token : Heads (.token u :: f) t g ↔ t = u ∧ g = f :=
  ⟨fun | .token => ⟨rfl, rfl⟩, by rintro ⟨rfl, rfl⟩; exact .token⟩

theorem heads_rule : Heads (.rule r :: f) t g ↔ Heads (r.body :: f) t g :=
  ⟨fun | .rule h => h, .rule⟩

@[simp] theorem heads_seq : Heads ((a ++ b) :: f) t g ↔ Heads (a :: b :: f) t g :=
  ⟨fun | .seq h => h, .seq⟩

@[simp] theorem heads_alt : Heads ((a ||| b) :: f) t g ↔ Heads (a :: f) t g ∨ Heads (b :: f) t g :=
  ⟨fun | .left h => .inl h | .right h => .inr h, fun | .inl h => .left h | .inr h => .right h⟩

@[simp] theorem heads_opt : Heads (a.opt :: f) t g ↔ Heads f t g ∨ Heads (a :: f) t g :=
  ⟨fun | .absent h => .inl h | .present h => .inr h,
    fun | .inl h => .absent h | .inr h => .present h⟩

@[simp] theorem heads_star :
    Heads (a.star :: f) t g ↔ Heads f t g ∨ Heads (a :: a.star :: f) t g :=
  ⟨fun | .done h => .inl h | .more h => .inr h, fun | .inl h => .done h | .inr h => .more h⟩

@[simp] theorem heads_plus : Heads (a.plus :: f) t g ↔ Heads (a :: a.star :: f) t g :=
  ⟨fun | .plus h => h, .plus⟩

@[simp] theorem derives_token_nil : ¬Derives (.token t :: f) [] := nofun

theorem derives_rule_nil : Derives (.rule r :: f) [] ↔ Derives (r.body :: f) [] :=
  ⟨fun | .rule h => h, .rule⟩

@[simp] theorem derives_seq_nil : Derives ((a ++ b) :: f) [] ↔ Derives (a :: b :: f) [] :=
  ⟨fun | .seq h => h, .seq⟩

@[simp] theorem derives_alt_nil :
    Derives ((a ||| b) :: f) [] ↔ Derives (a :: f) [] ∨ Derives (b :: f) [] :=
  ⟨fun | .left h => .inl h | .right h => .inr h, fun | .inl h => .left h | .inr h => .right h⟩

@[simp] theorem derives_opt_nil :
    Derives (a.opt :: f) [] ↔ Derives f [] ∨ Derives (a :: f) [] :=
  ⟨fun | .absent h => .inl h | .present h => .inr h,
    fun | .inl h => .absent h | .inr h => .present h⟩

@[simp] theorem derives_star_nil :
    Derives (a.star :: f) [] ↔ Derives f [] ∨ Derives (a :: a.star :: f) [] :=
  ⟨fun | .done h => .inl h | .more h => .inr h, fun | .inl h => .done h | .inr h => .more h⟩

@[simp] theorem derives_plus_nil : Derives (a.plus :: f) [] ↔ Derives (a :: a.star :: f) [] :=
  ⟨fun | .plus h => h, .plus⟩

@[simp] theorem not_derives_rule_nil : ¬Derives (.rule r :: f) [] := by
  have definition {f : List Phrase} : ¬Derives (.rule .definition :: f) [] := by
    simp [derives_rule_nil, Rule.body]
  have directive {f : List Phrase} : ¬Derives (.rule .directive :: f) [] := by
    simp [derives_rule_nil, Rule.body]
  cases r <;> simp [derives_rule_nil, Rule.body, definition, directive]

@[simp] theorem heads_definition :
    Heads (.rule .definition :: f) t g ↔
      (t = .mark .query ∧ g = .rule .selectionSet :: f) ∨
      (t ∈ Terminal.operations ∧
        g = (Phrase.token (.name .operationName)).opt :: (Phrase.rule .variableDefinitions).opt ::
          (Phrase.rule .directives).opt :: .rule .selectionSet :: f) ∨
      (t = .keyword .fragment .fragment ∧
        g = .token (.nameNotOn .fragmentName) :: .token .on :: .token (.name .typeCondition) ::
          (Phrase.rule .directives).opt :: .rule .selectionSet :: f) := by
  simp only [heads_rule, Rule.body, heads_alt, heads_seq, heads_token, Terminal.operations,
    List.mem_cons, List.not_mem_nil, or_false]
  grind

@[simp] theorem heads_variableDefinitions :
    Heads (.rule .variableDefinitions :: f) t g ↔ t = .punct .openParen .variablesOpen ∧
      g = (Phrase.rule .variableDefinition).plus ::
        .token (.punct .closeParen .variablesClose) :: f := by
  simp [heads_rule, Rule.body]

@[simp] theorem heads_variableDefinition :
    Heads (.rule .variableDefinition :: f) t g ↔ t = .sigil .dollar .variableName ∧
      g = .token (.link .colon) :: .rule .type ::
        (Phrase.token (.link .equals) ++ Phrase.rule .value).opt ::
        (Phrase.rule .directives).opt :: f := by
  simp [heads_rule, Rule.body]

@[simp] theorem heads_type :
    Heads (.rule .type :: f) t g ↔
      (t = .name .typeName ∧ g = (Phrase.token (.punct .bang .nonNull)).opt :: f) ∨
      (t = .punct .openBracket .listTypeOpen ∧
        g = .rule .type :: .token (.punct .closeBracket .listTypeClose) ::
          (Phrase.token (.punct .bang .nonNull)).opt :: f) := by
  simp [heads_rule, Rule.body]

@[simp] theorem heads_selectionSet :
    Heads (.rule .selectionSet :: f) t g ↔ t = .punct .openBrace .setOpen ∧
      g = (Phrase.rule .selection).plus :: .token (.punct .closeBrace .setClose) :: f := by
  simp [heads_rule, Rule.body]

@[simp] theorem heads_selection :
    Heads (.rule .selection :: f) t g ↔
      (t = .name .field ∧ g = (Phrase.rule .arguments).opt :: (Phrase.rule .directives).opt ::
        (Phrase.rule .selectionSet).opt :: f) ∨
      (t = .name .fieldAlias ∧ g = .token (.link .colon) :: .token (.name .field) ::
        (Phrase.rule .arguments).opt :: (Phrase.rule .directives).opt ::
        (Phrase.rule .selectionSet).opt :: f) ∨
      (t = .dots ∧
        (g = .token (.nameNotOn .spreadName) :: (Phrase.rule .directives).opt :: f ∨
          g = (Phrase.token .on ++ Phrase.token (.name .inlineFragment) |||
              Phrase.token (.mark .inlineFragment)) ::
            (Phrase.rule .directives).opt :: .rule .selectionSet :: f)) := by
  simp only [heads_rule, Rule.body, heads_alt, heads_seq, heads_opt, heads_token]
  grind

@[simp] theorem heads_arguments :
    Heads (.rule .arguments :: f) t g ↔ t = .punct .openParen .argumentsOpen ∧
      g = (Phrase.rule .argument).plus :: .token (.punct .closeParen .argumentsClose) :: f := by
  simp [heads_rule, Rule.body]

@[simp] theorem heads_argument :
    Heads (.rule .argument :: f) t g ↔ t = .name .argumentName ∧
      g = .token (.link .colon) :: .rule .value :: f := by
  simp [heads_rule, Rule.body]

@[simp] theorem heads_directive :
    Heads (.rule .directive :: f) t g ↔ t = .sigil .atSign .directiveName ∧
      g = (Phrase.rule .arguments).opt :: f := by
  simp [heads_rule, Rule.body]

@[simp] theorem heads_directives :
    Heads (.rule .directives :: f) t g ↔
      Heads (.rule .directive :: (Phrase.rule .directive).star :: f) t g := by
  simp [heads_rule, Rule.body]

@[simp] theorem heads_value :
    Heads (.rule .value :: f) t g ↔
      (t ∈ Terminal.scalars ∧ g = f) ∨
      (t = .punct .openBracket .listOpen ∧
        g = (Phrase.rule .value).star :: .token (.punct .closeBracket .listClose) :: f) ∨
      (t = .punct .openBrace .objectOpen ∧
        g = (Phrase.rule .objectField).star :: .token (.punct .closeBrace .objectClose) :: f) := by
  simp only [heads_rule, Rule.body, heads_alt, heads_seq, heads_token, Terminal.scalars,
    List.mem_cons, List.not_mem_nil, or_false]
  grind

@[simp] theorem heads_objectField :
    Heads (.rule .objectField :: f) t g ↔ t = .name .objectField ∧
      g = .token (.link .colon) :: .rule .value :: f := by
  simp [heads_rule, Rule.body]

end

theorem derives_directives {f : List Phrase} {ts : List Terminal} :
    Derives ((Phrase.rule .directives).opt :: f) ts ↔
      Derives ((Phrase.rule .directive).star :: f) ts := by
  constructor
  · intro h
    cases h with
    | absent h => exact .done h
    | present h =>
      cases h with
      | rule h =>
        cases h with
        | plus h => exact .more h
  · intro h
    cases h with
    | done h => exact .absent h
    | more h => exact .present (.rule (.plus h))

end QueryDoc
