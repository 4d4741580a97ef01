import QueryDoc.Proofs.Syntax.Edge

/-! Every place stands for the phrases that the rest of the document has to derive from. Along an
edge the terminals are taken from the front of these phrases. -/
namespace QueryDoc

open Phrase

theorem Derives.imp_tail {g g' : List Phrase} (hg : ∀ ts, Derives g ts → Derives g' ts)
    {f : List Phrase} {ts : List Terminal} (h : Derives (f ++ g) ts) : Derives (f ++ g') ts := by
  generalize hk : f ++ g = k at h
  induction h generalizing f with
  | nil =>
    obtain ⟨rfl, rfl⟩ := List.append_eq_nil_iff.1 hk
    exact hg _ .nil
  | token rest ih =>
    cases f with
    | nil => cases hk; exact hg _ (.token rest)
    | cons p f => cases hk; exact .token (ih rfl)
  | rule body ih =>
    cases f with
    | nil => cases hk; exact hg _ (.rule body)
    | cons p f => cases hk; exact .rule (ih (f := _ :: f) rfl)
  | seq both ih =>
    cases f with
    | nil => cases hk; exact hg _ (.seq both)
    | cons p f => cases hk; exact .seq (ih (f := _ :: _ :: f) rfl)
  | left one ih =>
    cases f with
    | nil => cases hk; exact hg _ (.left one)
    | cons p f => cases hk; exact .left (ih (f := _ :: f) rfl)
  | right other ih =>
    cases f with
    | nil => cases hk; exact hg _ (.right other)
    | cons p f => cases hk; exact .right (ih (f := _ :: f) rfl)
  | absent rest ih =>
    cases f with
    | nil => cases hk; exact hg _ (.absent rest)
    | cons p f => cases hk; exact .absent (ih rfl)
  | present one ih =>
    cases f with
    | nil => cases hk; exact hg _ (.present one)
    | cons p f => cases hk; exact .present (ih (f := _ :: f) rfl)
  | done rest ih =>
    cases f with
    | nil => cases hk; exact hg _ (.done rest)
    | cons p f => cases hk; exact .done (ih rfl)
  | more next ih =>
    cases f with
    | nil => cases hk; exact hg _ (.more next)
    | cons p f => cases hk; exact .more (ih (f := _ :: _ :: f) rfl)
  | plus first ih =>
    cases f with
    | nil => cases hk; exact hg _ (.plus first)
    | cons p f => cases hk; exact .plus (ih (f := _ :: _ :: f) rfl)

theorem derives_directives_behind (f : List Phrase) {g : List Phrase} {ts : List Terminal} :
    Derives (f ++ (rule .directives).opt :: g) ts ↔
      Derives (f ++ (rule .directive).star :: g) ts :=
  ⟨.imp_tail fun _ => derives_directives.1, .imp_tail fun _ => derives_directives.2⟩

/-- Inside this many selection sets: further selections up to the end of each, then further
definitions. -/
def sets : Nat → List Phrase
  | 0 => [(rule .definition).star]
  | level + 1 =>
    (rule .selection).star :: token (.punct .closeBrace .setClose) :: sets level

/-- Behind a directive or the argument list of a field. -/
def Site.form (level : Nat) : Site → List Phrase
  | operation => (rule .directive).star :: rule .selectionSet :: sets level
  | fragmentDefinition => (rule .directive).star :: rule .selectionSet :: sets level
  | inlineFragment => (rule .directive).star :: rule .selectionSet :: sets level
  | spread => (rule .directive).star :: sets level
  | field => (rule .directive).star :: (rule .selectionSet).opt :: sets level
  | variableDefinition =>
    (rule .directive).star :: (rule .variableDefinition).star ::
      token (.punct .closeParen .variablesClose) :: (rule .directive).star ::
      rule .selectionSet :: sets level

def Owner.form (level : Nat) : Owner → List Phrase
  | field => Site.field.form level
  | directive site => site.form level

def Use.form (level : Nat) : Use → List Phrase
  | argument owner =>
    (rule .argument).star :: token (.punct .closeParen .argumentsClose) :: owner.form level
  | variableDefault => Site.variableDefinition.form level

/-- Inside composite values, innermost first: further parts up to the end of each. -/
def Container.forms : List Container → List Phrase
  | [] => []
  | list :: outer =>
    (rule .value).star :: token (.punct .closeBracket .listClose) :: forms outer
  | object :: outer =>
    (rule .objectField).star :: token (.punct .closeBrace .objectClose) :: forms outer

def typeEnds : Nat → List Phrase
  | 0 => []
  | depth + 1 =>
    token (.punct .closeBracket .listTypeClose) :: (token (.punct .bang .nonNull)).opt ::
      typeEnds depth

def variableRest (level : Nat) : List Phrase :=
  (token (.link .equals) ++ rule .value).opt :: Site.variableDefinition.form level

def spreadEnd : Phrase :=
  token (.nameNotOn .spreadName) ++ (rule .directives).opt |||
  (token .on ++ token (.name .inlineFragment) ||| token (.mark .inlineFragment)) ++
    (rule .directives).opt ++ rule .selectionSet

/-- What is left to derive at a place. -/
def State.form (level : Nat) : State → List Phrase
  | definition false => [(rule .definition).plus]
  | definition true => sets level
  | operationHead false =>
    (token (.name .operationName)).opt :: (rule .variableDefinitions).opt :: Site.operation.form level
  | operationHead true => (rule .variableDefinitions).opt :: Site.operation.form level
  | selectionSet site => site.form level
  | fragmentName =>
    token (.nameNotOn .fragmentName) :: token .on :: token (.name .typeCondition) ::
      Site.fragmentDefinition.form level
  | fragmentOn =>
    token .on :: token (.name .typeCondition) :: Site.fragmentDefinition.form level
  | fragmentType => token (.name .typeCondition) :: Site.fragmentDefinition.form level
  | selection =>
    (rule .selection).plus :: token (.punct .closeBrace .setClose) :: sets (level - 1)
  | selectionOrEnd => sets level
  | afterField true => (rule .arguments).opt :: Site.field.form level
  | afterField false => Site.field.form level
  | aliasedField => token (.name .field) :: (rule .arguments).opt :: Site.field.form level
  | afterSpread => spreadEnd :: sets level
  | afterSpreadName => Site.spread.form level
  | afterDirective site => (rule .arguments).opt :: site.form level
  | argument owner true =>
    (rule .argument).plus :: token (.punct .closeParen .argumentsClose) :: owner.form level
  | argument owner false => (Use.argument owner).form level
  | argumentColon owner =>
    token (.link .colon) :: rule .value :: (Use.argument owner).form level
  | variableName true =>
    (rule .variableDefinition).plus :: token (.punct .closeParen .variablesClose) ::
      Site.operation.form level
  | variableName false =>
    (rule .variableDefinition).star :: token (.punct .closeParen .variablesClose) ::
      Site.operation.form level
  | variableColon => token (.link .colon) :: rule .type :: variableRest level
  | variableType depth => rule .type :: (typeEnds depth ++ variableRest level)
  | afterVariableType depth false =>
    (token (.punct .bang .nonNull)).opt :: (typeEnds depth ++ variableRest level)
  | afterVariableType depth true => typeEnds depth ++ variableRest level
  | afterVariable => Site.variableDefinition.form level
  | value use cs _ => rule .value :: (Container.forms cs ++ use.form level)
  | afterValue use cs => Container.forms cs ++ use.form level
  | objectField use cs => Container.forms cs ++ use.form level
  | objectColon use cs =>
    token (.link .colon) :: rule .value :: (Container.forms cs ++ use.form level)

theorem form_resume_site (site : Site) (level : Nat) :
    site.resume.form level = site.form level := by
  cases site <;> rfl

theorem form_resume_owner (owner : Owner) (level : Nat) :
    owner.resume.form level = owner.form level := by
  cases owner with
  | field => rfl
  | directive site => exact form_resume_site site level

theorem form_resume_use (use : Use) (level : Nat) : use.resume.form level = use.form level := by
  cases use <;> rfl

theorem sets_of_pos {level : Nat} (h : 0 < level) :
    sets level = (rule .selection).star :: token (.punct .closeBrace .setClose) ::
      sets (level - 1) := by
  cases level with
  | zero => exact absurd h (Nat.lt_irrefl 0)
  | succ level => rfl

theorem form_afterSet (level : Nat) :
    (State.afterSet level).form (level - 1) = sets (level - 1) := by
  unfold State.afterSet
  split <;> rfl

section
variable {level : Nat} {s : State} {t : Terminal} {g : List Phrase}

theorem heads_of_definition {seen : Bool} (hp : (State.definition seen).Placed level)
    (h : Heads (rule .definition :: sets level) t g) :
    Heads ((State.definition seen).form level) t g := by
  have hl : level = 0 := Nat.eq_zero_of_not_pos fun h => Bool.false_ne_true (hp.depth.2 h)
  subst hl
  cases seen with
  | false => exact heads_plus.2 h
  | true => exact heads_star.2 (.inr h)

theorem heads_of_mayCloseSet (hs : s.mayCloseSet = true) (h : Heads (sets level) t g) :
    Heads (s.form level) t g := by
  unfold State.mayCloseSet at hs
  cases s <;> simp at hs
  case selectionOrEnd => exact h
  case afterField b => cases b <;> simp [State.form, Site.form, h]
  case afterSpreadName => simp [State.form, Site.form, h]

theorem heads_of_maySelect (hs : s.maySelect = true) (hl : 0 < level)
    (h : Heads (rule .selection :: sets level) t g) : Heads (s.form level) t g := by
  rw [sets_of_pos hl] at h
  rcases Bool.or_eq_true_iff.1 hs with hs | hs
  · rw [eq_of_beq hs]
    exact heads_plus.2 h
  · refine heads_of_mayCloseSet hs ?_
    rw [sets_of_pos hl]
    exact heads_star.2 (.inr h)

theorem heads_of_mayOpenSet (hs : s.mayOpenSet = true) (hp : s.Placed level) :
    Heads (s.form level) (.punct .openBrace .setOpen) (State.selection.form (level + 1)) := by
  have needs := hp.proper
  unfold State.mayOpenSet at hs
  cases s <;> simp at hs
  case operationHead b => cases b <;> simp [State.form, Site.form]
  case selectionSet site =>
    cases site <;> simp [State.Proper, Site.needsSet] at needs <;> simp [State.form, Site.form]
  case afterField b => cases b <;> simp [State.form, Site.form]

theorem heads_of_site? {site : Site} (hs : s.site? = some site) :
    Heads (s.form level) (.sigil .atSign .directiveName)
      ((State.afterDirective site).form level) := by
  have star (site : Site) : Heads (site.form level) (.sigil .atSign .directiveName)
      ((State.afterDirective site).form level) := by
    cases site <;> simp [State.form, Site.form]
  unfold State.site? at hs
  split at hs <;> cases hs
  case h_1 b => cases b <;> simp [State.form, Site.form]
  case h_2 => exact star _
  case h_3 b => cases b <;> simp [State.form, Site.form]
  case h_4 => exact star .spread
  case h_5 => exact star .variableDefinition
  case h_6 b => cases b <;> simp [State.form, Site.form, typeEnds, variableRest]

end

/-- The byte announces what the terminals begin with, or the end if there are none. -/
def Ahead : List Terminal → Lead → Prop
  | [], x => x = .nothing
  | t :: _, x => x ∈ t.shape.leads

/-- What derives from the phrases behind an edge, derives in front of it with the terminals. A query
without keyword has no directives, so its selection set has to follow at once. -/
theorem Edge.derives {level : Nat} {s s' : State} {label ts : List Terminal} {x : Lead}
    (h : Edge level s label x s') (hp : s.Placed level)
    (hd : Derives (s'.form (Terminal.levels label level)) ts)
    (hx : label = [.mark .query] → Ahead ts .openBrace) :
    Derives (s.form level) (label ++ ts) := by
  have directives (f : List Phrase) {g : List Phrase} {ts : List Terminal}
      (h : Derives (f ++ (rule .directive).star :: g) ts) :
      Derives (f ++ (rule .directives).opt :: g) ts := (derives_directives_behind f).2 h
  have step {t : Terminal} {s s' : State} (head : Heads (s.form level) t (s'.form level))
      (hd : Derives (s'.form level) ts) : Derives (s.form level) (t :: ts) := head.derives hd
  cases h with
  | shorthand =>
    change Derives (Site.operation.form level) ts at hd
    refine (heads_of_definition (g := rule .selectionSet :: sets level) hp (by simp)).derives ?_
    cases hd with
    | done rest => exact rest
    | more next =>
      have brace := hx rfl
      cases ts with
      | nil => exact absurd next not_derives_rule_nil
      | cons t ts =>
        obtain ⟨g, head, -⟩ := next.heads
        obtain ⟨rfl, -⟩ := heads_directive.1 head
        simp [Ahead, Shape.leads, Sigil.lead] at brace
  | @operation seen t x keyword =>
    change Derives (State.form (t.levelAfter level) (.operationHead false)) ts at hd
    rw [(Terminal.leaf_of_operation keyword).level] at hd
    refine (heads_of_definition hp ?_).derives (directives [_, _] hd)
    simp [keyword]
  | fragment =>
    change Derives (State.fragmentName.form level) ts at hd
    refine (heads_of_definition hp ?_).derives (directives [_, _, _] hd)
    simp
  | operationName => exact step (by simp [State.form]) hd
  | @openVariables named =>
    exact step (by cases named <;> simp [State.form]) hd
  | fragmentName => exact step (by simp [State.form]) hd
  | fragmentOn => exact step (by simp [State.form]) hd
  | fragmentType => exact step (by simp [State.form]) hd
  | openSet may => exact (heads_of_mayOpenSet may hp).derives hd
  | closeSet may =>
    have hl : 0 < level := hp.depth.1 (State.nested_of_mayCloseSet may)
    refine (heads_of_mayCloseSet (g := sets (level - 1)) may ?_).derives ?_
    · rw [sets_of_pos hl]
      simp
    · rwa [← form_afterSet]
  | fieldAlias may =>
    change Derives (State.aliasedField.form level) ts at hd
    have hl : 0 < level := hp.depth.1 (State.nested_of_maySelect may)
    refine (heads_of_maySelect may hl ?_).derives (.token (directives [_, _] hd))
    simp
  | field may _ =>
    change Derives ((State.afterField true).form level) ts at hd
    have hl : 0 < level := hp.depth.1 (State.nested_of_maySelect may)
    refine (heads_of_maySelect may hl ?_).derives (directives [_] hd)
    simp
  | spread may =>
    change Derives (State.afterSpread.form level) ts at hd
    have hl : 0 < level := hp.depth.1 (State.nested_of_maySelect may)
    have select {g : List Phrase} := heads_of_maySelect (t := .dots) (g := g) may hl
    cases hd with
    | left one =>
      cases one with
      | seq both => exact (select (by simp)).derives both
    | right other =>
      cases other with
      | seq both =>
        cases both with
        | seq both => exact (select (by simp)).derives both
  | aliasedField => exact step (by simp [State.form]) hd
  | typedInline =>
    exact .right (.seq (.seq (.left (.seq (.token (.token (directives [] hd)))))))
  | untypedInline ahead => exact .right (.seq (.seq (.right (.token (directives [] hd)))))
  | spreadName => exact .left (.seq (.token (directives [] hd)))
  | directive at_ => exact (heads_of_site? at_).derives hd
  | directiveArguments => exact step (by simp [State.form, Owner.form]) hd
  | directiveEnd plain =>
    rw [form_resume_site] at hd
    exact .absent hd
  | fieldArguments => exact step (by simp [State.form, Owner.form]) hd
  | @argumentsEnd owner =>
    rw [form_resume_owner] at hd
    exact Heads.derives (g := owner.form level) (by simp [State.form, Use.form]) hd
  | @argumentName owner first =>
    exact step (by cases first <;> simp [State.form, Use.form]) hd
  | argumentColon => exact .token hd
  | variablesEnd => exact step (by simp [State.form]) hd
  | @variableName first =>
    change Derives (State.variableColon.form level) ts at hd
    refine Heads.derives ?_ (directives [_, _, _] hd)
    cases first <;> simp [State.form, Site.form]
  | variableColon => exact .token hd
  | listType => exact step (by simp [State.form, typeEnds]) hd
  | namedType => exact step (by simp [State.form]) hd
  | nonNull => exact step (by simp [State.form]) hd
  | @listTypeEnd depth nonNull =>
    exact step (by cases nonNull <;> simp [State.form, typeEnds]) hd
  | @defaultValue nonNull =>
    refine step ?_ hd
    cases nonNull <;> simp [State.form, typeEnds, variableRest, Container.forms, Use.form]
  | variableEnd may ahead =>
    have variable_end : Derives (Site.variableDefinition.form level) ts := .done hd
    unfold State.mayEndVariable at may
    split at may
    · exact variable_end
    · next nonNull =>
        cases nonNull
        · exact .absent (.absent variable_end)
        · exact .absent variable_end
    · cases may
  | @scalar use cs e t x member =>
    change Derives (State.form (t.levelAfter level) (.afterValue use cs)) ts at hd
    rw [(Terminal.leaf_of_scalar member).level] at hd
    exact step (by simp [State.form, member]) hd
  | listOpen => exact step (by simp [State.form, Container.forms]) hd
  | objectOpen => exact step (by simp [State.form, Container.forms]) hd
  | valueEnd =>
    rw [form_resume_use] at hd
    exact hd
  | nextValue plain => exact .more hd
  | listClose => exact step (by simp [State.form, Container.forms]) hd
  | nextField => exact hd
  | objectClose =>
    obtain ⟨outer, rfl⟩ := hp.proper
    exact step (by simp [State.form, Container.forms]) hd
  | objectField =>
    obtain ⟨outer, rfl⟩ := hp.proper
    exact step (by simp [State.form, Container.forms]) hd
  | objectColon => exact .token hd

end QueryDoc
