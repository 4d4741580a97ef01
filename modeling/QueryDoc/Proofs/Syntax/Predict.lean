import QueryDoc.Proofs.Syntax.Form

/-! One byte of look-ahead is enough: what derives from the phrases at a place begins with the
terminals of an edge, and the byte behind them tells which. -/
namespace QueryDoc

open Phrase

/-- The terminals begin with those of an edge, whatever byte announces the others. -/
def Predicted (level : Nat) (s : State) (ts : List Terminal) : Prop :=
  ∃ label next us, ts = label ++ us ∧ Derives (next.form (Terminal.levels label level)) us ∧
    ∀ x, Ahead us x → Edge level s label x next

section
variable {level : Nat} {s : State} {t : Terminal} {us : List Terminal} {f g : List Phrase}

theorem Predicted.one (next : State) (hd : Derives (next.form (t.levelAfter level)) us)
    (edge : ∀ x, Ahead us x → Edge level s [t] x next) : Predicted level s (t :: us) :=
  ⟨[t], next, us, rfl, hd, edge⟩

theorem Predicted.none (next : State) (hd : Derives (next.form level) us)
    (edge : ∀ x, Ahead us x → Edge level s [] x next) : Predicted level s us :=
  ⟨[], next, us, rfl, hd, edge⟩

end

/-- What a rule may begin with. -/
@[simp] def Rule.leads : Rule → List Lead
  | document => [.openBrace, .atSign, .name]
  | definition => [.openBrace, .atSign, .name]
  | variableDefinitions => [.openParen]
  | variableDefinition => [.dollar]
  | type => [.name, .openBracket]
  | selectionSet => [.openBrace]
  | selection => [.name, .dot]
  | arguments => [.openParen]
  | argument => [.name]
  | directives => [.atSign]
  | directive => [.atSign]
  | value => [.dollar, .number, .quote, .name, .openBracket, .openBrace]
  | objectField => [.name]

theorem leads_of_heads_definition {f g : List Phrase} {t : Terminal}
    (h : Heads (rule .definition :: f) t g) : ∀ x ∈ t.shape.leads, x ∈ Rule.definition.leads := by
  rcases heads_definition.1 h with ⟨rfl, -⟩ | ⟨ht, -⟩ | ⟨rfl, -⟩
  · simp [Shape.leads]
  · simp only [Terminal.operations, List.mem_cons, List.not_mem_nil, or_false] at ht
    rcases ht with rfl | rfl | rfl <;> simp [Shape.leads]
  · simp [Shape.leads]

theorem leads_of_heads_value {f g : List Phrase} {t : Terminal}
    (h : Heads (rule .value :: f) t g) : ∀ x ∈ t.shape.leads, x ∈ Rule.value.leads := by
  rcases heads_value.1 h with ⟨ht, -⟩ | ⟨rfl, -⟩ | ⟨rfl, -⟩
  · simp only [Terminal.scalars, List.mem_cons, List.not_mem_nil, or_false] at ht
    rcases ht with rfl | rfl | rfl | rfl | rfl | rfl | rfl | rfl | rfl <;>
      simp [Shape.leads, Sigil.lead]
  · simp [Shape.leads, Punct.lead]
  · simp [Shape.leads, Punct.lead]

theorem leads_of_heads {r : Rule} {f g : List Phrase} {t : Terminal} (h : Heads (rule r :: f) t g) :
    ∀ x ∈ t.shape.leads, x ∈ r.leads := by
  cases r with
  | document => exact leads_of_heads_definition (heads_plus.1 (heads_rule.1 h))
  | definition => exact leads_of_heads_definition h
  | value => exact leads_of_heads_value h
  | type => rcases heads_type.1 h with ⟨rfl, -⟩ | ⟨rfl, -⟩ <;> simp [Shape.leads, Punct.lead]
  | selection =>
    rcases heads_selection.1 h with ⟨rfl, -⟩ | ⟨rfl, -⟩ | ⟨rfl, -⟩ <;> simp [Shape.leads]
  | directives =>
    obtain ⟨rfl, -⟩ := heads_directive.1 (heads_directives.1 h)
    simp [Shape.leads, Sigil.lead]
  | _ =>
    simp at h
    obtain ⟨rfl, -⟩ := h
    simp [Shape.leads, Punct.lead, Sigil.lead]

/-- No terminal that the phrases may begin with is announced by this. -/
def Avoids (x : Lead) (f : List Phrase) : Prop := ∀ t g, Heads f t g → x ∉ t.shape.leads

section
variable {x : Lead} {a : Phrase} {f : List Phrase} {t : Terminal}

@[simp] theorem avoids_token : Avoids x (token t :: f) ↔ x ∉ t.shape.leads := by
  simp [Avoids]

@[simp] theorem avoids_opt : Avoids x (a.opt :: f) ↔ Avoids x f ∧ Avoids x (a :: f) := by
  simp only [Avoids, heads_opt]
  grind

@[simp] theorem avoids_star :
    Avoids x (a.star :: f) ↔ Avoids x f ∧ Avoids x (a :: a.star :: f) := by
  simp only [Avoids, heads_star]
  grind

@[simp] theorem avoids_rule {r : Rule} (h : x ∉ r.leads) : Avoids x (rule r :: f) :=
  fun _ _ head hx => h (leads_of_heads head x hx)

end

theorem Ahead.of_derives {x : Lead} {f : List Phrase} {us : List Terminal} {p : Lead → Prop}
    (h : Ahead us x) (hd : Derives f us) (hn : ¬Derives f [])
    (heads : ∀ t g, Heads f t g → ∀ y ∈ t.shape.leads, p y) : p x := by
  cases us with
  | nil => exact absurd hd hn
  | cons t us =>
    obtain ⟨g, head, -⟩ := hd.heads
    exact heads t g head x h

theorem Ahead.ne {x y : Lead} {f : List Phrase} {us : List Terminal} (h : Ahead us x)
    (hd : Derives f us) (avoids : Avoids y f) (hy : y ≠ .nothing) : x ≠ y := by
  rintro rfl
  cases us with
  | nil => exact hy h
  | cons t us =>
    obtain ⟨g, head, -⟩ := hd.heads
    exact avoids t g head h

section
variable {level : Nat} {s : State} {t : Terminal} {us : List Terminal} {f g : List Phrase}

theorem avoids_sets {x : Lead} (hl : 0 < level) (hx : x ≠ .name ∧ x ≠ .dot ∧ x ≠ .closeBrace) :
    Avoids x (sets level) := by
  rw [sets_of_pos hl]
  simp [Shape.leads, Punct.lead, hx]

theorem predicted_selection (hs : s.maySelect = true) (hl : 0 < level)
    (head : Heads (rule .selection :: sets level) t g) (hd : Derives g us) :
    Predicted level s (t :: us) := by
  have directives (f : List Phrase) {g : List Phrase} {ts : List Terminal}
      (h : Derives (f ++ (rule .directives).opt :: g) ts) :
      Derives (f ++ (rule .directive).star :: g) ts := (derives_directives_behind f).1 h
  rcases heads_selection.1 head with ⟨rfl, rfl⟩ | ⟨rfl, rfl⟩ | ⟨rfl, rfl | rfl⟩
  · refine .one (.afterField true) (directives [_] hd) fun x hx => .field hs ?_
    exact hx.ne hd (by simp [avoids_sets hl]) (by simp)
  · cases hd with
    | token hd => exact ⟨[_, _], .aliasedField, _, rfl, directives [_, _] hd, fun x _ => .fieldAlias hs⟩
  · exact .one .afterSpread (.left (.seq hd)) fun x _ => .spread hs
  · exact .one .afterSpread (.right (.seq (.seq hd))) fun x _ => .spread hs

theorem predicted_sets (hs : s.mayCloseSet = true) (hl : 0 < level)
    (head : Heads (sets level) t g) (hd : Derives g us) : Predicted level s (t :: us) := by
  rw [sets_of_pos hl, heads_star, heads_token] at head
  rcases head with ⟨rfl, rfl⟩ | head
  · refine .one (.afterSet level) ?_ fun x _ => .closeSet hs
    rw [← form_afterSet] at hd
    exact hd
  · rw [← sets_of_pos hl] at head
    exact predicted_selection (by simp [State.maySelect, hs]) hl head hd

theorem predicted_openSet (hs : s.mayOpenSet = true)
    (hd : Derives ((rule .selection).plus :: token (.punct .closeBrace .setClose) :: sets level)
      us) : Predicted level s (.punct .openBrace .setOpen :: us) :=
  .one .selection hd fun _ _ => .openSet hs

theorem predicted_directive {site : Site} (hs : s.site? = some site)
    (hd : Derives ((rule .arguments).opt :: site.form level) us) :
    Predicted level s (.sigil .atSign .directiveName :: us) :=
  .one (.afterDirective site) hd fun _ _ => .directive hs

theorem predicted_definition {seen : Bool}
    (head : Heads (rule .definition :: sets 0) t g) (hd : Derives g us) :
    Predicted 0 (.definition seen) (t :: us) := by
  have directives (f : List Phrase) {g : List Phrase} {ts : List Terminal}
      (h : Derives (f ++ (rule .directives).opt :: g) ts) :
      Derives (f ++ (rule .directive).star :: g) ts := (derives_directives_behind f).1 h
  rcases heads_definition.1 head with ⟨rfl, rfl⟩ | ⟨ht, rfl⟩ | ⟨rfl, rfl⟩
  · refine .one (.selectionSet .operation) (.done hd) fun x hx => ?_
    obtain rfl : x = .openBrace := hx.of_derives hd not_derives_rule_nil fun t g head y hy => by
      simpa using leads_of_heads head y hy
    exact .shorthand
  · refine .one (.operationHead false) ?_ fun x _ => .operation ht
    rw [(Terminal.leaf_of_operation ht).level]
    exact directives [_, _] hd
  · exact .one .fragmentName (directives [_, _, _] hd) fun x _ => .fragment

theorem predicted_value {use : Use} {cs : List Container} {e : Expect}
    (head : Heads (rule .value :: (Container.forms cs ++ use.form level)) t g)
    (hd : Derives g us) : Predicted level (.value use cs e) (t :: us) := by
  rcases heads_value.1 head with ⟨ht, rfl⟩ | ⟨rfl, rfl⟩ | ⟨rfl, rfl⟩
  · refine .one (.afterValue use cs) ?_ fun x _ => .scalar ht
    rw [(Terminal.leaf_of_scalar ht).level]
    exact hd
  · exact .one (.afterValue use (.list :: cs)) hd fun x _ => .listOpen
  · exact .one (.objectField use (.object :: cs)) hd fun x _ => .objectOpen

theorem eq_definition_of_derives_nil (hp : s.Placed level) (h : Derives (s.form level) []) :
    s = .definition true := by
  have nested (hs : s.nested = true) : ¬Derives (sets level) [] := by
    simp [sets_of_pos (hp.depth.1 hs)]
  have site_form (site : Site) (hs : s.nested = site.nested) : ¬Derives (site.form level) [] := by
    rw [hs] at nested
    cases site with
    | spread => simpa [Site.form] using nested rfl
    | field => simpa [Site.form] using nested rfl
    | _ => simp [Site.form]
  have containers (cs : List Container) (use : Use) :
      ¬Derives (Container.forms cs ++ use.form level) [] := by
    cases cs with
    | nil => cases use <;> simp [Container.forms, Use.form, Site.form]
    | cons c cs => cases c <;> simp [Container.forms]
  have type_end (depth : Nat) : ¬Derives (typeEnds depth ++ variableRest level) [] := by
    cases depth <;> simp [typeEnds, variableRest, Site.form]
  cases s with
  | definition seen =>
    cases seen with
    | false => simp [State.form] at h
    | true => rfl
  | operationHead named => cases named <;> simp [State.form, Site.form] at h
  | selectionSet site => exact absurd h (site_form site rfl)
  | selectionOrEnd => exact absurd h (nested rfl)
  | afterField b =>
    cases b
    · exact absurd h (site_form .field rfl)
    · simp [State.form, site_form .field rfl] at h
  | afterSpread => simp [State.form, spreadEnd] at h
  | afterSpreadName => exact absurd h (site_form .spread rfl)
  | afterDirective site => simp [State.form, site_form site rfl] at h
  | argument owner first => cases first <;> simp [State.form, Use.form] at h
  | variableName first => cases first <;> simp [State.form] at h
  | afterVariableType depth nonNull => cases nonNull <;> simp [State.form, type_end] at h
  | afterVariable => simp [State.form, Site.form] at h
  | afterValue use cs => exact absurd h (containers cs use)
  | objectField use cs => exact absurd h (containers cs use)
  | _ => simp [State.form] at h

theorem State.Placed.site_cases {site : Site} (hp : s.Placed level) (hs : s.site? = some site) :
    (site.needsSet = true → s.mayOpenSet = true) ∧
      (site = .field → s.mayOpenSet = true ∧ s.mayCloseSet = true ∧ 0 < level) ∧
      (site = .spread → s.mayCloseSet = true ∧ 0 < level) ∧
      (site = .variableDefinition → s.mayEndVariable = true) := by
  have needs := hp.proper
  have depth := hp.depth.1
  unfold State.site? at hs
  split at hs <;> cases hs
  case h_2 =>
    cases site <;> simp [State.Proper, Site.needsSet] at needs <;>
      simp [State.mayOpenSet]
  all_goals simp [State.mayOpenSet, State.mayCloseSet, State.mayEndVariable, Site.needsSet]
  all_goals exact depth rfl

theorem predicted_site {site : Site} (hs : s.site? = some site) (hp : s.Placed level)
    (head : Heads (site.form level) t g) (hd : Derives g us) : Predicted level s (t :: us) := by
  obtain ⟨needs, field, spread, variable_end⟩ := hp.site_cases hs
  have directive_or {rest : List Phrase} (hf : site.form level = (rule .directive).star :: rest)
      (hr : Heads rest t g → Predicted level s (t :: us)) : Predicted level s (t :: us) := by
    rw [hf] at head
    rcases heads_star.1 head with head | head
    · exact hr head
    · obtain ⟨rfl, rfl⟩ := heads_directive.1 head
      rw [← hf] at hd
      exact predicted_directive hs hd
  have set_next (ho : s.mayOpenSet = true) (head : Heads (rule .selectionSet :: sets level) t g) :
      Predicted level s (t :: us) := by
    obtain ⟨rfl, rfl⟩ := heads_selectionSet.1 head
    exact predicted_openSet ho hd
  cases site with
  | operation => exact directive_or rfl (set_next (needs rfl))
  | fragmentDefinition => exact directive_or rfl (set_next (needs rfl))
  | inlineFragment => exact directive_or rfl (set_next (needs rfl))
  | spread =>
    obtain ⟨hc, hl⟩ := spread rfl
    exact directive_or rfl fun head => predicted_sets hc hl head hd
  | field =>
    obtain ⟨ho, hc, hl⟩ := field rfl
    refine directive_or rfl fun head => ?_
    rcases heads_opt.1 head with head | head
    · exact predicted_sets hc hl head hd
    · exact set_next ho head
  | variableDefinition =>
    refine directive_or rfl fun head => ?_
    refine .none (.variableName false) (head.derives hd) fun x hx =>
      .variableEnd (variable_end rfl) ?_
    rcases heads_star.1 head with head | head
    · obtain ⟨rfl, -⟩ := heads_token.1 head
      exact .inr (List.mem_singleton.1 hx)
    · obtain ⟨rfl, -⟩ := heads_variableDefinition.1 head
      exact .inl (List.mem_singleton.1 hx)

theorem avoids_site {site : Site} (hl : site.nested = true → 0 < level) :
    Avoids .openParen (site.form level) := by
  have sets (h : site.nested = true) : Avoids .openParen (sets level) :=
    avoids_sets (hl h) (by simp)
  cases site with
  | spread => simp [Site.form, sets rfl]
  | field => simp [Site.form, sets rfl]
  | _ => simp [Site.form, Shape.leads, Punct.lead]

theorem predicted_spread (h : Derives (State.afterSpread.form level) us) :
    Predicted level .afterSpread us := by
  have directives {f : List Phrase} {ts : List Terminal}
      (h : Derives ((rule .directives).opt :: f) ts) :
      Derives ((rule .directive).star :: f) ts := derives_directives.1 h
  cases h with
  | left h =>
    cases h with
    | seq h =>
      cases h with
      | token h => exact .one .afterSpreadName (directives h) fun x _ => .spreadName
  | right h =>
    cases h with
    | seq h =>
      cases h with
      | seq h =>
        cases h with
        | left h =>
          cases h with
          | seq h =>
            cases h with
            | token h =>
              cases h with
              | token h =>
                exact ⟨[_, _], .selectionSet .inlineFragment, _, rfl, directives h,
                  fun x _ => .typedInline⟩
        | right h =>
          cases h with
          | token h =>
            refine .one (.selectionSet .inlineFragment) (directives h) fun x hx =>
              .untypedInline ?_
            refine hx.of_derives (p := fun x => x = .openBrace ∨ x = .atSign) h (by simp)
              fun t g head y hy => ?_
            rcases heads_opt.1 head with head | head
            · exact .inl (by simpa using leads_of_heads head y hy)
            · exact .inr (by simpa using leads_of_heads head y hy)

theorem predicted_containers {use : Use} {cs : List Container}
    (h : Derives (Container.forms cs ++ use.form level) us) :
    Predicted level (.afterValue use cs) us := by
  match cs with
  | [] =>
    refine .none use.resume ?_ fun x _ => .valueEnd
    rw [form_resume_use]
    exact h
  | .object :: cs => exact .none (.objectField use (.object :: cs)) h fun x _ => .nextField
  | .list :: cs =>
    cases h with
    | done h =>
      cases h with
      | token h => exact .one (.afterValue use cs) h fun x _ => .listClose
    | more h =>
      refine .none (.value use (.list :: cs) .afterListValue) h fun x hx => .nextValue ?_
      exact hx.ne h (by simp) (by simp)

/-- Every derivation at a place goes on along an edge, unless the document may end there. -/
theorem predicted (hp : s.Placed level) {ts : List Terminal} (h : Derives (s.form level) ts) :
    (s = .definition true ∧ ts = []) ∨ Predicted level s ts := by
  cases ts with
  | nil => exact .inl ⟨eq_definition_of_derives_nil hp h, rfl⟩
  | cons t us =>
    refine .inr ?_
    obtain ⟨g, head, hd⟩ := h.heads
    cases s with
    | definition seen =>
      have hl : level = 0 := Nat.eq_zero_of_not_pos fun h => Bool.false_ne_true (hp.depth.2 h)
      subst hl
      cases seen with
      | false => exact predicted_definition (heads_plus.1 head) hd
      | true =>
        rcases heads_star.1 head with head | head
        · exact absurd head heads_nil
        · exact predicted_definition head hd
    | operationHead named =>
      have definitions (head : Heads ((rule .variableDefinitions).opt :: Site.operation.form level) t g) :
          Predicted level (.operationHead named) (t :: us) := by
        rcases heads_opt.1 head with head | head
        · exact predicted_site rfl hp head hd
        · obtain ⟨rfl, rfl⟩ := heads_variableDefinitions.1 head
          exact .one (.variableName true) hd fun x _ => .openVariables
      cases named with
      | true => exact definitions head
      | false =>
        rcases heads_opt.1 head with head | head
        · exact definitions head
        · obtain ⟨rfl, rfl⟩ := heads_token.1 head
          exact .one (.operationHead true) hd fun x _ => .operationName
    | selectionSet site => exact predicted_site rfl hp head hd
    | fragmentName =>
      obtain ⟨rfl, rfl⟩ := heads_token.1 head
      exact .one .fragmentOn hd fun x _ => .fragmentName
    | fragmentOn =>
      obtain ⟨rfl, rfl⟩ := heads_token.1 head
      exact .one .fragmentType hd fun x _ => .fragmentOn
    | fragmentType =>
      obtain ⟨rfl, rfl⟩ := heads_token.1 head
      exact .one (.selectionSet .fragmentDefinition) hd fun x _ => .fragmentType
    | selection =>
      have hl : 0 < level := hp.depth.1 rfl
      refine predicted_selection rfl hl ?_ hd
      rw [sets_of_pos hl]
      exact heads_plus.1 head
    | selectionOrEnd => exact predicted_sets rfl (hp.depth.1 rfl) head hd
    | afterField b =>
      cases b with
      | false => exact predicted_site rfl hp head hd
      | true =>
        rcases heads_opt.1 head with head | head
        · exact predicted_site rfl hp head hd
        · obtain ⟨rfl, rfl⟩ := heads_arguments.1 head
          exact .one (.argument .field true) hd fun x _ => .fieldArguments
    | aliasedField =>
      obtain ⟨rfl, rfl⟩ := heads_token.1 head
      exact .one (.afterField true) hd fun x _ => .aliasedField
    | afterSpread => exact predicted_spread h
    | afterSpreadName => exact predicted_site rfl hp head hd
    | afterDirective site =>
      rcases heads_opt.1 head with head | head
      · refine .none site.resume ?_ fun x hx => .directiveEnd ?_
        · rw [form_resume_site]
          exact head.derives hd
        · exact hx.ne (head.derives hd) (avoids_site hp.depth.1) (by simp)
      · obtain ⟨rfl, rfl⟩ := heads_arguments.1 head
        exact .one (.argument (.directive site) true) hd fun x _ => .directiveArguments
    | argument owner first =>
      have name
          (head : Heads (rule .argument :: (Use.argument owner).form level) t g) :
          Predicted level (.argument owner first) (t :: us) := by
        obtain ⟨rfl, rfl⟩ := heads_argument.1 head
        exact .one (.argumentColon owner) hd fun x _ => .argumentName
      cases first with
      | true => exact name (heads_plus.1 head)
      | false =>
        rcases heads_star.1 head with head | head
        · obtain ⟨rfl, rfl⟩ := heads_token.1 head
          refine .one owner.resume ?_ fun x _ => .argumentsEnd
          rw [form_resume_owner]
          exact hd
        · exact name head
    | argumentColon owner =>
      obtain ⟨rfl, rfl⟩ := heads_token.1 head
      exact .one (.value (.argument owner) [] .value) hd fun x _ => .argumentColon
    | variableName first =>
      have name (head : Heads (rule .variableDefinition :: (State.variableName false).form level)
          t g) : Predicted level (.variableName first) (t :: us) := by
        obtain ⟨rfl, rfl⟩ := heads_variableDefinition.1 head
        exact .one .variableColon ((derives_directives_behind [_, _, _]).1 hd) fun x _ =>
          .variableName
      cases first with
      | true => exact name (heads_plus.1 head)
      | false =>
        rcases heads_star.1 head with head | head
        · obtain ⟨rfl, rfl⟩ := heads_token.1 head
          exact .one (.selectionSet .operation) hd fun x _ => .variablesEnd
        · exact name head
    | variableColon =>
      obtain ⟨rfl, rfl⟩ := heads_token.1 head
      exact .one (.variableType 0) hd fun x _ => .variableColon
    | variableType depth =>
      rcases heads_type.1 head with ⟨rfl, rfl⟩ | ⟨rfl, rfl⟩
      · exact .one (.afterVariableType depth false) hd fun x _ => .namedType
      · exact .one (.variableType (depth + 1)) hd fun x _ => .listType
    | afterVariableType depth nonNull =>
      have type_end (head : Heads (typeEnds depth ++ variableRest level) t g) :
          Predicted level (.afterVariableType depth nonNull) (t :: us) := by
        cases depth with
        | zero =>
          rcases heads_opt.1 head with head | head
          · exact predicted_site rfl hp head hd
          · obtain ⟨rfl, rfl⟩ := heads_token.1 (heads_seq.1 head)
            exact .one (.value .variableDefault [] .defaultValue) hd fun x _ => .defaultValue
        | succ depth =>
          obtain ⟨rfl, rfl⟩ := heads_token.1 head
          exact .one (.afterVariableType depth false) hd fun x _ => .listTypeEnd
      cases nonNull with
      | true => exact type_end head
      | false =>
        rcases heads_opt.1 head with head | head
        · exact type_end head
        · obtain ⟨rfl, rfl⟩ := heads_token.1 head
          exact .one (.afterVariableType depth true) hd fun x _ => .nonNull
    | afterVariable => exact predicted_site rfl hp head hd
    | value use cs e => exact predicted_value head hd
    | afterValue use cs => exact predicted_containers h
    | objectField use cs =>
      obtain ⟨outer, rfl⟩ := hp.proper
      rcases heads_star.1 head with head | head
      · obtain ⟨rfl, rfl⟩ := heads_token.1 head
        exact .one (.afterValue use outer) hd fun x _ => .objectClose
      · obtain ⟨rfl, rfl⟩ := heads_objectField.1 head
        exact .one (.objectColon use (.object :: outer)) hd fun x _ => .objectField
    | objectColon use cs =>
      obtain ⟨rfl, rfl⟩ := heads_token.1 head
      exact .one (.value use cs .value) hd fun x _ => .objectColon

end

end QueryDoc
