import QueryDoc.Proofs.Upcoming

/-! A place of the grammar tells which brackets are open, innermost first, and every edge opens one,
closes the innermost one, or leaves them as they are. -/
namespace QueryDoc

namespace Kind

/-- The opener that a closer ends. -/
def opener? : Kind → Option Kind
  | setClose => some setOpen
  | argumentsClose => some argumentsOpen
  | variablesClose => some variablesOpen
  | listClose => some listOpen
  | objectClose => some objectOpen
  | listTypeClose => some listTypeOpen
  | _ => none

def isOpener : Kind → Bool
  | setOpen | argumentsOpen | variablesOpen | listOpen | objectOpen | listTypeOpen => true
  | _ => false

/-- The openers that are open behind a token of this kind, innermost first. -/
def nest (opened : List Kind) (k : Kind) : List Kind :=
  if k.isOpener then k :: opened
  else if k.opener?.isSome then opened.tail
  else opened

/-- A closer ends the innermost opener that is open, which is its own. -/
def Closes (opened : List Kind) (k : Kind) : Prop :=
  ∀ o, k.opener? = some o → ∃ outer, opened = o :: outer

/-- The kinds that stand outside of all selection sets. -/
def isOutside : Kind → Bool
  | query | mutation | subscription | fragment | operationName | fragmentName | typeCondition
  | variablesOpen | variablesClose | variableName | typeName | listTypeOpen | listTypeClose
  | nonNull => true
  | _ => false

/-- The kinds that stand inside a selection set only. -/
def isInside : Kind → Bool
  | field | fieldAlias | spreadName | inlineFragment => true
  | _ => false

/-- The openers that were open can be read on with these kinds, and the last ones are open then. -/
def Nests : List Kind → List Kind → List Kind → Prop
  | opened, [], behind => opened = behind
  | opened, k :: ks, behind => k.Closes opened ∧ Nests (nest opened k) ks behind

theorem Nests.other {a b : List Kind} {k : Kind} (hk : k.opener? = none) (hb : nest a k = b) :
    Nests a [k] b := by
  refine ⟨?_, hb⟩
  intro o ho
  rw [hk] at ho
  cases ho

theorem Nests.closer {b outer : List Kind} {k o : Kind} (hk : k.opener? = some o)
    (hb : nest (o :: outer) k = b) : Nests (o :: outer) [k] b := by
  refine ⟨?_, hb⟩
  intro o' ho
  rw [hk] at ho
  cases ho
  exact ⟨outer, rfl⟩

theorem Nests.append {a b c ks ls : List Kind} (h : Nests a ks b) (g : Nests b ls c) :
    Nests a (ks ++ ls) c := by
  induction ks generalizing a with
  | nil =>
    cases h
    exact g
  | cons k ks ih => exact ⟨h.1, ih h.2⟩

theorem Nests.eq_foldl {a b ks : List Kind} (h : Nests a ks b) : b = ks.foldl nest a := by
  induction ks generalizing a with
  | nil => exact h.symm
  | cons k ks ih => exact ih h.2

theorem Closes.count_nest {a : List Kind} {k : Kind} (h : k.Closes a) :
    (nest a k).count setOpen + [k].count setClose = a.count setOpen + [k].count setOpen := by
  cases k with
  | setClose =>
    obtain ⟨outer, rfl⟩ := h setOpen rfl
    simp [nest, isOpener, opener?]
  | argumentsClose =>
    obtain ⟨outer, rfl⟩ := h argumentsOpen rfl
    simp [nest, isOpener, opener?]
  | variablesClose =>
    obtain ⟨outer, rfl⟩ := h variablesOpen rfl
    simp [nest, isOpener, opener?]
  | listClose =>
    obtain ⟨outer, rfl⟩ := h listOpen rfl
    simp [nest, isOpener, opener?]
  | objectClose =>
    obtain ⟨outer, rfl⟩ := h objectOpen rfl
    simp [nest, isOpener, opener?]
  | listTypeClose =>
    obtain ⟨outer, rfl⟩ := h listTypeOpen rfl
    simp [nest, isOpener, opener?]
  | _ => simp [nest, isOpener, opener?]

theorem Nests.count_setOpen {a b ks : List Kind} (h : Nests a ks b) :
    b.count setOpen + ks.count setClose = a.count setOpen + ks.count setOpen := by
  induction ks generalizing a with
  | nil =>
    cases h
    rfl
  | cons k ks ih =>
    have first := h.1.count_nest
    have rest := ih h.2
    rw [← List.singleton_append, List.count_append, List.count_append]
    omega

end Kind

/-! The openers that are open at a place of the grammar, innermost first. -/

def Site.opened (level : Nat) : Site → List Kind
  | variableDefinition => .variablesOpen :: List.replicate level .setOpen
  | _ => List.replicate level .setOpen

def Owner.opened (level : Nat) : Owner → List Kind
  | field => List.replicate level .setOpen
  | directive site => site.opened level

def Use.opened (level : Nat) : Use → List Kind
  | argument owner => .argumentsOpen :: owner.opened level
  | variableDefault => Site.variableDefinition.opened level

def Container.opener : Container → Kind
  | list => .listOpen
  | object => .objectOpen

namespace State

def opened (level : Nat) : State → List Kind
  | selectionSet site => site.opened level
  | afterDirective site => site.opened level
  | argument owner _ => (Use.argument owner).opened level
  | argumentColon owner => (Use.argument owner).opened level
  | variableName _ => Site.variableDefinition.opened level
  | variableColon => Site.variableDefinition.opened level
  | variableType depth =>
    List.replicate depth .listTypeOpen ++ Site.variableDefinition.opened level
  | afterVariableType depth _ =>
    List.replicate depth .listTypeOpen ++ Site.variableDefinition.opened level
  | afterVariable => Site.variableDefinition.opened level
  | value use cs _ => cs.map Container.opener ++ use.opened level
  | afterValue use cs => cs.map Container.opener ++ use.opened level
  | objectField use cs => cs.map Container.opener ++ use.opened level
  | objectColon use cs => cs.map Container.opener ++ use.opened level
  | _ => List.replicate level .setOpen

variable {level : Nat} {s : State}

theorem opened_resume_site (site : Site) : site.resume.opened level = site.opened level := by
  cases site <;> rfl

theorem opened_resume_owner (owner : Owner) : owner.resume.opened level = owner.opened level := by
  cases owner with
  | field => rfl
  | directive site => exact opened_resume_site site

theorem opened_resume_use (use : Use) : use.resume.opened level = use.opened level := by
  cases use <;> rfl

theorem opened_afterSet (level : Nat) :
    (afterSet level).opened (level - 1) = List.replicate (level - 1) .setOpen := by
  unfold afterSet
  split <;> rfl

theorem opened_of_site? {site : Site} (h : s.site? = some site) :
    s.opened level = site.opened level := by
  unfold site? at h
  split at h <;> cases h <;> rfl

theorem opened_of_maySelect (h : s.maySelect = true) :
    s.opened level = List.replicate level .setOpen := by
  unfold maySelect mayCloseSet at h
  cases s <;> simp at h <;> rfl

theorem opened_of_mayOpenSet (h : s.mayOpenSet = true) (hp : s.Placed level) :
    s.opened level = List.replicate level .setOpen := by
  have needs := hp.proper
  unfold mayOpenSet at h
  cases s <;> simp at h
  case operationHead => rfl
  case selectionSet site => cases site <;> first | rfl | cases needs
  case afterField => rfl

theorem opened_of_mayEndVariable (h : s.mayEndVariable = true) :
    s.opened level = Site.variableDefinition.opened level := by
  unfold mayEndVariable at h
  split at h
  all_goals first | rfl | cases h

theorem count_opened (level : Nat) (s : State) : (s.opened level).count .setOpen = level := by
  have site (site : Site) : (site.opened level).count .setOpen = level := by
    cases site <;> simp [Site.opened]
  have owner (owner : Owner) : (owner.opened level).count .setOpen = level := by
    cases owner <;> simp [Owner.opened, site]
  have use (use : Use) : (use.opened level).count .setOpen = level := by
    cases use <;> simp [Use.opened, owner, site]
  have containers (cs : List Container) : (cs.map Container.opener).count .setOpen = 0 := by
    refine List.count_eq_zero.2 fun h => ?_
    obtain ⟨c, -, hc⟩ := List.mem_map.1 h
    cases c <;> cases hc
  cases s <;> simp [opened, site, use, containers, List.count_replicate]

end State

open Kind State in
/-- An edge opens a bracket, ends the innermost one, or leaves all as they are. -/
theorem Edge.nests {level : Nat} {s s' : State} {label : List Terminal} {x : Lead}
    (h : Edge level s label x s') (hp : s.Placed level) :
    Nests (s.opened level) (Terminal.kinds label) (s'.opened (Terminal.levels label level)) := by
  cases h with
  | operation keyword =>
    simp only [Terminal.operations, List.mem_cons, List.not_mem_nil, or_false] at keyword
    rcases keyword with rfl | rfl | rfl <;> exact .other rfl rfl
  | openSet may =>
    rw [opened_of_mayOpenSet may hp]
    exact .other rfl rfl
  | closeSet may =>
    have hl : 0 < level := hp.depth.1 (nested_of_mayCloseSet may)
    have outer : List.replicate level setOpen = setOpen :: List.replicate (level - 1) setOpen := by
      rw [← List.replicate_succ, Nat.sub_add_cancel hl]
    rw [opened_of_maySelect (maySelect_of_mayCloseSet may), outer]
    exact .closer rfl (opened_afterSet level).symm
  | fieldAlias may =>
    rw [opened_of_maySelect may]
    exact .other rfl rfl
  | field may _ =>
    rw [opened_of_maySelect may]
    exact .other rfl rfl
  | spread may => exact opened_of_maySelect may
  | directive at_ =>
    rw [opened_of_site? at_]
    exact .other rfl rfl
  | directiveEnd _ => exact (opened_resume_site _).symm
  | argumentsEnd =>
    exact .closer rfl (opened_resume_owner _).symm
  | variablesEnd => exact .closer rfl rfl
  | listTypeEnd => exact .closer rfl rfl
  | variableEnd may _ => exact opened_of_mayEndVariable may
  | scalar member =>
    simp only [Terminal.scalars, List.mem_cons, List.not_mem_nil, or_false] at member
    rcases member with rfl | rfl | rfl | rfl | rfl | rfl | rfl | rfl | rfl <;>
      exact .other rfl rfl
  | valueEnd => exact (opened_resume_use _).symm
  | listClose => exact .closer rfl rfl
  | objectClose =>
    obtain ⟨outer, rfl⟩ := hp.proper
    exact .closer rfl rfl
  | _ => first | exact rfl | exact .other rfl rfl

/-- A token of a definition leads to a place outside of all selection sets, a token of a selection
to one inside. -/
theorem Edge.nested_of_kind {level : Nat} {s s' : State} {label : List Terminal} {x : Lead}
    (h : Edge level s label x s') {k : Kind} (hk : Terminal.kinds label = [k]) :
    (k.isOutside = true → s'.nested = false) ∧ (k.isInside = true → s'.nested = true) := by
  cases h with
  | operation keyword =>
    simp only [Terminal.operations, List.mem_cons, List.not_mem_nil, or_false] at keyword
    rcases keyword with rfl | rfl | rfl <;> cases hk <;> constructor <;> intro hn <;>
      first | rfl | cases hn
  | scalar member =>
    simp only [Terminal.scalars, List.mem_cons, List.not_mem_nil, or_false] at member
    rcases member with rfl | rfl | rfl | rfl | rfl | rfl | rfl | rfl | rfl <;> cases hk <;>
      constructor <;> intro hn <;> cases hn
  | _ => cases hk <;> constructor <;> intro hn <;> first | rfl | cases hn

namespace Config

variable {c d : Config} {us : List Token}

/-- The openers that are open in a configuration, innermost first. -/
def opened (c : Config) : List Kind := c.state.opened c.level

theorem Goes.level_eq {t : Token} (h : c.Goes [t] d) : t.level = d.level := by
  obtain ⟨x, next, -, rfl, rfl⟩ := h.delivers
  rfl

theorem Goes.nests (h : c.Goes us d) (hp : c.Placed) :
    Kind.Nests c.opened (us.map Token.kind) d.opened := by
  obtain ⟨label, edge, reads⟩ := h.edge
  have level : d.level = Terminal.levels label c.level := reads.level_eq
  rw [reads.kinds_eq, opened, opened, level]
  exact edge.nests hp

theorem Path.nests (h : c.Path us d) (hp : c.Placed) :
    Kind.Nests c.opened (us.map Token.kind) d.opened := by
  induction h with
  | refl c => exact rfl
  | step first _ ih =>
    rw [List.map_append]
    exact (first.nests hp).append (ih (first.placed hp))

theorem Goes.last_of_definition (h : c.Goes us d) (hp : c.Placed)
    (hd : d.state = .definition true) : ∃ t, us = [t] ∧ t.kind = .setClose ∧ t.level = 0 := by
  obtain ⟨label, edge, reads⟩ := h.edge
  rw [hd] at edge
  obtain ⟨-, rfl, -⟩ := edge.to_definition
  have kinds : us.map Token.kind = [.setClose] := reads.kinds_eq
  obtain ⟨t, rest, rfl, kind, nothing⟩ := List.map_eq_cons_iff.1 kinds
  obtain rfl := List.map_eq_nil_iff.1 nothing
  exact ⟨t, rfl, kind, h.level_eq.trans ((h.placed hp).level_eq_zero hd)⟩

theorem Path.last_of_definition (h : c.Path us d) (hp : c.Placed)
    (hd : d.state = .definition true) :
    us = [] ∧ c.state = .definition true ∨
      ∃ before t, us = before ++ [t] ∧ t.kind = .setClose ∧ t.level = 0 := by
  induction h with
  | refl c => exact .inl ⟨rfl, hd⟩
  | @step c m d us vs first rest ih =>
    rcases ih (first.placed hp) hd with ⟨rfl, hm⟩ | ⟨before, t, rfl, kind, level⟩
    · obtain ⟨t, rfl, kind, level⟩ := first.last_of_definition hp hm
      exact .inr ⟨[], t, rfl, kind, level⟩
    · exact .inr ⟨us ++ before, t, by rw [List.append_assoc], kind, level⟩

end Config

/-- The openers that are open behind the tokens, innermost first. -/
def Token.opened (ts : List Token) : List Kind := (ts.map Token.kind).foldl Kind.nest []

/-- What the tokens in front of a token allow it to be: a closer ends its own opener, which is the
innermost one open, and the level counts the selection sets that are open, this token included. -/
structure Token.Nested (before : List Token) (t : Token) : Prop where
  closes : t.kind.Closes (opened before)
  level : t.level + (before ++ [t]).countP (·.kind = .setClose) =
    (before ++ [t]).countP (·.kind = .setOpen)
  outside : t.kind.isOutside = true → t.level = 0
  inside : t.kind.isInside = true → 1 ≤ t.level

namespace Config

theorem Path.opened_eq {doc : List UInt8} {us : List Token} {c : Config}
    (h : (start doc).Path us c) : c.opened = Token.opened us :=
  (h.nests (placed_start doc)).eq_foldl

theorem Path.level_add {doc : List UInt8} {us : List Token} {c : Config}
    (h : (start doc).Path us c) :
    c.level + us.countP (·.kind = .setClose) = us.countP (·.kind = .setOpen) := by
  have count := (h.nests (placed_start doc)).count_setOpen
  have level : c.opened.count .setOpen = c.level := State.count_opened c.level c.state
  have none : (start doc).opened.count .setOpen = 0 := State.count_opened 0 _
  have counted (k : Kind) : (us.map Token.kind).count k = us.countP (·.kind = k) := by
    rw [List.count, List.countP_map]
    rfl
  rwa [level, none, counted, counted, Nat.zero_add] at count

/-- Every token of a scan is nested behind those before it. -/
theorem Path.nested {doc : List UInt8} {us : List Token} {t : Token} {c d : Config}
    (h : (start doc).Path us c) (goes : c.Goes [t] d) : t.Nested us := by
  have placed := h.placed (placed_start doc)
  have depth := (goes.placed placed).depth
  have path : (start doc).Path (us ++ [t]) d := h.trans (.step goes (.refl d))
  obtain ⟨label, edge, reads⟩ := goes.edge
  have kinds : Terminal.kinds label = [t.kind] := reads.kinds_eq.symm
  obtain ⟨outside, inside⟩ := edge.nested_of_kind kinds
  refine ⟨?_, ?_, fun hk => ?_, fun hk => ?_⟩
  · rw [← h.opened_eq]
    exact (goes.nests placed).1
  · rw [goes.level_eq]
    exact path.level_add
  · rw [goes.level_eq]
    refine Nat.eq_zero_of_not_pos fun pos => ?_
    have := depth.2 pos
    rw [outside hk] at this
    cases this
  · rw [goes.level_eq]
    exact depth.1 (inside hk)

end Config

/-- Nesting is balanced at every token of every scan. A scan that succeeds leaves no bracket open,
and its last token is the end of an outermost selection set. -/
theorem Scanner.scan_nested (s : Scanner) (doc : List UInt8) :
    (∀ before t after, (s.scan doc).state.toList = before ++ t :: after → t.Nested before) ∧
      ((s.scan doc).outcome = .ok → Token.opened (s.scan doc).state.toList = [] ∧
        ∃ before t, (s.scan doc).state.toList = before ++ [t] ∧ t.kind = .setClose ∧
          t.level = 0) := by
  have trace := (s.scan_iff_trace doc _ _).1 ⟨rfl, rfl⟩
  constructor
  · intro before t after tokens
    rw [tokens] at trace
    obtain ⟨c, d, path, goes, -⟩ := trace.split
    exact path.nested goes
  · intro ok
    rw [(s.outcome_eq_ok_iff doc).1 ok] at trace
    obtain ⟨d, path, ends⟩ := trace
    have placed := path.placed (Config.placed_start doc)
    obtain ⟨state, -⟩ := Config.ends_complete_iff.1 ends
    have outermost := placed.level_eq_zero state
    refine ⟨?_, ?_⟩
    · rw [← path.opened_eq, Config.opened, state, outermost]
      rfl
    · rcases path.last_of_definition (Config.placed_start doc) state with ⟨-, start⟩ | last
      · cases start
      · exact last

/-- In `{f(a:[{b:1}])}` the first closer is the brace of the object, in front of which a selection
set, an argument list, a list and the object are open; at the end nothing is. -/
theorem Scanner.scan_nested_object :
    let doc : List UInt8 :=
      [0x7B, 0x66, 0x28, 0x61, 0x3A, 0x5B, 0x7B, 0x62, 0x3A, 0x31, 0x7D, 0x5D, 0x29, 0x7D]
    let before := (standard.scan doc).state.toList.take 9
    (standard.scan doc).outcome = .ok ∧
      Token.opened before = [.objectOpen, .listOpen, .argumentsOpen, .setOpen] ∧
      Token.Nested before ⟨.objectClose, 10, 10, 1⟩ ∧
      Token.opened (standard.scan doc).state.toList = [] := by
  intro doc before
  have ok : (standard.scan doc).outcome = .ok := by decide +kernel
  have split : (standard.scan doc).state.toList =
      before ++ ⟨.objectClose, 10, 10, 1⟩ :: (standard.scan doc).state.toList.drop 10 := by
    decide +kernel
  exact ⟨ok, by decide +kernel, (scan_nested standard doc).1 _ _ _ split,
    ((scan_nested standard doc).2 ok).1⟩

end QueryDoc
