import QueryDoc.Proofs.Delivery
import QueryDoc.Proofs.Progress
import QueryDoc.Proofs.Truncation

/-! The registers of a scan are views of the brackets that the delivered tokens have left open, so
none is taken below what it holds. -/
namespace QueryDoc

/-- The container that an opener opens. -/
def Kind.container? : Kind → Option Container
  | listOpen => some .list
  | objectOpen => some .object
  | _ => none

namespace State

/-- The number of list types that are open at this place. -/
def typeDepth : State → Nat
  | variableType depth => depth
  | afterVariableType depth _ => depth
  | _ => 0

/-- Innermost there are lists and objects, then list types, then the argument or variable lists
around them, and outermost the selection sets. -/
theorem opened_eq (level : Nat) (s : State) :
    ∃ around : List Kind, (∀ k ∈ around, k = .argumentsOpen ∨ k = .variablesOpen) ∧
      s.opened level = s.containers.map Container.opener ++
        (List.replicate s.typeDepth .listTypeOpen ++
          (around ++ List.replicate level .setOpen)) := by
  have site (site : Site) : ∃ around : List Kind,
      (∀ k ∈ around, k = .argumentsOpen ∨ k = .variablesOpen) ∧
        site.opened level = around ++ List.replicate level .setOpen := by
    cases site with
    | variableDefinition => exact ⟨[.variablesOpen], by simp, rfl⟩
    | _ => exact ⟨[], by simp, rfl⟩
  have owner (owner : Owner) : ∃ around : List Kind,
      (∀ k ∈ around, k = .argumentsOpen ∨ k = .variablesOpen) ∧
        owner.opened level = around ++ List.replicate level .setOpen := by
    cases owner with
    | field => exact ⟨[], by simp, rfl⟩
    | directive place => exact site place
  have use (use : Use) : ∃ around : List Kind,
      (∀ k ∈ around, k = .argumentsOpen ∨ k = .variablesOpen) ∧
        use.opened level = around ++ List.replicate level .setOpen := by
    cases use with
    | argument list =>
      obtain ⟨around, lists, eq⟩ := owner list
      exact ⟨.argumentsOpen :: around, by simpa using lists, congrArg _ eq⟩
    | variableDefault => exact site .variableDefinition
  cases s with
  | selectionSet place => exact site place
  | afterDirective place => exact site place
  | argument list => exact use (.argument list)
  | argumentColon list => exact use (.argument list)
  | variableName | variableColon | afterVariable => exact site .variableDefinition
  | variableType depth | afterVariableType depth =>
    obtain ⟨around, lists, eq⟩ := site .variableDefinition
    exact ⟨around, lists, congrArg (List.replicate depth _ ++ ·) eq⟩
  | value whole cs | afterValue whole cs | objectField whole cs | objectColon whole cs =>
    obtain ⟨around, lists, eq⟩ := use whole
    exact ⟨around, lists, congrArg (cs.map Container.opener ++ ·) eq⟩
  | _ => exact ⟨[], by simp, rfl⟩

theorem filterMap_opened (level : Nat) (s : State) :
    (s.opened level).filterMap Kind.container? = s.containers := by
  obtain ⟨around, lists, eq⟩ := s.opened_eq level
  have none : around.filterMap Kind.container? = [] := by
    refine List.filterMap_eq_nil_iff.2 fun k hk => ?_
    rcases lists k hk with rfl | rfl <;> rfl
  have opener : Kind.container? ∘ Container.opener = some := by
    funext c
    cases c <;> rfl
  simp [eq, none, opener, List.filterMap_map, List.filterMap_replicate, Kind.container?]

theorem count_listType_opened (level : Nat) (s : State) :
    (s.opened level).count .listTypeOpen = s.typeDepth := by
  obtain ⟨around, lists, eq⟩ := s.opened_eq level
  have none : around.count .listTypeOpen = 0 := by
    refine List.count_eq_zero.2 fun member => ?_
    rcases lists _ member with h | h <;> cases h
  have values (cs : List Container) : (cs.map Container.opener).count .listTypeOpen = 0 := by
    refine List.count_eq_zero.2 fun member => ?_
    obtain ⟨c, -, hc⟩ := List.mem_map.1 member
    cases c <;> cases hc
  simp [eq, none, values, List.count_replicate]

end State

theorem Edge.top_of_value {level : Nat} {s : State} {label : List Terminal} {x : Lead} {use : Use}
    {cs : List Container} (h : Edge level s label x (.value use cs .afterListValue)) :
    ∃ outer, cs = .list :: outer := by
  have site (site : Site) : site.resume ≠ .value use cs .afterListValue := by cases site <;> nofun
  generalize hs : State.value use cs .afterListValue = s' at h
  cases h with
  | nextValue =>
    cases hs
    exact ⟨_, rfl⟩
  | closeSet =>
    unfold State.afterSet at hs
    split at hs <;> cases hs
  | @directiveEnd place => exact absurd hs.symm (site place)
  | @argumentsEnd owner =>
    cases owner with
    | field => cases hs
    | directive place => exact absurd hs.symm (site place)
  | @valueEnd whole => cases whole <;> cases hs
  | _ => cases hs

namespace Config

variable {doc : List UInt8} {before us : List Token} {c d : Config} {t : Token}

/-- The registers hold what the tokens have left open: lists and objects only at the places of a
value, list types only at those of a type, selection sets only inside of one. -/
structure Agrees (before : List Token) (c : Config) : Prop where
  containers : c.state.containers = (Token.opened before).filterMap Kind.container?
  typeDepth : c.state.typeDepth = (Token.opened before).count .listTypeOpen
  level : c.level = (Token.opened before).count .setOpen
  /-- Selection sets are open exactly at the places inside of one. -/
  nested : c.state.nested = true ↔ 0 < c.level
  /-- A selection set that has to come belongs to an operation, a fragment or an inline fragment. -/
  needsSet : ∀ site, c.state = .selectionSet site → site.needsSet = true
  /-- Among the fields of an object that object is the innermost container. -/
  object : ∀ use cs, c.state = .objectField use cs ∨ c.state = .objectColon use cs →
    ∃ outer, cs = .object :: outer
  /-- Behind a value of a list that list is the innermost container. -/
  list : ∀ use cs, c.state = .value use cs .afterListValue → ∃ outer, cs = .list :: outer
  finished : c.step = .finished → c.level = 0

/-- A closer takes from its register what the register holds. -/
structure Pops (c : Config) : Prop where
  set : ∀ t d, c.step = .token t d → t.kind = .setClose → c.level = d.level + 1
  listType : ∀ t d, c.step = .token t d → t.kind = .listTypeClose →
    c.state.typeDepth = d.state.typeDepth + 1
  list : ∀ t d, c.step = .token t d → t.kind = .listClose →
    c.state.containers = .list :: d.state.containers
  object : ∀ t d, c.step = .token t d → t.kind = .objectClose →
    c.state.containers = .object :: d.state.containers

/-- All places that a step looks at, reports or goes on from lie within the document. -/
structure Within (doc : List UInt8) (c : Config) : Prop where
  pos : c.pos ≤ doc.length
  rest : doc.drop c.pos = c.rest
  /-- The byte that decides, and the word that begins there. -/
  front : c.pos + Gap.length c.rest + Word.length c.front ≤ doc.length
  silent : ∀ d, c.step = .silent d → c.pos ≤ d.pos ∧ d.pos ≤ doc.length
  token : ∀ t d, c.step = .token t d →
    c.pos ≤ t.tail ∧ t.tail ≤ t.head ∧ t.head ≤ d.pos ∧ d.pos ≤ doc.length
  failed : ∀ e, c.step = .failed e → c.pos ≤ e.index ∧ e.index ≤ doc.length
  /-- A sink that asks for the end is told a place of the document as well. -/
  stopped : ∀ t d code, c.step = .token t d →
    d.pos ≤ (d.stop t.kind code).index ∧ (d.stop t.kind code).index ≤ doc.length

theorem Goes.top_of_value (h : c.Goes us d) {use : Use} {cs : List Container}
    (state : d.state = .value use cs .afterListValue) : ∃ outer, cs = .list :: outer := by
  obtain ⟨label, edge, -⟩ := h.edge
  rw [state] at edge
  exact edge.top_of_value

theorem Path.top_of_value (h : c.Path us d)
    (first : ∀ use cs, c.state = .value use cs .afterListValue → ∃ outer, cs = .list :: outer) :
    ∀ use cs, d.state = .value use cs .afterListValue → ∃ outer, cs = .list :: outer := by
  induction h with
  | refl => exact first
  | step goes _ ih => exact ih fun _ _ state => goes.top_of_value state

theorem Path.agrees (h : (start doc).Path before c) : c.Agrees before := by
  have placed := h.placed (placed_start doc)
  have proper := placed.proper
  refine ⟨?_, ?_, ?_, placed.depth, ?_, ?_, h.top_of_value nofun, ?_⟩
  · rw [← h.opened_eq, opened, State.filterMap_opened]
  · rw [← h.opened_eq, opened, State.count_listType_opened]
  · rw [← h.opened_eq, opened, State.count_opened]
  · intro site state
    rwa [state] at proper
  · rintro use cs (state | state) <;> rwa [state] at proper
  · intro finished
    exact placed.level_eq_zero (ends_complete_iff.1 (.finished finished)).1

theorem Goes.opened_of_closer {o : Kind} (h : c.Goes [t] d) (hp : c.Placed)
    (closer : t.kind.opener? = some o) : c.opened = o :: d.opened := by
  obtain ⟨closes, nest⟩ := h.nests hp
  obtain ⟨outer, opened⟩ := closes o closer
  have plain : t.kind.isOpener = false := by
    cases kind : t.kind <;> rw [kind] at closer <;> first | rfl | cases closer
  have behind : Kind.nest c.opened t.kind = d.opened := nest
  rw [Kind.nest, plain, closer, opened] at behind
  rw [opened, ← behind]
  rfl

theorem Placed.pops (hp : c.Placed) : c.Pops := by
  have opened {o : Kind} {t : Token} {d : Config} (step : c.step = .token t d)
      (closer : t.kind.opener? = some o) :
      c.state.opened c.level = o :: d.state.opened d.level :=
    Goes.opened_of_closer (.token step) hp closer
  have containers {o : Kind} {x : Container} {t : Token} {d : Config} (step : c.step = .token t d)
      (closer : t.kind.opener? = some o) (hx : o.container? = some x) :
      c.state.containers = x :: d.state.containers := by
    rw [← State.filterMap_opened c.level, opened step closer, List.filterMap_cons_some hx,
      State.filterMap_opened]
  refine ⟨?_, ?_, ?_, ?_⟩
  · intro t d step kind
    rw [← State.count_opened c.level c.state, opened step (congrArg Kind.opener? kind),
      List.count_cons_self, State.count_opened]
  · intro t d step kind
    rw [← State.count_listType_opened c.level, opened step (congrArg Kind.opener? kind),
      List.count_cons_self, State.count_listType_opened]
  · intro t d step kind
    exact containers step (congrArg Kind.opener? kind) rfl
  · intro t d step kind
    exact containers step (congrArg Kind.opener? kind) rfl

theorem Goes.span_le (h : c.Goes [t] d) : c.pos ≤ t.tail ∧ t.tail ≤ t.head := by
  obtain ⟨x, next, ⟨tail, -⟩, rfl, rfl⟩ := h.delivers
  simp only [Config.token, Lexeme.shift]
  omega

theorem Path.within (h : (start doc).Path before c) : c.Within doc := by
  obtain ⟨u, whole, pos⟩ := h.rest_eq
  have whole : doc = u ++ c.rest := whole
  have pos : c.pos = u.length := pos.trans (Nat.zero_add _)
  have extent : doc.length = c.pos + c.rest.length := by
    rw [whole, List.length_append, pos]
  have behind {us : List Token} {d : Config} (goes : c.Goes us d) :
      d.pos + d.rest.length = doc.length := by
    rw [extent, Path.extent_eq (.step goes (.refl d))]
  refine ⟨by omega, ?_, ?_, fun d step => ?_, fun t d step => ?_, fun e step => ?_,
    fun t d code step => ?_⟩
  · rw [whole, pos, List.drop_left]
  · have gap := Gap.length_le c.rest
    have word := Word.length_le c.front
    rw [front, List.length_drop] at word
    rw [front]
    omega
  · have goes : c.Goes [] d := .silent step
    have := behind goes
    exact ⟨goes.pos_le, by omega⟩
  · have goes : c.Goes [t] d := .token step
    obtain ⟨tail, head⟩ := goes.span_le
    have := behind goes
    exact ⟨tail, head, goes.head_le, by omega⟩
  · obtain ⟨low, high⟩ := (Trace.of_ends (.failed step)).index_bounds
    omega
  · have offset := Upcoming.offset_le t.kind d.rest
    have := behind (.token step)
    simp only [stop, error, Error.here]
    omega

end Config

theorem Sink.kept_of_passes {σ : Type} {sink : Sink σ} {s s' : σ} {kept kept' us : List Token}
    (h : sink.keeping.Passes (s, kept) us (s', kept')) : kept' = kept ++ us := by
  induction us generalizing s kept with
  | nil =>
    cases h
    exact (List.append_nil _).symm
  | cons t us ih =>
    obtain ⟨⟨u, more⟩, answer, rest⟩ := h
    obtain ⟨⟨-, rfl⟩, -⟩ := by simpa only [Sink.keeping, Prod.mk.injEq] using answer
    rw [ih rest, List.append_assoc, List.singleton_append]

namespace Config

variable {σ : Type} {sink : Sink σ}

/-- A scan breaks down only where its sink does. -/
theorem Trace.crash_of_run {c : Config} {ts : List Token} {e : Ending} (h : c.Trace ts e)
    {init : σ} (crashed : (c.run sink init).ending = .crashed) :
    ∃ before d t m u, c.Path before d ∧ sink.Passes init before u ∧ d.step = .token t m ∧
      (sink u t).2 = .crash := by
  have received := h.receives sink init
  generalize (c.run sink.keeping (init, [])).state.2 = handed at received
  generalize hr : (c.run sink init).ending = ending at received crashed
  cases received with
  | all =>
    obtain ⟨d, -, ends⟩ := h
    cases ends <;> cases crashed
  | stopped => cases crashed
  | @crashed before after t u s' split passes answer =>
    rw [split] at h
    obtain ⟨d, m, path, ⟨step⟩ | ⟨step⟩, -⟩ := h.split
    exact ⟨before, d, t, m, u, path, passes, step, by rw [answer]⟩

/-- Whatever its document and its sink, at every turn of a scan the registers agree with the tokens
delivered so far, closers take what is there, and the scan stays within its document. So no scan
breaks down, unless its sink does at a token that it is handed. -/
theorem turns_keep_registers (doc : List UInt8) (sink : Sink σ) (init : σ) :
    (∀ n s before c, turns sink.keeping n (init, []) (start doc) = .ok ((s, before), c) →
        c.Agrees before ∧ c.Pops ∧ c.Within doc) ∧
      (((start doc).run sink init).ending = .crashed →
        ∃ n s before c t d, turns sink.keeping n (init, []) (start doc) = .ok ((s, before), c) ∧
          c.step = .token t d ∧ (sink s t).2 = .crash) := by
  constructor
  · intro n s before c turns
    obtain ⟨us, path, passes⟩ := path_of_turns turns
    obtain rfl : before = us := Sink.kept_of_passes passes
    exact ⟨path.agrees, (path.placed (placed_start doc)).pops, path.within⟩
  · intro crashed
    obtain ⟨ts, e, trace⟩ := exists_trace (start doc)
    obtain ⟨before, c, t, d, s, path, passes, step, crash⟩ := trace.crash_of_run crashed
    obtain ⟨n, turns⟩ := turns_of_path path (passes.keeping [])
    exact ⟨n, s, before, c, t, d, turns, step, crash⟩

/-- In `{a(b:[{c:1}])}` an object in a list is open behind nine turns, and a sink that breaks down
at the ninth token, the number, breaks the scan down. -/
theorem turns_keep_registers_object :
    let doc : List UInt8 := [0x7B, 0x61, 0x28, 0x62, 0x3A, 0x5B, 0x7B, 0x63, 0x3A, 0x31, 0x7D, 0x5D,
      0x29, 0x7D]
    let sink : Sink Nat := fun n _ => (n + 1, if n = 8 then .crash else .proceed)
    (∃ before c, turns sink.keeping 9 (0, []) (start doc) = .ok ((7, before), c) ∧
        c.state = .objectField (.argument .field) [.object, .list] ∧ c.level = 1 ∧
          c.Agrees before ∧ c.Pops ∧ c.Within doc) ∧
      ((start doc).run sink 0).ending = .crashed ∧
      ∃ n s before c t d, turns sink.keeping n (0, []) (start doc) = .ok ((s, before), c) ∧
        c.step = .token t d ∧ (sink s t).2 = .crash := by
  intro doc sink
  obtain ⟨keep, break_⟩ := turns_keep_registers doc sink 0
  have crashed : ((start doc).run sink 0).ending = .crashed := by decide +kernel
  have turns : turns sink.keeping 9 (0, []) (start doc) = .ok ((7,
      [⟨.query, 0, 0, 0⟩, ⟨.setOpen, 0, 0, 1⟩, ⟨.field, 1, 2, 1⟩, ⟨.argumentsOpen, 2, 2, 1⟩,
        ⟨.argumentName, 3, 4, 1⟩, ⟨.listOpen, 5, 5, 1⟩, ⟨.objectOpen, 6, 6, 1⟩]),
      ⟨7, doc.drop 7, 1, .objectField (.argument .field) [.object, .list]⟩) := by
    subst doc sink
    rfl
  exact ⟨⟨_, _, turns, rfl, rfl, keep _ _ _ _ turns⟩, crashed, break_ crashed⟩

end Config

end QueryDoc
