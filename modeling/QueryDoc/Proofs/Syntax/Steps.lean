import QueryDoc.Proofs.Syntax.Inversion
import QueryDoc.Proofs.Trace

/-! A configuration steps exactly along the edges whose terminals are written ahead of it. -/
namespace QueryDoc

/-- The move that reads a terminal of `n` bytes. -/
def Terminal.move (t : Terminal) (n : Nat) (next : State) : Move :=
  match t.kind with
  | none => .skip n next
  | some k => .deliver ⟨k, (t.shape.span n).1, (t.shape.span n).2, n⟩ next

namespace Shape

variable {bs : List UInt8} {n : Nat}

theorem Fits.lead_word {ws : Words} (h : (word ws).Fits bs n) : Lead.of bs = .name :=
  List.mem_singleton.1 h.lead_mem

theorem Fits.lead_scalar {ws : Words} (h : (scalar ws).Fits bs n) : Lead.of bs = .name :=
  List.mem_singleton.1 h.lead_mem

theorem Fits.move_word {ws : Words} {k : Kind} (h : (word ws).Fits bs n) (next : State) :
    Terminal.move ⟨.word ws, some k⟩ n next = .word k bs 0 next := by
  obtain ⟨rfl, -⟩ := fits_word_iff.1 h
  simp [Terminal.move, Move.word, span]

theorem Fits.move_sigil {s : Sigil} {k : Kind} (h : (sigil s).Fits bs n) (x : Expect)
    (next : State) : Terminal.move (.sigil s k) n next = .sigil k bs x next := by
  obtain ⟨rfl, -, hn⟩ := fits_sigil_iff.1 h
  rw [Move.sigil, hn]
  rfl

theorem Fits.move_punct {p : Punct} {k : Kind} (h : (punct p).Fits bs n) (next : State) :
    Terminal.move (.punct p k) n next = .punctuation k next := by
  obtain ⟨rfl, -⟩ := fits_punct_iff.1 h
  rfl

theorem Fits.move_colon (h : (punct .colon).Fits bs n) (x : Expect) (next : State) :
    Terminal.move (.link .colon) n next = .colon bs x next := by
  obtain ⟨rfl, hl⟩ := fits_punct_iff.1 h
  simp [Terminal.move, Move.colon, hl, Punct.lead]

theorem Fits.lead_punct {p : Punct} (h : (punct p).Fits bs n) : Lead.of bs = p.lead :=
  List.mem_singleton.1 h.lead_mem

theorem Fits.lead_sigil {s : Sigil} (h : (sigil s).Fits bs n) : Lead.of bs = s.lead :=
  List.mem_singleton.1 h.lead_mem

end Shape

namespace Grammar

variable {level : Nat} {s next : State} {bs : List UInt8} {n : Nat}

theorem field_eq (h : Gap.ahead (bs.drop (Word.length bs)) ≠ .colon) :
    field bs = .word .field bs 0 (.afterField true) := by
  unfold field
  simp only
  split
  · next hc =>
      rw [Gap.ahead, List.drop_drop] at h
      exact absurd hc h
  · rfl

theorem react_select (hs : s.maySelect = true) (h : Lead.of bs = .name ∨ Lead.of bs = .dot) :
    react level s bs = if Lead.of bs = .name then field bs else spread bs := by
  have selectionOrEnd_eq (x : Expect) :
      selectionOrEnd level x bs = if Lead.of bs = .name then field bs else spread bs := by
    rcases h with h | h <;> simp [selectionOrEnd, h]
  unfold State.maySelect State.mayCloseSet at hs
  cases s <;> simp at hs
  case selection => rcases h with h | h <;> simp [react, selection, h]
  case selectionOrEnd => exact selectionOrEnd_eq _
  case afterField b =>
    rw [← selectionOrEnd_eq .afterFieldName]
    cases b <;> rcases h with h | h <;> simp [react, afterField, selectionOrEnd, h]
  case afterSpreadName =>
    rw [← selectionOrEnd_eq .afterSelection]
    rcases h with h | h <;> simp [react, afterSpreadName, h]

theorem react_closeSet (hs : s.mayCloseSet = true) (h : Lead.of bs = .closeBrace) :
    react level s bs = .punctuation .setClose (.afterSet level) := by
  unfold State.mayCloseSet at hs
  cases s <;> simp at hs
  case selectionOrEnd => simp [react, selectionOrEnd, closeSet, State.afterSet, h]
  case afterField b =>
    cases b <;> simp [react, afterField, selectionOrEnd, closeSet, State.afterSet, h]
  case afterSpreadName =>
    simp [react, afterSpreadName, selectionOrEnd, closeSet, State.afterSet, h]

theorem react_openSet (hs : s.mayOpenSet = true) (h : Lead.of bs = .openBrace) :
    react level s bs = .punctuation .setOpen .selection := by
  unfold State.mayOpenSet at hs
  cases s <;> simp at hs
  case operationHead b => cases b <;> simp [react, operationHead, openSet, h]
  case selectionSet => simp [react, selectionSet, openSet, h]
  case afterField b => cases b <;> simp [react, afterField, openSet, h]

theorem react_directive {site : Site} (hs : s.site? = some site) (h : Lead.of bs = .atSign) :
    react level s bs = .sigil .directiveName bs .directiveName (.afterDirective site) := by
  unfold State.site? at hs
  split at hs <;> cases hs
  case h_1 b => cases b <;> simp [react, operationHead, directive, h]
  case h_2 => simp [react, selectionSet, directive, h]
  case h_3 b => cases b <;> simp [react, afterField, directive, h]
  case h_4 => simp [react, afterSpreadName, directive, h]
  case h_5 => simp [react, afterVariable, directive, h]
  case h_6 b => simp [react, afterVariableType, afterVariable, directive, h]

theorem react_scalar {use : Use} {cs : List Container} {x : Expect} {t : Terminal}
    (ht : t ∈ Terminal.scalars) (fit : t.shape.Fits bs n) :
    react level (.value use cs x) bs = t.move n (.afterValue use cs) := by
  have word {ws : Words} {k : Kind} (fit : (Shape.scalar ws).Fits bs n)
      (hk : Word.value (Word.read bs) = k) :
      value use cs x bs = Terminal.move ⟨.scalar ws, some k⟩ n (.afterValue use cs) := by
    have lead := fit.lead_scalar
    obtain ⟨rfl, -, ends⟩ := Shape.fits_scalar_iff.1 fit
    simp [value, bareName, lead, ends, hk, Move.word, Terminal.move, Shape.span]
  change value use cs x bs = _
  simp only [Terminal.scalars, List.mem_cons, List.not_mem_nil, or_false] at ht
  rcases ht with rfl | rfl | rfl | rfl | rfl | rfl | rfl | rfl | rfl
  · rw [fit.move_sigil .variableReference]
    simp [value, fit.lead_sigil, Sigil.lead]
  · have lead : Lead.of bs = .number := List.mem_singleton.1 fit.lead_mem
    simp [value, number, lead, Shape.fits_int_iff.1 fit, Terminal.move, Shape.span]
  · have lead : Lead.of bs = .number := List.mem_singleton.1 fit.lead_mem
    simp [value, number, lead, Shape.fits_float_iff.1 fit, Terminal.move, Shape.span]
  · obtain ⟨lead, plain, m, rfl, hr⟩ := Shape.fits_quoted_iff.1 fit
    rw [value, lead]
    simp only
    rw [if_neg (Bool.eq_false_iff.1 plain), quotedString, hr]
    rfl
  · have lead : Lead.of bs = .quote := List.mem_singleton.1 fit.lead_mem
    obtain ⟨fence, m, rfl, hr⟩ := Shape.fits_block_iff.1 fit
    rw [value, lead]
    simp only
    rw [if_pos fence, blockString, hr]
    rfl
  · have has : Word.read bs = Word.trueWord := (Shape.fits_scalar_iff.1 fit).2.1
    exact word fit (by rw [has]; rfl)
  · have has : Word.read bs = Word.falseWord := (Shape.fits_scalar_iff.1 fit).2.1
    exact word fit (by rw [has]; rfl)
  · have has : Word.read bs = Word.nullWord := (Shape.fits_scalar_iff.1 fit).2.1
    exact word fit (by rw [has]; rfl)
  · obtain ⟨-, ht, hf, hn⟩ := (Shape.fits_scalar_iff.1 fit).2.1
    exact word fit (by rw [Word.value, if_neg ht, if_neg hf, if_neg hn])

theorem react_definition {seen : Bool} {w : Keyword} {k : Kind}
    (fit : (Shape.word (.only w)).Fits bs n) (hk : Word.definition? w.bytes = some k) :
    react level (.definition seen) bs =
      if k = .fragment then .word .fragment bs 0 .fragmentName
      else .word k bs 0 (.operationHead false) := by
  have has : Word.read bs = w.bytes := (Shape.fits_word_iff.1 fit).2
  have lead := fit.lead_word
  rw [← has] at hk
  by_cases hf : k = .fragment
  · subst hf
    simp [react, definition, lead, hk]
  · simp only [react, definition, lead, hk, if_neg hf]

theorem react_nil {x : Lead} (h : Edge level s [] x next) (hx : Lead.of bs = x) :
    react level s bs = .become next := by
  cases h with
  | directiveEnd plain =>
    simp only [react, afterDirective]
    split
    · next h => exact absurd (hx ▸ h) plain
    · rfl
  | variableEnd may ahead =>
    unfold State.mayEndVariable at may
    split at may
    · rcases ahead with h | h <;> simp [react, afterVariable, hx, h]
    · rcases ahead with h | h <;> simp [react, afterVariableType, afterVariable, hx, h]
    · cases may
  | valueEnd => rfl
  | nextValue plain =>
    simp only [react, afterValue]
    split
    · next h => exact absurd (hx ▸ h) plain
    · rfl
  | nextField => rfl

theorem fits_mark {k : Kind} (fit : (Terminal.mark k).shape.Fits bs n) :
    n = 0 ∧ Gap.ahead (bs.drop n) = Lead.of bs := by
  obtain ⟨rfl, h⟩ := Shape.fits_empty_iff.1 fit
  refine ⟨rfl, Gap.ahead_eq ?_⟩
  rcases h with h | h <;> simp [h]

theorem react_cons {x : Lead} {t : Terminal} (h : Edge level s [t] x next)
    (fit : t.shape.Fits bs n) (hx : Gap.ahead (bs.drop n) = x) :
    react level s bs = t.move n next := by
  cases h with
  | shorthand =>
    obtain ⟨rfl, hn⟩ := fits_mark fit
    rw [hx] at hn
    simp only [react, definition, ← hn]
    rfl
  | operation keyword =>
    simp only [Terminal.operations, List.mem_cons, List.not_mem_nil, or_false] at keyword
    rcases keyword with rfl | rfl | rfl <;> rw [fit.move_word, react_definition fit rfl] <;> rfl
  | fragment =>
    rw [fit.move_word, react_definition fit rfl]
    rfl
  | operationName =>
    rw [fit.move_word]
    simp [react, operationHead, fit.lead_word]
  | openVariables =>
    rw [fit.move_punct]
    simp [react, operationHead, fit.lead_punct, Punct.lead]
  | fragmentName =>
    have not_on : Word.isOn bs = false := beq_false_of_ne (Shape.fits_word_iff.1 fit).2.2
    rw [fit.move_word]
    simp [react, fragmentName, fit.lead_word, not_on]
  | fragmentOn =>
    obtain ⟨hl, on⟩ := Shape.fits_word_iff.1 fit
    have is_on : Word.isOn bs = true := beq_iff_eq.2 on
    rw [hl, Word.length_of_isOn is_on]
    simp [react, fragmentOn, is_on, Terminal.move]
  | fragmentType =>
    rw [fit.move_word]
    simp [react, fragmentType, fit.lead_word]
  | openSet may =>
    rw [fit.move_punct]
    exact react_openSet may fit.lead_punct
  | closeSet may =>
    rw [fit.move_punct]
    exact react_closeSet may fit.lead_punct
  | field may plain =>
    have lead := fit.lead_word
    rw [fit.move_word, react_select may (.inl lead), if_pos lead]
    refine field_eq ?_
    rwa [← (Shape.fits_word_iff.1 fit).1, hx]
  | spread may =>
    obtain ⟨rfl, lead, h₁, h₂⟩ := Shape.fits_dots_iff.1 fit
    rw [react_select may (.inr lead), if_neg (by simp [lead]), spread, h₁, h₂]
    rfl
  | aliasedField =>
    rw [fit.move_word]
    simp [react, aliasedField, fit.lead_word]
  | untypedInline ahead =>
    obtain ⟨rfl, hn⟩ := fits_mark fit
    rw [hx] at hn
    have not_on : Word.isOn bs = false := Word.isOn_of_lead (by
      rcases ahead with h | h <;> simp [← hn, h])
    simp only [react, afterSpread, not_on]
    rcases ahead with h | h <;> simp [← hn, h] <;> rfl
  | spreadName =>
    have not_on : Word.isOn bs = false := beq_false_of_ne (Shape.fits_word_iff.1 fit).2.2
    rw [fit.move_word]
    simp [react, afterSpread, fit.lead_word, not_on]
  | directive at_ =>
    rw [fit.move_sigil .directiveName]
    exact react_directive at_ fit.lead_sigil
  | directiveArguments =>
    rw [fit.move_punct]
    simp [react, afterDirective, fit.lead_punct, Punct.lead]
  | fieldArguments =>
    rw [fit.move_punct]
    simp [react, afterField, fit.lead_punct, Punct.lead]
  | argumentsEnd =>
    rw [fit.move_punct]
    simp [react, argument, fit.lead_punct, Punct.lead]
  | @argumentName owner first x =>
    rw [fit.move_word]
    cases first <;> simp [react, argument, fit.lead_word]
  | argumentColon => exact (fit.move_colon _ _).symm
  | variablesEnd =>
    rw [fit.move_punct]
    simp [react, variableName, fit.lead_punct, Punct.lead]
  | @variableName first x =>
    rw [fit.move_sigil .variableName]
    cases first <;> simp [react, variableName, fit.lead_sigil, Sigil.lead]
  | variableColon => exact (fit.move_colon _ _).symm
  | listType =>
    rw [fit.move_punct]
    simp [react, variableType, fit.lead_punct, Punct.lead]
  | namedType =>
    rw [fit.move_word]
    simp [react, variableType, fit.lead_word]
  | nonNull =>
    rw [fit.move_punct]
    simp [react, afterVariableType, fit.lead_punct, Punct.lead]
  | @listTypeEnd depth nonNull x =>
    rw [fit.move_punct]
    simp [react, afterVariableType, fit.lead_punct, Punct.lead]
  | @defaultValue nonNull x =>
    obtain ⟨rfl, lead⟩ := Shape.fits_punct_iff.1 fit
    simp [react, afterVariableType, lead, Punct.lead, Terminal.move]
  | scalar member => exact react_scalar member fit
  | listOpen =>
    rw [fit.move_punct]
    simp [react, value, fit.lead_punct, Punct.lead]
  | objectOpen =>
    rw [fit.move_punct]
    simp [react, value, fit.lead_punct, Punct.lead]
  | listClose =>
    rw [fit.move_punct]
    simp [react, afterValue, fit.lead_punct, Punct.lead]
  | objectClose =>
    rw [fit.move_punct]
    simp [react, objectField, fit.lead_punct, Punct.lead]
  | objectField =>
    rw [fit.move_word]
    simp [react, objectField, fit.lead_word]
  | objectColon => exact (fit.move_colon _ _).symm

theorem react_alias {m : Nat} (hs : s.maySelect = true) (name : (Shape.word .any).Fits bs n)
    (colon : (Shape.punct .colon).Fits ((bs.drop n).drop (Gap.length (bs.drop n))) m) :
    react level s bs =
      .deliver ⟨.fieldAlias, 0, n, n + Gap.length (bs.drop n) + m⟩ .aliasedField := by
  have first := name.lead_word
  obtain ⟨rfl, last⟩ := Shape.fits_punct_iff.1 colon
  obtain ⟨rfl, -⟩ := Shape.fits_word_iff.1 name
  rw [List.drop_drop] at last
  rw [react_select hs (.inl first), if_pos first, field]
  simp only [last, Punct.lead]

theorem react_typedInline {m : Nat} (on : (Shape.word (.only .onWord)).Fits bs n)
    (name : (Shape.word .any).Fits ((bs.drop n).drop (Gap.length (bs.drop n))) m) :
    react level .afterSpread bs =
      .deliver ⟨.inlineFragment, n + Gap.length (bs.drop n), n + Gap.length (bs.drop n) + m,
        n + Gap.length (bs.drop n) + m⟩ (.selectionSet .inlineFragment) := by
  have last := name.lead_word
  have is_on : Word.isOn bs = true := beq_iff_eq.2 (Shape.fits_word_iff.1 on).2
  obtain ⟨rfl, -⟩ := Shape.fits_word_iff.1 name
  obtain rfl : n = 2 := by rw [(Shape.fits_word_iff.1 on).1, Word.length_of_isOn is_on]
  rw [List.drop_drop] at last
  simp only [react, afterSpread, is_on, if_true, inlineFragment, last, Move.word, List.drop_drop]

end Grammar

namespace Config

def cursor (c : Config) : Cursor := ⟨c.pos, c.level, c.rest⟩

def ahead (c : Config) : Lead := Gap.ahead c.rest

def front (c : Config) : List UInt8 := c.rest.drop (Gap.length c.rest)

/-- The move behind the gap. -/
def reaction (c : Config) : Move := Grammar.react c.level c.state c.front

/-- The step that a move behind the gap makes. -/
def stepBy (c : Config) : Move → Step
  | .become next => .silent { c with state := next }
  | .skip n next => .silent (c.skip (n + Gap.length c.rest) next)
  | .deliver x next =>
    .token (c.token (x.shift (Gap.length c.rest))) (c.deliver (x.shift (Gap.length c.rest)) next)
  | .fail offset code expected => .failed (c.error (offset + Gap.length c.rest) code expected)
  | .finish => .finished

theorem step_eq (c : Config) : c.step = c.stepBy c.reaction := by
  have hm : c.move = c.reaction.shift (Gap.length c.rest) := rfl
  rw [step, hm]
  cases c.reaction <;> rfl

theorem reads_cursor_iff {c : Config} {t : Terminal} {ts : List Terminal} {us : List Token}
    {d : Cursor} :
    Reads (t :: ts) c.cursor us d ↔
      ∃ n vs, t.shape.Fits c.front n ∧ us = t.tokens (c.pos + Gap.length c.rest) c.level n ++ vs ∧
        Reads ts ⟨c.pos + Gap.length c.rest + n, t.levelAfter c.level, c.front.drop n⟩ vs d := by
  rw [cursor, reads_cons_iff]
  simp only [front, List.drop_drop]

theorem goes_of_move {c : Config} {t : Terminal} {n : Nat} {next : State}
    (h : c.reaction = t.move n next) :
    c.Goes (t.tokens (c.pos + Gap.length c.rest) c.level n)
      ⟨c.pos + Gap.length c.rest + n, c.front.drop n, t.levelAfter c.level, next⟩ := by
  have hs := c.step_eq
  rw [h, Terminal.move] at hs
  rw [Terminal.tokens, Terminal.levelAfter]
  cases hk : t.kind with
  | none =>
    rw [hk] at hs
    refine .silent (hs.trans ?_)
    simp [stepBy, skip, front, Nat.add_comm, Nat.add_left_comm]
  | some k =>
    rw [hk] at hs
    refine .token (hs.trans ?_)
    simp [stepBy, Lexeme.shift, deliver, token, front, Nat.add_comm, Nat.add_left_comm,
      Nat.add_assoc]

theorem goes_of_pair {c d : Config} {t u : Terminal} {us : List Token}
    (edge : Edge c.level c.state [t, u] d.ahead d.state) (h : Reads [t, u] c.cursor us d.cursor) :
    c.Goes us d := by
  obtain ⟨n, vs, first, rfl, rest⟩ := reads_cursor_iff.1 h
  obtain ⟨m, ws, second, rfl, done⟩ := reads_cons_iff.1 rest
  generalize hs : c.state = s at edge
  generalize hd : d.state = s' at edge
  obtain ⟨pos, rest, level, state⟩ := d
  cases done
  cases hd
  have step := c.step_eq
  cases edge with
  | fieldAlias may =>
    rw [reaction, Grammar.react_alias (hs ▸ may) first second] at step
    refine .token (step.trans ?_)
    simp [stepBy, Lexeme.shift, deliver, token, front, Nat.add_comm, Nat.add_left_comm,
      Nat.add_assoc, Shape.span, Terminal.levelAfter, Kind.levelAfter]
  | typedInline =>
    rw [reaction, hs, Grammar.react_typedInline first second] at step
    refine .token (step.trans ?_)
    simp [stepBy, Lexeme.shift, deliver, token, front, Nat.add_comm, Nat.add_left_comm,
      Nat.add_assoc, Shape.span, Terminal.levelAfter, Kind.levelAfter]

theorem Goes.edge {c d : Config} {us : List Token} (h : c.Goes us d) :
    ∃ label, Edge c.level c.state label d.ahead d.state ∧ Reads label c.cursor us d.cursor := by
  have follows := Grammar.follows_react c.level c.state c.front
  have hs := c.step_eq
  rw [reaction] at hs
  cases hm : Grammar.react c.level c.state c.front with
  | become next =>
    rw [hm] at follows hs
    cases h with
    | silent h =>
      cases hs.symm.trans h
      exact ⟨[], follows, .nil _⟩
    | token h => exact nomatch hs.symm.trans h
  | skip n next =>
    rw [hm] at follows hs
    obtain ⟨t, label, edge, reads⟩ := follows
    cases h with
    | silent h =>
      cases hs.symm.trans h
      have reads := (reads (c.pos + Gap.length c.rest)).from_gap
      rw [front, List.drop_drop, Nat.add_comm] at edge
      rw [front, List.drop_drop, Nat.add_assoc, Nat.add_comm (Gap.length c.rest)] at reads
      exact ⟨_, edge, reads⟩
    | token h => exact nomatch hs.symm.trans h
  | deliver x next =>
    rw [hm] at follows hs
    obtain ⟨t, label, edge, reads⟩ := follows
    cases h with
    | silent h => exact nomatch hs.symm.trans h
    | token h =>
      cases hs.symm.trans h
      have reads := (reads (c.pos + Gap.length c.rest)).from_gap
      rw [front, List.drop_drop, Nat.add_comm] at edge
      simp only [front, List.drop_drop, Nat.add_assoc, Nat.add_comm (Gap.length c.rest)] at reads
      exact ⟨_, edge, reads⟩
  | fail =>
    rw [hm] at hs
    cases h with
    | silent h => exact nomatch hs.symm.trans h
    | token h => exact nomatch hs.symm.trans h
  | finish =>
    rw [hm] at hs
    cases h with
    | silent h => exact nomatch hs.symm.trans h
    | token h => exact nomatch hs.symm.trans h

theorem goes_of_edge {c d : Config} {label : List Terminal} {us : List Token}
    (edge : Edge c.level c.state label d.ahead d.state)
    (reads : Reads label c.cursor us d.cursor) : c.Goes us d := by
  match label, edge, reads with
  | [], edge, reads =>
    obtain ⟨pos, rest, level, state⟩ := d
    cases reads
    have hr : c.reaction = .become state := Grammar.react_nil edge rfl
    refine .silent ?_
    rw [step_eq, hr]
    rfl
  | [t], edge, reads =>
    obtain ⟨n, vs, fit, rfl, rest⟩ := reads_cursor_iff.1 reads
    obtain ⟨pos, rest, level, state⟩ := d
    cases rest
    rw [List.append_nil]
    exact goes_of_move (Grammar.react_cons edge fit rfl)
  | [t, u], edge, reads => exact goes_of_pair edge reads
  | _ :: _ :: _ :: _, edge, _ =>
    generalize c.state = s at edge
    generalize d.state = s' at edge
    cases edge

variable {c d : Config} {us : List Token} {err : Error}

theorem Goes.rest_eq (h : c.Goes us d) :
    ∃ u, c.rest = u ++ d.rest ∧ d.pos = c.pos + u.length := by
  obtain ⟨label, -, reads⟩ := h.edge
  exact reads.rest_eq

theorem Path.extent_eq (h : c.Path us d) : c.pos + c.rest.length = d.pos + d.rest.length := by
  induction h with
  | refl => rfl
  | step first rest ih =>
    obtain ⟨u, hu, hp⟩ := first.rest_eq
    rw [← ih, hu, hp, List.length_append, Nat.add_assoc]

theorem Goes.delivers {t : Token} (h : c.Goes [t] d) :
    ∃ (x : Lexeme) (next : State), x.Within c.front ∧
      t = c.token (x.shift (Gap.length c.rest)) ∧
        d = c.deliver (x.shift (Gap.length c.rest)) next := by
  have advances := Grammar.advances_react c.level c.state c.front
  cases h with
  | token step =>
    rw [step_eq, reaction] at step
    cases hm : Grammar.react c.level c.state c.front with
    | deliver x next =>
      rw [hm] at step advances
      cases step
      exact ⟨x, next, advances.1, rfl, rfl⟩
    | _ =>
      rw [hm] at step
      cases step

theorem Goes.head_le {t : Token} (h : c.Goes [t] d) : t.head ≤ d.pos := by
  obtain ⟨x, next, ⟨-, head, -⟩, rfl, rfl⟩ := h.delivers
  simp only [Config.token, deliver, Lexeme.shift]
  omega

theorem Goes.gap_le (h : c.Goes us d) :
    c.pos + Gap.length c.rest ≤ d.pos + Gap.length d.rest := by
  obtain ⟨label, -, reads⟩ := h.edge
  cases label with
  | nil =>
    obtain ⟨pos, rest, level, state⟩ := d
    cases reads
    exact Nat.le_refl _
  | cons t label =>
    obtain ⟨n, vs, -, -, rest⟩ := reads_cursor_iff.1 reads
    obtain ⟨u, -, hd⟩ := rest.rest_eq
    have hd : d.pos = c.pos + Gap.length c.rest + n + u.length := hd
    omega

theorem Ends.stopped (h : c.Ends (.stopped err)) :
    ∃ offset code x, c.reaction = .fail offset code x ∧ offset ≤ c.front.length ∧
      err = c.error (offset + Gap.length c.rest) code x := by
  have advances := Grammar.advances_react c.level c.state c.front
  cases h with
  | failed h =>
    rw [step_eq] at h
    rw [← reaction] at advances
    cases hm : c.reaction with
    | fail offset code x =>
      rw [hm] at h advances
      cases h
      exact ⟨offset, code, x, rfl, advances, rfl⟩
    | _ =>
      rw [hm] at h
      cases h

theorem Trace.index_bounds (h : c.Trace us (.stopped err)) :
    c.pos + Gap.length c.rest ≤ err.index ∧ err.index ≤ c.pos + c.rest.length := by
  obtain ⟨f, path, ends⟩ := h
  induction path with
  | refl c =>
    obtain ⟨offset, code, x, -, hl, rfl⟩ := ends.stopped
    rw [front, List.length_drop] at hl
    have := Gap.length_le c.rest
    simp only [error, Error.here]
    omega
  | step first rest ih =>
    obtain ⟨lo, hi⟩ := ih ends
    obtain ⟨u, hu, hp⟩ := first.rest_eq
    have := first.gap_le
    rw [hu, List.length_append]
    rw [hp] at hi
    rw [hu] at this
    omega

end Config

end QueryDoc
