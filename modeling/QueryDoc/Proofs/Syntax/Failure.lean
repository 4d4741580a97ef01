import QueryDoc.Proofs.Syntax.Ground
import QueryDoc.Proofs.Syntax.Steps
import QueryDoc.Proofs.Text.Agree
import QueryDoc.Proofs.Text.Utf8

/-! What follows from the table of grounds: a failure depends on nothing behind its scope, lies
between two characters, and breaks off inside the terminals of an edge. -/
namespace QueryDoc

open Utf8

/-- How many bytes decide about a failure at this offset. -/
def scope (bs : List UInt8) (offset : Nat) (expected : Option Expect) : Nat :=
  offset + (if expected.any Expect.isKeyword then Word.length (bs.drop offset) else 0) + 1

section
variable {bs bs' : List UInt8} {offset : Nat} {code : ErrorCode} {x : Option Expect}

namespace Agree

theorem scope_lead (h : Agree (scope bs offset x) bs bs') : Lead.of bs' = Lead.of bs := h.lead_eq

theorem scope_offset (h : Agree (scope bs offset x) bs bs') : Agree (offset + 1) bs bs' :=
  h.mono (by simp only [scope]; omega)

theorem unexpected {n : Nat} {y : Expect} (h : Agree (scope bs offset x) bs bs')
    (hm : Move.unexpected bs n y = .fail offset code x) :
    Move.unexpected bs' n y = .fail offset code x := by
  have here := h.scope_offset
  cases hm
  have hl : offset < bs.length := here.1
  have hl' : offset < bs'.length := here.length_le
  simp only [Move.unexpected]
  rw [if_pos hl, if_pos hl']

theorem keyword_eq {y : Expect} (h : Agree (scope bs 0 (some y)) bs bs')
    (hy : y.isKeyword = true) : Word.read bs' = Word.read bs := by
  refine Agree.word_eq ?_
  simpa [scope, hy] using h

theorem isOn_eq (h : Agree 3 bs bs') (on : Word.isOn bs = true) : Word.isOn bs' = true := by
  have hl := Word.length_of_isOn on
  have agree : Agree (Word.length bs + 1) bs bs' := hl ▸ h
  rw [Word.isOn, agree.word_eq]
  exact on

theorem fence (hf : Block.fence.isPrefixOf bs = true) (h : Agree 3 bs bs') :
    Block.fence.isPrefixOf bs' = true := by
  obtain ⟨t, rfl⟩ := List.isPrefixOf_iff_prefix.1 hf
  have three : Agree (Block.fence.length + 0) (Block.fence ++ t) bs' := h
  obtain ⟨r, rfl, -⟩ := three.append
  exact List.isPrefixOf_iff_prefix.2 ⟨r, rfl⟩

theorem endsScalar_eq {n : Nat} (h : Agree (n + 1) bs bs') :
    Grammar.endsScalar (bs'.drop n) = Grammar.endsScalar (bs.drop n) := by
  have head := (h.drop (n := 1)).head?_eq
  generalize bs.drop n = r at head
  generalize bs'.drop n = r' at head
  cases r <;> cases r' <;> cases head <;> rfl

end Agree

/-- Two quotes at the front would have been an empty string. -/
theorem Quoted.not_fence_agree {n : Nat} {y : Expect} (hl : Lead.of bs = .quote)
    (hr : read (bs.drop 1) = .error (n, y)) (h : Agree 2 bs bs') :
    Block.fence.isPrefixOf bs' = false := by
  refine Bool.eq_false_iff.2 fun hf => ?_
  obtain ⟨t, rfl⟩ := List.isPrefixOf_iff_prefix.1 hf
  obtain ⟨r, rfl⟩ := Lead.eq_cons (c := Byte.quote) (by decide) hl
  obtain ⟨r', hc, one⟩ := h.cons
  cases r with
  | nil => exact absurd one.1 (by decide)
  | cons b r =>
    obtain ⟨r'', rfl, -⟩ := one.cons
    cases hc
    cases hr

/-- What goes wrong, goes wrong alike on all bytes that agree on the scope of the failure. -/
theorem Ground.Fails.agree {g : Ground} (h : g.Fails bs (.fail offset code x))
    (agree : Agree (scope bs offset x) bs bs') : g.Fails bs' (.fail offset code x) := by
  have here := agree.scope_offset
  cases g with
  | here refuses y => exact ⟨agree.scope_lead ▸ h.1, agree.unexpected h.2⟩
  | word refuses y keyword =>
    obtain ⟨refused, hm⟩ := h
    cases hm
    exact ⟨by rwa [agree.scope_lead, agree.keyword_eq keyword], agree.unexpected rfl⟩
  | type refuses y member =>
    obtain ⟨refused, hm⟩ := h
    exact ⟨agree.scope_lead ▸ refused, by rwa [Grammar.badType, agree.scope_lead]⟩
  | sigil s k y =>
    obtain ⟨lead, missing, hm⟩ := h
    cases hm
    have next := (here.drop (m := 1) (n := 1)).lead_eq
    exact ⟨agree.scope_lead ▸ lead, next ▸ missing, agree.unexpected rfl⟩
  | dots =>
    obtain ⟨lead, ⟨second, hm⟩ | ⟨second, third, hm⟩⟩ := h
    · cases hm
      have next := (here.drop (m := 1) (n := 1)).lead_eq
      exact ⟨agree.scope_lead ▸ lead, .inl ⟨next ▸ second, agree.unexpected rfl⟩⟩
    · cases hm
      have two : Agree (1 + 1) bs bs' := here.mono (by omega)
      have next := (two.drop (m := 1) (n := 1)).lead_eq
      have last := (here.drop (m := 2) (n := 1)).lead_eq
      exact ⟨agree.scope_lead ▸ lead,
        .inr ⟨next ▸ second, last ▸ third, agree.unexpected rfl⟩⟩
  | condition =>
    obtain ⟨on, missing, hm⟩ := h
    cases hm
    have three : Agree 3 bs bs' := here.mono (by omega)
    have behind : Agree (Gap.length (bs.drop 2) + 0 + 1) (bs.drop 2) (bs'.drop 2) := by
      rw [Nat.add_assoc] at here
      exact here.drop
    have gap : Gap.length (bs'.drop 2) = Gap.length (bs.drop 2) := Agree.gap_eq (n := 0) behind
    refine ⟨three.isOn_eq on, ?_, ?_⟩
    · rw [gap, here.drop.lead_eq]
      exact missing
    · rw [gap]
      exact agree.unexpected rfl
  | quoted =>
    obtain ⟨lead, -, ⟨n, y⟩, hr, hm⟩ := h
    obtain rfl : offset = n + 1 := by cases hm; rfl
    have body : Agree (n - 0 + 1) (bs.drop 1) (bs'.drop 1) :=
      Agree.drop (here.mono (by omega))
    exact ⟨agree.scope_lead ▸ lead, Quoted.not_fence_agree lead hr (here.mono (by omega)), (n, y),
      Quoted.readFrom_agree hr body, agree.unexpected hm⟩
  | block =>
    obtain ⟨fence, n, hr, hm⟩ := h
    obtain rfl : offset = n + 3 := by cases hm; rfl
    have body : Agree (n - 0 + 1) (bs.drop 3) (bs'.drop 3) :=
      Agree.drop (here.mono (by omega))
    exact ⟨(here.mono (by omega)).fence fence, n, Block.readFrom_agree hr body,
      agree.unexpected hm⟩
  | number =>
    obtain ⟨lead, n, hr, hm⟩ := h
    cases hm
    exact ⟨agree.scope_lead ▸ lead, offset, Number.readFrom_agree hr here, rfl⟩
  | bareName =>
    obtain ⟨lead, goesOn, hm⟩ := h
    cases hm
    have length : Word.length bs' = Word.length bs := by
      rw [Word.length, here.word_eq, Word.length]
    refine ⟨agree.scope_lead ▸ lead, ?_, by rw [length]⟩
    rw [length, here.endsScalar_eq]
    exact goesOn

theorem Grammar.react_fail_agree {level : Nat} {s : State}
    (h : react level s bs = .fail offset code x) (agree : Agree (scope bs offset x) bs bs') :
    react level s bs' = .fail offset code x := by
  obtain ⟨g, member, fails⟩ := (react_fails level s).1 h
  exact (react_fails level s).2 ⟨g, member, fails.agree agree⟩

/-- The offsets, codes and expectations with which a move fails in front of these bytes. -/
inductive Failure (bs : List UInt8) : Nat → ErrorCode → Option Expect → Prop
  | unexpected {offset : Nat} (expected : Expect) (whole : Whole bs offset) :
      Failure bs offset (if offset < bs.length then .unexpectedToken else .unexpectedEnd)
        (some expected)
  | type {expected : Expect} (left : bs ≠ [])
      (member : expected = .variableType ∨ expected = .afterVariableType) :
      Failure bs 0 .invalidType (some expected)
  | number {offset : Nat} (whole : Whole bs offset) : Failure bs offset .invalidNumber none
  | bareName {b : UInt8} (next : bs[Word.length bs]? = some b) (name : Byte.isName b = false)
      (ends : Byte.isTerminator b = false) : Failure bs (Word.length bs) .invalidValue none

namespace Failure

theorem whole (h : Failure bs offset code x) : Whole bs offset := by
  cases h with
  | unexpected _ whole => exact whole
  | type => exact whole_zero bs
  | number whole => exact whole
  | bareName => exact Word.whole_length bs

theorem code_of_end (h : Failure bs bs.length code x) :
    code = .unexpectedEnd ∨ code = .invalidNumber := by
  generalize hl : bs.length = n at h
  cases h with
  | unexpected => exact .inl (if_neg (by omega))
  | type left => exact absurd (List.eq_nil_of_length_eq_zero hl) left
  | number => exact .inr rfl
  | bareName next =>
    rw [List.getElem?_eq_none (Nat.le_of_eq hl)] at next
    cases next

theorem code_of_expected {y : Expect} (h : Failure bs offset code (some y))
    (inside : offset < bs.length) (hy : y ≠ .variableType ∧ y ≠ .afterVariableType) :
    code = .unexpectedToken := by
  cases h with
  | unexpected => exact if_pos inside
  | type _ member => exact absurd member (not_or.2 hy)

theorem of_unexpected {n : Nat} {y : Expect} (hm : Move.unexpected bs n y = .fail offset code x)
    (whole : Whole bs n) : Failure bs offset code x := by
  cases hm
  exact .unexpected y whole

theorem of_badType {y : Expect} (hm : Grammar.badType bs y = .fail offset code x)
    (member : y = .variableType ∨ y = .afterVariableType) : Failure bs offset code x := by
  unfold Grammar.badType at hm
  split at hm
  · next h =>
      rw [Lead.of_eq_nothing_iff.1 h]
      cases hm
      exact .unexpected y (whole_zero [])
  · next h =>
      cases hm
      exact .type (fun he => h (Lead.of_eq_nothing_iff.2 he)) member

theorem of_endsScalar (h : Grammar.endsScalar (bs.drop (Word.length bs)) = false) :
    Failure bs (Word.length bs) .invalidValue none := by
  have apart := Word.apart_drop bs
  have next : (bs.drop (Word.length bs))[0]? = bs[Word.length bs]? := by
    rw [List.getElem?_drop, Nat.add_zero]
  generalize bs.drop (Word.length bs) = r at h apart next
  cases r with
  | nil => cases h
  | cons b r => exact .bareName next.symm (apart b rfl) h

end Failure

/-- Whatever goes wrong, the move fails in one of the four ways. -/
theorem Ground.Fails.failure {g : Ground} (h : g.Fails bs (.fail offset code x)) :
    Failure bs offset code x := by
  cases g with
  | here refuses y => exact .of_unexpected h.2 (whole_zero bs)
  | word refuses y keyword => exact .of_unexpected h.2 (whole_zero bs)
  | type refuses y member => exact .of_badType h.2 member
  | sigil s k y =>
    obtain ⟨lead, -, hm⟩ := h
    exact .of_unexpected hm (Lead.whole_one lead (by cases s <;> simp [Sigil.lead]))
  | dots =>
    obtain ⟨lead, ⟨-, hm⟩ | ⟨second, -, hm⟩⟩ := h
    · exact .of_unexpected hm (Lead.whole_one lead (by simp))
    · exact .of_unexpected hm
        ((Lead.whole_one lead (by simp)).add (Lead.whole_one second (by simp)))
  | condition =>
    obtain ⟨on, -, hm⟩ := h
    exact .of_unexpected hm ((Word.whole_on on).add (Gap.whole_length (bs.drop 2)))
  | quoted =>
    obtain ⟨lead, -, ⟨n, y⟩, hr, hm⟩ := h
    refine .of_unexpected hm ?_
    rw [Nat.add_comm]
    exact (Lead.whole_one lead (by simp)).add (Quoted.whole_error hr)
  | block =>
    obtain ⟨fence, n, hr, hm⟩ := h
    refine .of_unexpected hm ?_
    rw [Nat.add_comm]
    exact (Block.whole_fence fence).add (Block.whole_error hr)
  | number =>
    obtain ⟨-, n, hr, hm⟩ := h
    cases hm
    exact .number (Number.whole_error hr)
  | bareName =>
    obtain ⟨-, goesOn, hm⟩ := h
    cases hm
    exact .of_endsScalar goesOn

namespace State

variable {s : State} {level : Nat}

theorem edge_of_sigil {g : Sigil} {k : Kind} {y : Expect} (h : .sigil g k y ∈ s.grounds) :
    ∃ next, ∀ ahead, Edge level s [.sigil g k] ahead next := by
  have at_ {s : State} {site : Site} (hs : s.site? = some site) :
      ∃ next, ∀ ahead, Edge level s [.sigil .atSign .directiveName] ahead next :=
    ⟨_, fun _ => .directive hs⟩
  unfold grounds at h
  split at h
  all_goals simp [Ground.unless, Ground.directive] at h
  all_goals obtain ⟨rfl, rfl, rfl⟩ := h
  all_goals first
    | exact at_ rfl
    | exact ⟨_, fun _ => .variableName⟩
    | exact ⟨_, fun _ => .scalar (by simp [Terminal.scalars])⟩

theorem maySelect_of_dots (h : .dots ∈ s.grounds) : s.maySelect = true := by
  unfold grounds at h
  split at h <;> first | rfl | simp [Ground.unless, Ground.directive] at h

theorem eq_afterSpread (h : .condition ∈ s.grounds) : s = .afterSpread := by
  unfold grounds at h
  split at h <;> first | rfl | simp [Ground.unless, Ground.directive] at h

theorem edge_of_scalar {g : Ground} (h : g ∈ s.grounds)
    (hg : g = .quoted ∨ g = .block ∨ g = .number ∨ g = .bareName) :
    ∃ next, ∀ t ∈ Terminal.scalars, ∀ ahead, Edge level s [t] ahead next := by
  unfold grounds at h
  split at h <;> first
    | exact ⟨_, fun _ ht _ => .scalar ht⟩
    | rcases hg with rfl | rfl | rfl | rfl <;> simp [Ground.unless, Ground.directive] at h

end State

theorem begins_sigil {g : Sigil} (h : Lead.of bs = g.lead) (k : Kind) :
    Begins [.sigil g k] bs 1 := by
  rw [← g.ofByte_byte] at h
  obtain ⟨r, rfl⟩ := Lead.eq_cons g.byte_mem_marks h
  exact begins_of_text (t := .sigil g k) (v := [Byte.underscore]) nofun
    ⟨_, ⟨_, [], rfl, by decide, nofun⟩, rfl⟩

theorem begins_dots (h : Lead.of bs = .dot) : Begins [.dots] bs 1 := by
  obtain ⟨r, rfl⟩ := Lead.eq_cons (c := Byte.dot) (by decide) h
  exact begins_of_text (t := .dots) (v := [Byte.dot, Byte.dot]) nofun rfl

theorem begins_dots_two (h : Lead.of bs = .dot) (second : Lead.of (bs.drop 1) = .dot) :
    Begins [.dots] bs 2 := by
  obtain ⟨r, rfl⟩ := Lead.eq_cons (c := Byte.dot) (by decide) h
  obtain ⟨r, rfl⟩ := Lead.eq_cons (c := Byte.dot) (by decide) second
  exact begins_of_text (t := .dots) (v := [Byte.dot]) nofun rfl

/-- After the keyword of a type condition and a gap, any name completes the condition. -/
theorem begins_condition (h : Word.isOn bs = true) :
    Begins [.on, .name .inlineFragment] bs (2 + Gap.length (bs.drop 2)) := by
  have hl := Word.length_of_isOn h
  have hb : bs = Word.onWord ++ bs.drop 2 := by
    have := Word.read_append_drop bs
    rwa [eq_of_beq h, hl, eq_comm] at this
  have apart := Word.apart_drop bs
  rw [hl] at apart
  have text : Word.Text [Byte.underscore] := ⟨_, [], rfl, by decide, nofun⟩
  generalize bs.drop 2 = r at *
  subst hb
  refine ⟨[Byte.lineFeed, Byte.underscore], fun pos level r' hr => ?_⟩
  have name : Reads [.name .inlineFragment]
      ⟨pos + 2, level, r.take (Gap.length r) ++ [Byte.lineFeed] ++ ([Byte.underscore] ++ r')⟩ _ _ :=
    .cons (Gap.text_take_lineFeed r) text (by rw [hr]; exact fun _ h => by cases h; decide) (.nil _)
  have follow : Word.Apart
      (r.take (Gap.length r) ++ [Byte.lineFeed] ++ ([Byte.underscore] ++ r')).head? := by
    cases hg : Gap.length r with
    | zero => exact fun _ h => by cases h; decide
    | succ n =>
      cases r with
      | nil => cases hg
      | cons b r => exact apart
  have on : Reads [.on, .name .inlineFragment] ⟨pos, level, [] ++ (Word.onWord ++
      (r.take (Gap.length r) ++ [Byte.lineFeed] ++ ([Byte.underscore] ++ r')))⟩ _ _ :=
    .cons .nil rfl follow name
  have rest :
      (Word.onWord ++ r).take (2 + Gap.length r) ++ ([Byte.lineFeed, Byte.underscore] ++ r') =
      [] ++ (Word.onWord ++
        (r.take (Gap.length r) ++ [Byte.lineFeed] ++ ([Byte.underscore] ++ r'))) := by
    have take : (Word.onWord ++ r).take (2 + Gap.length r) =
        Word.onWord ++ r.take (Gap.length r) := by
      change (Word.onWord ++ r).take (Word.onWord.length + Gap.length r) = _
      exact List.take_length_add_append (Gap.length r)
    simp [take]
  rw [rest]
  exact ⟨_, _, on, rfl⟩

theorem begins_quoted {n : Nat} {y : Expect} (h : Lead.of bs = .quote)
    (hr : Quoted.read (bs.drop 1) = .error (n, y)) : Begins [.quoted] bs (n + 1) := by
  obtain ⟨r, rfl⟩ := Lead.eq_cons (c := Byte.quote) (by decide) h
  obtain ⟨u, r', w, rest, rfl, body⟩ := Quoted.readFrom_error hr
  refine begins_of_text (t := .quoted) (v := w ++ [Byte.quote]) nofun ⟨u ++ w, body, ?_⟩
  replace rest : r = u ++ r' := rest
  simp [rest]

theorem begins_block {n : Nat} (hf : Block.fence.isPrefixOf bs = true)
    (hr : Block.read (bs.drop 3) = .error n) : Begins [.block] bs (n + 3) := by
  obtain ⟨r, rfl⟩ := List.isPrefixOf_iff_prefix.1 hf
  obtain ⟨s', u, r', rest, hs, rfl, body⟩ := Block.readFrom_error hr (Nat.zero_le _)
  obtain rfl := List.eq_nil_of_length_eq_zero hs
  refine begins_of_text (t := .block) (v := Byte.lineFeed :: Block.fence) nofun
    ⟨u ++ [Byte.lineFeed], body, ?_⟩
  replace rest : r = u ++ r' := rest
  simp [rest, Block.fence]

theorem begins_number {n : Nat} (hr : Number.read bs = .error n) :
    ∃ t ∈ Terminal.scalars, Begins [t] bs n := by
  obtain ⟨u, r, k, w, rfl, rfl, text⟩ := Number.readFrom_error hr
  replace text : Number.Text k ((u ++ r).take (0 + u.length) ++ w) := by
    rw [Nat.zero_add, List.take_left]
    exact text
  rcases text.kind with rfl | rfl
  · exact ⟨.int, by simp [Terminal.scalars], begins_of_text (by decide) text⟩
  · exact ⟨.float, by simp [Terminal.scalars], begins_of_text (by decide) text⟩

theorem begins_bareName (h : Lead.of bs = .name) :
    ∃ t ∈ Terminal.scalars, Begins [t] bs (Word.length bs) := by
  obtain ⟨ws, has, member⟩ := Word.value_cases (Word.text_read h)
  refine ⟨_, member, begins_of_text (v := []) nofun ?_⟩
  rwa [Word.take_length, List.append_nil]

/-- Behind the first byte a place fails only inside the terminals of an edge. -/
theorem Ground.Fails.begins {g : Ground} {s : State} (h : g.Fails bs (.fail offset code x))
    (member : g ∈ s.grounds) (level : Nat) : offset = 0 ∨
      ∃ t label next, Begins (t :: label) bs offset ∧
        ∀ ahead, Edge level s (t :: label) ahead next := by
  have scalar (hg : g = .quoted ∨ g = .block ∨ g = .number ∨ g = .bareName)
      (broken : ∃ t ∈ Terminal.scalars, Begins [t] bs offset) : ∃ t label next,
        Begins (t :: label) bs offset ∧ ∀ ahead, Edge level s (t :: label) ahead next := by
    obtain ⟨t, ht, begins⟩ := broken
    have edges : ∃ next, ∀ t ∈ Terminal.scalars, ∀ ahead, Edge level s [t] ahead next :=
      State.edge_of_scalar member hg
    obtain ⟨next, edge⟩ := edges
    exact ⟨t, [], next, begins, edge t ht⟩
  cases g with
  | here refuses y => exact .inl (by cases h.2; rfl)
  | word refuses y keyword => exact .inl (by cases h.2; rfl)
  | type refuses y member =>
    have hm := h.2
    unfold Grammar.badType at hm
    exact .inl (by split at hm <;> cases hm <;> rfl)
  | sigil g k y =>
    obtain ⟨lead, -, hm⟩ := h
    cases hm
    obtain ⟨next, edge⟩ := State.edge_of_sigil member
    exact .inr ⟨_, [], next, begins_sigil lead k, edge⟩
  | dots =>
    have select := State.maySelect_of_dots member
    obtain ⟨lead, ⟨-, hm⟩ | ⟨second, -, hm⟩⟩ := h
    · cases hm
      exact .inr ⟨_, [], _, begins_dots lead, fun _ => .spread select⟩
    · cases hm
      exact .inr ⟨_, [], _, begins_dots_two lead second, fun _ => .spread select⟩
  | condition =>
    obtain ⟨on, -, hm⟩ := h
    cases hm
    rw [State.eq_afterSpread member]
    exact .inr ⟨_, _, _, begins_condition on, fun _ => .typedInline⟩
  | quoted =>
    obtain ⟨lead, -, ⟨n, y⟩, hr, hm⟩ := h
    obtain rfl : offset = n + 1 := by cases hm; rfl
    exact .inr (scalar (by simp) ⟨_, by simp [Terminal.scalars], begins_quoted lead hr⟩)
  | block =>
    obtain ⟨fence, n, hr, hm⟩ := h
    obtain rfl : offset = n + 3 := by cases hm; rfl
    exact .inr (scalar (by simp) ⟨_, by simp [Terminal.scalars], begins_block fence hr⟩)
  | number =>
    obtain ⟨-, n, hr, hm⟩ := h
    cases hm
    exact .inr (scalar (by simp) (begins_number hr))
  | bareName =>
    obtain ⟨lead, -, hm⟩ := h
    cases hm
    exact .inr (scalar (by simp) (begins_bareName lead))

theorem Config.Ends.failure {c : Config} {err : Error} (h : c.Ends (.stopped err)) :
    ∃ offset, Failure c.front offset err.code err.expected ∧ offset ≤ c.front.length ∧
      err = c.error (offset + Gap.length c.rest) err.code err.expected := by
  obtain ⟨offset, code, x, hm, hl, rfl⟩ := h.stopped
  obtain ⟨g, -, fails⟩ := (Grammar.react_fails c.level c.state).1 hm
  exact ⟨offset, fails.failure, hl, rfl⟩

end

end QueryDoc
