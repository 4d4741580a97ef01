import QueryDoc.Proofs.Syntax.Steps

/-! A turn of a run never goes back in the document, and one that stays where it is lowers the rank
of the place. -/
namespace QueryDoc

theorem Sink.Passes.append {σ : Type} {sink : Sink σ} {s u v : σ} {ts us : List Token}
    (h : sink.Passes s ts u) (g : sink.Passes u us v) : sink.Passes s (ts ++ us) v := by
  induction ts generalizing s with
  | nil =>
    cases h
    exact g
  | cons t ts ih =>
    obtain ⟨w, answer, rest⟩ := h
    exact ⟨w, answer, ih rest⟩

namespace Config

section
variable {c d : Config} {us : List Token}

theorem Goes.pos_le (h : c.Goes us d) : c.pos ≤ d.pos := by
  obtain ⟨u, -, pos⟩ := h.rest_eq
  omega

theorem Goes.rank_lt (h : c.Goes us d) (same : d.pos = c.pos) : d.state.rank < c.state.rank := by
  obtain ⟨u, rest, pos⟩ := h.rest_eq
  have nothing : u = [] := List.eq_nil_of_length_eq_zero (by omega)
  have smaller := h.size_lt
  rw [nothing, List.nil_append] at rest
  rw [size, size, rest] at smaller
  omega

/-- Three steps that stay would lower a rank three times that is at most two. -/
theorem Goes.pos_lt_of_three {c₀ c₁ c₂ c₃ : Config} {us₁ us₂ us₃ : List Token}
    (first : c₀.Goes us₁ c₁) (second : c₁.Goes us₂ c₂) (third : c₂.Goes us₃ c₃) :
    c₀.pos < c₁.pos ∨ c₁.pos < c₂.pos ∨ c₂.pos < c₃.pos := by
  rcases Nat.eq_or_lt_of_le first.pos_le with stay₁ | moved
  · rcases Nat.eq_or_lt_of_le second.pos_le with stay₂ | moved
    · rcases Nat.eq_or_lt_of_le third.pos_le with stay₃ | moved
      · have rank₁ := first.rank_lt stay₁.symm
        have rank₂ := second.rank_lt stay₂.symm
        have rank₃ := third.rank_lt stay₃.symm
        have bound := c₀.state.rank_le
        omega
      · exact .inr (.inr moved)
    · exact .inr (.inl moved)
  · exact .inl moved

end

variable {σ : Type}

/-- One turn of the loop: the state of the sink and the configuration for the next turn, or what
the run ends with. -/
def turn (sink : Sink σ) (s : σ) (c : Config) : Except (Run σ) (σ × Config) :=
  match c.step with
  | .silent d => .ok (s, d)
  | .token t d =>
    match sink s t with
    | (s', .proceed) => .ok (s', d)
    | (s', .stop code) => .error ⟨s', .stopped (d.stop t.kind code), d⟩
    | (s', .crash) => .error ⟨s', .crashed, d⟩
  | .failed e => .error ⟨s, .stopped e, c⟩
  | .finished => .error ⟨s, .complete, c⟩

/-- So many turns of the loop, unless the run ends before. -/
def turns (sink : Sink σ) : Nat → σ → Config → Except (Run σ) (σ × Config)
  | 0, s, c => .ok (s, c)
  | n + 1, s, c =>
    match c.turn sink s with
    | .ok (s', d) => turns sink n s' d
    | .error r => .error r

variable {sink : Sink σ} {s s' : σ} {c d : Config} {n : Nat} {r : Run σ}

theorem turn_of_silent (h : c.step = .silent d) : c.turn sink s = .ok (s, d) := by
  rw [turn, h]

theorem turn_of_token {t : Token} (h : c.step = .token t d) (answer : sink s t = (s', .proceed)) :
    c.turn sink s = .ok (s', d) := by
  rw [turn, h]
  simp only [answer]

theorem turns_of_turn (h : c.turn sink s = .ok (s', d)) (n : Nat) :
    turns sink (n + 1) s c = turns sink n s' d := by
  rw [turns, h]

theorem run_eq_turn (sink : Sink σ) (s : σ) (c : Config) :
    c.run sink s =
      match c.turn sink s with
      | .ok (s', d) => d.run sink s'
      | .error r => r := by
  cases step : c.step with
  | silent d => rw [run_of_silent step, turn, step]
  | token t d =>
    rw [run_of_token step, turn, step]
    cases answer : sink s t with
    | mk s' verdict => cases verdict <;> simp only [answer]
  | failed e => rw [run_of_failed step, turn, step]
  | finished => rw [run_of_finished step, turn, step]

theorem goes_of_turn (h : c.turn sink s = .ok (s', d)) :
    ∃ us, c.Goes us d ∧ sink.Passes s us s' := by
  unfold turn at h
  split at h
  · next step =>
    cases h
    exact ⟨[], .silent step, rfl⟩
  · next t m step =>
    split at h
    · next u answer =>
      cases h
      exact ⟨[t], .token step, s', answer, rfl⟩
    · cases h
    · cases h
  · cases h
  · cases h

theorem size_of_turns (h : turns sink n s c = .ok (s', d)) : d.size + n ≤ c.size := by
  induction n generalizing s c with
  | zero =>
    cases h
    exact Nat.le_refl _
  | succ n ih =>
    rw [turns] at h
    split at h
    · next u m first =>
      obtain ⟨us, goes, -⟩ := goes_of_turn first
      have smaller := goes.size_lt
      have rest := ih h
      omega
    · cases h

theorem path_of_turns (h : turns sink n s c = .ok (s', d)) :
    ∃ us, c.Path us d ∧ sink.Passes s us s' := by
  induction n generalizing s c with
  | zero =>
    cases h
    exact ⟨[], .refl _, rfl⟩
  | succ n ih =>
    rw [turns] at h
    split at h
    · next u m first =>
      obtain ⟨us, goes, passes⟩ := goes_of_turn first
      obtain ⟨vs, path, passes'⟩ := ih h
      exact ⟨us ++ vs, .step goes path, passes.append passes'⟩
    · cases h

theorem turns_of_path {us : List Token} (h : c.Path us d) (passes : sink.Passes s us s') :
    ∃ n, turns sink n s c = .ok (s', d) := by
  induction h generalizing s with
  | refl =>
    cases passes
    exact ⟨0, rfl⟩
  | step first _ ih =>
    obtain ⟨u, passes, passes'⟩ := Sink.passes_append passes
    obtain ⟨n, rest⟩ := ih passes'
    refine ⟨n + 1, ?_⟩
    cases first with
    | silent step =>
      cases passes
      rw [turns_of_turn (turn_of_silent step), rest]
    | token step =>
      obtain ⟨v, answer, rfl⟩ := passes
      rw [turns_of_turn (turn_of_token step answer), rest]

theorem run_of_turns (h : turns sink n s c = .error r) : c.run sink s = r := by
  induction n generalizing s c with
  | zero => cases h
  | succ n ih =>
    rw [turns] at h
    rw [run_eq_turn]
    cases first : c.turn sink s with
    | ok next =>
      rw [first] at h
      exact ih h
    | error =>
      rw [first] at h
      cases h
      rfl

theorem turns_size (sink : Sink σ) (s : σ) (c : Config) :
    turns sink (c.size + 1) s c = .error (c.run sink s) := by
  cases h : turns sink (c.size + 1) s c with
  | ok next =>
    have := size_of_turns h
    omega
  | error r => rw [run_of_turns h]

/-- A scan ends, whatever its document and its sink: after at most three turns for every byte, and
two more, with the result of the run. No turn goes back, of three turns in a row one reads a byte,
and a place that is met again is met further on in the document. -/
theorem turns_progress (sink : Sink σ) :
    (∀ (doc : List UInt8) (init : σ),
        turns sink (3 * doc.length + 2) init (start doc) = .error ((start doc).run sink init)) ∧
      (∀ (s s' : σ) (c d : Config), c.turn sink s = .ok (s', d) → c.pos ≤ d.pos) ∧
      (∀ (s₀ s₁ s₂ s₃ : σ) (c₀ c₁ c₂ c₃ : Config), c₀.turn sink s₀ = .ok (s₁, c₁) →
        c₁.turn sink s₁ = .ok (s₂, c₂) → c₂.turn sink s₂ = .ok (s₃, c₃) →
          c₀.pos < c₁.pos ∨ c₁.pos < c₂.pos ∨ c₂.pos < c₃.pos) ∧
      ∀ (n : Nat) (s s' : σ) (c d : Config), turns sink (n + 1) s c = .ok (s', d) →
        d.pos = c.pos → d.state ≠ c.state := by
  refine ⟨fun doc init => turns_size sink init (start doc), ?_, ?_, ?_⟩
  · intro s s' c d turn
    obtain ⟨us, goes, -⟩ := goes_of_turn turn
    exact goes.pos_le
  · intro s₀ s₁ s₂ s₃ c₀ c₁ c₂ c₃ first second third
    obtain ⟨us₁, goes₁, -⟩ := goes_of_turn first
    obtain ⟨us₂, goes₂, -⟩ := goes_of_turn second
    obtain ⟨us₃, goes₃, -⟩ := goes_of_turn third
    exact goes₁.pos_lt_of_three goes₂ goes₃
  · intro n s s' c d turns same state
    obtain ⟨us, path, -⟩ := path_of_turns turns
    have extent := path.extent_eq
    have smaller := size_of_turns turns
    rw [size, size, state] at smaller
    omega

/-- In `query($a:b=1){c}` two turns stay behind the default value: the value ends, and so does its
variable. The third reads the end of the list. -/
theorem turns_progress_variable :
    let doc : List UInt8 := [0x71, 0x75, 0x65, 0x72, 0x79, 0x28, 0x24, 0x61, 0x3A, 0x62, 0x3D, 0x31,
      0x29, 0x7B, 0x63, 0x7D]
    let here (state : State) : Config := ⟨12, doc.drop 12, 0, state⟩
    let value := here (.afterValue .variableDefault [])
    let behind : Config := ⟨13, doc.drop 13, 0, .selectionSet .operation⟩
    turns Sink.record 50 #[] (start doc) = .error ((start doc).run Sink.record #[]) ∧
      value.turn Sink.record #[] = .ok (#[], here .afterVariable) ∧
      (here .afterVariable).turn Sink.record #[] = .ok (#[], here (.variableName false)) ∧
      (here (.variableName false)).turn Sink.record #[] =
        .ok (#[⟨.variablesClose, 12, 12, 0⟩], behind) ∧
      (value.pos < (here .afterVariable).pos ∨
        (here .afterVariable).pos < (here (.variableName false)).pos ∨
          (here (.variableName false)).pos < behind.pos) ∧
      turns Sink.record 2 #[] value = .ok (#[], here (.variableName false)) ∧
      (here (.variableName false)).state ≠ value.state := by
  intro doc here value behind
  obtain ⟨ends, -, three, again⟩ := turns_progress Sink.record
  have first : value.turn Sink.record #[] = .ok (#[], here .afterVariable) := rfl
  have second : (here .afterVariable).turn Sink.record #[] =
      .ok (#[], here (.variableName false)) := rfl
  have third : (here (.variableName false)).turn Sink.record #[] =
      .ok (#[⟨.variablesClose, 12, 12, 0⟩], behind) := rfl
  have both : turns Sink.record 2 #[] value = .ok (#[], here (.variableName false)) := rfl
  exact ⟨ends doc #[], first, second, third, three _ _ _ _ _ _ _ _ first second third, both,
    again 1 _ _ _ _ both rfl⟩

end Config

end QueryDoc
