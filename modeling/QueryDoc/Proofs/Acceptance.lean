import QueryDoc.Proofs.Syntax.Predict
import QueryDoc.Proofs.Syntax.Steps

/-! A scan succeeds exactly on the documents that derive from the grammar, and delivers the tokens
of the derivation. -/
namespace QueryDoc

theorem Edge.to_definition {level : Nat} {s : State} {label : List Terminal} {x : Lead}
    (h : Edge level s label x (.definition true)) :
    s.mayCloseSet = true ∧ label = [.punct .closeBrace .setClose] ∧
      State.afterSet level = .definition true := by
  have site (site : Site) : site.resume ≠ .definition true := by cases site <;> nofun
  generalize hs : State.definition true = s' at h ⊢
  cases h with
  | closeSet may => exact ⟨may, rfl, rfl⟩
  | @directiveEnd site' => exact absurd hs.symm (site site')
  | @argumentsEnd owner =>
    cases owner with
    | field => cases hs
    | directive site' => exact absurd hs.symm (site site')
  | @valueEnd use => cases use <;> cases hs
  | _ => cases hs

theorem Edge.of_definition {level : Nat} {s : State} {label : List Terminal} {x : Lead}
    (h : Edge level s label x (.definition true)) (y : Lead) :
    Edge level s label y (.definition true) := by
  obtain ⟨may, rfl, after⟩ := h.to_definition
  rw [← after]
  exact .closeSet may

namespace Config

/-- The configuration is at a place that may be reached at its depth. -/
def Placed (c : Config) : Prop := c.state.Placed c.level

theorem placed_start (doc : List UInt8) : (start doc).Placed :=
  ⟨⟨nofun, fun h => absurd h (Nat.lt_irrefl 0)⟩, trivial⟩

theorem Goes.placed {c d : Config} {us : List Token} (h : c.Goes us d) (hp : c.Placed) :
    d.Placed := by
  obtain ⟨label, edge, reads⟩ := h.edge
  have hl : d.level = Terminal.levels label c.level := reads.level_eq
  rw [Placed, hl]
  exact edge.placed hp

theorem Path.placed {c d : Config} {us : List Token} (h : c.Path us d) (hp : c.Placed) :
    d.Placed := by
  induction h with
  | refl => exact hp
  | step first _ ih => exact ih (first.placed hp)

theorem Placed.level_eq_zero {c : Config} (hp : c.Placed) {seen : Bool}
    (hs : c.state = .definition seen) : c.level = 0 := by
  refine Nat.eq_zero_of_not_pos fun h => ?_
  have := hp.depth.2 h
  rw [hs] at this
  cases this

/-- The rest of the document derives from what is left at the place, with these tokens. -/
def Derivable (c : Config) (us : List Token) : Prop :=
  ∃ ts d, Derives (c.state.form c.level) ts ∧ Reads ts c.cursor us d ∧ Gap.Closing d.rest

theorem ends_complete_iff {c : Config} :
    c.Ends .complete ↔ c.state = .definition true ∧ Gap.Closing c.rest := by
  rw [← Gap.drop_length_eq_nil_iff]
  constructor
  · intro h
    cases h with
    | finished h =>
      have follows := Grammar.follows_react c.level c.state c.front
      rw [step_eq, reaction] at h
      cases hm : Grammar.react c.level c.state c.front with
      | finish =>
        rw [hm] at follows
        exact follows
      | _ =>
        rw [hm] at h
        cases h
  · rintro ⟨hs, hr⟩
    have hm : c.reaction = .finish := by
      rw [reaction, hs, front, hr]
      rfl
    refine .finished ?_
    rw [step_eq, hm]
    rfl

theorem ahead_of_reads {c : Config} {ts : List Terminal} {us : List Token} {d : Cursor}
    (h : Reads ts c.cursor us d) (hd : Gap.Closing d.rest) : Ahead ts c.ahead := by
  cases ts with
  | nil =>
    cases h
    exact Lead.of_eq_nothing_iff.2 (Gap.drop_length_eq_nil_iff.2 hd)
  | cons t ts =>
    obtain ⟨n, vs, fit, -, -⟩ := reads_cursor_iff.1 h
    exact fit.lead_mem

theorem Goes.derives {c m : Config} {us vs : List Token} {ts : List Terminal} {e : Cursor}
    (h : c.Goes us m) (hp : c.Placed) (hd : Derives (m.state.form m.level) ts)
    (reads : Reads ts m.cursor vs e) (closing : Gap.Closing e.rest) :
    ∃ label, Edge c.level c.state label m.ahead m.state ∧ Reads label c.cursor us m.cursor ∧
      Derives (c.state.form c.level) (label ++ ts) := by
  obtain ⟨label, edge, read⟩ := h.edge
  have hl : m.level = Terminal.levels label c.level := read.level_eq
  refine ⟨label, edge, read, edge.derives hp (hl ▸ hd) ?_⟩
  rintro rfl
  rw [← edge.ahead_of_mark]
  exact ahead_of_reads reads closing

theorem Path.derives {c d : Config} {us vs : List Token} {ts : List Terminal} {e : Cursor}
    (path : c.Path us d) (hp : c.Placed) (hd : Derives (d.state.form d.level) ts)
    (reads : Reads ts d.cursor vs e) (closing : Gap.Closing e.rest) :
    ∃ before, Reads before c.cursor us d.cursor ∧
      Derives (c.state.form c.level) (before ++ ts) := by
  induction path with
  | refl c => exact ⟨[], .nil _, hd⟩
  | @step c m d us ws first rest ih =>
    obtain ⟨before, read, derives⟩ := ih (first.placed hp) hd reads
    obtain ⟨label, -, read', derives'⟩ := first.derives hp derives (read.append reads) closing
    rw [← List.append_assoc] at derives'
    exact ⟨label ++ before, read'.append read, derives'⟩

theorem Trace.derivable {c : Config} {us : List Token} (h : c.Trace us .complete)
    (hp : c.Placed) : c.Derivable us := by
  obtain ⟨d, path, ends⟩ := h
  obtain ⟨hs, closing⟩ := ends_complete_iff.1 ends
  have nothing : Derives (d.state.form d.level) [] := by
    rw [hs, (path.placed hp).level_eq_zero hs]
    exact .done .nil
  obtain ⟨ts, reads, derives⟩ := path.derives hp nothing (.nil _) closing
  rw [List.append_nil] at derives
  exact ⟨ts, d.cursor, derives, reads, closing⟩

/-- A scan follows a derivation, whatever stands behind it. -/
theorem path_of_derives {c : Config} {ts : List Terminal} {us : List Token} {d : Cursor}
    (hp : c.Placed) (hd : Derives (c.state.form c.level) ts) (reads : Reads ts c.cursor us d) :
    c.Path us ⟨d.pos, d.rest, d.level, .definition true⟩ := by
  rcases predicted hp hd with ⟨hs, rfl⟩ | ⟨label, next, us', rfl, hd', edge⟩
  · obtain ⟨pos, rest, level, state⟩ := c
    cases hs
    cases reads
    exact .refl _
  · obtain ⟨m, vs, vs', first, rest, rfl⟩ := reads.of_append
    have hl : m.level = Terminal.levels label c.level := first.level_eq
    have edge : Edge c.level c.state label (Gap.ahead m.rest) next := by
      cases us' with
      | nil =>
        obtain rfl := eq_definition_of_derives_nil ((edge .nothing rfl).placed hp) hd'
        exact (edge .nothing rfl).of_definition _
      | cons t us' =>
        obtain ⟨n, ws, fit, -, -⟩ := reads_cons_iff.1 rest
        exact edge _ fit.lead_mem
    have goes : c.Goes vs ⟨m.pos, m.rest, m.level, next⟩ := goes_of_edge edge first
    have := goes.size_lt
    exact .step goes (path_of_derives (goes.placed hp) (hl ▸ hd') rest)
termination_by c.size

theorem Derivable.trace {c : Config} {us : List Token} (h : c.Derivable us) (hp : c.Placed) :
    c.Trace us .complete := by
  obtain ⟨ts, d, hd, reads, closing⟩ := h
  exact ⟨_, path_of_derives hp hd reads, ends_complete_iff.2 ⟨rfl, closing⟩⟩

theorem trace_complete_iff {doc : List UInt8} {us : List Token} :
    (start doc).Trace us .complete ↔ Document doc us := by
  have plus {ts : List Terminal} :
      Derives [.rule .document] ts ↔ Derives ((start doc).state.form 0) ts := by
    constructor
    · intro h
      cases h with
      | rule h => exact h
    · intro h
      exact .rule h
  constructor
  · intro h
    obtain ⟨ts, d, hd, rest⟩ := h.derivable (placed_start doc)
    exact ⟨ts, d, plus.2 hd, rest⟩
  · rintro ⟨ts, d, hd, rest⟩
    exact Derivable.trace ⟨ts, d, plus.1 hd, rest⟩ (placed_start doc)

end Config

theorem Scanner.outcome_eq_ok_iff (s : Scanner) (doc : List UInt8) :
    (s.scan doc).outcome = .ok ↔ (s.scan doc).ending = .complete :=
  s.options.outcome_eq_ok_iff _

/-- A scan succeeds exactly on the documents of the grammar, and a document of the grammar is
scanned into the tokens of its derivation. -/
theorem Scanner.scan_ok_iff_document (s : Scanner) (doc : List UInt8) :
    ((s.scan doc).outcome = .ok ↔ ∃ us, Document doc us) ∧
      ∀ us, Document doc us ↔ (s.scan doc).outcome = .ok ∧ (s.scan doc).state.toList = us := by
  have scanned (us : List Token) : Document doc us ↔
      (s.scan doc).outcome = .ok ∧ (s.scan doc).state.toList = us := by
    rw [outcome_eq_ok_iff, and_comm, scan_iff_trace, Config.trace_complete_iff]
  refine ⟨?_, scanned⟩
  constructor
  · intro h
    exact ⟨_, (scanned _).2 ⟨h, rfl⟩⟩
  · rintro ⟨us, h⟩
    exact ((scanned us).1 h).1

end QueryDoc
