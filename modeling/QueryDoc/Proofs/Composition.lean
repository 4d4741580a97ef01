import QueryDoc.Proofs.Acceptance
import QueryDoc.Proofs.Syntax.Steps

/-! A scan does not depend on where in the document it stands, so behind an accepted document and a line
end the scan starts anew. -/
namespace QueryDoc

def Token.shift (n : Nat) (t : Token) : Token := { t with tail := t.tail + n, head := t.head + n }

def Error.shift (n : Nat) (e : Error) : Error := { e with index := e.index + n }

def Ending.shift (n : Nat) : Ending → Ending
  | complete => complete
  | stopped e => stopped (e.shift n)
  | crashed => crashed

def Cursor.shift (n : Nat) (c : Cursor) : Cursor := { c with pos := c.pos + n }

def Config.shift (n : Nat) (c : Config) : Config := { c with pos := c.pos + n }

def Step.shift (n : Nat) : Step → Step
  | silent d => silent (d.shift n)
  | token t d => token (t.shift n) (d.shift n)
  | failed e => failed (e.shift n)
  | finished => finished

theorem Terminal.tokens_shift (t : Terminal) (pos level length n : Nat) :
    t.tokens (pos + n) level length = (t.tokens pos level length).map (Token.shift n) := by
  unfold tokens
  cases t.kind with
  | none => rfl
  | some k => simp only [List.map_cons, List.map_nil, Token.shift, Nat.add_right_comm]

theorem Reads.shift {ts : List Terminal} {c d : Cursor} {us : List Token} (h : Reads ts c us d)
    (n : Nat) : Reads ts (c.shift n) (us.map (Token.shift n)) (d.shift n) := by
  induction h with
  | nil => exact .nil _
  | @cons t ts pos level g w r us d gap text follow _ ih =>
    have place : pos + n + g.length = pos + g.length + n := by omega
    have place' : pos + n + g.length + w.length = pos + g.length + w.length + n := by omega
    rw [List.map_append, ← Terminal.tokens_shift, ← place]
    refine .cons gap text follow ?_
    rw [place']
    exact ih

namespace Config

variable {c d : Config} {us : List Token} {e : Ending}

theorem step_shift (c : Config) (n : Nat) : (c.shift n).step = c.step.shift n := by
  have same : (c.shift n).move = c.move := rfl
  unfold step
  rw [same]
  cases c.move with
  | become next => rfl
  | skip length next => simp only [Step.shift, skip, shift, Nat.add_right_comm]
  | deliver x next => simp only [Step.shift, token, deliver, shift, Token.shift, Nat.add_right_comm]
  | fail offset code x =>
    simp only [Step.shift, error, Error.here, shift, Error.shift, Nat.add_right_comm]
  | finish => rfl

theorem Goes.shift (h : c.Goes us d) (n : Nat) :
    (c.shift n).Goes (us.map (Token.shift n)) (d.shift n) := by
  cases h with
  | silent step => exact .silent (by rw [step_shift, step]; rfl)
  | token step => exact .token (by rw [step_shift, step]; rfl)

theorem Ends.shift (h : c.Ends e) (n : Nat) : (c.shift n).Ends (e.shift n) := by
  cases h with
  | failed step => exact .failed (by rw [step_shift, step]; rfl)
  | finished step => exact .finished (by rw [step_shift, step]; rfl)

theorem Path.shift (h : c.Path us d) (n : Nat) :
    (c.shift n).Path (us.map (Token.shift n)) (d.shift n) := by
  induction h with
  | refl => exact .refl _
  | step first _ ih =>
    rw [List.map_append]
    exact .step (first.shift n) ih

theorem Trace.shift (h : c.Trace us e) (n : Nat) :
    (c.shift n).Trace (us.map (Token.shift n)) (e.shift n) := by
  obtain ⟨d, path, ends⟩ := h
  exact ⟨d.shift n, path.shift n, ends.shift n⟩

end Config

theorem Gap.ahead_append {g : List UInt8} (hg : Text g) (r : List UInt8) :
    ahead (g ++ r) = ahead r := by
  rw [ahead, length_append hg, List.drop_length_add_append, ahead]

namespace Config

variable {pos level : Nat} {g r : List UInt8} {s : State} {us : List Token} {e : Ending}

theorem reaction_append (hg : Gap.Text g) :
    (⟨pos, g ++ r, level, s⟩ : Config).reaction =
      (⟨pos + g.length, r, level, s⟩ : Config).reaction := by
  simp only [reaction, front, Gap.length_append hg, List.drop_length_add_append]

theorem Ends.from_gap (hg : Gap.Text g) (h : (⟨pos + g.length, r, level, s⟩ : Config).Ends e) :
    (⟨pos, g ++ r, level, s⟩ : Config).Ends e := by
  have step := step_eq ⟨pos, g ++ r, level, s⟩
  rw [reaction_append hg] at step
  cases e with
  | complete =>
    cases h with
    | finished done =>
      refine .finished (step.trans ?_)
      rw [step_eq] at done
      cases hm : (⟨pos + g.length, r, level, s⟩ : Config).reaction with
      | finish => rfl
      | _ =>
        rw [hm] at done
        cases done
  | stopped err =>
    obtain ⟨offset, code, x, hm, -, rfl⟩ := h.stopped
    rw [hm] at step
    refine .failed (step.trans ?_)
    have place : offset + (g.length + Gap.length r) = g.length + (offset + Gap.length r) := by omega
    simp only [stepBy, error, Gap.length_append hg, place, List.drop_length_add_append,
      Nat.add_assoc]
  | crashed => cases h

theorem Trace.from_gap (hg : Gap.Text g) (h : (⟨pos + g.length, r, level, s⟩ : Config).Trace us e) :
    (⟨pos, g ++ r, level, s⟩ : Config).Trace us e := by
  obtain ⟨d, path, ends⟩ := h
  generalize hc : (⟨pos + g.length, r, level, s⟩ : Config) = c at path
  -- steps that read nothing stay in front of the gap; the first one that reads passes it
  induction path generalizing s with
  | refl c =>
    subst hc
    exact .of_ends (ends.from_gap hg)
  | @step c m d us vs first rest ih =>
    subst hc
    obtain ⟨label, edge, reads⟩ := first.edge
    cases label with
    | nil =>
      obtain ⟨pos', rest', level', state⟩ := m
      cases reads
      have goes : (⟨pos, g ++ r, level, s⟩ : Config).Goes [] ⟨pos, g ++ r, level, state⟩ := by
        refine goes_of_edge ?_ (.nil _)
        rw [ahead, Gap.ahead_append hg]
        exact edge
      exact .step goes (ih ends rfl)
    | cons t label => exact .step (goes_of_edge edge (reads.prepend hg)) ⟨d, rest, ends⟩

end Config

def Outcome.shift (n : Nat) : Outcome → Outcome
  | ok => ok
  | error e => error (e.shift n)
  | crash .hook => crash .hook
  | crash (.violation e) => crash (.violation (e.shift n))

theorem Options.outcome_shift (o : Options) (e : Ending) (n : Nat) :
    o.outcome (e.shift n) = (o.outcome e).shift n := by
  cases e with
  | complete => rfl
  | stopped err =>
    have code : (err.shift n).code = err.code := rfl
    simp only [Ending.shift, outcome, code]
    split <;> rfl
  | crashed => rfl

theorem Grammar.react_seen {bs : List UInt8} (h : bs ≠ []) (level : Nat) (seen seen' : Bool) :
    react level (.definition seen) bs = react level (.definition seen') bs := by
  have lead : Lead.of bs ≠ .nothing := fun he => h (Lead.of_eq_nothing_iff.1 he)
  have plain (seen : Bool) : definition seen bs = definition false bs := by
    cases seen with
    | false => rfl
    | true =>
      unfold definition
      cases hl : Lead.of bs with
      | nothing => exact absurd hl lead
      | _ => rfl
  exact (plain seen).trans (plain seen').symm

theorem Gap.length_eq_iff {bs : List UInt8} : length bs = bs.length ↔ Closing bs := by
  rw [← drop_length_eq_nil_iff, List.drop_eq_nil_iff]
  have := length_le bs
  omega

namespace Config

variable {c d : Config} {us vs : List Token} {e : Ending}

theorem Trace.of_step_eq (h : c.Trace us e) (hs : d.step = c.step) : d.Trace us e := by
  obtain ⟨ends, rfl⟩ | ⟨us, vs, m, goes, rest, rfl⟩ := h.cases_head
  · refine .of_ends ?_
    cases ends with
    | failed step => exact .failed (hs.trans step)
    | finished step => exact .finished (hs.trans step)
  · refine .step ?_ rest
    cases goes with
    | silent step => exact .silent (hs.trans step)
    | token step => exact .token (hs.trans step)

/-- A document is read to its end whatever follows on the next line, and what is left of it then
becomes a gap in front of that line. -/
theorem Trace.path_line {doc : List UInt8} (h : (start doc).Trace us .complete)
    (more : List UInt8) :
    ∃ pos gap, pos + gap.length = doc.length + 1 ∧ Gap.Text gap ∧
      (start (doc ++ Byte.lineFeed :: more)).Path us ⟨pos, gap ++ more, 0, .definition true⟩ := by
  obtain ⟨ts, d, derives, reads, closing⟩ := h.derivable (placed_start doc)
  obtain ⟨u, hu, hpos⟩ := reads.rest_eq
  have hu : doc = u ++ d.rest := hu
  have hpos : d.pos = 0 + u.length := hpos
  refine ⟨d.pos, d.rest ++ [Byte.lineFeed], ?_, closing.text_lineFeed, ?_⟩
  · rw [hpos, hu]
    simp only [List.length_append, List.length_singleton]
    omega
  · have follow : ∀ t ∈ ts, ∀ w, t.shape.Text w → t.shape.Follow w d.rest.head? →
        t.shape.Follow w (d.rest ++ Byte.lineFeed :: more).head? := by
      intro t _ w text follow
      cases hr : d.rest with
      | cons b r => rwa [hr] at follow
      | nil =>
        rw [hr] at follow
        refine Shape.follow_lineFeed (fun he => ?_) text
        rw [he] at follow
        rcases follow with follow | follow <;> cases follow
    have reads' := reads.replace follow hu
    rw [← List.append_assoc, ← hu] at reads'
    have path := path_of_derives (c := start (doc ++ Byte.lineFeed :: more)) (placed_start _)
      derives reads'
    have level : d.level = 0 := (path.placed (placed_start _)).level_eq_zero rfl
    rw [List.append_assoc, List.singleton_append, ← level]
    exact path

/-- What the next line holds is scanned as if it stood alone. -/
theorem Trace.append_line {doc more : List UInt8} (h : (start doc).Trace us .complete)
    (g : (⟨doc.length + 1, more, 0, .definition true⟩ : Config).Trace vs e) :
    (start (doc ++ Byte.lineFeed :: more)).Trace (us ++ vs) e := by
  obtain ⟨pos, gap, hpos, text, path⟩ := h.path_line more
  rw [← hpos] at g
  obtain ⟨f, rest, ends⟩ := g.from_gap text
  exact ⟨f, path.trans rest, ends⟩

/-- Behind a definition a document is scanned as it is from its start, unless nothing is left. -/
theorem Trace.behind {more : List UInt8} (h : (start more).Trace vs e) (hm : ¬Gap.Closing more)
    (n : Nat) :
    (⟨n, more, 0, .definition true⟩ : Config).Trace (vs.map (Token.shift n)) (e.shift n) := by
  have shifted := h.shift n
  refine shifted.of_step_eq ?_
  have left : more.drop (Gap.length more) ≠ [] := fun he => hm (Gap.drop_length_eq_nil_iff.1 he)
  have same : (⟨n, more, 0, .definition true⟩ : Config).reaction =
      ((start more).shift n).reaction := Grammar.react_seen left 0 true false
  have place : (start more).shift n = ⟨n, more, 0, .definition false⟩ := by
    rw [start, Config.shift, Nat.zero_add]
  rw [step_eq, step_eq, same, place]
  rfl

end Config

/-- A second document behind an accepted one and a line end is scanned as if it stood alone, with
its offsets moved; if it is only a gap, it adds nothing. -/
theorem Scanner.scan_append_line (s : Scanner) (doc more : List UInt8)
    (ok : (s.scan doc).outcome = .ok) :
    (Gap.length more = more.length →
      (s.scan (doc ++ Byte.lineFeed :: more)).outcome = .ok ∧
        (s.scan (doc ++ Byte.lineFeed :: more)).state.toList = (s.scan doc).state.toList) ∧
      (Gap.length more ≠ more.length →
        (s.scan (doc ++ Byte.lineFeed :: more)).state.toList = (s.scan doc).state.toList ++
            (s.scan more).state.toList.map (Token.shift (doc.length + 1)) ∧
          (s.scan (doc ++ Byte.lineFeed :: more)).outcome =
            (s.scan more).outcome.shift (doc.length + 1)) := by
  have complete := (s.outcome_eq_ok_iff doc).1 ok
  have trace := (s.scan_iff_trace doc _ _).1 ⟨rfl, complete⟩
  constructor
  · intro gap
    have ends : (⟨doc.length + 1, more, 0, .definition true⟩ : Config).Ends .complete :=
      Config.ends_complete_iff.2 ⟨rfl, Gap.length_eq_iff.1 gap⟩
    obtain ⟨tokens, ending⟩ := (s.scan_iff_trace _ _ _).2 (trace.append_line (.of_ends ends))
    rw [List.append_nil] at tokens
    exact ⟨(s.outcome_eq_ok_iff _).2 ending, tokens⟩
  · intro gap
    have second := (s.scan_iff_trace more _ _).1 ⟨rfl, rfl⟩
    have behind := second.behind (fun closing => gap (Gap.length_eq_iff.2 closing)) (doc.length + 1)
    obtain ⟨tokens, ending⟩ := (s.scan_iff_trace _ _ _).2 (trace.append_line behind)
    refine ⟨tokens, ?_⟩
    calc
      _ = s.options.outcome (s.scan (doc ++ Byte.lineFeed :: more)).ending := rfl
      _ = _ := by rw [ending, Options.outcome_shift]; rfl

/-- Behind `{a}#` and a line end, the document `{` fails as it does alone, five bytes further on. -/
theorem Scanner.scan_append_line_comment :
    let doc : List UInt8 := [0x7B, 0x61, 0x7D, 0x23]
    (standard.scan doc).outcome = .ok ∧
      (standard.scan (doc ++ Byte.lineFeed :: [0x7B])).outcome =
        .error ⟨6, none, .unexpectedEnd, some .selection⟩ := by
  intro doc
  have ok : (standard.scan doc).outcome = .ok := by decide +kernel
  have gap : Gap.length [0x7B] ≠ [0x7B].length := by decide +kernel
  have alone : (standard.scan [0x7B]).outcome =
      .error ⟨1, none, .unexpectedEnd, some .selection⟩ := by decide +kernel
  refine ⟨ok, ?_⟩
  rw [((scan_append_line standard doc [0x7B] ok).2 gap).2, alone]
  rfl

end QueryDoc
