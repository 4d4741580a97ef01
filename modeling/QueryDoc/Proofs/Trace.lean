import QueryDoc.Scanner

/-! What a scan does apart from any sink: every configuration has exactly one trace, and a run is
that trace seen through a sink. -/
namespace QueryDoc

namespace Config

/-- One step that goes on, with the tokens it delivers. -/
inductive Goes (c : Config) : List Token → Config → Prop
  | silent {d : Config} (step : c.step = .silent d) : Goes c [] d
  | token {t : Token} {d : Config} (step : c.step = .token t d) : Goes c [t] d

inductive Path : Config → List Token → Config → Prop
  | refl (c : Config) : Path c [] c
  | step {c d e : Config} {ts us : List Token} (first : c.Goes ts d) (rest : Path d us e) :
      Path c (ts ++ us) e

/-- No step goes on from here. -/
inductive Ends (c : Config) : Ending → Prop
  | failed {e : Error} (step : c.step = .failed e) : Ends c (.stopped e)
  | finished (step : c.step = .finished) : Ends c .complete

/-- The tokens that follow and the ending behind them. -/
def Trace (c : Config) (ts : List Token) (e : Ending) : Prop := ∃ d, c.Path ts d ∧ d.Ends e

theorem Goes.size_lt {c d : Config} {ts : List Token} (h : c.Goes ts d) : d.size < c.size := by
  cases h with
  | silent h => exact size_lt_of_silent h
  | token h => exact size_lt_of_token h

theorem Path.trans {c d e : Config} {ts us : List Token} (h : c.Path ts d) (g : d.Path us e) :
    c.Path (ts ++ us) e := by
  induction h with
  | refl => exact g
  | step first rest ih =>
    rw [List.append_assoc]
    exact .step first (ih g)

theorem Trace.step {c d : Config} {ts us : List Token} {e : Ending} (h : c.Goes ts d)
    (g : d.Trace us e) : c.Trace (ts ++ us) e := by
  obtain ⟨f, hp, he⟩ := g
  exact ⟨f, .step h hp, he⟩

theorem Trace.of_ends {c : Config} {e : Ending} (h : c.Ends e) : c.Trace [] e := ⟨c, .refl c, h⟩

theorem Trace.cases_head {c : Config} {ts : List Token} {e : Ending} (h : c.Trace ts e) :
    (c.Ends e ∧ ts = []) ∨ ∃ us vs d, c.Goes us d ∧ d.Trace vs e ∧ ts = us ++ vs := by
  obtain ⟨f, hp, he⟩ := h
  cases hp with
  | refl => exact .inl ⟨he, rfl⟩
  | step first rest => exact .inr ⟨_, _, _, first, ⟨f, rest, he⟩, rfl⟩

theorem Trace.split {c : Config} {ts us : List Token} {t : Token} {e : Ending}
    (h : c.Trace (ts ++ t :: us) e) : ∃ d d', c.Path ts d ∧ d.Goes [t] d' ∧ d'.Trace us e := by
  obtain ⟨f, path, ends⟩ := h
  generalize hv : ts ++ t :: us = vs at path
  induction path generalizing ts with
  | refl => simp at hv
  | @step c m f ws vs first rest ih =>
    cases first with
    | silent step =>
      obtain ⟨d, d', hp, hg, ht⟩ := ih ends hv
      exact ⟨d, d', .step (.silent step) hp, hg, ht⟩
    | token step =>
      cases ts with
      | nil =>
        cases hv
        exact ⟨c, m, .refl c, .token step, f, rest, ends⟩
      | cons t' ts =>
        obtain ⟨rfl, rest_eq⟩ := List.cons.inj hv
        obtain ⟨d, d', hp, hg, ht⟩ := ih ends rest_eq
        exact ⟨d, d', .step (.token step) hp, hg, ht⟩

/-- Every configuration ends after finitely many steps, since each makes it smaller. -/
theorem exists_trace (c : Config) : ∃ ts e, c.Trace ts e := by
  cases hs : c.step with
  | silent d =>
    have := size_lt_of_silent hs
    obtain ⟨ts, e, h⟩ := exists_trace d
    exact ⟨_, e, .step (.silent hs) h⟩
  | token t d =>
    have := size_lt_of_token hs
    obtain ⟨ts, e, h⟩ := exists_trace d
    exact ⟨_, e, .step (.token hs) h⟩
  | failed e => exact ⟨[], _, .of_ends (.failed hs)⟩
  | finished => exact ⟨[], _, .of_ends (.finished hs)⟩
termination_by c.size

end Config

namespace Sink

variable {σ : Type}

/-- The sink lets every one of the tokens pass, and its state changes from the first to the
second. -/
def Passes (sink : Sink σ) : σ → List Token → σ → Prop
  | s, [], s' => s = s'
  | s, t :: ts, s' => ∃ u, sink s t = (u, .proceed) ∧ Passes sink u ts s'

theorem passes_append {sink : Sink σ} {s v : σ} {ts us : List Token}
    (h : sink.Passes s (ts ++ us) v) : ∃ u, sink.Passes s ts u ∧ sink.Passes u us v := by
  induction ts generalizing s with
  | nil => exact ⟨s, rfl, h⟩
  | cons t ts ih =>
    obtain ⟨w, hw, hr⟩ := h
    obtain ⟨u, hu, hv⟩ := ih hr
    exact ⟨u, ⟨w, hw, hu⟩, hv⟩

theorem passes_record (acc : Array Token) (ts : List Token) :
    record.Passes acc ts (acc ++ ts.toArray) := by
  induction ts generalizing acc with
  | nil => simp [Passes]
  | cons t ts ih =>
    refine ⟨acc.push t, rfl, ?_⟩
    simpa using ih (acc.push t)

end Sink

namespace Config

variable {σ : Type} {sink : Sink σ}

theorem Goes.run {c d : Config} {ts : List Token} {s s' : σ} (h : c.Goes ts d)
    (hs : sink.Passes s ts s') : c.run sink s = d.run sink s' := by
  cases h with
  | silent h =>
    cases hs
    exact run_of_silent h
  | token h =>
    obtain ⟨u, hu, rfl⟩ := hs
    rw [run_of_token h, hu]

theorem Path.run {c d : Config} {ts : List Token} {s s' : σ} (h : c.Path ts d)
    (hs : sink.Passes s ts s') : c.run sink s = d.run sink s' := by
  induction h generalizing s with
  | refl => cases hs; rfl
  | step first rest ih =>
    obtain ⟨u, hu, hv⟩ := Sink.passes_append hs
    exact (first.run hu).trans (ih hv)

theorem Ends.run {c : Config} {e : Ending} (h : c.Ends e) (s : σ) :
    c.run sink s = ⟨s, e, c⟩ := by
  cases h with
  | failed h => exact run_of_failed h
  | finished h => exact run_of_finished h

theorem Trace.run {c : Config} {ts : List Token} {e : Ending} {s s' : σ} (h : c.Trace ts e)
    (hs : sink.Passes s ts s') : (c.run sink s).state = s' ∧ (c.run sink s).ending = e := by
  obtain ⟨d, hp, he⟩ := h
  rw [hp.run hs, he.run]
  exact ⟨rfl, rfl⟩

theorem Trace.unique {c : Config} {ts us : List Token} {e f : Ending} (h : c.Trace ts e)
    (g : c.Trace us f) : ts = us ∧ e = f := by
  obtain ⟨state, ending⟩ := h.run (Sink.passes_record #[] ts)
  obtain ⟨state', ending'⟩ := g.run (Sink.passes_record #[] us)
  have same : #[] ++ ts.toArray = #[] ++ us.toArray := state.symm.trans state'
  exact ⟨by simpa using same, ending.symm.trans ending'⟩

end Config

/-- The tokens and the ending of a scan that keeps every token are the trace of the document. -/
theorem Scanner.scan_iff_trace (s : Scanner) (doc : List UInt8) (ts : List Token) (e : Ending) :
    ((s.scan doc).state.toList = ts ∧ (s.scan doc).ending = e) ↔
      (Config.start doc).Trace ts e := by
  have run {us : List Token} {f : Ending} (h : (Config.start doc).Trace us f) :
      (s.scan doc).state.toList = us ∧ (s.scan doc).ending = f := by
    have := h.run (Sink.passes_record #[] us)
    simpa [scan, scanInto, ← Array.toList_inj] using this
  constructor
  · rintro ⟨rfl, rfl⟩
    obtain ⟨us, f, h⟩ := Config.exists_trace (.start doc)
    obtain ⟨hu, hf⟩ := run h
    rwa [hu, hf]
  · exact run

theorem Options.outcome_eq_ok_iff (o : Options) (e : Ending) :
    o.outcome e = .ok ↔ e = .complete := by
  cases e with
  | complete => simp [outcome]
  | stopped err =>
    simp only [outcome]
    split <;> simp
  | crashed => simp [outcome]

end QueryDoc
