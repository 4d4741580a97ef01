import QueryDoc.Proofs.Cancellation
import QueryDoc.Proofs.JobRoutine

/-! A sink is handed the tokens of the document up to the first one that it does not let pass, and
nothing else about it changes the scan. -/
namespace QueryDoc

namespace Sink

variable {σ : Type} {sink : Sink σ} {init s u : σ} {ts handed : List Token} {e e' : Ending}

theorem Passes.keeping (h : sink.Passes s ts u) (kept : List Token) :
    sink.keeping.Passes (s, kept) ts (u, kept ++ ts) := by
  induction ts generalizing s kept with
  | nil =>
    cases h
    rw [List.append_nil]
    rfl
  | cons t ts ih =>
    obtain ⟨v, hv, rest⟩ := h
    refine ⟨(v, kept ++ [t]), ?_, ?_⟩
    · simp only [Sink.keeping, hv]
    · have := ih rest (kept ++ [t])
      rwa [List.append_assoc] at this

theorem passes_or_breaks (sink : Sink σ) (s : σ) (ts : List Token) :
    (∃ u, sink.Passes s ts u) ∨
      ∃ before t after u, ts = before ++ t :: after ∧ sink.Passes s before u ∧
        (sink u t).2 ≠ .proceed := by
  induction ts generalizing s with
  | nil => exact .inl ⟨s, rfl⟩
  | cons t ts ih =>
    by_cases hv : (sink s t).2 = .proceed
    · have step : sink s t = ((sink s t).1, .proceed) := Prod.ext rfl hv
      obtain ⟨u, hu⟩ | ⟨before, t', after, u, rfl, hu, hb⟩ := ih (sink s t).1
      · exact .inl ⟨u, _, step, hu⟩
      · exact .inr ⟨t :: before, t', after, u, rfl, ⟨_, step, hu⟩, hb⟩
    · exact .inr ⟨[], t, ts, s, rfl, rfl, hv⟩

/-- What a sink gets of a scan that delivers the tokens `ts` and then ends with `e`: the tokens it
is handed, its state behind them, and the ending of its own scan. -/
inductive Receives (sink : Sink σ) (init : σ) (ts : List Token) (e : Ending) :
    List Token → σ → Ending → Prop
  | all {s : σ} (passes : sink.Passes init ts s) : Receives sink init ts e ts s e
  | stopped {before after : List Token} {t : Token} {u s : σ} {code : ErrorCode} {err : Error}
      (split : ts = before ++ t :: after) (passes : sink.Passes init before u)
      (stop : sink u t = (s, .stop code)) (code_eq : err.code = code)
      (expected_eq : err.expected = none) :
      Receives sink init ts e (before ++ [t]) s (.stopped err)
  | crashed {before after : List Token} {t : Token} {u s : σ}
      (split : ts = before ++ t :: after) (passes : sink.Passes init before u)
      (crash : sink u t = (s, .crash)) : Receives sink init ts e (before ++ [t]) s .crashed

theorem Receives.subset (h : sink.Receives init ts e handed s e') : handed ⊆ ts := by
  cases h with
  | all => exact List.Subset.refl ts
  | stopped split => simp [split]
  | crashed split => simp [split]

theorem Receives.whole (h : sink.Receives init ts e handed s e')
    (never : ∀ u t code, (sink u t).2 ≠ .stop code) (intact : e' ≠ .crashed) :
    sink.Passes init ts s ∧ handed = ts ∧ e' = e := by
  cases h with
  | all passes => exact ⟨passes, rfl, rfl⟩
  | @stopped _ _ t u _ code _ _ _ stop => exact absurd (congrArg Prod.snd stop) (never u t code)
  | crashed => exact absurd rfl intact

end Sink

/-- A run hands its sink the tokens of the trace, as far as the sink lets them pass. -/
theorem Config.Trace.receives {σ : Type} {c : Config} {ts : List Token} {e : Ending}
    (h : c.Trace ts e) (sink : Sink σ) (init : σ) :
    sink.Receives init ts e (c.run sink.keeping (init, [])).state.2 (c.run sink init).state
      (c.run sink init).ending := by
  obtain ⟨u, passes⟩ | ⟨before, t, after, u, rfl, passes, breaks⟩ :=
    sink.passes_or_breaks init ts
  · obtain ⟨state, ending⟩ := h.run passes
    obtain ⟨kept, -⟩ := h.run (passes.keeping [])
    rw [state, ending, kept]
    exact .all passes
  · obtain ⟨b, d, path, goes, -⟩ := h.split
    obtain ⟨step⟩ | ⟨step⟩ := goes
    have run := (path.run passes).trans (run_of_token step)
    have kept := (path.run (passes.keeping [])).trans (run_of_token step)
    rw [Sink.keeping] at kept
    cases hv : sink u t with
    | mk s verdict =>
      rw [hv] at run kept breaks
      cases verdict with
      | proceed => exact absurd rfl breaks
      | stop code =>
        rw [run, kept]
        exact .stopped rfl passes hv rfl rfl
      | crash =>
        rw [run, kept]
        exact .crashed rfl passes hv

theorem Notes.tokens_decode (n : Notes) (d : Option Decoding) (doc : List UInt8) (ordinal : Nat)
    (t : Token) : (n.decode d doc ordinal t).tokens = n.tokens := by
  unfold decode
  split
  · rfl
  · split <;> rfl

theorem Notes.tokens_startAll (n : Notes) (doc : List UInt8) (ordinal : Nat) (t : Token)
    (starters : List Starter) : (n.startAll doc ordinal t starters).1.tokens = n.tokens := by
  induction starters generalizing n with
  | nil => rfl
  | cons x rest ih =>
    unfold startAll
    split
    · simp only
      split
      · rfl
      · exact ih _
    · exact ih _

namespace Plan

variable {plan : Plan} {onStop : Option ErrorCode} {starters : List Starter}

theorem tokens_sink (plan : Plan) (onStop : Option ErrorCode) (starters : List Starter) (n : Notes)
    (t : Token) : (plan.sink onStop starters n t).1.tokens = n.tokens.push t := by
  rw [sink_eq, Notes.tokens_startAll, Notes.tokens_decode]
  rfl

theorem tokens_passes {n n' : Notes} {ts : List Token}
    (h : (plan.sink onStop starters).Passes n ts n') :
    n'.tokens.toList = n.tokens.toList ++ ts := by
  induction ts generalizing n with
  | nil =>
    cases h
    simp
  | cons t ts ih =>
    obtain ⟨v, hv, rest⟩ := h
    have pushed : v.tokens = n.tokens.push t := by
      rw [← tokens_sink plan onStop starters, hv]
    rw [ih rest, pushed]
    simp

theorem sink_ne_stop (never : onStop = none ∨ plan.stop = .never) (n : Notes) (t : Token)
    (code : ErrorCode) : (plan.sink onStop starters n t).2 ≠ .stop code := by
  rw [sink_eq]
  unfold verdict
  simp only
  split
  · simp
  · split
    · next fires =>
        rcases never with rfl | hs
        · simp
        · rw [hs] at fires
          simp [Trigger.fires, Trigger.never] at fires
    · simp

end Plan

theorem Scanner.receives {σ : Type} (s : Scanner) (doc : List UInt8) (sink : Sink σ) (init : σ) :
    sink.Receives init (s.scan doc).state.toList (s.scan doc).ending
      (s.scanInto doc sink.keeping (init, [])).state.2 (s.scanInto doc sink init).state
      (s.scanInto doc sink init).ending :=
  ((s.scan_iff_trace doc _ _).1 ⟨rfl, rfl⟩).receives sink init

/-- The sessions that scans through the pool can come to. While a scan runs, its scanner is out of
the pool. -/
inductive Session.Reached : Session → Prop
  | empty : Reached .empty
  | clearLog {s : Session} (before : Reached s) : Reached s.clearLog
  | borrow {s : Session} (before : Reached s) : Reached s.borrow.2
  | perform {s : Session} (before : Reached s) (job : Job) : Reached (job.perform s).1

theorem Session.Reached.standard {s : Session} (h : s.Reached) : s.Standard := by
  induction h with
  | empty => exact fun x hx => absurd hx List.not_mem_nil
  | clearLog _ ih => exact ih
  | borrow _ ih => exact ih.borrow.2
  | perform _ job ih => exact job.standard_perform ih

theorem Buffer.passes_write (b : Buffer) (ts : List Token)
    (room : b.written + ts.length ≤ b.records.size) :
    ∃ b', write.Passes b ts b' ∧ b'.written = b.written + ts.length ∧
      b'.records.toList = b.records.toList.take b.written ++ ts ++
        b.records.toList.drop (b.written + ts.length) := by
  induction ts generalizing b with
  | nil => exact ⟨b, rfl, rfl, by simp⟩
  | cons t ts ih =>
    rw [List.length_cons] at room
    have hw : b.written < b.records.size := by omega
    let next : Buffer := ⟨b.records.set b.written t hw, b.written + 1⟩
    have step : write b t = (next, .proceed) := dif_pos hw
    obtain ⟨b', passes, written, records⟩ := ih next (by simp only [next, Array.size_set]; omega)
    refine ⟨b', ⟨next, step, passes⟩, ?_, ?_⟩
    · rw [written, List.length_cons]
      simp only [next]
      omega
    · have hl : b.written < b.records.toList.length := hw
      have first : (b.records.toList.set b.written t).take (b.written + 1) =
          b.records.toList.take b.written ++ [t] := by
        rw [List.take_succ_eq_append_getElem (by rwa [List.length_set]),
          List.take_set_of_le (Nat.le_refl _), List.getElem_set_self]
      have last : (b.records.toList.set b.written t).drop (b.written + 1 + ts.length) =
          b.records.toList.drop (b.written + (ts.length + 1)) := by
        rw [List.drop_set_of_lt (by omega)]
        congr 1
        omega
      rw [records]
      simp only [next, Array.toList_set, first, last, List.length_cons]
      simp

/-- A buffer to be written from its start on holds the tokens that fit in front of the records that
it held there before. -/
theorem Buffer.passes_ofRecords (records : Array Token) (ts : List Token)
    (room : ts.length ≤ records.size) :
    ∃ b, write.Passes (.ofRecords records) ts b ∧ b.written = ts.length ∧
      b.records.toList = ts ++ records.toList.drop ts.length := by
  obtain ⟨b, passes, written, kept⟩ := passes_write (.ofRecords records) ts
    (by simpa [ofRecords] using room)
  refine ⟨b, passes, ?_, ?_⟩
  · simpa [ofRecords] using written
  · simpa [ofRecords] using kept

namespace Plan

variable {plan : Plan} {starters : List Starter} {scanner : Scanner} {session : Session}

theorem report_of_hook (hs : scanner.options = .standard) {onStop : Option ErrorCode}
    (delivery : plan.delivery = .hook onStop) (never : onStop = none ∨ plan.stop = .never)
    (intact : (plan.run starters scanner session).2.2.outcome ≠ .crash .hook) :
    (plan.run starters scanner session).2.2.tokens =
        (Scanner.standard.scan plan.input).state.toList ∧
      (plan.run starters scanner session).2.2.outcome =
        (Scanner.standard.scan plan.input).outcome := by
  let scan := scanner.scanInto plan.input (plan.sink onStop starters) (.start session)
  have tokens : (plan.run starters scanner session).2.2.tokens = scan.state.tokens.toList := by
    simp only [run, delivery, scan]
  have outcome : (plan.run starters scanner session).2.2.outcome =
      Options.standard.outcome scan.ending := by
    rw [← hs]
    simp only [run, delivery]
    rfl
  rw [outcome] at intact
  have received := scanner.receives plan.input (plan.sink onStop starters) (.start session)
  obtain ⟨passes, -, ending⟩ := received.whole (fun n t code => sink_ne_stop never n t code) (by
    intro crashed
    apply intact
    rw [show scan.ending = .crashed from crashed]
    rfl)
  rw [tokens, outcome, tokens_passes passes]
  refine ⟨rfl, ?_⟩
  rw [show scan.ending = _ from ending]
  rfl

theorem report_of_buffer (hs : scanner.options = .standard) {capacity : Nat}
    (delivery : plan.delivery = .buffer capacity)
    (room : (Scanner.standard.scan plan.input).state.size ≤ capacity) :
    ∃ b, (plan.run starters scanner session).2.2.buffer = some b ∧
      b.written = (Scanner.standard.scan plan.input).state.size ∧
      b.records.toList.take b.written = (Scanner.standard.scan plan.input).state.toList ∧
      (plan.run starters scanner session).2.2.outcome =
        (Scanner.standard.scan plan.input).outcome := by
  have trace := (Scanner.standard.scan_iff_trace plan.input _ _).1 ⟨rfl, rfl⟩
  obtain ⟨b, passes, written, records⟩ :=
    Buffer.passes_ofRecords (Array.replicate capacity Token.blank)
      (Scanner.standard.scan plan.input).state.toList (by simpa using room)
  obtain ⟨state, ending⟩ := trace.run passes
  have buffer : (plan.run starters scanner session).2.2.buffer = some b := by
    simp only [run, delivery, Scanner.fill, Scanner.scanInto, state]
  have outcome : (plan.run starters scanner session).2.2.outcome =
      Options.standard.outcome (Scanner.standard.scan plan.input).ending := by
    rw [← hs]
    simp only [run, delivery, Scanner.fill, Scanner.scanInto, ending]
  refine ⟨b, buffer, written, ?_, outcome⟩
  rw [records, written, List.take_left]

end Plan

/-- Every sink is handed the tokens of the scan that keeps them all, up to the first one that it
does not let pass. If it lets all of them pass, the scan has the same result; if it asks for the
end, the result is an error with its code. So do scans with a hook that never asks for the end
agree with that scan, and scans through the pool. -/
theorem Scanner.receivers_see_scan (s : Scanner) (doc : List UInt8) :
    (∀ (σ : Type) (sink : Sink σ) (init : σ),
      sink.Receives init (s.scan doc).state.toList (s.scan doc).ending
          (s.scanInto doc sink.keeping (init, [])).state.2 (s.scanInto doc sink init).state
          (s.scanInto doc sink init).ending ∧
        ((s.scanInto doc sink init).ending = (s.scan doc).ending →
          (s.scanInto doc sink init).outcome = (s.scan doc).outcome) ∧
        ∀ e, (s.scanInto doc sink init).ending = .stopped e →
          s.options.haltOnError = false ∨ e.code.isRequest = true →
            (s.scanInto doc sink init).outcome = .error e) ∧
      (∀ (σ : Type) (hook : σ → Token → σ × Bool) (init : σ), (∀ u t, (hook u t).2 = false) →
        (s.scanUntil doc hook init).state = Hook.feed hook init (s.scan doc).state.toList ∧
          (s.scanUntil doc (Hook.keeping hook) (init, [])).state.2 = (s.scan doc).state.toList ∧
          (s.scanUntil doc hook init).ending = (s.scan doc).ending ∧
          (s.scanUntil doc hook init).outcome = (s.scan doc).outcome) ∧
      ∀ (session : Session) (plan : Plan) (nested : List (Trigger × Job)), session.Reached →
        plan.input = doc →
        (∀ onStop, plan.delivery = .hook onStop → (onStop = none ∨ plan.stop = .never) →
          ((Job.mk plan nested).perform session).2.outcome ≠ .crash .hook →
            ((Job.mk plan nested).perform session).2.tokens =
                (standard.scan doc).state.toList ∧
              ((Job.mk plan nested).perform session).2.outcome = (standard.scan doc).outcome) ∧
        (∀ capacity, plan.delivery = .buffer capacity →
          (standard.scan doc).state.size ≤ capacity →
            ∃ b, ((Job.mk plan nested).perform session).2.buffer = some b ∧
              b.written = (standard.scan doc).state.size ∧
              b.records.toList.take b.written = (standard.scan doc).state.toList ∧
              ((Job.mk plan nested).perform session).2.outcome =
                (standard.scan doc).outcome) := by
  refine ⟨fun σ sink init => ⟨s.receives doc sink init, ?_, ?_⟩, fun σ hook init never => ?_,
    fun session plan nested reached input => ?_⟩
  · intro ending
    exact congrArg s.options.outcome ending
  · intro e ending returned
    change s.options.outcome (s.scanInto doc sink init).ending = _
    rw [ending, Options.outcome]
    refine if_neg ?_
    rcases returned with h | h <;> simp [h]
  · have trace := (s.scan_iff_trace doc _ _).1 ⟨rfl, rfl⟩
    have passes {τ : Type} {hook : τ → Token → τ × Bool} (never : ∀ u t, (hook u t).2 = false)
        (init : τ) : (Sink.abortable hook).Passes init (s.scan doc).state.toList
          (Hook.feed hook init (s.scan doc).state.toList) :=
      Hook.passes_of_false fun i t _ => never _ t
    obtain ⟨state, ending⟩ := trace.run (passes never init)
    have keeps : ∀ u t, (Hook.keeping hook u t).2 = false := fun u t => never u.1 t
    obtain ⟨kept, -⟩ := trace.run (passes keeps (init, []))
    refine ⟨state, ?_, ending, congrArg s.options.outcome ending⟩
    simp only [scanUntil, scanInto, kept, Hook.feed_keeping, List.nil_append]
  · subst input
    rw [Job.perform_eq]
    have options := reached.standard.borrow.1
    exact ⟨fun onStop delivery never intact => Plan.report_of_hook options delivery never intact,
      fun capacity delivery room => Plan.report_of_buffer options delivery room⟩

/-- In `{a}` a receiver that asks for the end at the second token gets two of the four tokens, and
the pool hands out all four. -/
theorem Scanner.receivers_see_scan_shorthand :
    let doc : List UInt8 := [0x7B, 0x61, 0x7D]
    let sink : Sink Nat := fun n _ => (n + 1, if n = 1 then .stop .bufferFull else .proceed)
    let full := (standard.scan doc).state.toList
    full.length = 4 ∧
      sink.Receives 0 full .complete (full.take 2) 2
        (.stopped ⟨1, some 'a', .bufferFull, none⟩) ∧
      ((Job.mk (.plain doc) []).perform .empty).2.tokens = full := by
  intro doc sink full
  obtain ⟨receives, -, pooled⟩ := receivers_see_scan standard doc
  refine ⟨by decide +kernel, ?_, ?_⟩
  · have received := (receives Nat sink 0).1
    have complete : (standard.scan doc).ending = .complete := by decide +kernel
    have handed : (standard.scanInto doc sink.keeping (0, [])).state.2 = full.take 2 := by
      decide +kernel
    have state : (standard.scanInto doc sink 0).state = 2 := by decide +kernel
    have ending : (standard.scanInto doc sink 0).ending =
        .stopped ⟨1, some 'a', .bufferFull, none⟩ := by decide +kernel
    rwa [complete, handed, state, ending] at received
  · have intact : ((Job.mk (.plain doc) []).perform .empty).2.outcome ≠ .crash .hook := by
      decide +kernel
    exact ((pooled .empty (.plain doc) [] .empty rfl).1 none rfl (.inl rfl) intact).1

end QueryDoc
