import Mathlib.Data.List.Forall2
import QueryDoc.Proofs.Routine

/-! A job is read as the program that runs the scan of its plan and, in the hook, the programs of
its nested jobs. -/
namespace QueryDoc

namespace Plan

/-- What the hook of a plan answers when the scans it has started are over. -/
def verdict (plan : Plan) (onStop : Option ErrorCode) (ordinal : Nat) (t : Token)
    (crashed : Bool) : Verdict :=
  if crashed || plan.crash.fires plan.input ordinal t then .crash
  else if plan.stop.fires plan.input ordinal t then
    match onStop with
    | some code => .stop code
    | none => .proceed
  else .proceed

theorem sink_eq (plan : Plan) (onStop : Option ErrorCode) (starters : List Starter) (n : Notes)
    (t : Token) :
    plan.sink onStop starters n t =
      let started := ((n.keepToken t).decode plan.decoding plan.input n.tokens.size t).startAll
        plan.input n.tokens.size t starters
      (started.1, plan.verdict onStop n.tokens.size t started.2) := by
  simp only [sink, verdict]
  split
  · rfl
  · split
    · cases onStop <;> rfl
    · rfl

end Plan

/-- Runs the programs whose trigger fires, as far as none of them reports that it broke down. -/
def Notes.startPrograms (n : Notes) (doc : List UInt8) (ordinal : Nat) (t : Token) :
    List (Trigger × Routine Report) → Routine (Notes × Bool)
  | [] => .done (n, false)
  | (trigger, program) :: rest =>
    if trigger.fires doc ordinal t then
      program.bind fun report =>
        let n := { n with nested := n.nested.push report }
        if report.outcome.isCrash then .done (n, true) else n.startPrograms doc ordinal t rest
    else n.startPrograms doc ordinal t rest

namespace Plan

/-- The hook of a plan that starts programs. The session in its notes stays empty. -/
def hook (plan : Plan) (onStop : Option ErrorCode) (programs : List (Trigger × Routine Report))
    (n : Notes) (t : Token) : Routine (Notes × Verdict) :=
  let started := ((n.keepToken t).decode plan.decoding plan.input n.tokens.size t).startPrograms
    plan.input n.tokens.size t programs
  started.bind fun r => .done (r.1, plan.verdict onStop n.tokens.size t r.2)

def routine (plan : Plan) (source : Source) (programs : List (Trigger × Routine Report)) :
    Routine Report :=
  match plan.delivery with
  | .hook onStop =>
    .scan source plan.input (plan.hook onStop programs) (.start .empty) fun n outcome =>
      .done ⟨plan.input, n.tokens.toList, n.decoded.toList, n.nested.toList, none, outcome⟩
  | .buffer capacity =>
    .scan source plan.input (fun b t => .done (Buffer.write b t))
      (.ofRecords (Array.replicate capacity Token.blank)) fun b outcome =>
      .done ⟨plan.input, [], [], [], some b, outcome⟩

end Plan

mutual

/-- The program of a job; its nested jobs always use the pool. -/
def Job.routine (source : Source) : Job → Routine Report
  | mk plan nested => plan.routine source (programs nested)

def Job.programs : List (Trigger × Job) → List (Trigger × Routine Report)
  | [] => []
  | (trigger, job) :: rest => (trigger, job.routine .pool) :: programs rest

end

/-- A way to run programs, part by part, from a state that scans share. -/
structure Runner (ω : Type) where
  run : {α : Type} → Routine α → ω → α × ω
  run_done : ∀ {α : Type} (value : α) (w : ω), run (.done value) w = (value, w)
  run_bind : ∀ {α β : Type} (r : Routine α) (f : α → Routine β) (w : ω),
    run (r.bind f) w = run (f (run r w).1) (run r w).2

section
variable {ω : Type} (runner : Runner ω) (rel : Session → List Report → ω → Prop)

/-- The starter and the program leave the same report, and what scans share stays related to the
session and to the reports so far. -/
structure Runner.Starts (x : Starter) (p : Trigger × Routine Report) : Prop where
  trigger : x.trigger = p.1
  report : ∀ s rs w, rel s rs w → (x.start s).2 = (runner.run p.2 w).1
  related : ∀ s rs w, rel s rs w →
    rel (x.start s).1 (rs ++ [(x.start s).2]) (runner.run p.2 w).2

/-- The notes are the same up to the session, which is related to what scans share. -/
structure Notes.Alike (n : Notes) (m : Notes × ω) : Prop where
  tokens : n.tokens = m.1.tokens
  decoded : n.decoded = m.1.decoded
  nested : n.nested = m.1.nested
  related : rel n.session n.nested.toList m.2

variable {runner rel} {starters : List Starter} {programs : List (Trigger × Routine Report)}
  {n m : Notes} {w : ω}

theorem Notes.Alike.keep (h : n.Alike rel (m, w)) (d : Option Decoding) (doc : List UInt8)
    (t : Token) :
    ((n.keepToken t).decode d doc n.tokens.size t).Alike rel
      ((m.keepToken t).decode d doc m.tokens.size t, w) := by
  have kept : (n.keepToken t).Alike rel (m.keepToken t, w) := by
    refine ⟨?_, h.decoded, h.nested, h.related⟩
    simp only [keepToken, h.tokens]
  unfold decode
  split
  · exact kept
  · split
    · refine ⟨kept.tokens, ?_, kept.nested, kept.related⟩
      simp only [kept.decoded, h.tokens]
    · exact kept

theorem Notes.Alike.startAll (h : n.Alike rel (m, w))
    (hs : List.Forall₂ (runner.Starts rel) starters programs) (doc : List UInt8) (ordinal : Nat)
    (t : Token) :
    let started := runner.run (m.startPrograms doc ordinal t programs) w
    (n.startAll doc ordinal t starters).1.Alike rel (started.1.1, started.2) ∧
      (n.startAll doc ordinal t starters).2 = started.1.2 := by
  induction hs generalizing n m w with
  | nil =>
    simp only [startPrograms, runner.run_done]
    exact ⟨h, rfl⟩
  | @cons x p xs ps first _ ih =>
    have report := first.report _ _ _ h.related
    have next : Notes.Alike rel
        { n with session := (x.start n.session).1, nested := n.nested.push (x.start n.session).2 }
        ({ m with nested := m.nested.push (runner.run p.2 w).1 }, (runner.run p.2 w).2) := by
      refine ⟨h.tokens, h.decoded, ?_, ?_⟩
      · simp only [h.nested, report]
      · simp only [Array.toList_push]
        exact first.related _ _ _ h.related
    simp only [Notes.startAll, startPrograms, first.trigger]
    split
    · rw [runner.run_bind]
      simp only [report] at next ⊢
      split
      · rw [runner.run_done]
        exact ⟨next, rfl⟩
      · exact ih next
    · exact ih h

theorem Plan.sink_alike (plan : Plan) (onStop : Option ErrorCode)
    (hs : List.Forall₂ (runner.Starts rel) starters programs) :
    (plan.sink onStop starters).Alike (Notes.Alike rel)
      (Sink.ofHook fun m t w => runner.run (plan.hook onStop programs m t) w) := by
  rintro n ⟨m, w⟩ t h
  obtain ⟨notes, crashed⟩ := (h.keep plan.decoding plan.input t).startAll hs plan.input
    n.tokens.size t
  rw [h.tokens] at notes crashed
  simp only [sink_eq, Sink.ofHook, hook, runner.run_bind, runner.run_done, h.tokens]
  exact ⟨notes, by rw [crashed]⟩

end

namespace Report

mutual

/-- The greatest number of scans of a report that were in progress at once. Those are nested in one
another, since a hook goes on only when the scan it has started is over. -/
def height : Report → Nat
  | ⟨_, _, _, nested, _, _⟩ => heights nested + 1

def heights : List Report → Nat
  | [] => 0
  | r :: rs => max r.height (heights rs)

end

mutual

def intact : Report → Bool
  | ⟨_, _, _, nested, _, outcome⟩ => !outcome.isCrash && allIntact nested

def allIntact : List Report → Bool
  | [] => true
  | r :: rs => r.intact && allIntact rs

end

theorem height_eq (r : Report) : r.height = heights r.nested + 1 := by
  cases r
  rw [height]

theorem intact_eq (r : Report) : r.intact = (!r.outcome.isCrash && allIntact r.nested) := by
  cases r
  rw [intact]

theorem heights_append (rs : List Report) (r : Report) :
    heights (rs ++ [r]) = max (heights rs) r.height := by
  induction rs with
  | nil => simp [heights]
  | cons x rs ih => rw [List.cons_append, heights, heights, ih, Nat.max_assoc]

theorem allIntact_append (rs : List Report) (r : Report) :
    allIntact (rs ++ [r]) = (allIntact rs && r.intact) := by
  induction rs with
  | nil => simp [allIntact]
  | cons x rs ih => rw [List.cons_append, allIntact, allIntact, ih, Bool.and_assoc]

end Report

/-- Runs programs in a world and keeps the greatest number of scans in progress. -/
def Runner.measured : Runner (World × Nat) where
  run r w := ((r.perform w.1).1, (r.perform w.1).2, max w.2 (r.depth w.1))
  run_done value w := by simp [Routine.perform, Routine.depth]
  run_bind r f w := by simp only [Routine.perform_bind, Routine.depth_bind, Nat.max_assoc]

/-- Since the world `before`, scans with these reports have ended. -/
structure World.Records (before : World) (s : Session) (rs : List Report) (p : World × Nat) :
    Prop where
  session : p.1.session = s
  most : p.2 = Report.heights rs
  intact : p.1.Intact ↔ before.Intact ∧ Report.allIntact rs = true

/-- The visits end with that of the report, behind those of the reports nested in it. -/
def World.Logs (before after : World) (report : Report) : Prop :=
  ∃ earlier last, after.visits = earlier ++ [last] ∧ last.outcome = report.outcome ∧
    ((∀ v ∈ earlier, v.outcome.isCrash = false) ↔
      before.Intact ∧ Report.allIntact report.nested = true)

theorem World.Logs.intact {before after : World} {report : Report} (h : before.Logs after report) :
    after.Intact ↔ before.Intact ∧ report.intact = true := by
  obtain ⟨earlier, last, visits, outcome, intact⟩ := h
  simp only [Intact, visits, List.forall_mem_append, List.forall_mem_singleton] at intact ⊢
  rw [intact, outcome, Report.intact_eq]
  simp [and_assoc, and_comm]

/-- The program does in every world what the function does in its session. -/
structure Routine.Performs (r : Routine Report) (start : Session → Session × Report) : Prop where
  report : ∀ w, (r.perform w).1 = (start w.session).2
  session : ∀ w, (r.perform w).2.session = (start w.session).1
  depth : ∀ w, r.depth w = (start w.session).2.height
  logs : ∀ w : World, w.Logs (r.perform w).2 (start w.session).2

theorem Routine.Performs.starts {x : Starter} {p : Trigger × Routine Report}
    (h : p.2.Performs x.start) (trigger : x.trigger = p.1) (before : World) :
    Runner.measured.Starts before.Records x p := by
  refine ⟨trigger, ?_, ?_⟩
  · rintro _ rs ⟨w, most⟩ ⟨rfl, -, -⟩
    exact (h.report w).symm
  · rintro _ rs ⟨w, most⟩ ⟨rfl, height, intact⟩
    refine ⟨h.session w, ?_, ?_⟩
    · simp only at height
      simp only [Runner.measured, Report.heights_append, height, h.depth]
    · simp only at intact
      simp only [Runner.measured, Report.allIntact_append, (h.logs w).intact, intact,
        Bool.and_eq_true, and_assoc]

/-- The session when a plan is over whose scanner came from there. -/
def Source.close (source : Source) (run : Scanner × Session × Report) : Session :=
  match source with
  | .own => run.2.1
  | .pool => if run.2.2.outcome.isCrash then run.2.1 else run.2.1.giveBack run.1

theorem World.intact_lend {w : World} {source : Source} :
    (w.lend source).2.Intact ↔ w.Intact := by
  simp only [Intact, visits_lend]

namespace Plan

variable {starters : List Starter} {programs : List (Trigger × Routine Report)}

/-- A plan and its program run their scans with the same scanner and answer alike. -/
theorem gauge_hook (plan : Plan) (onStop : Option ErrorCode) {lent : World}
    (hs : List.Forall₂ (Runner.measured.Starts lent.Records) starters programs)
    (scanner : Scanner) :
    let scan := scanner.scanInto plan.input (plan.sink onStop starters) (.start lent.session)
    let run := Routine.gauge (plan.hook onStop programs) scanner plan.input (.start .empty) lent
    scan.state.Alike lent.Records (run.state.1.1.1, run.state.1.1.2, run.state.2) ∧
      scan.ending = run.ending ∧ scan.outcome = run.outcome ∧ scan.scanner = run.scanner := by
  have alike : (plan.sink onStop starters).Alike
      (fun n u => n.Alike lent.Records (u.1.1.1, u.1.1.2, u.2))
      (Routine.gauged (plan.hook onStop programs)) := by
    rintro n ⟨⟨⟨m, w⟩, kept⟩, most⟩ t h
    exact plan.sink_alike onStop hs n (m, w, most) t h
  exact Scanner.scanInto_alike rfl plan.input alike _ _
    ⟨rfl, rfl, rfl, rfl, rfl, (and_iff_left rfl).symm⟩

theorem gauge_buffer (plan : Plan) (b : Buffer) (scanner : Scanner) (lent : World) :
    let scan := scanner.scanInto plan.input Buffer.write b
    let run := Routine.gauge (fun b t => .done (Buffer.write b t)) scanner plan.input b lent
    (run.state.1.1 = (scan.state, lent) ∧ run.state.2 = 0) ∧
      scan.ending = run.ending ∧ scan.outcome = run.outcome ∧ scan.scanner = run.scanner := by
  have alike : Buffer.write.Alike (fun b u => u.1.1 = (b, lent) ∧ u.2 = 0)
      (Routine.gauged fun b t => .done (Buffer.write b t)) := by
    rintro b ⟨⟨⟨_, _⟩, kept⟩, _⟩ t ⟨h, rfl⟩
    cases h
    exact ⟨⟨rfl, rfl⟩, rfl⟩
  exact Scanner.scanInto_alike rfl plan.input alike _ _ ⟨rfl, rfl⟩

theorem perform_routine (plan : Plan) (source : Source) (w : World)
    (hs : ∀ before : World, List.Forall₂ (Runner.measured.Starts before.Records) starters programs) :
    let run := plan.run starters (w.lend source).1 (w.lend source).2.session
    let after := (plan.routine source programs).perform w
    after.1 = run.2.2 ∧ after.2.session = source.close run ∧
      (plan.routine source programs).depth w = Report.heights run.2.2.nested + source.drawn ∧
      w.Logs after.2 run.2.2 := by
  unfold routine run
  cases plan.delivery with
  | hook onStop =>
    obtain ⟨⟨tokens, decoded, nested, session, most, intact⟩, ending, outcome, scanner⟩ :=
      plan.gauge_hook onStop (hs (w.lend source).2) (w.lend source).1
    simp only [World.intact_lend] at session most intact
    rw [Routine.perform_scan, Routine.depth_scan]
    simp only [Routine.perform, Routine.depth]
    refine ⟨?_, ?_, ?_, ?_⟩
    · rw [tokens, decoded, nested, outcome]
    · cases source <;> simp [World.settle, Source.close, ending, outcome, scanner, session]
    · rw [most, Nat.max_zero]
    · exact ⟨_, _, World.visits_settle _ _ _ _, outcome.symm, intact⟩
  | buffer capacity =>
    obtain ⟨⟨state, most⟩, ending, outcome, scanner⟩ := plan.gauge_buffer
      (.ofRecords (Array.replicate capacity Token.blank)) (w.lend source).1 (w.lend source).2
    rw [Routine.perform_scan, Routine.depth_scan]
    simp only [Routine.perform, Routine.depth]
    refine ⟨?_, ?_, ?_, ?_⟩
    · simp only [state, Scanner.fill, outcome]
    · cases source <;>
        simp [World.settle, Source.close, Scanner.fill, ending, outcome, scanner, state]
    · simp [most, Report.heights]
    · refine ⟨_, _, World.visits_settle _ _ _ _, outcome.symm, ?_⟩
      rw [state]
      exact World.intact_lend.trans (and_iff_left rfl).symm

end Plan

theorem Job.perform_eq (plan : Plan) (nested : List (Trigger × Job)) (session : Session) :
    (Job.mk plan nested).perform session =
      let run := plan.run (starters nested) session.borrow.1 session.borrow.2
      (Source.pool.close run, run.2.2) := by
  rw [perform]
  rfl

mutual

/-- A job does what its program does. -/
theorem Job.performs : (job : Job) → (job.routine .pool).Performs job.perform
  | .mk plan nested => by
    have run (w : World) := plan.perform_routine .pool w (Job.starts nested)
    simp only [Job.routine]
    refine ⟨fun w => ?_, fun w => ?_, fun w => ?_, fun w => ?_⟩ <;> rw [Job.perform_eq]
    · exact (run w).1
    · exact (run w).2.1
    · rw [Report.height_eq]
      exact (run w).2.2.1
    · exact (run w).2.2.2

theorem Job.starts : (nested : List (Trigger × Job)) → (before : World) →
    List.Forall₂ (Runner.measured.Starts before.Records) (starters nested) (programs nested)
  | [], before => by
    rw [Job.starters, Job.programs]
    exact .nil
  | (trigger, job) :: rest, before => by
    rw [Job.starters, Job.programs]
    exact .cons ((Job.performs job).starts rfl before) (Job.starts rest before)

end

theorem Job.performOn_eq (job : Job) (w : World) :
    (job.performOn w.own w.session).2 =
      (((job.routine .own).perform w).2.session, ((job.routine .own).perform w).1) := by
  obtain ⟨plan, nested⟩ := job
  obtain ⟨report, session, -⟩ := plan.perform_routine .own w (Job.starts nested)
  rw [Job.routine, report, session]
  rfl

theorem Job.options_performOn (job : Job) (scanner : Scanner) (session : Session) :
    (job.performOn scanner session).1.options = scanner.options := by
  obtain ⟨plan, nested⟩ := job
  rw [performOn, Plan.run]
  cases plan.delivery <;> rfl

theorem Job.standard_perform (job : Job) {session : Session} (h : session.Standard) :
    (job.perform session).1.Standard := by
  let w : World := ⟨.standard, session, []⟩
  obtain ⟨-, world⟩ := (job.routine .pool).perform_alike (w := w) ⟨rfl, rfl, h⟩
  rw [← job.performs.session w]
  exact world.standard

theorem Job.standard_performOn (job : Job) (scanner : Scanner) {session : Session}
    (h : session.Standard) : (job.performOn scanner session).2.1.Standard := by
  let w : World := ⟨scanner, session, []⟩
  obtain ⟨-, world⟩ := (job.routine .own).perform_alike (w := w) ⟨rfl, rfl, h⟩
  rw [show (job.performOn scanner session).2 = _ from job.performOn_eq w]
  exact world.standard

end QueryDoc
