import QueryDoc.Proofs.Acceptance
import QueryDoc.Proofs.Delivery

/-! Scans get scanners out of a pool that other scans have filled, and their hooks run scans too.
None of this can be told from their tokens and their results. -/
namespace QueryDoc

mutual

/-- The report of a job whose scanner is new, with these options, and whose nested jobs have new
scanners too. -/
def Job.alone (options : Options) : Job → Report
  | mk plan nested => (plan.run (aloneStarters nested) (.new options) .empty).2.2

def Job.aloneStarters : List (Trigger × Job) → List Starter
  | [] => []
  | (trigger, job) :: rest =>
    ⟨trigger, fun session => (session, job.alone .standard)⟩ :: aloneStarters rest

end

def Runner.alone (own : Options) : Runner (List Visit) where
  run r visits := r.alone own visits
  run_done _ _ := rfl
  run_bind r f visits := r.alone_bind f own visits

theorem Plan.alone_routine (plan : Plan) (source : Source) (own : Options) (visits : List Visit)
    {starters : List Starter} {programs : List (Trigger × Routine Report)}
    (hs : List.Forall₂ ((Runner.alone own).Starts fun _ _ _ => True) starters programs) :
    ((plan.routine source programs).alone own visits).1 =
      (plan.run starters (.new (source.options own)) .empty).2.2 := by
  unfold routine run
  cases plan.delivery with
  | hook onStop =>
    obtain ⟨⟨tokens, decoded, nested, -⟩, -, outcome, -⟩ :=
      Scanner.scanInto_alike rfl plan.input (plan.sink_alike onStop hs).keepingRight
        (a := .new (source.options own)) (.start .empty) ((.start .empty, visits), [])
        ⟨rfl, rfl, rfl, trivial⟩
    simp only [Routine.alone, tokens, decoded, nested, outcome]
    rfl
  | buffer capacity =>
    have alike : Buffer.write.Alike (fun b u => u.1.1 = b)
        (Sink.ofHook fun b t visits => (Routine.done (Buffer.write b t)).alone own visits).keeping := by
      rintro b ⟨⟨_, _⟩, _⟩ t rfl
      exact ⟨rfl, rfl⟩
    obtain ⟨state, -, outcome, -⟩ :=
      Scanner.scanInto_alike rfl plan.input alike (a := .new (source.options own))
        (.ofRecords (Array.replicate capacity Token.blank)) ((_, visits), []) rfl
    simp only [Routine.alone, Scanner.fill, ← state, outcome]
    rfl

mutual

theorem Job.alone_routine : (job : Job) → (source : Source) → (own : Options) →
    (visits : List Visit) → ((job.routine source).alone own visits).1 = job.alone (source.options own)
  | .mk plan nested, source, own, visits => by
    rw [Job.routine, Job.alone]
    exact plan.alone_routine source own visits (Job.alone_starts nested own)

theorem Job.alone_starts : (nested : List (Trigger × Job)) → (own : Options) →
    List.Forall₂ ((Runner.alone own).Starts fun _ _ _ => True) (aloneStarters nested)
      (programs nested)
  | [], own => by
    rw [Job.aloneStarters, Job.programs]
    exact .nil
  | (trigger, job) :: rest, own => by
    rw [Job.aloneStarters, Job.programs]
    refine .cons ⟨rfl, fun _ _ visits _ => ?_, fun _ _ _ _ => trivial⟩ (Job.alone_starts rest own)
    exact (Job.alone_routine job .pool own visits).symm

end

theorem Job.report_perform (job : Job) {session : Session} (h : session.Standard) :
    (job.perform session).2 = job.alone .standard := by
  let w : World := ⟨.standard, session, []⟩
  obtain ⟨report, -⟩ := (job.routine .pool).perform_alike (w := w) ⟨rfl, rfl, h⟩
  rw [← job.performs.report w, report, job.alone_routine]
  rfl

theorem Job.report_performOn (job : Job) (scanner : Scanner) {session : Session}
    (h : session.Standard) : (job.performOn scanner session).2.2 = job.alone scanner.options := by
  let w : World := ⟨scanner, session, []⟩
  obtain ⟨report, -⟩ := (job.routine .own).perform_alike (w := w) ⟨rfl, rfl, h⟩
  rw [show (job.performOn scanner session).2 = _ from job.performOn_eq w, report,
    job.alone_routine]
  rfl

namespace Session

theorem reports_pooled {session : Session} (h : session.Standard) (jobs : List Job) :
    (session.pooled jobs).map Entry.report = jobs.map (Job.alone .standard) := by
  induction jobs generalizing session with
  | nil => rfl
  | cons job jobs ih =>
    have cleared : session.clearLog.Standard := h
    rw [pooled, List.map_cons, List.map_cons, ih (job.standard_perform cleared),
      job.report_perform cleared]

theorem reports_shared {session : Session} (h : session.Standard) (scanner : Scanner)
    (jobs : List Job) :
    (session.shared scanner jobs).map Entry.report = jobs.map (Job.alone scanner.options) := by
  induction jobs generalizing session scanner with
  | nil => rfl
  | cons job jobs ih =>
    have cleared : session.clearLog.Standard := h
    rw [shared, List.map_cons, List.map_cons, ih (job.standard_performOn scanner cleared),
      job.options_performOn, job.report_performOn scanner cleared]

end Session

theorem Config.ends_of_run {σ : Type} (sink : Sink σ) (s : σ) (c : Config)
    (h : (c.run sink s).ending = .complete) : (c.run sink s).last.Ends .complete := by
  fun_induction run sink s c with
  | case1 s c d step ih => exact ih h
  | case2 s c t d step u answer ih => exact ih h
  | case3 => cases h
  | case4 => cases h
  | case5 => cases h
  | case6 s c step => exact .finished step

theorem Scanner.containers_of_ok {σ : Type} (s : Scanner) (doc : List UInt8) (sink : Sink σ)
    (init : σ) (ok : (s.scanInto doc sink init).outcome = .ok) :
    (s.scanInto doc sink init).scanner.containers = [] := by
  have complete : ((Config.start doc).run sink init).ending = .complete :=
    (s.options.outcome_eq_ok_iff _).1 ok
  have ends := Config.ends_of_run sink init (.start doc) complete
  obtain ⟨state, -⟩ := Config.ends_complete_iff.1 ends
  simp only [scanInto, state]
  rfl

/-- Scans do not disturb one another. In every session, through any scanner whatever it was used
for before, jobs report what each of them reports alone, with the scans that their hooks start.
Programs whose hooks are any programs get the same answers as with a new scanner for every scan,
and each of their scans delivers the same tokens and ends alike. A scan that succeeds leaves no list
and no object open in its scanner. -/
theorem Session.isolates_scans (session : Session) (reached : session.Reached)
    (scanner : Scanner) :
    (∀ jobs, (session.shared scanner jobs).map Entry.report =
        jobs.map (Job.alone scanner.options)) ∧
      (∀ jobs, (session.pooled jobs).map Entry.report = jobs.map (Job.alone .standard)) ∧
      (∀ (α : Type) (r : Routine α),
        (r.perform ⟨scanner, session, []⟩).1 = (r.alone scanner.options []).1 ∧
          (r.perform ⟨scanner, session, []⟩).2.visits = (r.alone scanner.options []).2) ∧
      ∀ (σ : Type) (doc : List UInt8) (sink : Sink σ) (init : σ),
        (scanner.scanInto doc sink init).outcome = .ok →
          (scanner.scanInto doc sink init).scanner.containers = [] := by
  have standard := reached.standard
  refine ⟨reports_shared standard scanner, reports_pooled standard, fun α r => ?_,
    fun σ => scanner.containers_of_ok⟩
  obtain ⟨value, world⟩ := r.perform_alike (w := ⟨scanner, session, []⟩) ⟨rfl, rfl, standard⟩
  exact ⟨value, world.visits⟩

/-- A scanner was left inside a list. In `{a(b:[1])}` the hook of the first job scans the document at
the list and breaks down at the number; neither this nor the list changes what the jobs report. -/
theorem Session.isolates_scans_list :
    let doc : List UInt8 := [0x7B, 0x61, 0x28, 0x62, 0x3A, 0x5B, 0x31, 0x5D, 0x29, 0x7D]
    let jobs : List Job :=
      [.mk ⟨doc, .hook none, none, .onKind .int, .never⟩ [(.onKind .listOpen, .mk (.plain doc) [])],
        .mk (.plain doc) []]
    let left : Scanner := ⟨.standard, [.list]⟩
    Session.empty.Reached ∧
      (jobs.map (Job.alone .standard)).map Report.outcome = [.crash .hook, .ok] ∧
      (Session.empty.shared left jobs).map Entry.report = jobs.map (Job.alone .standard) ∧
      (Session.empty.pooled jobs).map Entry.report = jobs.map (Job.alone .standard) ∧
      (left.scan doc).scanner.containers = [] := by
  intro doc jobs left
  obtain ⟨shared, pooled, -, containers⟩ := isolates_scans .empty .empty left
  have ok : (left.scan doc).outcome = .ok := by decide +kernel
  exact ⟨.empty, by decide +kernel, shared jobs, pooled jobs, containers _ doc .record #[] ok⟩

end QueryDoc
