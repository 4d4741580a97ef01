import QueryDoc.Proofs.JobRoutine

/-! The pool makes a scanner only when all that there are run at once. Parts of a session that
follow each other take the greater number, and a scan around a part adds one to it. -/
namespace QueryDoc

namespace Session

/-- How often the pool had no scanner to lend. -/
def allocations (s : Session) : Nat := s.log.toList.count .allocated

/-- Between the two sessions, up to `d` scanners of the pool were in use at once, and all of them
have come back. -/
structure Served (d : Nat) (s s' : Session) : Prop where
  pool : s'.pool.length = max s.pool.length d
  allocations : s'.allocations = s.allocations + (d - s.pool.length)

@[simp] theorem length_borrow (s : Session) : s.borrow.2.pool.length = s.pool.length - 1 := by
  unfold borrow
  split
  · next empty => simp [note, empty]
  · next scanner rest held => simp [held]

@[simp] theorem allocations_borrow (s : Session) :
    s.borrow.2.allocations = s.allocations + (1 - s.pool.length) := by
  unfold borrow
  split
  · next empty => simp [note, allocations, empty]
  · next scanner rest held => simp [allocations, held]

@[simp] theorem length_giveBack (s : Session) (x : Scanner) :
    (s.giveBack x).pool.length = s.pool.length + 1 := rfl

@[simp] theorem allocations_giveBack (s : Session) (x : Scanner) :
    (s.giveBack x).allocations = s.allocations := rfl

@[simp] theorem length_noteEnding (s : Session) (length : Nat) (e : Ending) :
    (s.noteEnding length e).pool.length = s.pool.length := by
  unfold noteEnding
  split <;> rfl

@[simp] theorem allocations_noteEnding (s : Session) (length : Nat) (e : Ending) :
    (s.noteEnding length e).allocations = s.allocations := by
  cases e <;> simp [noteEnding, Ending.event?, note, allocations]

namespace Served

variable {d e : Nat} {s s' s'' : Session}

theorem refl (s : Session) : Served 0 s s := ⟨by simp, by simp⟩

theorem trans (h : Served d s s') (g : Served e s' s'') : Served (max d e) s s'' := by
  obtain ⟨pool, allocations⟩ := h
  obtain ⟨pool', allocations'⟩ := g
  constructor <;> omega

theorem noteEnding (h : Served d s s') (length : Nat) (e : Ending) :
    Served d s (s'.noteEnding length e) := by
  constructor
  · simp [h.pool]
  · simp [h.allocations]

/-- A scanner that does not come back is missing in the pool. -/
theorem lost (h : Served d s.borrow.2 s') :
    s'.pool.length = max (s.pool.length - 1) d ∧
      s'.allocations = s.allocations + (d + 1 - s.pool.length) := by
  obtain ⟨pool, allocations⟩ := h
  simp only [length_borrow, allocations_borrow] at pool allocations
  omega

theorem giveBack (h : Served d s.borrow.2 s') (x : Scanner) : Served (d + 1) s (s'.giveBack x) := by
  obtain ⟨pool, allocations⟩ := h.lost
  constructor
  · rw [length_giveBack]
    omega
  · rw [allocations_giveBack, allocations]

end Served

end Session

namespace World

variable {w w' : World} {source : Source} {visit : Visit} {σ : Type}

theorem served_settle {d : Nat} {scan : Scan σ} (ended : scan.outcome.isCrash = false)
    (h : (w.lend source).2.session.Served d w'.session) :
    w.session.Served (d + source.drawn) (w'.settle source visit scan).session := by
  have noted := h.noteEnding visit.doc.length scan.ending
  cases source with
  | own => exact noted
  | pool =>
    simp only [settle, ended]
    exact noted.giveBack _

end World

namespace Routine

/-- While a scan runs, its hook uses as many scanners at once as the gauge says. -/
theorem served_gauge {σ : Type} {hook : σ → Token → Routine (σ × Verdict)}
    (hooks : ∀ s t (w : World), ((hook s t).perform w).2.Intact →
      w.session.Served ((hook s t).depth w) ((hook s t).perform w).2.session)
    (scanner : Scanner) (doc : List UInt8) (init : σ) (lent : World)
    (intact : (gauge hook scanner doc init lent).state.1.1.2.Intact) :
    lent.session.Served (gauge hook scanner doc init lent).state.2
      (gauge hook scanner doc init lent).state.1.1.2.session := by
  refine scanner.scanInto_invariant doc (gauged hook)
    (p := fun u => u.1.1.2.Intact → lent.session.Served u.2 u.1.1.2.session) ?_ ?_ intact
  · intro u t h intact
    have before := intact.earlier ((hook u.1.1.1 t).visits_kept u.1.1.2)
    exact (h before).trans (hooks _ _ _ intact)
  · intro _
    exact .refl lent.session

/-- A program none of whose scans breaks down uses as many scanners at once as it has scans through
the pool in progress. -/
theorem served_perform {α : Type} (r : Routine α) (w : World) (intact : (r.perform w).2.Intact) :
    w.session.Served (r.depth w) (r.perform w).2.session := by
  induction r generalizing w with
  | done value => exact .refl w.session
  | @scan α σ source doc hook init next ihHook ihNext =>
    rw [perform_scan] at intact ⊢
    rw [depth_scan]
    have settled := intact.earlier (visits_kept _ _)
    simp only [World.Intact, World.visits_settle, List.mem_append, List.mem_singleton] at settled
    have hooks := served_gauge ihHook _ doc init _ fun v hv => settled v (.inl hv)
    exact (World.served_settle (settled _ (.inr rfl)) hooks).trans (ihNext _ _ _ intact)

/-- A scan through the pool that breaks down, after the scans of its hook have ended, keeps its own
scanner out of the pool. -/
theorem lost_scan {α σ : Type} (doc : List UInt8) (hook : σ → Token → Routine (σ × Verdict))
    (init : σ) (value : σ → Outcome → α) (w : World) {nested : List Visit} {last : Visit} :
    let r : Routine α := .scan .pool doc hook init fun s outcome => .done (value s outcome)
    (r.perform w).2.visits = nested ++ [last] → (∀ v ∈ nested, v.outcome.isCrash = false) →
      last.outcome.isCrash = true →
        (r.perform w).2.session.pool.length = max (w.session.pool.length - 1) (r.depth w - 1) ∧
          (r.perform w).2.session.allocations =
            w.session.allocations + (r.depth w - w.session.pool.length) := by
  intro r visits intact crashed
  simp only [r, depth_scan, perform_scan] at visits ⊢
  simp only [perform, depth, World.visits_settle, Nat.max_zero] at visits ⊢
  obtain ⟨rfl, ended⟩ := List.append_inj' visits rfl
  obtain rfl := List.singleton_inj.1 ended
  have hooks := served_gauge (fun s t => (hook s t).served_perform) _ doc init _ intact
  simp only [World.settle, crashed, Source.drawn, Nat.add_sub_cancel]
  exact (hooks.noteEnding doc.length _).lost

end Routine

theorem Job.served_perform (job : Job) (session : Session)
    (intact : (job.perform session).2.intact = true) :
    session.Served (job.perform session).2.height (job.perform session).1 := by
  let w : World := ⟨.standard, session, []⟩
  have served := (job.routine .pool).served_perform w
    ((job.performs.logs w).intact.2 ⟨fun v hv => absurd hv List.not_mem_nil, intact⟩)
  rwa [job.performs.depth, job.performs.session] at served

/-- A job that breaks down, after the jobs of its hook have ended, keeps its own scanner out of the
pool. -/
theorem Job.lost_perform (job : Job) (session : Session)
    (crashed : (job.perform session).2.outcome.isCrash = true)
    (intact : Report.allIntact (job.perform session).2.nested = true) :
    (job.perform session).1.pool.length =
        max (session.pool.length - 1) ((job.perform session).2.height - 1) ∧
      (job.perform session).1.allocations =
        session.allocations + ((job.perform session).2.height - session.pool.length) := by
  let w : World := ⟨.standard, session, []⟩
  obtain ⟨nested, last, visits, outcome, earlier⟩ := job.performs.logs w
  rw [← job.performs.session w, ← job.performs.depth w]
  rw [← outcome] at crashed
  replace intact := earlier.2 ⟨fun v hv => absurd hv List.not_mem_nil, intact⟩
  obtain ⟨plan, jobs⟩ := job
  revert visits
  simp only [Job.routine, Plan.routine]
  cases plan.delivery with
  | hook onStop => exact fun visits => Routine.lost_scan _ _ _ _ w visits intact crashed
  | buffer capacity => exact fun visits => Routine.lost_scan _ _ _ _ w visits intact crashed

/-- What the pool holds after a scan and how often it had to make a scanner depend on the greatest
number of scans through it that were in progress at once, whatever the scans had for results. If
none of them broke down, the pool holds that many scanners or as many as before, and it has made
those that it lacked. If only the outermost scan broke down, after those of its hook, its scanner is
missing. So it is for jobs, and for scans whose hooks are any programs. -/
theorem Session.pool_accounts (session : Session) :
    (∀ job : Job,
      let after := (job.perform session).1
      let report := (job.perform session).2
      (report.intact = true →
        after.pool.length = max session.pool.length report.height ∧
          after.allocations = session.allocations + (report.height - session.pool.length)) ∧
        (report.outcome.isCrash = true → Report.allIntact report.nested = true →
          after.pool.length = max (session.pool.length - 1) (report.height - 1) ∧
            after.allocations = session.allocations + (report.height - session.pool.length))) ∧
      ∀ (own : Scanner) (σ : Type) (doc : List UInt8) (hook : σ → Token → Routine (σ × Verdict))
        (init : σ),
        let before : World := ⟨own, session, []⟩
        let after := ((Routine.pooled doc hook init).perform before).2
        let d := (Routine.pooled doc hook init).depth before
        ((∀ v ∈ after.visits, v.outcome.isCrash = false) →
          after.session.pool.length = max session.pool.length d ∧
            after.session.allocations = session.allocations + (d - session.pool.length)) ∧
          ∀ nested last, after.visits = nested ++ [last] →
            (∀ v ∈ nested, v.outcome.isCrash = false) → last.outcome.isCrash = true →
              after.session.pool.length = max (session.pool.length - 1) (d - 1) ∧
                after.session.allocations = session.allocations + (d - session.pool.length) := by
  constructor
  · intro job after report
    constructor
    · intro intact
      have served := job.served_perform session intact
      exact ⟨served.pool, served.allocations⟩
    · intro crashed intact
      exact job.lost_perform session crashed intact
  · intro own σ doc hook init before after d
    constructor
    · intro intact
      have served := (Routine.pooled doc hook init).served_perform before intact
      exact ⟨served.pool, served.allocations⟩
    · intro nested last visits intact crashed
      exact Routine.lost_scan doc hook init Prod.mk before visits intact crashed

/-- One scanner is in the pool. The hook of a job starts a scan at the field of `{a}`, which starts
another one, and a third scan at the closing brace; then it may break down. A hook that is a program
scans the document at its field too. -/
theorem Session.pool_accounts_nested :
    let doc : List UInt8 := [0x7B, 0x61, 0x7D]
    let plain : Job := .mk (.plain doc) []
    let job (crash : Trigger) : Job :=
      .mk ⟨doc, .hook none, none, crash, .never⟩
        [(.onKind .field, .mk (.plain doc) [(.onKind .field, plain)]), (.onKind .setClose, plain)]
    let hook : Unit → Token → Routine (Unit × Verdict) := fun _ t =>
      if t.kind = .field then
        .scan .pool doc (fun u _ => .done (u, .proceed)) () fun u _ => .done (u, .proceed)
      else .done ((), .proceed)
    let session : Session := ⟨[.standard], #[]⟩
    let world := ((Routine.pooled doc hook ()).perform ⟨.standard, session, []⟩).2
    ((job .never).perform session).2.height = 3 ∧
      ((job .never).perform session).1.pool.length = 3 ∧
      ((job .never).perform session).1.allocations = 2 ∧
      ((job (.onKind .setClose)).perform session).2.outcome = .crash .hook ∧
      ((job (.onKind .setClose)).perform session).1.pool.length = 2 ∧
      world.visits.length = 2 ∧ world.session.pool.length = 2 ∧ world.session.allocations = 1 := by
  intro doc plain job hook session world
  obtain ⟨jobs, programs⟩ := pool_accounts session
  have height : ((job .never).perform session).2.height = 3 := by decide +kernel
  have height' : ((job (.onKind .setClose)).perform session).2.height = 3 := by decide +kernel
  have crashed : ((job (.onKind .setClose)).perform session).2.outcome = .crash .hook := by
    decide +kernel
  have depth : (Routine.pooled doc hook ()).depth ⟨.standard, session, []⟩ = 2 := by
    decide +kernel
  obtain ⟨pool, allocations⟩ := (jobs (job .never)).1 (by decide +kernel)
  have lost := ((jobs (job (.onKind .setClose))).2 (by rw [crashed]; rfl) (by decide +kernel)).1
  obtain ⟨held, made⟩ := (programs .standard Unit doc hook ()).1 (by decide +kernel)
  rw [height] at pool allocations
  rw [height'] at lost
  rw [depth] at held made
  exact ⟨height, pool, allocations, crashed, lost, by decide +kernel, held, made⟩

end QueryDoc
