import Mathlib.Data.List.Infix
import QueryDoc.Session.Job

/-! Programs run scans and go on with their results, and so do the hooks of their scans. They get
the same answers as if every scan had a new scanner. -/
namespace QueryDoc

/-- The same sink, which also keeps the tokens it is handed. -/
def Sink.keeping {σ : Type} (sink : Sink σ) : Sink (σ × List Token) := fun (s, kept) t =>
  (((sink s t).1, kept ++ [t]), (sink s t).2)

/-- In related states the sinks give the same answer to every token and go to related states. -/
def Sink.Alike {σ τ : Type} (r : σ → τ → Prop) (sink : Sink σ) (sink' : Sink τ) : Prop :=
  ∀ s s' t, r s s' → r (sink s t).1 (sink' s' t).1 ∧ (sink s t).2 = (sink' s' t).2

section
variable {σ τ : Type} {r : σ → τ → Prop} {sink : Sink σ} {sink' : Sink τ}

theorem Sink.Alike.answer (alike : sink.Alike r sink') {s u : σ} {s' : τ} {t : Token}
    {verdict : Verdict} (h : r s s') (answer : sink s t = (u, verdict)) :
    ∃ u', r u u' ∧ sink' s' t = (u', verdict) := by
  obtain ⟨related, same⟩ := alike s s' t h
  rw [answer] at related same
  exact ⟨_, related, Prod.ext rfl same.symm⟩

theorem Sink.Alike.keeping (alike : sink.Alike r sink') :
    sink.keeping.Alike (fun p q => r p.1 q.1 ∧ p.2 = q.2) sink'.keeping := by
  rintro ⟨s, kept⟩ ⟨s', _⟩ t ⟨related, rfl⟩
  obtain ⟨next, verdict⟩ := alike s s' t related
  exact ⟨⟨next, rfl⟩, verdict⟩

theorem Sink.Alike.keepingRight (alike : sink.Alike r sink') :
    sink.Alike (fun s q => r s q.1) sink'.keeping := fun s q t h => alike s q.1 t h

theorem Config.run_alike (alike : sink.Alike r sink') (c : Config) {s : σ} {s' : τ} (h : r s s') :
    r (c.run sink s).state (c.run sink' s').state ∧
      (c.run sink s).ending = (c.run sink' s').ending ∧
      (c.run sink s).last = (c.run sink' s').last := by
  fun_induction run sink s c generalizing s' with
  | case1 s c d step ih =>
    rw [run_of_silent step]
    exact ih h
  | case2 s c t d step u answer ih =>
    obtain ⟨u', related, answer'⟩ := alike.answer h answer
    rw [run_of_token step, answer']
    exact ih related
  | case3 s c t d step u code answer =>
    obtain ⟨u', related, answer'⟩ := alike.answer h answer
    rw [run_of_token step, answer']
    exact ⟨related, rfl, rfl⟩
  | case4 s c t d step u answer =>
    obtain ⟨u', related, answer'⟩ := alike.answer h answer
    rw [run_of_token step, answer']
    exact ⟨related, rfl, rfl⟩
  | case5 s c e step =>
    rw [run_of_failed step]
    exact ⟨h, rfl, rfl⟩
  | case6 s c step =>
    rw [run_of_finished step]
    exact ⟨h, rfl, rfl⟩

/-- Whatever the scanners were used for, scans with the same options go the same way. -/
theorem Scanner.scanInto_alike {a b : Scanner} (options : a.options = b.options) (doc : List UInt8)
    (alike : sink.Alike r sink') (s : σ) (s' : τ) (h : r s s') :
    r (a.scanInto doc sink s).state (b.scanInto doc sink' s').state ∧
      (a.scanInto doc sink s).ending = (b.scanInto doc sink' s').ending ∧
      (a.scanInto doc sink s).outcome = (b.scanInto doc sink' s').outcome ∧
      (a.scanInto doc sink s).scanner = (b.scanInto doc sink' s').scanner := by
  obtain ⟨state, ending, last⟩ := Config.run_alike alike (.start doc) h
  refine ⟨state, ending, ?_⟩
  simp only [scanInto, options, ending, last, and_self]

theorem Scanner.scanInto_invariant (a : Scanner) (doc : List UInt8) (sink : Sink σ) {p : σ → Prop}
    {init : σ} (step : ∀ s t, p s → p (sink s t).1) (h : p init) :
    p (a.scanInto doc sink init).state := by
  have alike : sink.Alike (fun s s' => s = s' ∧ p s) sink := by
    rintro s _ t ⟨rfl, hs⟩
    exact ⟨⟨rfl, step s t hs⟩, rfl⟩
  exact (scanInto_alike rfl doc alike init init ⟨rfl, h⟩ : (_ ∧ _) ∧ _).1.2

end

/-- The same sink, which also keeps the greatest measure that a token had when it was handed over. -/
def Sink.gauging {σ : Type} (sink : Sink σ) (measure : σ → Token → Nat) : Sink (σ × Nat) :=
  fun (s, most) t => (((sink s t).1, max most (measure s t)), (sink s t).2)

theorem Scanner.scanInto_gauging {σ : Type} (s : Scanner) (doc : List UInt8) (sink : Sink σ)
    (measure : σ → Token → Nat) (init : σ) (most : Nat) :
    (s.scanInto doc (sink.gauging measure) (init, most)).state.1 =
        (s.scanInto doc sink init).state ∧
      (s.scanInto doc (sink.gauging measure) (init, most)).ending =
        (s.scanInto doc sink init).ending ∧
      (s.scanInto doc (sink.gauging measure) (init, most)).outcome =
        (s.scanInto doc sink init).outcome ∧
      (s.scanInto doc (sink.gauging measure) (init, most)).scanner =
        (s.scanInto doc sink init).scanner := by
  have alike : (sink.gauging measure).Alike (fun p q => p.1 = q) sink := by
    rintro ⟨s, most⟩ _ t rfl
    exact ⟨rfl, rfl⟩
  exact scanInto_alike rfl doc alike (init, most) init rfl

namespace Session

/-- Every free scanner has the standard options. -/
def Standard (s : Session) : Prop := ∀ x ∈ s.pool, x.options = .standard

theorem Standard.borrow {s : Session} (h : s.Standard) :
    s.borrow.1.options = .standard ∧ s.borrow.2.Standard := by
  unfold Session.borrow
  split
  · next hp =>
      refine ⟨rfl, fun x hx => ?_⟩
      exact h x hx
  · next scanner pool hp =>
      unfold Standard at h
      rw [hp] at h
      exact ⟨h scanner List.mem_cons_self, fun x hx => h x (List.mem_cons_of_mem _ hx)⟩

theorem Standard.giveBack {s : Session} (h : s.Standard) {scanner : Scanner}
    (hs : scanner.options = .standard) : (s.giveBack scanner).Standard := by
  intro x hx
  rcases List.mem_cons.1 hx with rfl | hx
  · exact hs
  · exact h x hx

theorem Standard.noteEnding {s : Session} (h : s.Standard) (length : Nat) (e : Ending) :
    (s.noteEnding length e).Standard := by
  unfold Session.noteEnding
  split
  · exact h
  · exact h

end Session

inductive Source where
  | own
  | pool
  deriving DecidableEq, Repr

/-- A program that runs scans, through a scanner of its own or through the pool. So may its hooks,
which are any programs, and all that comes later may depend on what came before. -/
inductive Routine : Type → Type 1
  | done {α : Type} (value : α) : Routine α
  | scan {α σ : Type} (source : Source) (doc : List UInt8)
      (hook : σ → Token → Routine (σ × Verdict)) (init : σ) (next : σ → Outcome → Routine α) :
      Routine α

/-- The tokens that a scan delivered and how it ended. -/
structure Visit where
  doc : List UInt8
  tokens : List Token
  outcome : Outcome
  deriving DecidableEq, Repr

/-- What the scans of a program share, and those that have ended, in this order. -/
structure World where
  own : Scanner
  session : Session
  visits : List Visit

namespace World

/-- Hands out a scanner for one scan. A hook that asked for the one its own scan uses would get it as
it was before that scan. -/
def lend (w : World) : Source → Scanner × World
  | .own => (w.own, w)
  | .pool => (w.session.borrow.1, { w with session := w.session.borrow.2 })

/-- Takes note of a scan that has ended. Its scanner goes back to where it came from; only the pool
loses one that was in use when the scan broke down. -/
def settle {σ : Type} (w : World) (source : Source) (visit : Visit) (scan : Scan σ) : World :=
  let session := w.session.noteEnding visit.doc.length scan.ending
  let visits := w.visits ++ [visit]
  match source with
  | .own => ⟨scan.scanner, session, visits⟩
  | .pool =>
    ⟨w.own, if scan.outcome.isCrash then session else session.giveBack scan.scanner, visits⟩

end World

/-- The options of a new scanner, if those of a scanner of one's own are these. -/
def Source.options (own : Options) : Source → Options
  | .own => own
  | .pool => .standard

/-- A hook that keeps a state and works on what all scans share. -/
def Sink.ofHook {σ ω : Type} (hook : σ → Token → ω → (σ × Verdict) × ω) : Sink (σ × ω) :=
  fun (s, w) t => (((hook s t w).1.1, (hook s t w).2), (hook s t w).1.2)

namespace Routine

def perform {α : Type} : Routine α → World → α × World
  | .done value, w => (value, w)
  | .scan source doc hook init next, w =>
    let sink := Sink.ofHook fun s t w => (hook s t).perform w
    let scan := (w.lend source).1.scanInto doc sink.keeping ((init, (w.lend source).2), [])
    let ((s, w'), tokens) := scan.state
    (next s scan.outcome).perform (w'.settle source ⟨doc, tokens, scan.outcome⟩ scan)

/-- Runs a program with a new scanner for every scan, behind the given visits. -/
def alone {α : Type} (own : Options) : Routine α → List Visit → α × List Visit
  | .done value, visits => (value, visits)
  | .scan source doc hook init next, visits =>
    let sink := Sink.ofHook fun s t visits => (hook s t).alone own visits
    let scan := (Scanner.new (source.options own)).scanInto doc sink.keeping ((init, visits), [])
    let ((s, visits'), tokens) := scan.state
    (next s scan.outcome).alone own (visits' ++ [⟨doc, tokens, scan.outcome⟩])

end Routine

/-- The visits are these, and the scanners that are handed out have the options they should. -/
structure World.Alike (own : Options) (w : World) (visits : List Visit) : Prop where
  visits : w.visits = visits
  options : w.own.options = own
  standard : w.session.Standard

namespace World.Alike

variable {own : Options} {w : World} {visits : List Visit}

theorem lend (h : w.Alike own visits) (source : Source) :
    (w.lend source).1.options = source.options own ∧ (w.lend source).2.Alike own visits := by
  cases source with
  | own => exact ⟨h.options, h⟩
  | pool =>
    obtain ⟨options, lent⟩ := h.standard.borrow
    exact ⟨options, h.visits, h.options, lent⟩

theorem settle {σ : Type} (h : w.Alike own visits) (source : Source) (visit : Visit)
    {scan : Scan σ} (options : scan.scanner.options = source.options own) :
    (w.settle source visit scan).Alike own (visits ++ [visit]) := by
  have noted := h.standard.noteEnding visit.doc.length scan.ending
  have visits : w.visits ++ [visit] = visits ++ [visit] := by rw [h.visits]
  cases source with
  | own => exact ⟨visits, options, noted⟩
  | pool =>
    refine ⟨visits, h.options, ?_⟩
    simp only [World.settle]
    split
    · exact noted
    · exact noted.giveBack options

end World.Alike

/-- A program gets the same answers from its scans as if each had a new scanner. -/
theorem Routine.perform_alike {α : Type} (r : Routine α) {own : Options} {w : World}
    {visits : List Visit} (h : w.Alike own visits) :
    (r.perform w).1 = (r.alone own visits).1 ∧
      (r.perform w).2.Alike own (r.alone own visits).2 := by
  induction r generalizing w visits with
  | done value => exact ⟨rfl, h⟩
  | @scan α σ source doc hook init next ihHook ihNext =>
    obtain ⟨options, lent⟩ := h.lend source
    -- hooks are programs themselves, so by induction they answer alike in any world
    have alike : (Sink.ofHook fun s t w => (hook s t).perform w).Alike
        (fun p q => p.1 = q.1 ∧ p.2.Alike own q.2)
        (Sink.ofHook fun s t visits => (hook s t).alone own visits) := by
      rintro ⟨s, w⟩ ⟨_, visits⟩ t ⟨rfl, related⟩
      obtain ⟨answer, world⟩ := ihHook s t related
      exact ⟨⟨congrArg Prod.fst answer, world⟩, congrArg Prod.snd answer⟩
    obtain ⟨⟨⟨state, world⟩, tokens⟩, -, outcome, -⟩ :=
      Scanner.scanInto_alike (b := .new (source.options own)) options doc alike.keeping
        ((init, (w.lend source).2), []) ((init, visits), []) ⟨⟨rfl, lent⟩, rfl⟩
    simp only [perform, alone]
    rw [state, tokens, outcome]
    exact ihNext _ _ (world.settle source _ options)

/-- How many scanners a scan takes out of the pool. -/
def Source.drawn : Source → Nat
  | .own => 0
  | .pool => 1

namespace Routine

/-- The greatest number of scans through the pool that a program has in progress at once. A scan is
in progress as long as its hook is called, and the hook has scans of its own in progress then. -/
def depth {α : Type} : Routine α → World → Nat
  | .done _, _ => 0
  | .scan source doc hook init next, w =>
    let sink := Sink.ofHook fun s t w => (hook s t).perform w
    let scan := (w.lend source).1.scanInto doc
      (sink.keeping.gauging fun u t => (hook u.1.1 t).depth u.1.2)
      (((init, (w.lend source).2), []), 0)
    let (((s, w'), tokens), most) := scan.state
    max (most + source.drawn)
      ((next s scan.outcome).depth (w'.settle source ⟨doc, tokens, scan.outcome⟩ scan))

def pooled {σ : Type} (doc : List UInt8) (hook : σ → Token → Routine (σ × Verdict)) (init : σ) :
    Routine (σ × Outcome) :=
  .scan .pool doc hook init fun s outcome => .done (s, outcome)

end Routine

namespace World

def Intact (w : World) : Prop := ∀ v ∈ w.visits, v.outcome.isCrash = false

variable {w w' : World} {source : Source} {visit : Visit} {σ τ : Type}

theorem Intact.earlier (h : w'.Intact) (front : w.visits <+: w'.visits) : w.Intact :=
  fun v hv => h v (front.subset hv)

theorem visits_lend (w : World) (source : Source) : (w.lend source).2.visits = w.visits := by
  cases source <;> rfl

theorem visits_settle (w : World) (source : Source) (visit : Visit) (scan : Scan σ) :
    (w.settle source visit scan).visits = w.visits ++ [visit] := by
  cases source <;> rfl

theorem settle_congr {scan : Scan σ} {scan' : Scan τ} (ending : scan.ending = scan'.ending)
    (outcome : scan.outcome = scan'.outcome) (scanner : scan.scanner = scan'.scanner) :
    w.settle source visit scan = w.settle source visit scan' := by
  simp only [settle, ending, outcome, scanner]

end World

namespace Routine

section
variable {σ : Type} (hook : σ → Token → Routine (σ × Verdict))

/-- The sink of a hook, with the greatest number of scans that the hook has had in progress. -/
def gauged : Sink (((σ × World) × List Token) × Nat) :=
  (Sink.ofHook fun s t w => (hook s t).perform w).keeping.gauging fun u t =>
    (hook u.1.1 t).depth u.1.2

def gauge (scanner : Scanner) (doc : List UInt8) (init : σ) (lent : World) :
    Scan (((σ × World) × List Token) × Nat) :=
  scanner.scanInto doc (gauged hook) (((init, lent), []), 0)

end

section
variable {α σ : Type} (source : Source) (doc : List UInt8)
  (hook : σ → Token → Routine (σ × Verdict)) (init : σ) (next : σ → Outcome → Routine α) (w : World)

theorem perform_scan :
    (scan source doc hook init next).perform w =
      let run := gauge hook (w.lend source).1 doc init (w.lend source).2
      (next run.state.1.1.1 run.outcome).perform
        (run.state.1.1.2.settle source ⟨doc, run.state.1.2, run.outcome⟩ run) := by
  obtain ⟨state, ending, outcome, scanner⟩ := (w.lend source).1.scanInto_gauging doc
    (Sink.ofHook fun s t w => (hook s t).perform w).keeping
    (fun u t => (hook u.1.1 t).depth u.1.2) ((init, (w.lend source).2), []) 0
  simp only [gauge, gauged]
  rw [state, outcome, World.settle_congr ending outcome scanner, perform]

theorem depth_scan :
    (scan source doc hook init next).depth w =
      let run := gauge hook (w.lend source).1 doc init (w.lend source).2
      max (run.state.2 + source.drawn)
        ((next run.state.1.1.1 run.outcome).depth
          (run.state.1.1.2.settle source ⟨doc, run.state.1.2, run.outcome⟩ run)) := by
  simp only [depth, gauge, gauged]

end

theorem visits_kept {α : Type} (r : Routine α) (w : World) :
    w.visits <+: (r.perform w).2.visits := by
  induction r generalizing w with
  | done value => exact List.prefix_rfl
  | @scan α σ source doc hook init next ihHook ihNext =>
    have front : (w.lend source).2.visits <+:
        (gauge hook (w.lend source).1 doc init (w.lend source).2).state.1.1.2.visits :=
      Scanner.scanInto_invariant _ doc (gauged hook)
        (p := fun u => (w.lend source).2.visits <+: u.1.1.2.visits)
        (fun u t h => h.trans (ihHook u.1.1.1 t u.1.1.2)) List.prefix_rfl
    rw [World.visits_lend] at front
    rw [perform_scan]
    refine (front.trans ?_).trans (ihNext _ _ _)
    rw [World.visits_settle]
    exact List.prefix_append _ _

def bind {α β : Type} : Routine α → (α → Routine β) → Routine β
  | .done value, f => f value
  | .scan source doc hook init next, f =>
    .scan source doc hook init fun s outcome => (next s outcome).bind f

section
variable {α β : Type} (r : Routine α) (f : α → Routine β)

theorem perform_bind (w : World) :
    (r.bind f).perform w = (f (r.perform w).1).perform (r.perform w).2 := by
  induction r generalizing w with
  | done value => rfl
  | scan source doc hook init next _ ih => rw [bind, perform_scan, perform_scan, ih]

theorem depth_bind (w : World) :
    (r.bind f).depth w = max (r.depth w) ((f (r.perform w).1).depth (r.perform w).2) := by
  induction r generalizing w with
  | done value => simp [bind, depth, perform]
  | scan source doc hook init next _ ih =>
    simp only [bind, depth_scan, perform_scan, ih, Nat.max_assoc]

theorem alone_bind (own : Options) (visits : List Visit) :
    (r.bind f).alone own visits = (f (r.alone own visits).1).alone own (r.alone own visits).2 := by
  induction r generalizing visits with
  | done value => rfl
  | scan source doc hook init next _ ih => simp only [bind, alone, ih]

end

end Routine

end QueryDoc
