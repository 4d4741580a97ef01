import QueryDoc.Content
import QueryDoc.Scanner

/-! Scans on one thread share a pool of scanners and a log. A plan is a scan with a hook of a fixed
shape, and a job is a plan with the jobs that its hook starts, to any depth. -/
namespace QueryDoc

inductive Event where
  | allocated
  | complete (length : Nat)
  | stopped (error : Error)
  deriving DecidableEq, Repr

namespace Event

def severity : Event → String
  | allocated => "TRACE"
  | complete _ => "TRACE"
  | stopped _ => "DEBUG"

def message : Event → String
  | allocated => "scanner pool empty, allocating"
  | complete _ => "scan complete"
  | stopped _ => "scan stopped"

def expectation : Option Expect → String
  | none => "None"
  | some x => "Some(" ++ x.name ++ ")"

end Event

/-- The event of a scan of `length` bytes. -/
def Ending.event? (length : Nat) : Ending → Option Event
  | .complete => some (.complete length)
  | .stopped e => some (.stopped e)
  | .crashed => none

structure Session where
  /-- The scanners that are free; the one returned last is lent first. -/
  pool : List Scanner
  log : Array Event

namespace Session

def empty : Session := ⟨[], #[]⟩

def note (s : Session) (e : Event) : Session := { s with log := s.log.push e }

/-- Logs the event of a scan of `length` bytes, if it leaves one. -/
def noteEnding (s : Session) (length : Nat) (ending : Ending) : Session :=
  match ending.event? length with
  | none => s
  | some e => s.note e

/-- Takes a scanner out of the pool, or makes a new one. -/
def borrow (s : Session) : Scanner × Session :=
  match s.pool with
  | [] => (.standard, s.note .allocated)
  | scanner :: pool => (scanner, { s with pool := pool })

def giveBack (s : Session) (scanner : Scanner) : Session := { s with pool := scanner :: s.pool }

def clearLog (s : Session) : Session := { s with log := #[] }

end Session

/-- A condition on a token and its number in the scan; it holds if any of its parts does. -/
structure Trigger where
  ordinal : Option Nat
  kind : Option Kind
  value : Option (List UInt8)
  deriving DecidableEq, Repr

namespace Trigger

def never : Trigger := ⟨none, none, none⟩

def atOrdinal (n : Nat) : Trigger := ⟨some n, none, none⟩

def onKind (k : Kind) : Trigger := ⟨none, some k, none⟩

def fires (g : Trigger) (doc : List UInt8) (n : Nat) (t : Token) : Bool :=
  g.ordinal == some n || g.kind == some t.kind ||
    match g.value with
    | none => false
    | some v => t.value doc == v

end Trigger

/-- Which tokens a hook decodes and how; `stopAfter` is the number of a chunk. -/
structure Decoding where
  size : Nat
  stopAfter : Nat
  /-- Whether tokens other than strings are decoded too. -/
  everything : Bool
  deriving DecidableEq, Repr

def Decoding.applies (d : Decoding) (kind : Kind) : Bool := d.everything || kind.isString

inductive Delivery where
  /-- By a hook; its wish to stop ends the scan with the code, if there is one. -/
  | hook (onStop : Option ErrorCode)
  | buffer (capacity : Nat)
  deriving DecidableEq, Repr

structure Plan where
  input : List UInt8
  delivery : Delivery
  decoding : Option Decoding
  crash : Trigger
  stop : Trigger
  deriving DecidableEq, Repr

structure Report where
  input : List UInt8
  tokens : List Token
  /-- The chunks of each token that was decoded, by its number. -/
  decoded : List (Nat × List (List UInt8))
  /-- The scans that the hook started. -/
  nested : List Report
  buffer : Option Buffer
  outcome : Outcome

def Outcome.isCrash : Outcome → Bool
  | .crash _ => true
  | _ => false

/-- A scan to be started when the trigger fires. -/
structure Starter where
  trigger : Trigger
  start : Session → Session × Report

structure Notes where
  session : Session
  tokens : Array Token
  decoded : Array (Nat × List (List UInt8))
  nested : Array Report

namespace Notes

def start (session : Session) : Notes := ⟨session, #[], #[], #[]⟩

def keepToken (n : Notes) (t : Token) : Notes := { n with tokens := n.tokens.push t }

def decode (n : Notes) (decoding : Option Decoding) (doc : List UInt8) (ordinal : Nat)
    (t : Token) : Notes :=
  match decoding with
  | none => n
  | some d =>
    if d.applies t.kind then
      let chunks := Chunks.collect t.kind (t.value doc) d.size d.stopAfter
      { n with decoded := n.decoded.push (ordinal, chunks) }
    else n

/-- Runs the scans whose trigger fires; a scan that breaks down takes the hook with it. -/
def startAll (n : Notes) (doc : List UInt8) (ordinal : Nat) (t : Token) :
    List Starter → Notes × Bool
  | [] => (n, false)
  | s :: rest =>
    if s.trigger.fires doc ordinal t then
      let (session, report) := s.start n.session
      let n := { n with session := session, nested := n.nested.push report }
      if report.outcome.isCrash then (n, true) else n.startAll doc ordinal t rest
    else n.startAll doc ordinal t rest

end Notes

namespace Plan

def plain (input : List UInt8) : Plan := ⟨input, .hook none, none, .never, .never⟩

def sink (plan : Plan) (onStop : Option ErrorCode) (starters : List Starter) : Sink Notes :=
  fun n t =>
    let ordinal := n.tokens.size
    let n := (n.keepToken t).decode plan.decoding plan.input ordinal t
    let (n, crashed) := n.startAll plan.input ordinal t starters
    if crashed || plan.crash.fires plan.input ordinal t then (n, .crash)
    else if plan.stop.fires plan.input ordinal t then
      match onStop with
      | some code => (n, .stop code)
      | none => (n, .proceed)
    else (n, .proceed)

def run (plan : Plan) (starters : List Starter) (scanner : Scanner) (session : Session) :
    Scanner × Session × Report :=
  match plan.delivery with
  | .hook onStop =>
    let scan := scanner.scanInto plan.input (plan.sink onStop starters) (.start session)
    let notes := scan.state
    (scan.scanner, notes.session.noteEnding plan.input.length scan.ending,
      ⟨plan.input, notes.tokens.toList, notes.decoded.toList, notes.nested.toList, none,
        scan.outcome⟩)
  | .buffer capacity =>
    let scan := scanner.fill plan.input (Array.replicate capacity Token.blank)
    (scan.scanner, session.noteEnding plan.input.length scan.ending,
      ⟨plan.input, [], [], [], some scan.state, scan.outcome⟩)

end Plan

inductive Job where
  | mk (plan : Plan) (nested : List (Trigger × Job))

namespace Job

mutual

/-- Runs a job through the pool. A scanner in use when a scan breaks down is lost. -/
def perform : Job → Session → Session × Report
  | mk plan nested, session =>
    let (scanner, lent) := session.borrow
    let (scanner', session', report) := plan.run (starters nested) scanner lent
    (if report.outcome.isCrash then session' else session'.giveBack scanner', report)

def starters : List (Trigger × Job) → List Starter
  | [] => []
  | (trigger, job) :: rest => ⟨trigger, fun session => job.perform session⟩ :: starters rest

end

/-- Runs a job through the given scanner, which stays usable whatever happens. -/
def performOn (scanner : Scanner) (session : Session) : Job → Scanner × Session × Report
  | mk plan nested => plan.run (starters nested) scanner session

end Job

structure Entry where
  report : Report
  log : List Event

namespace Session

def pooled (session : Session) : List Job → List Entry
  | [] => []
  | job :: jobs =>
    let (session', report) := job.perform session.clearLog
    ⟨report, session'.log.toList⟩ :: session'.pooled jobs

def shared (session : Session) (scanner : Scanner) : List Job → List Entry
  | [] => []
  | job :: jobs =>
    let (scanner', session', report) := job.performOn scanner session.clearLog
    ⟨report, session'.log.toList⟩ :: session'.shared scanner' jobs

end Session

end QueryDoc
