import QueryDoc.Error
import QueryDoc.Grammar.React
import QueryDoc.Lexical
import QueryDoc.Token

/-! A scan goes from configuration to configuration and hands every token to a sink, which decides
whether it goes on. A scanner keeps its options and what was open when its last scan ended. -/
namespace QueryDoc

namespace Upcoming

def dots : List UInt8 := [Byte.dot, Byte.dot, Byte.dot]

/-- The length of the dots at the front, the gap after them, and the keyword and gap that may
follow. -/
def spreadLength (bs : List UInt8) : Nat :=
  let start := 3 + Gap.length (bs.drop 3)
  if Word.isOn (bs.drop start) then start + 2 + Gap.length (bs.drop (start + 2)) else start

/-- The length of the sigil, the quotes or the spread that opens the next token. -/
def opening (bs : List UInt8) : Nat :=
  match Lead.of bs with
  | .dollar => 1
  | .atSign => 1
  | .quote => if Block.fence.isPrefixOf bs then 3 else 1
  | .dot => if dots.isPrefixOf bs then spreadLength bs else 0
  | _ => 0

/-- The length of the gap after a token, and of the keyword that follows a fragment's name. -/
def leading (previous : Kind) (bs : List UInt8) : Nat :=
  let gap := Gap.length bs
  if previous = .fragmentName ∧ Word.isOn (bs.drop gap) then gap + 2 else gap

/-- The offset at which the next token begins, after `previous` was read up to the first byte. -/
def offset (previous : Kind) (bs : List UInt8) : Nat :=
  let start := leading previous bs
  let linked := start + Gap.linkingLength (bs.drop start)
  linked + opening (bs.drop linked)

end Upcoming

/-- The `rest` is the document from offset `pos` on. -/
structure Config where
  pos : Nat
  rest : List UInt8
  level : Nat
  state : State
  deriving DecidableEq, Repr

inductive Step where
  /-- Goes on without a token. -/
  | silent (next : Config)
  | token (token : Token) (next : Config)
  | failed (error : Error)
  | finished
  deriving DecidableEq, Repr

namespace Config

def start (doc : List UInt8) : Config := ⟨0, doc, 0, .definition false⟩

def skip (c : Config) (n : Nat) (next : State) : Config :=
  { c with pos := c.pos + n, rest := c.rest.drop n, state := next }

/-- The record of a lexeme; a selection set counts the depth it opens or returns to. -/
def token (c : Config) (x : Lexeme) : Token :=
  ⟨x.kind, c.pos + x.tail, c.pos + x.head, x.kind.levelAfter c.level⟩

def deliver (c : Config) (x : Lexeme) (next : State) : Config :=
  ⟨c.pos + x.resume, c.rest.drop x.resume, x.kind.levelAfter c.level, next⟩

/-- The error at an offset from here. -/
def error (c : Config) (offset : Nat) (code : ErrorCode) (expected : Option Expect) : Error :=
  .here (c.pos + offset) (c.rest.drop offset) code expected

/-- The error of a scan that the receiver stops at a token, which was read up to here. -/
def stop (c : Config) (last : Kind) (code : ErrorCode) : Error :=
  c.error (Upcoming.offset last c.rest) code none

def move (c : Config) : Move := Grammar.move c.level c.state c.rest

def step (c : Config) : Step :=
  match c.move with
  | .become next => .silent { c with state := next }
  | .skip n next => .silent (c.skip n next)
  | .deliver x next => .token (c.token x) (c.deliver x next)
  | .fail offset code expected => .failed (c.error offset code expected)
  | .finish => .finished

/-- Every byte ahead allows at most three steps. -/
def size (c : Config) : Nat := 3 * c.rest.length + c.state.rank

theorem size_lt_of_silent {c d : Config} (h : c.step = .silent d) : d.size < c.size := by
  have hm := Grammar.advances_move c.level c.state c.rest
  unfold step move at h
  split at h
  · next next he =>
      rw [he] at hm
      cases h
      simp only [Move.Advances] at hm
      simp only [size]
      omega
  · next n next he =>
      rw [he] at hm
      cases h
      have := next.rank_le
      simp only [Move.Advances] at hm
      simp only [size, skip, List.length_drop]
      omega
  all_goals cases h

theorem size_lt_of_token {c d : Config} {t : Token} (h : c.step = .token t d) :
    d.size < c.size := by
  have hm := Grammar.advances_move c.level c.state c.rest
  unfold step move at h
  split at h
  case h_3 x next he =>
    rw [he] at hm
    cases h
    have := next.rank_le
    simp only [Move.Advances, Lexeme.Within] at hm
    simp only [size, deliver, List.length_drop]
    omega
  all_goals cases h

end Config

inductive Verdict where
  | proceed
  /-- The scan is to end with this code. -/
  | stop (code : ErrorCode)
  /-- The sink broke down. -/
  | crash
  deriving DecidableEq, Repr

abbrev Sink (σ : Type) := σ → Token → σ × Verdict

inductive Ending where
  | complete
  | stopped (error : Error)
  | crashed
  deriving DecidableEq, Repr

/-- The state of the sink, the ending, and the configuration that was reached. -/
structure Run (σ : Type) where
  state : σ
  ending : Ending
  last : Config

namespace Config

def run {σ : Type} (sink : Sink σ) (s : σ) (c : Config) : Run σ :=
  match _h : c.step with
  | .silent d => run sink s d
  | .token t d =>
    match sink s t with
    | (s', .proceed) => run sink s' d
    | (s', .stop code) => ⟨s', .stopped (d.stop t.kind code), d⟩
    | (s', .crash) => ⟨s', .crashed, d⟩
  | .failed e => ⟨s, .stopped e, c⟩
  | .finished => ⟨s, .complete, c⟩
termination_by c.size
decreasing_by
  · exact size_lt_of_silent ‹_›
  · exact size_lt_of_token ‹_›

theorem run_of_silent {σ : Type} {sink : Sink σ} {s : σ} {c d : Config}
    (h : c.step = .silent d) : c.run sink s = d.run sink s := by
  rw [run]
  split <;> simp_all

theorem run_of_token {σ : Type} {sink : Sink σ} {s : σ} {c d : Config} {t : Token}
    (h : c.step = .token t d) :
    c.run sink s =
      match sink s t with
      | (s', .proceed) => d.run sink s'
      | (s', .stop code) => ⟨s', .stopped (d.stop t.kind code), d⟩
      | (s', .crash) => ⟨s', .crashed, d⟩ := by
  rw [run]
  split <;> simp_all

theorem run_of_failed {σ : Type} {sink : Sink σ} {s : σ} {c : Config} {e : Error}
    (h : c.step = .failed e) : c.run sink s = ⟨s, .stopped e, c⟩ := by
  rw [run]
  split <;> simp_all

theorem run_of_finished {σ : Type} {sink : Sink σ} {s : σ} {c : Config}
    (h : c.step = .finished) : c.run sink s = ⟨s, .complete, c⟩ := by
  rw [run]
  split <;> simp_all

end Config

namespace Sink

def observe {σ : Type} (hook : σ → Token → σ) : Sink σ := fun s t => (hook s t, .proceed)

/-- Lets a hook see every token and end the scan with `code` by answering true. -/
def breaking {σ : Type} (code : ErrorCode) (hook : σ → Token → σ × Bool) : Sink σ := fun s t =>
  match hook s t with
  | (s', true) => (s', .stop code)
  | (s', false) => (s', .proceed)

/-- Lets a hook see every token and abort the scan. -/
def abortable {σ : Type} (hook : σ → Token → σ × Bool) : Sink σ := breaking .aborted hook

def record : Sink (Array Token) := observe Array.push

end Sink

structure Buffer where
  records : Array Token
  written : Nat
  deriving DecidableEq, Repr

namespace Buffer

/-- A buffer to be written from its first record on. -/
def ofRecords (records : Array Token) : Buffer := ⟨records, 0⟩

def write : Sink Buffer := fun b t =>
  if h : b.written < b.records.size then
    (⟨b.records.set b.written t h, b.written + 1⟩, .proceed)
  else (b, .stop .bufferFull)

end Buffer

structure Options where
  /-- The number of open lists and objects to make room for in advance. -/
  stackCapacity : Nat
  /-- Whether a violation of the grammar breaks the scan down instead of being returned. -/
  haltOnError : Bool
  deriving DecidableEq, Repr

def Options.standard : Options := ⟨16, false⟩

inductive Crash where
  | hook
  | violation (error : Error)
  deriving DecidableEq, Repr

def Crash.message : Crash → String
  | .hook => "hook panic"
  | .violation e => "syntax error: " ++ e.message

inductive Outcome where
  | ok
  | error (error : Error)
  | crash (crash : Crash)
  deriving DecidableEq, Repr

/-- With `haltOnError` every error breaks down, unless the receiver asked for it. -/
def Options.outcome (o : Options) : Ending → Outcome
  | .complete => .ok
  | .stopped e => if o.haltOnError && !e.code.isRequest then .crash (.violation e) else .error e
  | .crashed => .crash .hook

structure Scanner where
  options : Options
  containers : List Container
  deriving DecidableEq, Repr

/-- The state of the sink, the result of the scan, and the scanner afterwards. -/
structure Scan (σ : Type) where
  state : σ
  ending : Ending
  outcome : Outcome
  scanner : Scanner

namespace Scanner

def new (options : Options) : Scanner := ⟨options, []⟩

def standard : Scanner := new .standard

def scanInto {σ : Type} (s : Scanner) (doc : List UInt8) (sink : Sink σ) (init : σ) : Scan σ :=
  let run := (Config.start doc).run sink init
  ⟨run.state, run.ending, s.options.outcome run.ending,
    { s with containers := run.last.state.containers }⟩

def scan (s : Scanner) (doc : List UInt8) : Scan (Array Token) := s.scanInto doc .record #[]

/-- Scans a document with a hook that aborts the scan by answering true. -/
def scanUntil {σ : Type} (s : Scanner) (doc : List UInt8) (hook : σ → Token → σ × Bool) (init : σ) :
    Scan σ :=
  s.scanInto doc (.abortable hook) init

def fill (s : Scanner) (doc : List UInt8) (records : Array Token) : Scan Buffer :=
  s.scanInto doc Buffer.write (.ofRecords records)

end Scanner

/-- The error of a scan into a buffer, with the number of records that hold tokens. -/
def Scan.bufferError? (s : Scan Buffer) : Option BufferError :=
  match s.outcome with
  | .error e => some ⟨s.state.written, e⟩
  | _ => none

end QueryDoc
