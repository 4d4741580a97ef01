import QueryDoc.Byte
import QueryDoc.Lexical
import QueryDoc.Token

/-! The content of strings. Escapes and UTF-16 units become characters, block strings lose the
indentation they share, and the bytes are handed over in chunks of a fixed size. -/
namespace QueryDoc

namespace Utf16

def isHigh (unit : Nat) : Bool := 0xD800 ≤ unit && unit ≤ 0xDBFF

def isLow (unit : Nat) : Bool := 0xDC00 ≤ unit && unit ≤ 0xDFFF

/-- The character of a high and a low surrogate. -/
def pair (high low : Nat) : Char :=
  Char.ofNat (0x10000 + (high - 0xD800) * 0x400 + (low - 0xDC00))

/-- What a surrogate that is held back turns into when no unit follows it. -/
def flush : Option Nat → List Char
  | none => []
  | some _ => [Utf8.replacement]

/-- Takes one more unit: what is held back from now on, and the characters that are complete. -/
def feed (held : Option Nat) (unit : Nat) : Option Nat × List Char :=
  if isHigh unit then (some unit, flush held)
  else if isLow unit then
    match held with
    | some high => (none, [pair high unit])
    | none => (none, [Utf8.replacement])
  else (none, flush held ++ [Char.ofNat unit])

end Utf16

namespace Unescape

/-- Where in the body the reader stands. -/
inductive Mode where
  | plain
  /-- Just after a backslash. -/
  | escape
  /-- In a unicode escape, with this many bytes to come after the next one; `unit` is the value
  of the digits read, unless one of them is no hexadecimal digit. -/
  | unicode (more : Nat) (unit : Option Nat)
  deriving DecidableEq, Repr

structure Reader where
  mode : Mode
  /-- A high surrogate that is held back. -/
  held : Option Nat
  out : Array UInt8
  deriving DecidableEq, Repr

def encode (cs : List Char) : List UInt8 := cs.flatMap String.utf8EncodeChar

def escaped : UInt8 → UInt8
  | Byte.lowerB => 0x08
  | Byte.lowerF => 0x0C
  | Byte.lowerN => Byte.lineFeed
  | Byte.lowerR => Byte.carriageReturn
  | Byte.lowerT => Byte.tab
  | b => b

namespace Reader

def start : Reader := ⟨.plain, none, #[]⟩

def put (r : Reader) (b : UInt8) : Reader :=
  ⟨.plain, none, (r.out ++ encode (Utf16.flush r.held)).push b⟩

def putUnit (r : Reader) (unit : Option Nat) : Reader :=
  let (held, cs) := Utf16.feed r.held (unit.getD 0xFFFD)
  ⟨.plain, held, r.out ++ encode cs⟩

def appendDigit (unit : Option Nat) (b : UInt8) : Option Nat :=
  match unit, Byte.hexValue? b with
  | some u, some d => some (u * 16 + d)
  | _, _ => none

def step (r : Reader) (b : UInt8) : Reader :=
  match r.mode with
  | .plain => if b = Byte.backslash then { r with mode := .escape } else r.put b
  | .escape =>
    if b = Byte.lowerU then { r with mode := .unicode 3 (some 0) } else r.put (escaped b)
  | .unicode 0 unit => r.putUnit (appendDigit unit b)
  | .unicode (more + 1) unit => { r with mode := .unicode more (appendDigit unit b) }

def finish (r : Reader) : Array UInt8 :=
  match r.mode with
  | .unicode _ _ =>
    let r := r.putUnit none
    r.out ++ encode (Utf16.flush r.held)
  | _ => r.out ++ encode (Utf16.flush r.held)

end Reader

/-- The bytes that the body of a quoted string stands for. -/
def content (raw : List UInt8) : List UInt8 := (raw.foldl Reader.step .start).finish.toList

/-- Reads a body and writes what each byte completes, until a write refuses to go on. -/
def stream {ω ε : Type} (write : ω → List UInt8 → Except ε ω) (r : Reader) (w : ω) :
    List UInt8 → Except ε ω
  | [] => write w r.finish.toList
  | b :: bs => do
    let next := r.step b
    let w ← write w next.out.toList
    stream write { next with out := #[] } w bs

end Unescape

namespace Dedent

/-- The lines read so far, and whether the last byte was a carriage return. -/
structure Splitter where
  lines : Array (List UInt8)
  line : Array UInt8
  afterReturn : Bool

namespace Splitter

def start : Splitter := ⟨#[], #[], false⟩

/-- A carriage return and a line feed after it end one line. -/
def step (s : Splitter) (b : UInt8) : Splitter :=
  if b = Byte.lineFeed then
    if s.afterReturn then { s with afterReturn := false }
    else ⟨s.lines.push s.line.toList, #[], false⟩
  else if b = Byte.carriageReturn then ⟨s.lines.push s.line.toList, #[], true⟩
  else { s with line := s.line.push b, afterReturn := false }

def finish (s : Splitter) : List (List UInt8) := (s.lines.push s.line.toList).toList

end Splitter

/-- The lines of a text; a line end at the very end is followed by an empty line. -/
def lines (raw : List UInt8) : List (List UInt8) := (raw.foldl Splitter.step .start).finish

def indent (line : List UInt8) : Nat := (line.takeWhile Byte.isIndent).length

def isBlank (line : List UInt8) : Bool := line.all Byte.isIndent

/-- What the lines have in common: the indentation of those after the first that are not blank,
and the numbers of the first and the last line that are not blank. -/
structure Margins where
  shared : Option Nat
  first : Option Nat
  last : Nat
  deriving DecidableEq, Repr

namespace Margins

def add (m : Margins) (line : List UInt8) (n : Nat) : Margins :=
  if isBlank line then m
  else
    { shared :=
        if n = 0 then m.shared
        else some (match m.shared with | none => indent line | some k => min k (indent line))
      first := some (m.first.getD n)
      last := n }

def addAll (m : Margins) : Nat → List (List UInt8) → Margins
  | _, [] => m
  | n, line :: rest => (m.add line n).addAll (n + 1) rest

def of (ls : List (List UInt8)) : Margins := addAll ⟨none, none, 0⟩ 0 ls

end Margins

/-- Every line but the first without its first `n` bytes. -/
def shorten (n : Nat) : List (List UInt8) → List (List UInt8)
  | [] => []
  | line :: rest => line :: rest.map (List.drop n)

/-- Writes a line to `out`, with three quotes for each escaped fence. -/
def unescapeTo (out : Array UInt8) : List UInt8 → Array UInt8
  | [] => out
  | b :: bs =>
    if Block.escapedFence.isPrefixOf (b :: bs) then unescapeTo out bs
    else unescapeTo (out.push b) bs

def unescape (line : List UInt8) : List UInt8 := (unescapeTo #[] line).toList

/-- The lines to write, from the first to the last that is not blank. -/
def kept (ls : List (List UInt8)) : List (List UInt8) :=
  let margins := Margins.of ls
  match margins.first with
  | none => []
  | some first => ((shorten (margins.shared.getD 0) ls).take (margins.last + 1)).drop first

/-- The bytes that the body of a block string stands for. -/
def content (raw : List UInt8) : List UInt8 :=
  List.intercalate [Byte.lineFeed] ((kept (lines raw)).map unescape)

/-- Writes lines one after another, with line feeds between them. -/
def writeLines {ω ε : Type} (write : ω → List UInt8 → Except ε ω) (w : ω) :
    List (List UInt8) → Except ε ω
  | [] => .ok w
  | [line] => write w (unescape line)
  | line :: rest => do
    let w ← write w (unescape line)
    let w ← write w [Byte.lineFeed]
    writeLines write w rest

/-- Writes the content line by line, until a write refuses to go on. -/
def stream {ω ε : Type} (write : ω → List UInt8 → Except ε ω) (w : ω) (raw : List UInt8) :
    Except ε ω :=
  writeLines write w (kept (lines raw))

end Dedent

/-- The bytes that a token stands for: strings are decoded, every other token is taken as it is. -/
def Kind.content (kind : Kind) (raw : List UInt8) : List UInt8 :=
  match kind with
  | .quotedString => Unescape.content raw
  | .blockString => Dedent.content raw
  | _ => raw

/-- Decodes a token and writes its content as it comes. -/
def Kind.stream {ω ε : Type} (kind : Kind) (write : ω → List UInt8 → Except ε ω) (w : ω)
    (raw : List UInt8) : Except ε ω :=
  match kind with
  | .quotedString => Unescape.stream write .start w raw
  | .blockString => Dedent.stream write w raw
  | _ => write w raw

namespace Chunks

/-- Answers true to stop. -/
abbrev Receiver (σ : Type) := σ → List UInt8 → σ × Bool

/-- A buffer of `size` bytes in front of a receiver. Between two bytes it is never full. -/
structure Writer (σ : Type) (size : Nat) where
  state : σ
  held : Array UInt8
  room : held.size < size

namespace Writer

variable {σ : Type} {size : Nat}

def start (s : σ) (h : 0 < size) : Writer σ size := ⟨s, #[], h⟩

def put (receive : Receiver σ) (w : Writer σ size) (b : UInt8) : Except σ (Writer σ size) :=
  if h : w.held.size + 1 < size then .ok ⟨w.state, w.held.push b, by rwa [Array.size_push]⟩
  else
    match receive w.state (w.held.push b).toList with
    | (s, true) => .error s
    | (s, false) => .ok (start s (Nat.zero_lt_of_lt w.room))

def write (receive : Receiver σ) (w : Writer σ size) (bytes : List UInt8) :
    Except σ (Writer σ size) :=
  bytes.foldlM (put receive) w

def finish (receive : Receiver σ) (w : Writer σ size) : σ :=
  if w.held.isEmpty then w.state else (receive w.state w.held.toList).1

def conclude (receive : Receiver σ) : Except σ (Writer σ size) → σ
  | .error s => s
  | .ok w => w.finish receive

end Writer

/-- Hands over the content of a token in chunks of `size` bytes. -/
def deliver {σ : Type} (kind : Kind) (raw : List UInt8) (size : Nat) (receive : Receiver σ)
    (s : σ) : σ :=
  if h : 0 < size then
    Writer.conclude receive (kind.stream (Writer.write receive) (.start s h) raw)
  else s

/-- Keeps every chunk and stops at chunk number `stopAfter`, counted from one. -/
def keep (stopAfter : Nat) : Receiver (Array (List UInt8)) := fun chunks chunk =>
  let chunks := chunks.push chunk
  (chunks, chunks.size == stopAfter)

/-- The chunks that a receiver sees that stops at chunk number `stopAfter`, or never for zero. -/
def collect (kind : Kind) (raw : List UInt8) (size stopAfter : Nat) : List (List UInt8) :=
  (deliver kind raw size (keep stopAfter) #[]).toList

end Chunks

/-- The chunks of a token's content; none if its span lies outside the document. -/
def Token.chunks? (t : Token) (doc : List UInt8) (size stopAfter : Nat) :
    Option (List (List UInt8)) :=
  if t.fits doc then some (Chunks.collect t.kind (t.value doc) size stopAfter) else none

end QueryDoc
