import QueryDoc.Scanner

/-! Many scans of documents, each reduced to the number of its tokens and the error that ended it.
-/
namespace QueryDoc

structure Tally where
  count : Nat
  error : Option Error
  deriving DecidableEq, Repr

namespace Ending

def error? : Ending → Option Error
  | .stopped e => some e
  | _ => none

end Ending

namespace Tally

def full (doc : List UInt8) : Tally :=
  let scan := Scanner.standard.scanInto doc (.observe fun n _ => n + 1) 0
  ⟨scan.state, scan.ending.error?⟩

def upTo (doc : List UInt8) (k : Nat) : Tally :=
  let scan := Scanner.standard.scanUntil doc (fun n _ => (n + 1, n == k)) 0
  ⟨scan.state, scan.ending.error?⟩

def buffered (doc : List UInt8) (capacity : Nat) : Tally :=
  let scan := Scanner.standard.fill doc (Array.replicate capacity Token.blank)
  ⟨scan.state.written, scan.ending.error?⟩

/-- The tallies of a scan that stops at each token in turn, and of a buffer that has room for all
tokens before it. -/
def stops (doc : List UInt8) : List (Tally × Tally) :=
  (List.range (full doc).count).map fun k => (upTo doc k, buffered doc k)

end Tally

/-- Families of documents made from one. -/
inductive Sweep where
  /-- Every byte between two texts. -/
  | bytes (before after : List UInt8)
  /-- Every beginning of a document. -/
  | truncations (doc : List UInt8)
  /-- A text put in front of each byte, and at the end. -/
  | insertions (doc text : List UInt8)
  /-- A text in place of each byte. -/
  | replacements (doc text : List UInt8)
  deriving DecidableEq, Repr

namespace Sweep

def documents : Sweep → List (List UInt8)
  | bytes before after => (List.range 256).map fun n => before ++ UInt8.ofNat n :: after
  | truncations doc => (List.range (doc.length + 1)).map doc.take
  | insertions doc text =>
    (List.range (doc.length + 1)).map fun n => doc.take n ++ text ++ doc.drop n
  | replacements doc text =>
    (List.range doc.length).map fun n => doc.take n ++ text ++ doc.drop (n + 1)

def tallies (s : Sweep) : List Tally := s.documents.map Tally.full

end Sweep

/-- Totals over the tokens of one scan. -/
structure Summary where
  count : Nat
  /-- How often each kind was delivered, for the kinds that were. -/
  kinds : List (Kind × Nat)
  maxLevel : Nat
  /-- The sum of the lengths of all spans. -/
  spanned : Nat
  /-- The length of the document that the tokens refer to, zero without tokens. -/
  length : Nat
  last : Option Token
  outcome : Outcome
  deriving Repr

namespace Summary

def kindCounts (tokens : Array Token) : List (Kind × Nat) :=
  (Kind.all.map fun k => (k, tokens.countP (·.kind == k))).filter (·.2 != 0)

def of (options : Options) (doc : List UInt8) : Summary :=
  let scan := (Scanner.new options).scan doc
  let tokens := scan.state
  { count := tokens.size
    kinds := kindCounts tokens
    maxLevel := tokens.foldl (fun m t => max m t.level) 0
    spanned := tokens.foldl (fun n t => n + (t.head - t.tail)) 0
    length := if tokens.isEmpty then 0 else doc.length
    last := tokens.back?
    outcome := scan.outcome }

end Summary

end QueryDoc
