import QueryDoc.Scanner

/-! Kinds, codes and expectations are written as their names, and records as objects or lists of
fields. -/
namespace QueryDoc

inductive Datum where
  | null
  | bool (value : Bool)
  | int (value : Int)
  /-- A number that is not written as an integer; its value does not matter to any record. -/
  | fraction
  | text (value : String)
  | list (items : List Datum)
  /-- Fields with different names, in any order. -/
  | object (fields : List (String × Datum))
  deriving Inhabited

namespace Datum

/-- Sizes and offsets are below this bound. -/
def sizeBound : Nat := UInt64.size

def nat (n : Nat) : Datum := .int n

def nat? : Datum → Option Nat
  | .int n => if 0 ≤ n ∧ n < sizeBound then some n.toNat else none
  | _ => none

def char? : Datum → Option Char
  | .text s =>
    match s.toList with
    | [c] => some c
    | _ => none
  | _ => none

def ofChar (c : Char) : Datum := .text (String.ofList [c])

/-- Reads null as an absent value. -/
def optional? {α : Type} (read : Datum → Option α) : Datum → Option (Option α)
  | .null => some none
  | d => (read d).map some

def ofOption {α : Type} (write : α → Datum) : Option α → Datum
  | none => .null
  | some a => write a

/-- One of a set of names, as a text or as the only field of an object, with the value null. -/
def named? {α : Type} (ofName? : String → Option α) : Datum → Option α
  | .text s => ofName? s
  | .object [(s, .null)] => ofName? s
  | _ => none

/-- The fields of a record under the given names. An object may lack some of them and have others;
a list has exactly one item for each. -/
def fields? (names : List String) : Datum → Option (List (Option Datum))
  | .object fields => some (names.map fun n => fields.lookup n)
  | .list items => if items.length = names.length then some (items.map some) else none
  | _ => none

end Datum

namespace Kind

def toDatum (k : Kind) : Datum := .text k.name

def ofDatum? (d : Datum) : Option Kind := d.named? ofName?

end Kind

namespace ErrorCode

def toDatum (c : ErrorCode) : Datum := .text c.name

def ofDatum? (d : Datum) : Option ErrorCode := d.named? ofName?

end ErrorCode

namespace Expect

def toDatum (x : Expect) : Datum := .text x.name

def ofDatum? (d : Datum) : Option Expect := d.named? ofName?

end Expect

namespace Token

def toDatum (t : Token) : Datum :=
  .object [("kind", t.kind.toDatum), ("tail", .nat t.tail), ("head", .nat t.head),
    ("level", .nat t.level)]

def ofDatum? (d : Datum) : Option Token :=
  match d.fields? ["kind", "tail", "head", "level"] with
  | some [some kind, some tail, some head, some level] => do
    let kind ← Kind.ofDatum? kind
    let tail ← tail.nat?
    let head ← head.nat?
    let level ← level.nat?
    return ⟨kind, tail, head, level⟩
  | _ => none

end Token

namespace Error

def toDatum (e : Error) : Datum :=
  .object [("index", .nat e.index), ("at", .ofOption .ofChar e.char), ("code", e.code.toDatum),
    ("expected", .ofOption Expect.toDatum e.expected)]

/-- The character and the expectation may be missing. -/
def ofDatum? (d : Datum) : Option Error :=
  match d.fields? ["index", "at", "code", "expected"] with
  | some [some index, char, some code, expected] => do
    let index ← index.nat?
    let char ← (char.getD .null).optional? Datum.char?
    let code ← ErrorCode.ofDatum? code
    let expected ← (expected.getD .null).optional? Expect.ofDatum?
    return ⟨index, char, code, expected⟩
  | _ => none

end Error

namespace Options

def toDatum (o : Options) : Datum := .object [("stack_capacity", .nat o.stackCapacity)]

def ofDatum? (d : Datum) : Option Options :=
  match d.fields? ["stack_capacity"] with
  | some [some capacity] => do
    let capacity ← capacity.nat?
    return { Options.standard with stackCapacity := capacity }
  | _ => none

end Options

end QueryDoc
