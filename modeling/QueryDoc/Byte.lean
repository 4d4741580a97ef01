/-! Documents are byte strings: the bytes of the language, the characters they stand for, and those
that a diagnostic shows by their number. -/
namespace QueryDoc

namespace Byte

@[match_pattern] abbrev tab : UInt8 := 0x09
@[match_pattern] abbrev lineFeed : UInt8 := 0x0A
@[match_pattern] abbrev carriageReturn : UInt8 := 0x0D
@[match_pattern] abbrev space : UInt8 := 0x20
@[match_pattern] abbrev bang : UInt8 := 0x21
@[match_pattern] abbrev quote : UInt8 := 0x22
@[match_pattern] abbrev hash : UInt8 := 0x23
@[match_pattern] abbrev dollar : UInt8 := 0x24
@[match_pattern] abbrev openParen : UInt8 := 0x28
@[match_pattern] abbrev closeParen : UInt8 := 0x29
@[match_pattern] abbrev plus : UInt8 := 0x2B
@[match_pattern] abbrev comma : UInt8 := 0x2C
@[match_pattern] abbrev minus : UInt8 := 0x2D
@[match_pattern] abbrev dot : UInt8 := 0x2E
@[match_pattern] abbrev slash : UInt8 := 0x2F
@[match_pattern] abbrev zero : UInt8 := 0x30
@[match_pattern] abbrev colon : UInt8 := 0x3A
@[match_pattern] abbrev equals : UInt8 := 0x3D
@[match_pattern] abbrev atSign : UInt8 := 0x40
@[match_pattern] abbrev upperE : UInt8 := 0x45
@[match_pattern] abbrev openBracket : UInt8 := 0x5B
@[match_pattern] abbrev backslash : UInt8 := 0x5C
@[match_pattern] abbrev closeBracket : UInt8 := 0x5D
@[match_pattern] abbrev underscore : UInt8 := 0x5F
@[match_pattern] abbrev lowerB : UInt8 := 0x62
@[match_pattern] abbrev lowerE : UInt8 := 0x65
@[match_pattern] abbrev lowerF : UInt8 := 0x66
@[match_pattern] abbrev lowerN : UInt8 := 0x6E
@[match_pattern] abbrev lowerR : UInt8 := 0x72
@[match_pattern] abbrev lowerT : UInt8 := 0x74
@[match_pattern] abbrev lowerU : UInt8 := 0x75
@[match_pattern] abbrev openBrace : UInt8 := 0x7B
@[match_pattern] abbrev closeBrace : UInt8 := 0x7D

def isDigit (b : UInt8) : Bool := 0x30 ≤ b && b ≤ 0x39

def isLetter (b : UInt8) : Bool := (0x41 ≤ b && b ≤ 0x5A) || (0x61 ≤ b && b ≤ 0x7A)

/-- A name starts with a letter or an underscore. -/
def isNameStart (b : UInt8) : Bool := b == underscore || isLetter b

def isName (b : UInt8) : Bool := isNameStart b || isDigit b

def isLineEnd (b : UInt8) : Bool := b == lineFeed || b == carriageReturn

/-- Bytes without meaning between lexemes; comments are apart. -/
def isIgnored (b : UInt8) : Bool := b == space || b == tab || isLineEnd b || b == comma

/-- Raw bytes that a quoted string refuses. -/
def isQuotedControl (b : UInt8) : Bool := b < 0x20 && b != tab

/-- Raw bytes that a block string refuses. -/
def isBlockControl (b : UInt8) : Bool := b < 0x20 && b != tab && !isLineEnd b

/-- Spaces and tabs, which indent the lines of a block string. -/
def isIndent (b : UInt8) : Bool := b == space || b == tab

/-- A number or a bare name in value position ends only before one of these bytes. -/
def isTerminator (b : UInt8) : Bool :=
  isIgnored b || b == closeParen || b == closeBrace || b == closeBracket || b == openBrace ||
    b == openBracket || b == hash

/-- The value of a hexadecimal digit of either case. -/
def hexValue? (b : UInt8) : Option Nat :=
  if isDigit b then some (b.toNat - 0x30)
  else if 0x61 ≤ b && b ≤ 0x66 then some (b.toNat - 0x61 + 10)
  else if 0x41 ≤ b && b ≤ 0x46 then some (b.toNat - 0x41 + 10)
  else none

def isHexDigit (b : UInt8) : Bool := (hexValue? b).isSome

def isSimpleEscape (b : UInt8) : Bool :=
  b == quote || b == backslash || b == slash || b == lowerB || b == lowerF || b == lowerN ||
    b == lowerR || b == lowerT

theorem isName_of_isNameStart {b : UInt8} (h : isNameStart b = true) : isName b = true := by
  simp [isName, h]

end Byte

namespace Utf8

def replacement : Char := Char.ofNat 0xFFFD

def decode? (bs : List UInt8) : Option Char := (bs.take 4).toByteArray.utf8DecodeChar? 0

/-- The first character to report: none at the end, the replacement for malformed bytes. -/
def first? : List UInt8 → Option Char
  | [] => none
  | b :: bs => some ((decode? (b :: bs)).getD replacement)

theorem first?_eq_none_iff {bs : List UInt8} : first? bs = none ↔ bs = [] := by
  cases bs <;> simp [first?]

theorem decode?_encode_append (c : Char) (bs : List UInt8) :
    decode? (String.utf8EncodeChar c ++ bs) = some c := by
  have hlen : (String.utf8EncodeChar c).length ≤ 4 := by
    rw [String.length_utf8EncodeChar]; exact Char.utf8Size_le_four c
  rw [decode?, List.take_append, List.take_of_length_le hlen, List.toByteArray_append]
  exact ByteArray.utf8DecodeChar?_utf8EncodeChar_append

end Utf8

namespace Printable

/-- The control characters, general category Cc. -/
def isControl (c : Char) : Bool := c.toNat < 0x20 || (0x7F ≤ c.toNat && c.toNat ≤ 0x9F)

/-- The characters with the property White_Space. -/
def isWhiteSpace (c : Char) : Bool :=
  (0x09 ≤ c.toNat && c.toNat ≤ 0x0D) || c.toNat == 0x20 || c.toNat == 0x85 || c.toNat == 0xA0 ||
    c.toNat == 0x1680 || (0x2000 ≤ c.toNat && c.toNat ≤ 0x200A) || c.toNat == 0x2028 ||
    c.toNat == 0x2029 || c.toNat == 0x202F || c.toNat == 0x205F || c.toNat == 0x3000

/-- Zero-width characters, directional marks, invisible operators and the byte order mark. -/
def isInvisible (c : Char) : Bool :=
  (0x200B ≤ c.toNat && c.toNat ≤ 0x200F) || (0x2060 ≤ c.toNat && c.toNat ≤ 0x2064) ||
    c.toNat == 0xFEFF

def isPrintable (c : Char) : Bool :=
  c == ' ' || !(isControl c || isWhiteSpace c || isInvisible c)

/-- A printable character stands for itself, another one is written in hexadecimal. -/
def shown (c : Char) : List Char :=
  if isPrintable c then [c] else '0' :: 'x' :: Nat.toDigits 16 c.toNat

end Printable

end QueryDoc
