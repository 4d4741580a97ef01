import QueryDoc.Byte
import QueryDoc.Error
import QueryDoc.Token

/-! Readers of gaps, words, numbers and strings, and what the next significant byte announces. Offsets
are relative to the first byte. -/
namespace QueryDoc

namespace Gap

/-- The length, on top of `n`, of the longest run of comments and bytes that satisfy `skips`;
`comment` tells whether the run is inside a comment. -/
def count (skips : UInt8 → Bool) : (comment : Bool) → (n : Nat) → List UInt8 → Nat
  | _, n, [] => n
  | true, n, b :: bs => count skips (!Byte.isLineEnd b) (n + 1) bs
  | false, n, b :: bs =>
    if skips b then count skips false (n + 1) bs
    else if b = Byte.hash then count skips true (n + 1) bs
    else n

def length (bs : List UInt8) : Nat := count Byte.isIgnored false 0 bs

/-- No token spans a colon or an equals sign, which may follow a gap and be followed by one. -/
def isLinking (b : UInt8) : Bool := Byte.isIgnored b || b == Byte.colon || b == Byte.equals

/-- The length of the longest run of gaps, colons and equals signs. -/
def linkingLength (bs : List UInt8) : Nat := count isLinking false 0 bs

theorem count_eq_add (skips : UInt8 → Bool) (comment : Bool) (n : Nat) (bs : List UInt8) :
    count skips comment n bs = n + count skips comment 0 bs := by
  induction bs generalizing comment n with
  | nil => simp [count]
  | cons b bs ih =>
    cases comment with
    | true => rw [count, count, ih, ih _ (0 + 1)]; omega
    | false =>
      rw [count, count]
      split
      · rw [ih, ih _ (0 + 1)]; omega
      · split
        · rw [ih, ih _ (0 + 1)]; omega
        · rfl

theorem count_le (skips : UInt8 → Bool) (comment : Bool) (bs : List UInt8) :
    count skips comment 0 bs ≤ bs.length := by
  induction bs generalizing comment with
  | nil => simp [count]
  | cons b bs ih =>
    cases comment with
    | true =>
      have := ih (!Byte.isLineEnd b)
      rw [count, count_eq_add]
      simp only [List.length_cons]
      omega
    | false =>
      have hf := ih false
      have ht := ih true
      rw [count]
      split
      · rw [count_eq_add]; simp only [List.length_cons]; omega
      · split
        · rw [count_eq_add]; simp only [List.length_cons]; omega
        · omega

theorem length_le (bs : List UInt8) : length bs ≤ bs.length := count_le _ _ _

theorem linkingLength_le (bs : List UInt8) : linkingLength bs ≤ bs.length := count_le _ _ _

end Gap

namespace Word

def read (bs : List UInt8) : List UInt8 := bs.takeWhile Byte.isName

def length (bs : List UInt8) : Nat := (read bs).length

def query : List UInt8 := [0x71, 0x75, 0x65, 0x72, 0x79]

def mutation : List UInt8 := [0x6D, 0x75, 0x74, 0x61, 0x74, 0x69, 0x6F, 0x6E]

def subscription : List UInt8 :=
  [0x73, 0x75, 0x62, 0x73, 0x63, 0x72, 0x69, 0x70, 0x74, 0x69, 0x6F, 0x6E]

def fragment : List UInt8 := [0x66, 0x72, 0x61, 0x67, 0x6D, 0x65, 0x6E, 0x74]

def onWord : List UInt8 := [0x6F, 0x6E]

def trueWord : List UInt8 := [0x74, 0x72, 0x75, 0x65]

def falseWord : List UInt8 := [0x66, 0x61, 0x6C, 0x73, 0x65]

def nullWord : List UInt8 := [0x6E, 0x75, 0x6C, 0x6C]

/-- The definition that a keyword opens. -/
def definition? (w : List UInt8) : Option Kind :=
  if w = query then some .query
  else if w = mutation then some .mutation
  else if w = subscription then some .subscription
  else if w = fragment then some .fragment
  else none

/-- The kind of a word in value position; a word that is no literal is an enum value. -/
def value (w : List UInt8) : Kind :=
  if w = trueWord then .trueValue
  else if w = falseWord then .falseValue
  else if w = nullWord then .nullValue
  else .enumValue

/-- Whether the bytes begin with the keyword that introduces a type condition. -/
def isOn (bs : List UInt8) : Bool := read bs == onWord

theorem length_le (bs : List UInt8) : length bs ≤ bs.length :=
  (List.takeWhile_prefix _).length_le

theorem length_pos {b : UInt8} {bs : List UInt8} (h : Byte.isName b = true) :
    0 < length (b :: bs) := by
  simp [length, read, h]

theorem length_of_isOn {bs : List UInt8} (h : isOn bs = true) : length bs = 2 := by
  rw [length, eq_of_beq h]; rfl

theorem length_pos_of_definition? {bs : List UInt8} {k : Kind}
    (h : definition? (read bs) = some k) : 0 < length bs := by
  rw [length, List.length_pos_iff]
  intro he
  rw [he] at h
  simp [definition?, query, mutation, subscription, fragment] at h

end Word

inductive Lead where
  /-- The input has ended. -/
  | nothing
  | name
  | number
  | quote
  | dollar
  | atSign
  | bang
  | colon
  | equals
  | dot
  | openParen
  | closeParen
  | openBrace
  | closeBrace
  | openBracket
  | closeBracket
  /-- A byte that begins no lexeme. -/
  | stray
  deriving DecidableEq, Repr

namespace Lead

/-- The bytes that stand for themselves. -/
def ofPunctuation : UInt8 → Lead
  | Byte.quote => quote
  | Byte.dollar => dollar
  | Byte.atSign => atSign
  | Byte.bang => bang
  | Byte.colon => colon
  | Byte.equals => equals
  | Byte.dot => dot
  | Byte.openParen => openParen
  | Byte.closeParen => closeParen
  | Byte.openBrace => openBrace
  | Byte.closeBrace => closeBrace
  | Byte.openBracket => openBracket
  | Byte.closeBracket => closeBracket
  | _ => stray

def ofByte (b : UInt8) : Lead :=
  if Byte.isNameStart b then name
  else if Byte.isDigit b || b == Byte.minus || b == Byte.plus then number
  else ofPunctuation b

def of : List UInt8 → Lead
  | [] => nothing
  | b :: _ => ofByte b

theorem ofPunctuation_ne_nothing (b : UInt8) : ofPunctuation b ≠ nothing := by
  unfold ofPunctuation
  split <;> simp

theorem ofPunctuation_ne_name (b : UInt8) : ofPunctuation b ≠ name := by
  unfold ofPunctuation
  split <;> simp

theorem ofByte_ne_nothing (b : UInt8) : ofByte b ≠ nothing := by
  grind [ofByte, ofPunctuation_ne_nothing]

theorem ofByte_eq_name_iff {b : UInt8} : ofByte b = name ↔ Byte.isNameStart b = true := by
  grind [ofByte, ofPunctuation_ne_name]

theorem of_eq_nothing_iff {bs : List UInt8} : of bs = nothing ↔ bs = [] := by
  cases bs with
  | nil => simp [of]
  | cons b bs => simp [of, ofByte_ne_nothing]

theorem length_pos {bs : List UInt8} {l : Lead} (h : of bs = l) (hl : l ≠ nothing) :
    0 < bs.length := by
  rw [List.length_pos_iff]
  exact fun he => hl (h ▸ of_eq_nothing_iff.2 he)

end Lead

namespace Number

/-- What has been read so far. -/
inductive Phase where
  /-- Nothing yet. -/
  | start
  /-- The minus sign. -/
  | sign
  /-- The integer part `0`, which takes no further digit. -/
  | zero
  /-- The digits of another integer part. -/
  | whole
  /-- The decimal point. -/
  | point
  /-- The digits of the fraction. -/
  | fraction
  /-- The letter that opens the exponent. -/
  | exponent
  /-- The sign of the exponent. -/
  | exponentSign
  /-- The digits of the exponent. -/
  | power
  deriving DecidableEq, Repr

def isExponentMark (b : UInt8) : Bool := b == Byte.lowerE || b == Byte.upperE

/-- The phase after one more byte of the number. -/
def Phase.next? (p : Phase) (b : UInt8) : Option Phase :=
  match p with
  | .start =>
    if b = Byte.minus then some .sign else if b = Byte.zero then some .zero
    else if Byte.isDigit b then some .whole else none
  | .sign => if b = Byte.zero then some .zero else if Byte.isDigit b then some .whole else none
  | .zero =>
    if b = Byte.dot then some .point else if isExponentMark b then some .exponent else none
  | .whole =>
    if Byte.isDigit b then some .whole else if b = Byte.dot then some .point
    else if isExponentMark b then some .exponent else none
  | .point => if Byte.isDigit b then some .fraction else none
  | .fraction =>
    if Byte.isDigit b then some .fraction else if isExponentMark b then some .exponent else none
  | .exponent =>
    if b = Byte.plus ∨ b = Byte.minus then some .exponentSign
    else if Byte.isDigit b then some .power else none
  | .exponentSign => if Byte.isDigit b then some .power else none
  | .power => if Byte.isDigit b then some .power else none

/-- The kind of the number if it may end in this phase. -/
def Phase.kind? : Phase → Option Kind
  | .zero => some .int
  | .whole => some .int
  | .fraction => some .float
  | .power => some .float
  | _ => none

/-- Reads on from a phase at offset `n`. The result is the kind of the number and the offset of
its end, or the offset of the byte that fits no number. -/
def readFrom (p : Phase) (n : Nat) : List UInt8 → Except Nat (Kind × Nat)
  | [] =>
    match p.kind? with
    | some k => .ok (k, n)
    | none => .error n
  | b :: bs =>
    match p.next? b with
    | some q => readFrom q (n + 1) bs
    | none =>
      match p.kind? with
      | some k => if Byte.isTerminator b then .ok (k, n) else .error n
      | none => .error n

def read (bs : List UInt8) : Except Nat (Kind × Nat) := readFrom .start 0 bs

theorem readFrom_ok_bounds {p : Phase} {n : Nat} {bs : List UInt8} {k : Kind} {m : Nat}
    (h : readFrom p n bs = .ok (k, m)) : n ≤ m ∧ m ≤ n + bs.length := by
  fun_induction readFrom p n bs with
  | case1 => grind
  | case2 => grind
  | case3 _ _ _ _ _ _ ih => have := ih h; simp only [List.length_cons]; omega
  | case4 => grind
  | case5 => grind
  | case6 => grind

theorem readFrom_error_le {p : Phase} {n : Nat} {bs : List UInt8} {m : Nat}
    (h : readFrom p n bs = .error m) : m ≤ n + bs.length := by
  fun_induction readFrom p n bs with
  | case1 => simp at h
  | case2 => grind
  | case3 _ _ _ _ _ _ ih => have := ih h; simp only [List.length_cons]; omega
  | case4 => simp at h
  | case5 => grind
  | case6 => grind

theorem read_ok_bounds {bs : List UInt8} {k : Kind} {m : Nat} (h : read bs = .ok (k, m)) :
    0 < m ∧ m ≤ bs.length := by
  cases bs with
  | nil => simp [read, readFrom, Phase.kind?] at h
  | cons b bs =>
    rw [read, readFrom] at h
    split at h
    · have := readFrom_ok_bounds h
      simp only [List.length_cons]
      omega
    · simp [Phase.kind?] at h

theorem read_error_le {bs : List UInt8} {m : Nat} (h : read bs = .error m) : m ≤ bs.length := by
  have := readFrom_error_le h
  omega

end Number

namespace Quoted

/-- Where in the body the reader stands. -/
inductive Mode where
  | plain
  /-- Just after a backslash. -/
  | escape
  /-- In a unicode escape that still needs this many hexadecimal digits, and one more. -/
  | unicode (more : Nat)
  deriving DecidableEq, Repr

/-- What is missing where the body breaks off. -/
def Mode.expected : Mode → Expect
  | .plain => .endOfString
  | .escape => .escape
  | .unicode _ => .unicodeEscape

/-- The mode after one more byte, unless the byte is refused. The closing quote is apart. -/
def Mode.next? (m : Mode) (b : UInt8) : Option Mode :=
  match m with
  | .plain =>
    if b = Byte.backslash then some .escape
    else if Byte.isQuotedControl b then none else some .plain
  | .escape =>
    if b = Byte.lowerU then some (.unicode 3)
    else if Byte.isSimpleEscape b then some .plain else none
  | .unicode 0 => if Byte.isHexDigit b then some .plain else none
  | .unicode (more + 1) => if Byte.isHexDigit b then some (.unicode more) else none

/-- Reads on in a mode at offset `n`. The result is the offset of the closing quote, or the offset
of the first byte that does not fit and what should stand there. -/
def readFrom (m : Mode) (n : Nat) : List UInt8 → Except (Nat × Expect) Nat
  | [] => .error (n, m.expected)
  | b :: bs =>
    if m = .plain ∧ b = Byte.quote then .ok n
    else
      match m.next? b with
      | some m' => readFrom m' (n + 1) bs
      | none => .error (n, m.expected)

def read (bs : List UInt8) : Except (Nat × Expect) Nat := readFrom .plain 0 bs

theorem readFrom_ok_bounds {m : Mode} {n : Nat} {bs : List UInt8} {k : Nat}
    (h : readFrom m n bs = .ok k) : n ≤ k ∧ k < n + bs.length := by
  fun_induction readFrom m n bs with
  | case1 => simp at h
  | case2 => simp only [Except.ok.injEq] at h; simp only [List.length_cons]; omega
  | case3 _ _ _ _ _ _ _ ih => have := ih h; simp only [List.length_cons]; omega
  | case4 => simp at h

theorem read_ok_lt {bs : List UInt8} {k : Nat} (h : read bs = .ok k) : k < bs.length := by
  have := readFrom_ok_bounds h
  omega

theorem readFrom_error_le {m : Mode} {n : Nat} {bs : List UInt8} {k : Nat} {x : Expect}
    (h : readFrom m n bs = .error (k, x)) : k ≤ n + bs.length := by
  fun_induction readFrom m n bs with
  | case1 => grind
  | case2 => simp at h
  | case3 _ _ _ _ _ _ _ ih => have := ih h; simp only [List.length_cons]; omega
  | case4 => grind

theorem read_error_le {bs : List UInt8} {k : Nat} {x : Expect} (h : read bs = .error (k, x)) :
    k ≤ bs.length := by
  have := readFrom_error_le h
  omega

end Quoted

namespace Block

/-- Three quotes, which open and close a block string. -/
def fence : List UInt8 := [Byte.quote, Byte.quote, Byte.quote]

/-- A backslash and three quotes, which stand for three quotes. -/
def escapedFence : List UInt8 := Byte.backslash :: fence

/-- Reads on at offset `n`, where the next `skip` bytes belong to an escaped fence. The result is
the offset of the closing fence, or the offset of the first byte that does not fit. -/
def readFrom : (skip : Nat) → (n : Nat) → List UInt8 → Except Nat Nat
  | _, n, [] => .error n
  | skip + 1, n, _ :: bs => readFrom skip (n + 1) bs
  | 0, n, b :: bs =>
    if fence.isPrefixOf (b :: bs) then .ok n
    else if escapedFence.isPrefixOf (b :: bs) then readFrom 3 (n + 1) bs
    else if Byte.isBlockControl b then .error n
    else readFrom 0 (n + 1) bs

def read (bs : List UInt8) : Except Nat Nat := readFrom 0 0 bs

theorem readFrom_ok_bounds {skip n : Nat} {bs : List UInt8} {k : Nat}
    (h : readFrom skip n bs = .ok k) : n ≤ k ∧ k + 3 ≤ n + bs.length := by
  fun_induction readFrom skip n bs with
  | case1 => simp at h
  | case2 _ _ _ _ ih => have := ih h; simp only [List.length_cons]; omega
  | case3 n b bs hf =>
    have := (List.isPrefixOf_iff_prefix.1 hf).length_le
    simp only [Except.ok.injEq] at h
    simp only [fence, List.length_cons, List.length_nil] at this ⊢
    omega
  | case4 _ _ _ _ _ ih => have := ih h; simp only [List.length_cons]; omega
  | case5 => simp at h
  | case6 _ _ _ _ _ _ ih => have := ih h; simp only [List.length_cons]; omega

theorem read_ok_le {bs : List UInt8} {k : Nat} (h : read bs = .ok k) : k + 3 ≤ bs.length := by
  have := readFrom_ok_bounds h
  omega

theorem readFrom_error_le {skip n : Nat} {bs : List UInt8} {k : Nat}
    (h : readFrom skip n bs = .error k) : k ≤ n + bs.length := by
  fun_induction readFrom skip n bs with
  | case1 => grind
  | case2 _ _ _ _ ih => have := ih h; simp only [List.length_cons]; omega
  | case3 => simp at h
  | case4 _ _ _ _ _ ih => have := ih h; simp only [List.length_cons]; omega
  | case5 => grind
  | case6 _ _ _ _ _ _ ih => have := ih h; simp only [List.length_cons]; omega

theorem read_error_le {bs : List UInt8} {k : Nat} (h : read bs = .error k) : k ≤ bs.length := by
  have := readFrom_error_le h
  omega

theorem length_of_fence {bs : List UInt8} (h : fence.isPrefixOf bs = true) : 3 ≤ bs.length :=
  (List.isPrefixOf_iff_prefix.1 h).length_le

end Block

end QueryDoc
