import QueryDoc.Proofs.Syntax.Steps
import QueryDoc.Proofs.Text.Agree

/-! A number is read up to the one place where a whole number stands in front of a terminator; if
there is none, up to where it can still become one. -/
namespace QueryDoc

namespace Number

/-- A number of the kind is the first `n` bytes, and a scalar may end behind them. -/
structure Stands (bs : List UInt8) (n : Nat) (k : Kind) : Prop where
  length_le : n ≤ bs.length
  text : Text k (bs.take n)
  ended : Word.Ended bs[n]?

/-- The bytes are the beginning of a number. -/
def Begins (w : List UInt8) : Prop := ∃ k v, Text k (w ++ v)

/-- The bytes are a number and a terminator behind it. -/
def Closed (w : List UInt8) : Prop := ∃ k v t, Text k v ∧ Byte.isTerminator t = true ∧ w = v ++ [t]

/-- The first `n` bytes begin a number, but the input ends there or the next byte does not fit. -/
structure Breaks (bs : List UInt8) (n : Nat) : Prop where
  length_le : n ≤ bs.length
  begins : Begins (bs.take n)
  next : n = bs.length ∨ ¬Begins (bs.take (n + 1)) ∧ ¬Closed (bs.take (n + 1))

variable {bs : List UInt8} {n m : Nat} {k l : Kind}

theorem read_ok_iff : read bs = .ok (k, n) ↔ Stands bs n k := by
  constructor
  · intro h
    obtain ⟨w, r, rfl, rfl, text, ended⟩ := readFrom_ok h
    rw [Nat.zero_add]
    refine ⟨?_, ?_, ?_⟩
    · rw [List.length_append]
      omega
    · rwa [List.take_left]
    · rwa [List.getElem?_append_right (Nat.le_refl _), Nat.sub_self, ← List.head?_eq_getElem?]
  · intro h
    have ended : Word.Ended (bs.drop n).head? := by
      rw [List.head?_drop]
      exact h.ended
    have read := read_append h.text ended
    rwa [List.take_append_drop, List.length_take, Nat.min_eq_left h.length_le] at read

/-- A number has one end and one kind. -/
theorem Stands.unique (h : Stands bs n k) (g : Stands bs m l) : n = m ∧ k = l := by
  have same : (Except.ok (k, n) : Except Nat (Kind × Nat)) = .ok (l, m) :=
    (read_ok_iff.2 h).symm.trans (read_ok_iff.2 g)
  cases same
  exact ⟨rfl, rfl⟩

theorem Begins.take (h : Begins (bs.take m)) (hn : n ≤ m) : Begins (bs.take n) := by
  obtain ⟨k, v, text⟩ := h
  refine ⟨k, (bs.take m).drop n ++ v, ?_⟩
  have front : bs.take n = (bs.take m).take n := by rw [List.take_take, Nat.min_eq_left hn]
  rwa [front, ← List.append_assoc, List.take_append_drop]

/-- A number breaks off at one place only: what begins a number up to the later place begins one
behind the earlier. -/
theorem Breaks.unique (h : Breaks bs n) (g : Breaks bs m) : n = m := by
  have le {n m : Nat} (h : Breaks bs n) (g : Breaks bs m) : m ≤ n := by
    refine Nat.le_of_not_lt fun lt => ?_
    rcases h.next with last | ⟨stuck, -⟩
    · have := g.length_le
      omega
    · exact stuck (g.begins.take lt)
  exact Nat.le_antisymm (le g h) (le h g)

theorem breaks_of_read (h : read bs = .error n) : Breaks bs n := by
  obtain ⟨u, r, k, v, rfl, rfl, text⟩ := readFrom_error h
  rw [Nat.zero_add] at h ⊢
  refine ⟨?_, ⟨k, v, ?_⟩, ?_⟩
  · rw [List.length_append]
    omega
  · rwa [List.take_left]
  · cases r with
    | nil =>
      rw [List.append_nil]
      exact .inl rfl
    | cons b r =>
      have front (r : List UInt8) : (u ++ b :: r).take (u.length + 1) = u ++ [b] := by
        rw [List.take_append, List.take_of_length_le (Nat.le_succ _), Nat.add_sub_cancel_left]
        rfl
      rw [front]
      refine .inr ⟨?_, ?_⟩
      · rintro ⟨l, w, whole⟩
        rw [List.append_assoc, List.singleton_append] at whole
        have ok := read_append (r := []) whole (by simp [Word.Ended])
        have agree : Agree (u.length - 0 + 1) (u ++ b :: r) (u ++ b :: w ++ []) := by
          refine ⟨?_, ?_⟩
          · simp only [List.length_append, List.length_cons]
            omega
          · rw [Nat.sub_zero, List.append_nil, front, front]
        have error : read (u ++ b :: w ++ []) = .error u.length := readFrom_agree h agree
        cases ok.symm.trans error
      · rintro ⟨l, w, t, whole, terminator, same⟩
        obtain ⟨rfl, last⟩ := List.append_inj' same rfl
        cases last
        have ok := read_append (r := b :: r) whole (by rintro c ⟨⟩; exact terminator)
        cases ok.symm.trans h

end Number

theorem Lead.ofByte_of_number {b : UInt8}
    (h : b = Byte.minus ∨ b = Byte.plus ∨ Byte.isDigit b = true) : ofByte b = number :=
  Byte.forall_of_fin (p := fun b => (b = Byte.minus ∨ b = Byte.plus ∨ Byte.isDigit b = true) →
    ofByte b = number) (by decide +kernel) b h

namespace Config

variable {doc : List UInt8} {i level : Nat} {use : Use} {cs : List Container} {x : Expect}

theorem step_number {b : UInt8} (here : doc[i]? = some b)
    (lead : b = Byte.minus ∨ b = Byte.plus ∨ Byte.isDigit b = true) :
    (Config.mk i (doc.drop i) level (.value use cs x)).step =
      match Number.read (doc.drop i) with
      | .ok (k, n) => .token ⟨k, i, i + n, k.levelAfter level⟩
          ⟨i + n, doc.drop (i + n), k.levelAfter level, .afterValue use cs⟩
      | .error n => .failed (.here (i + n) (doc.drop (i + n)) .invalidNumber none) := by
  obtain ⟨within, rfl⟩ := List.getElem?_eq_some_iff.1 here
  have number : Lead.of (doc.drop i) = .number := by
    rw [List.drop_eq_getElem_cons within]
    exact Lead.ofByte_of_number lead
  have gap : Gap.length (doc.drop i) = 0 := by
    rw [List.drop_eq_getElem_cons within]
    refine Gap.length_of_stops (Lead.stops _ ?_) _
    rw [Lead.ofByte_of_number lead]
    exact nofun
  rw [step, move, Grammar.move]
  simp only [gap, List.drop_zero, Grammar.react, Grammar.value, number, Grammar.number]
  cases Number.read (doc.drop i) with
  | ok found => simp [Move.shift, Lexeme.shift, token, deliver]
  | error n => simp [Move.shift, error]

/-- Where a value may stand and a sign or a digit does, a number is delivered exactly from there to
the place where it stands in front of a terminator or the end, which is one place, as a float if it
has a fraction or an exponent and as an integer otherwise. If no number stands there, the scan fails
at the one place where a number breaks off. -/
theorem number_delivered {b : UInt8} (level : Nat) (use : Use) (cs : List Container) (x : Expect)
    (here : doc[i]? = some b) (lead : b = Byte.minus ∨ b = Byte.plus ∨ Byte.isDigit b = true) :
    let c : Config := ⟨i, doc.drop i, level, .value use cs x⟩
    (∀ k n, c.step = .token ⟨k, i, i + n, level⟩
        ⟨i + n, doc.drop (i + n), level, .afterValue use cs⟩ ↔ Number.Stands (doc.drop i) n k) ∧
      (∀ k l n m, Number.Stands (doc.drop i) n k → Number.Stands (doc.drop i) m l →
        n = m ∧ k = l) ∧
      ((∀ k n, ¬Number.Stands (doc.drop i) n k) → ∃ n,
        c.step = .failed (.here (i + n) (doc.drop (i + n)) .invalidNumber none) ∧
          Number.Breaks (doc.drop i) n ∧ ∀ m, Number.Breaks (doc.drop i) m → m = n) := by
  intro c
  have step : c.step = _ := step_number here lead
  refine ⟨fun k n => ⟨fun delivered => ?_, fun stands => ?_⟩,
    fun _ _ _ _ stands other => stands.unique other, fun none => ?_⟩
  · rw [delivered] at step
    split at step
    · next l m read =>
      obtain ⟨token, -⟩ := Step.token.inj step
      obtain ⟨rfl, -, head, -⟩ := Token.mk.inj token
      obtain rfl := Nat.add_left_cancel head
      exact Number.read_ok_iff.1 read
    · cases step
  · have same : k.levelAfter level = level := by
      rcases stands.text.kind with rfl | rfl <;> rfl
    rw [step, Number.read_ok_iff.2 stands]
    simp only [same]
  · cases read : Number.read (doc.drop i) with
    | ok found => exact absurd (Number.read_ok_iff.1 read) (none _ _)
    | error n =>
      have breaks := Number.breaks_of_read read
      rw [read] at step
      exact ⟨n, step, breaks, fun m hm => hm.unique breaks⟩

/-- In `{f(a:-0.5e+2,b:01)}` the first value is a float of seven bytes. The second is none:
it breaks off behind its zero, which no digit may follow. -/
theorem number_delivered_zeros :
    let doc : List UInt8 := [0x7B, 0x66, 0x28, 0x61, 0x3A, 0x2D, 0x30, 0x2E, 0x35, 0x65, 0x2B, 0x32,
      0x2C, 0x62, 0x3A, 0x30, 0x31, 0x29, 0x7D]
    let at_ (i : Nat) : Config := ⟨i, doc.drop i, 1, .value (.argument .field) [] .value⟩
    doc[5]? = some Byte.minus ∧ doc[15]? = some Byte.zero ∧
      Number.Stands (doc.drop 5) 7 .float ∧ (∀ k n, ¬Number.Stands (doc.drop 15) n k) ∧
      (at_ 15).step = .failed ⟨16, some '1', .invalidNumber, none⟩ ∧
      Number.Breaks (doc.drop 15) 1 := by
  intro doc at_
  have minus : doc[5]? = some Byte.minus := rfl
  have zero : doc[15]? = some Byte.zero := rfl
  have float : (at_ 5).step = .token ⟨.float, 5, 5 + 7, 1⟩
      ⟨5 + 7, doc.drop (5 + 7), 1, .afterValue (.argument .field) []⟩ := by decide +kernel
  have failed : (at_ 15).step = .failed ⟨16, some '1', .invalidNumber, none⟩ := by decide +kernel
  obtain ⟨stands, -, -⟩ := number_delivered 1 (.argument .field) [] .value minus (.inl rfl)
  obtain ⟨delivers, -, breaks⟩ :=
    number_delivered 1 (.argument .field) [] .value zero (.inr (.inr rfl))
  have none (k : Kind) (n : Nat) : ¬Number.Stands (doc.drop 15) n k := fun h =>
    nomatch failed.symm.trans ((delivers k n).2 h)
  obtain ⟨n, step, here, -⟩ := breaks none
  obtain rfl : 1 = n := by
    have index := congrArg Error.index (Step.failed.inj (failed.symm.trans step))
    exact Nat.add_left_cancel (n := 15) index
  exact ⟨minus, zero, (stands _ _).1 float, none, failed, here⟩

end Config

end QueryDoc
