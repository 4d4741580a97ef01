import QueryDoc.Lexical
import QueryDoc.Proofs.Text.Word

/-! Numbers as an integer part, a fraction and an exponent, of which the last two may be missing.
The phases of the reader accept exactly these texts. -/
namespace QueryDoc.Number

def AllDigits (ds : List UInt8) : Prop := ∀ d ∈ ds, Byte.isDigit d = true

def Digits (ds : List UInt8) : Prop := ds ≠ [] ∧ AllDigits ds

/-- Zero, or digits of which the first is not zero. -/
inductive Natural : List UInt8 → Prop
  | zero : Natural [Byte.zero]
  | digits {d : UInt8} {ds : List UInt8} (digit : Byte.isDigit d = true) (ne : d ≠ Byte.zero)
      (rest : AllDigits ds) : Natural (d :: ds)

inductive Integer : List UInt8 → Prop
  | positive {w : List UInt8} (natural : Natural w) : Integer w
  | negative {w : List UInt8} (natural : Natural w) : Integer (Byte.minus :: w)

inductive Fraction : List UInt8 → Prop
  | absent : Fraction []
  | present {ds : List UInt8} (digits : Digits ds) : Fraction (Byte.dot :: ds)

inductive Power : List UInt8 → Prop
  | plain {ds : List UInt8} (digits : Digits ds) : Power ds
  | signed {s : UInt8} {ds : List UInt8} (sign : s = Byte.plus ∨ s = Byte.minus)
      (digits : Digits ds) : Power (s :: ds)

inductive Exponent : List UInt8 → Prop
  | absent : Exponent []
  | present {m : UInt8} {w : List UInt8} (mark : m = Byte.lowerE ∨ m = Byte.upperE)
      (power : Power w) : Exponent (m :: w)

/-- A fraction and an exponent, with the kind of a number that ends with them. -/
inductive Scale : Kind → List UInt8 → Prop
  | int : Scale .int []
  | float {f e : List UInt8} (fraction : Fraction f) (exponent : Exponent e) (ne : f ++ e ≠ []) :
      Scale .float (f ++ e)

/-- The text of a number of the kind `int` or `float`. -/
inductive Text : Kind → List UInt8 → Prop
  | mk {k : Kind} {i s : List UInt8} (integer : Integer i) (scale : Scale k s) : Text k (i ++ s)

/-- What the reader may still meet in a phase, up to the end of a number of the kind. -/
def Phase.Rest : Phase → Kind → List UInt8 → Prop
  | .start, k, w => Text k w
  | .sign, k, w => ∃ i s, Natural i ∧ Scale k s ∧ w = i ++ s
  | .zero, k, w => Scale k w
  | .whole, k, w => ∃ ds s, AllDigits ds ∧ Scale k s ∧ w = ds ++ s
  | .point, k, w => k = .float ∧ ∃ ds e, Digits ds ∧ Exponent e ∧ w = ds ++ e
  | .fraction, k, w => k = .float ∧ ∃ ds e, AllDigits ds ∧ Exponent e ∧ w = ds ++ e
  | .exponent, k, w => k = .float ∧ Power w
  | .exponentSign, k, w => k = .float ∧ Digits w
  | .power, k, w => k = .float ∧ AllDigits w

theorem allDigits_nil : AllDigits [] := by simp [AllDigits]

theorem allDigits_cons {d : UInt8} {ds : List UInt8} (hd : Byte.isDigit d = true)
    (h : AllDigits ds) : AllDigits (d :: ds) := by
  intro e he
  rcases List.mem_cons.1 he with rfl | he
  · exact hd
  · exact h e he

theorem digits_cons {d : UInt8} {ds : List UInt8} (hd : Byte.isDigit d = true)
    (h : AllDigits ds) : Digits (d :: ds) := ⟨by simp, allDigits_cons hd h⟩

theorem isExponentMark_iff {b : UInt8} :
    isExponentMark b = true ↔ b = Byte.lowerE ∨ b = Byte.upperE := by
  simp [isExponentMark]

theorem Scale.ofExponent {m : UInt8} {w : List UInt8} (hm : isExponentMark m = true)
    (h : Power w) : Scale .float (m :: w) :=
  .float (f := []) .absent (.present (isExponentMark_iff.1 hm) h) (by simp)

theorem Scale.ofPoint {ds e : List UInt8} (hd : Digits ds) (he : Exponent e) :
    Scale .float (Byte.dot :: (ds ++ e)) := .float (.present hd) he (by simp)

theorem rest_nil {p : Phase} {k : Kind} (h : p.kind? = some k) : p.Rest k [] := by
  cases p <;> simp only [Phase.kind?, Option.some.injEq, reduceCtorEq] at h <;> subst h
  · exact .int
  · exact ⟨[], [], allDigits_nil, .int, rfl⟩
  · exact ⟨rfl, [], [], allDigits_nil, .absent, rfl⟩
  · exact ⟨rfl, allDigits_nil⟩

theorem rest_cons {p q : Phase} {b : UInt8} {k : Kind} {w : List UInt8} (hq : p.next? b = some q)
    (h : q.Rest k w) : p.Rest k (b :: w) := by
  cases p <;> simp only [Phase.next?] at hq <;> (repeat' split at hq) <;> cases hq
  case start.isTrue hb =>
    obtain ⟨i, s, hi, hs, rfl⟩ := h
    exact hb ▸ .mk (.negative hi) hs
  case start.isFalse.isTrue hb => exact hb ▸ .mk (.positive .zero) h
  case start.isFalse.isFalse.isTrue hn hd =>
    obtain ⟨ds, s, hds, hs, rfl⟩ := h
    exact .mk (.positive (.digits hd hn hds)) hs
  case sign.isTrue hb => exact ⟨_, w, .zero, h, hb ▸ rfl⟩
  case sign.isFalse.isTrue hn hd =>
    obtain ⟨ds, s, hds, hs, rfl⟩ := h
    exact ⟨_, s, .digits hd hn hds, hs, rfl⟩
  case zero.isTrue hb =>
    obtain ⟨rfl, ds, e, hd, he, rfl⟩ := h
    exact hb ▸ .ofPoint hd he
  case zero.isFalse.isTrue hb =>
    obtain ⟨rfl, hp⟩ := h
    exact .ofExponent hb hp
  case whole.isTrue hb =>
    obtain ⟨ds, s, hds, hs, rfl⟩ := h
    exact ⟨b :: ds, s, allDigits_cons hb hds, hs, rfl⟩
  case whole.isFalse.isTrue hb =>
    obtain ⟨rfl, ds, e, hd, he, rfl⟩ := h
    exact ⟨[], _, allDigits_nil, .ofPoint hd he, hb ▸ rfl⟩
  case whole.isFalse.isFalse.isTrue hb =>
    obtain ⟨rfl, hp⟩ := h
    exact ⟨[], _, allDigits_nil, .ofExponent hb hp, rfl⟩
  case point.isTrue hb =>
    obtain ⟨rfl, ds, e, hds, he, rfl⟩ := h
    exact ⟨rfl, b :: ds, e, digits_cons hb hds, he, rfl⟩
  case fraction.isTrue hb =>
    obtain ⟨rfl, ds, e, hds, he, rfl⟩ := h
    exact ⟨rfl, b :: ds, e, allDigits_cons hb hds, he, rfl⟩
  case fraction.isFalse.isTrue hb =>
    obtain ⟨rfl, hp⟩ := h
    exact ⟨rfl, [], _, allDigits_nil, .present (isExponentMark_iff.1 hb) hp, rfl⟩
  case exponent.isTrue hb => exact ⟨h.1, .signed hb h.2⟩
  case exponent.isFalse.isTrue hb => exact ⟨h.1, .plain (digits_cons hb h.2)⟩
  case exponentSign.isTrue hb => exact ⟨h.1, digits_cons hb h.2⟩
  case power.isTrue hb => exact ⟨h.1, allDigits_cons hb h.2⟩

theorem readFrom_ok {p : Phase} {n m : Nat} {bs : List UInt8} {k : Kind}
    (h : readFrom p n bs = .ok (k, m)) :
    ∃ w r, bs = w ++ r ∧ m = n + w.length ∧ p.Rest k w ∧ Word.Ended r.head? := by
  induction bs generalizing p n with
  | nil =>
    rw [readFrom] at h
    split at h
    · next j hj =>
        cases h
        exact ⟨[], [], rfl, rfl, rest_nil hj, by simp [Word.Ended]⟩
    · cases h
  | cons b bs ih =>
    rw [readFrom] at h
    split at h
    · next q hq =>
        obtain ⟨w, r, rfl, rfl, hw, hr⟩ := ih h
        refine ⟨b :: w, r, rfl, ?_, rest_cons hq hw, hr⟩
        simp only [List.length_cons]
        omega
    · split at h
      · next j hj =>
          split at h
          · next ht =>
              cases h
              refine ⟨[], b :: bs, rfl, rfl, rest_nil hj, ?_⟩
              rintro c ⟨⟩
              exact ht
          · cases h
      · cases h

theorem exists_rest (p : Phase) : ∃ k w, p.Rest k w := by
  have hz : Digits [Byte.zero] := digits_cons (by decide) allDigits_nil
  cases p with
  | start => exact ⟨_, _, .mk (.positive .zero) .int⟩
  | sign => exact ⟨_, _, _, _, .zero, .int, rfl⟩
  | zero => exact ⟨_, _, .int⟩
  | whole => exact ⟨_, _, _, _, allDigits_nil, .int, rfl⟩
  | point => exact ⟨_, _, rfl, _, _, hz, .absent, rfl⟩
  | fraction => exact ⟨_, _, rfl, _, _, allDigits_nil, .absent, rfl⟩
  | exponent => exact ⟨_, _, rfl, .plain hz⟩
  | exponentSign => exact ⟨_, _, rfl, hz⟩
  | power => exact ⟨_, _, rfl, allDigits_nil⟩

theorem readFrom_error {p : Phase} {n m : Nat} {bs : List UInt8}
    (h : readFrom p n bs = .error m) :
    ∃ u r k w, bs = u ++ r ∧ m = n + u.length ∧ p.Rest k (u ++ w) := by
  have here {p : Phase} (r : List UInt8) (n : Nat) :
      ∃ u r' k w, r = u ++ r' ∧ n = n + u.length ∧ p.Rest k (u ++ w) := by
    obtain ⟨k, w, hw⟩ := exists_rest p
    exact ⟨[], r, k, w, rfl, rfl, hw⟩
  induction bs generalizing p n with
  | nil =>
    rw [readFrom] at h
    split at h <;> cases h
    exact here _ _
  | cons b bs ih =>
    rw [readFrom] at h
    split at h
    · next q hq =>
        obtain ⟨u, r, k, w, rfl, rfl, hw⟩ := ih h
        refine ⟨b :: u, r, k, w, rfl, ?_, rest_cons hq hw⟩
        simp only [List.length_cons]
        omega
    · split at h
      · split at h <;> cases h
        exact here _ _
      · cases h
        exact here _ _

theorem next?_of_isTerminator (p : Phase) (b : UInt8) :
    Byte.isTerminator b = true → p.next? b = none :=
  Byte.forall_of_fin (p := fun b => Byte.isTerminator b = true → p.next? b = none)
    (by cases p <;> decide +kernel) b

theorem readFrom_next {p q : Phase} {b : UInt8} (h : p.next? b = some q) (n : Nat)
    (bs : List UInt8) : readFrom p n (b :: bs) = readFrom q (n + 1) bs := by
  rw [readFrom, h]

theorem readFrom_end {p : Phase} {k : Kind} (h : p.kind? = some k) {r : List UInt8}
    (hr : Word.Ended r.head?) (n : Nat) : readFrom p n r = .ok (k, n) := by
  cases r with
  | nil => rw [readFrom, h]
  | cons b r =>
    have hb := hr b rfl
    rw [readFrom, next?_of_isTerminator p b hb, h]
    exact if_pos hb

theorem readFrom_digits {p : Phase} (hp : ∀ d, Byte.isDigit d = true → p.next? d = some p)
    {ds : List UInt8} (h : AllDigits ds) (n : Nat) (r : List UInt8) :
    readFrom p n (ds ++ r) = readFrom p (n + ds.length) r := by
  induction ds generalizing n with
  | nil => rfl
  | cons d ds ih =>
    rw [List.cons_append, readFrom_next (hp d (h d (by simp))),
      ih (fun e he => h e (by simp [he])), List.length_cons]
    congr 1
    omega

theorem readFrom_power {w r : List UInt8} (h : Power w) (hr : Word.Ended r.head?) (n : Nat) :
    readFrom .exponent n (w ++ r) = .ok (.float, n + w.length) := by
  have power {p : Phase} (hp : ∀ d, Byte.isDigit d = true → p.next? d = some .power)
      {ds : List UInt8} (hd : Digits ds) (n : Nat) :
      readFrom p n (ds ++ r) = .ok (.float, n + ds.length) := by
    obtain ⟨ne, all⟩ := hd
    cases ds with
    | nil => exact absurd rfl ne
    | cons d ds =>
      rw [List.cons_append, readFrom_next (hp d (all d (by simp))),
        readFrom_digits (fun d hd => by simp [Phase.next?, hd]) (fun e he => all e (by simp [he])),
        readFrom_end rfl hr, List.length_cons]
      congr 2
      omega
  cases h with
  | plain hd =>
    refine power (fun d => ?_) hd n
    exact Byte.forall_of_fin (p := fun d => Byte.isDigit d = true →
      Phase.exponent.next? d = some .power) (by decide +kernel) d
  | @signed s ds hs hd =>
    rw [List.cons_append, readFrom_next (q := .exponentSign) (by simp [Phase.next?, hs]),
      power (fun d hd => by simp [Phase.next?, hd]) hd, List.length_cons]
    congr 2
    omega

theorem readFrom_exponent {p : Phase} (hp : p = .zero ∨ p = .whole ∨ p = .fraction) {m : UInt8}
    {w r : List UInt8} (hm : m = Byte.lowerE ∨ m = Byte.upperE) (h : Power w)
    (hr : Word.Ended r.head?) (n : Nat) :
    readFrom p n (m :: w ++ r) = .ok (.float, n + (m :: w).length) := by
  have next : p.next? m = some .exponent := by
    rcases hp with rfl | rfl | rfl <;> rcases hm with rfl | rfl <;> decide
  rw [List.cons_append, readFrom_next next, readFrom_power h hr, List.length_cons]
  congr 2
  omega

theorem readFrom_scale {p : Phase} (hp : p = .zero ∨ p = .whole) {k : Kind} {s r : List UInt8}
    (h : Scale k s) (hr : Word.Ended r.head?) (n : Nat) :
    readFrom p n (s ++ r) = .ok (k, n + s.length) := by
  cases h with
  | int => exact readFrom_end (by rcases hp with rfl | rfl <;> rfl) hr n
  | @float f e hf he ne =>
    cases hf with
    | absent =>
      cases he with
      | absent => exact absurd rfl ne
      | present hm hw => exact readFrom_exponent (hp.imp_right .inl) hm hw hr n
    | @present ds hd =>
      obtain ⟨ne, all⟩ := hd
      have point : p.next? Byte.dot = some .point := by rcases hp with rfl | rfl <;> decide
      cases ds with
      | nil => exact absurd rfl ne
      | cons d ds =>
        have digits : readFrom p n (Byte.dot :: d :: ds ++ e ++ r) =
            readFrom .fraction (n + 2 + ds.length) (e ++ r) := by
          rw [List.append_assoc, List.cons_append, List.cons_append, readFrom_next point,
            readFrom_next (q := .fraction) (by simp [Phase.next?, all d (by simp)]),
            readFrom_digits (fun d hd => by simp [Phase.next?, hd])
              (fun e he => all e (by simp [he]))]
        rw [digits]
        cases he with
        | absent =>
          rw [List.nil_append, readFrom_end rfl hr]
          simp only [List.append_nil, List.length_cons]
          congr 2
          omega
        | present hm hw =>
          rw [readFrom_exponent (.inr (.inr rfl)) hm hw hr]
          simp only [List.length_append, List.length_cons]
          congr 2
          omega

theorem readFrom_natural {p : Phase} (hp : p = .start ∨ p = .sign) {k : Kind}
    {i s r : List UInt8} (hi : Natural i) (hs : Scale k s) (hr : Word.Ended r.head?) (n : Nat) :
    readFrom p n (i ++ s ++ r) = .ok (k, n + (i ++ s).length) := by
  rw [List.append_assoc]
  cases hi with
  | zero =>
    have next : p.next? Byte.zero = some .zero := by rcases hp with rfl | rfl <;> decide
    rw [List.cons_append, readFrom_next next, List.nil_append, readFrom_scale (.inl rfl) hs hr]
    simp only [List.length_append, List.length_cons, List.length_nil]
    congr 2
    omega
  | @digits d ds hd ne all =>
    have next : p.next? d = some .whole := by
      have minus : d ≠ Byte.minus := by
        rintro rfl
        exact absurd hd (by decide)
      rcases hp with rfl | rfl <;> simp [Phase.next?, minus, ne, hd]
    rw [List.cons_append, readFrom_next next,
      readFrom_digits (fun d hd => by simp [Phase.next?, hd]) all,
      readFrom_scale (.inr rfl) hs hr]
    simp only [List.length_append, List.length_cons]
    congr 2
    omega

/-- The text of a number is read as that number where a scalar may end behind it. -/
theorem read_append {k : Kind} {w r : List UInt8} (h : Text k w) (hr : Word.Ended r.head?) :
    read (w ++ r) = .ok (k, w.length) := by
  obtain ⟨hi, hs⟩ := h
  cases hi with
  | positive hi => simpa [read] using readFrom_natural (.inl rfl) hi hs hr 0
  | negative hi =>
    rw [read, List.cons_append, List.cons_append, readFrom_next (q := .sign) (by decide),
      readFrom_natural (.inr rfl) hi hs hr]
    simp only [List.length_cons]
    congr 2
    omega

theorem Text.kind {k : Kind} {w : List UInt8} (h : Text k w) : k = .int ∨ k = .float := by
  obtain ⟨-, hs⟩ := h
  cases hs with
  | int => exact .inl rfl
  | float => exact .inr rfl

theorem lead_append {k : Kind} {w : List UInt8} (h : Text k w) (r : List UInt8) :
    Lead.of (w ++ r) = .number := by
  have digit (d : UInt8) (hd : Byte.isDigit d = true) : Lead.ofByte d = .number :=
    Byte.forall_of_fin (p := fun d => Byte.isDigit d = true → Lead.ofByte d = .number)
      (by decide +kernel) d hd
  obtain ⟨hi, hs⟩ := h
  cases hi with
  | positive hi =>
    cases hi with
    | zero => exact digit _ (by decide)
    | digits hd => exact digit _ hd
  | negative hi => rfl

end QueryDoc.Number
