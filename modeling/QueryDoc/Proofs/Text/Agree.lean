import QueryDoc.Proofs.Text.Strings
import QueryDoc.Proofs.Text.Number

/-! A reader of lexemes that breaks off does so in the same way on every input that agrees up to the
byte that did not fit. -/
namespace QueryDoc

/-- The first `n` bytes are there and are the same in both inputs. -/
def Agree (n : Nat) (bs bs' : List UInt8) : Prop := n ≤ bs.length ∧ bs'.take n = bs.take n

namespace Agree

variable {n m : Nat} {bs bs' : List UInt8}

theorem length_le (h : Agree n bs bs') : n ≤ bs'.length := by
  have := congrArg List.length h.2
  rw [List.length_take, List.length_take, Nat.min_eq_left h.1] at this
  omega

theorem mono (h : Agree n bs bs') (hm : m ≤ n) : Agree m bs bs' := by
  refine ⟨Nat.le_trans hm h.1, ?_⟩
  have := congrArg (List.take m) h.2
  rwa [List.take_take, List.take_take, Nat.min_eq_left hm] at this

theorem drop (h : Agree (m + n) bs bs') : Agree n (bs.drop m) (bs'.drop m) := by
  refine ⟨?_, ?_⟩
  · rw [List.length_drop]
    exact Nat.le_sub_of_add_le' h.1
  · have := congrArg (List.drop m) h.2
    rwa [List.drop_take, List.drop_take, Nat.add_sub_cancel_left] at this

theorem cons {b : UInt8} (h : Agree (n + 1) (b :: bs) bs') :
    ∃ r, bs' = b :: r ∧ Agree n bs r := by
  cases bs' with
  | nil => exact absurd h.length_le (Nat.not_succ_le_zero n)
  | cons b' r =>
    obtain ⟨hl, ht⟩ := h
    rw [List.take_succ_cons, List.take_succ_cons] at ht
    obtain ⟨rfl, rest⟩ := List.cons.inj ht
    exact ⟨r, rfl, Nat.le_of_succ_le_succ hl, rest⟩

theorem append {u r : List UInt8} (h : Agree (u.length + n) (u ++ r) bs') :
    ∃ r', bs' = u ++ r' ∧ Agree n r r' := by
  induction u generalizing bs' with
  | nil =>
    rw [List.length_nil, Nat.zero_add] at h
    exact ⟨bs', rfl, h⟩
  | cons b u ih =>
    rw [List.length_cons, Nat.add_right_comm] at h
    obtain ⟨v, rfl, hv⟩ := h.cons
    obtain ⟨r', rfl, hr⟩ := ih hv
    exact ⟨r', rfl, hr⟩

theorem head?_eq (h : Agree (n + 1) bs bs') : bs'.head? = bs.head? := by
  cases bs with
  | nil => exact absurd h.1 (Nat.not_succ_le_zero n)
  | cons b r =>
    obtain ⟨r', rfl, -⟩ := h.cons
    rfl

theorem lead_eq (h : Agree (n + 1) bs bs') : Lead.of bs' = Lead.of bs := by
  cases bs with
  | nil => exact absurd h.1 (Nat.not_succ_le_zero n)
  | cons b r =>
    obtain ⟨r', rfl, -⟩ := h.cons
    rfl

theorem gap_eq (h : Agree (Gap.length bs + n + 1) bs bs') : Gap.length bs' = Gap.length bs := by
  obtain ⟨g, b, r, rfl, hg, hb⟩ | hc := Gap.split bs
  · rw [Gap.length_append_stops hg hb] at h ⊢
    rw [Nat.add_assoc] at h
    obtain ⟨v, rfl, hv⟩ := h.append
    obtain ⟨r', rfl, -⟩ := hv.cons
    exact Gap.length_append_stops hg hb r'
  · have := h.1
    rw [Gap.length_of_closing hc] at this
    omega

theorem word_eq (h : Agree (Word.length bs + 1) bs bs') : Word.read bs' = Word.read bs := by
  induction bs generalizing bs' with
  | nil => exact absurd h.1 (Nat.not_succ_le_zero _)
  | cons b r ih =>
    by_cases hb : Byte.isName b = true
    · have hl : Word.length (b :: r) = Word.length r + 1 := by simp [Word.length, Word.read, hb]
      rw [hl] at h
      obtain ⟨r', rfl, rest⟩ := h.cons
      have := ih rest
      simp only [Word.read] at this ⊢
      rw [List.takeWhile_cons_of_pos hb, List.takeWhile_cons_of_pos hb, this]
    · obtain ⟨r', rfl, -⟩ := h.cons
      simp [Word.read, hb]

end Agree

theorem Number.readFrom_agree {p : Phase} {n m : Nat} {bs bs' : List UInt8}
    (h : readFrom p n bs = .error m) (agree : Agree (m - n + 1) bs bs') :
    readFrom p n bs' = .error m := by
  induction bs generalizing p n bs' with
  | nil => exact absurd agree.1 (Nat.not_succ_le_zero _)
  | cons b r ih =>
    obtain ⟨r', rfl, rest⟩ := agree.cons
    rw [readFrom] at h ⊢
    cases hq : p.next? b with
    | none =>
      rw [hq] at h
      exact h
    | some q =>
      rw [hq] at h
      obtain ⟨u, -, -, -, -, rfl, -⟩ := readFrom_error h
      exact ih h (rest.mono (by omega))

theorem Quoted.readFrom_agree {m : Mode} {n k : Nat} {bs bs' : List UInt8} {x : Expect}
    (h : readFrom m n bs = .error (k, x)) (agree : Agree (k - n + 1) bs bs') :
    readFrom m n bs' = .error (k, x) := by
  induction bs generalizing m n bs' with
  | nil => exact absurd agree.1 (Nat.not_succ_le_zero _)
  | cons b r ih =>
    obtain ⟨r', rfl, rest⟩ := agree.cons
    rw [readFrom] at h ⊢
    by_cases hq : m = .plain ∧ b = Byte.quote
    · rw [if_pos hq] at h
      cases h
    · rw [if_neg hq] at h ⊢
      cases hm : m.next? b with
      | none =>
        rw [hm] at h
        exact h
      | some m' =>
        rw [hm] at h
        obtain ⟨u, -, -, -, rfl, -⟩ := readFrom_error h
        exact ih h (rest.mono (by omega))

namespace Block

theorem le_of_readFrom_error {skip n k : Nat} {bs : List UInt8}
    (h : readFrom skip n bs = .error k) : n ≤ k := by
  fun_induction readFrom skip n bs with
  | case1 => cases h; exact Nat.le_refl _
  | case2 _ _ _ _ ih => exact Nat.le_of_succ_le (ih h)
  | case3 => cases h
  | case4 _ _ _ _ _ ih => exact Nat.le_of_succ_le (ih h)
  | case5 => cases h; exact Nat.le_refl _
  | case6 _ _ _ _ _ _ ih => exact Nat.le_of_succ_le (ih h)

theorem control_of_readFrom_error {skip n k : Nat} {bs : List UInt8}
    (h : readFrom skip n bs = .error k) (hk : k - n < bs.length) :
    ∃ b, bs[k - n]? = some b ∧ Byte.isBlockControl b = true := by
  have further {skip n : Nat} {b : UInt8} {bs : List UInt8} (hk : k - n < (b :: bs).length)
      (h : readFrom skip (n + 1) bs = .error k)
      (ih : k - (n + 1) < bs.length →
        ∃ b, bs[k - (n + 1)]? = some b ∧ Byte.isBlockControl b = true) :
      ∃ c, (b :: bs)[k - n]? = some c ∧ Byte.isBlockControl c = true := by
    have hn := le_of_readFrom_error h
    have hs : k - n = k - (n + 1) + 1 := by omega
    rw [List.length_cons] at hk
    rw [hs, List.getElem?_cons_succ]
    exact ih (by omega)
  fun_induction readFrom skip n bs with
  | case1 => exact absurd hk (Nat.not_lt_zero _)
  | case2 _ _ _ _ ih => exact further hk h (ih h)
  | case3 => cases h
  | case4 _ _ _ _ _ ih => exact further hk h (ih h)
  | case5 n b bs _ _ control =>
    cases h
    exact ⟨b, by simp, control⟩
  | case6 _ _ _ _ _ _ ih => exact further hk h (ih h)

theorem isPrefixOf_agree {x bs bs' : List UInt8} {k : Nat} {b : UInt8}
    (hx : x.all (fun c => !Byte.isBlockControl c) = true) (hb : bs[k]? = some b)
    (control : Byte.isBlockControl b = true) (agree : Agree (k + 1) bs bs') :
    x.isPrefixOf bs' = x.isPrefixOf bs := by
  induction x generalizing bs bs' k with
  | nil => simp
  | cons c x ih =>
    obtain ⟨hc, hx⟩ := Bool.and_eq_true_iff.1 hx
    cases bs with
    | nil => exact absurd agree.1 (Nat.not_succ_le_zero _)
    | cons b' r =>
      obtain ⟨r', rfl, rest⟩ := agree.cons
      rw [List.isPrefixOf_cons_cons, List.isPrefixOf_cons_cons]
      cases k with
      | zero =>
        have ne : (c == b') = false := by
          cases hb
          refine beq_false_of_ne ?_
          rintro rfl
          have free : Byte.isBlockControl c = false := by simpa using hc
          exact Bool.false_ne_true (free.symm.trans control)
        rw [ne, Bool.false_and, Bool.false_and]
      | succ k =>
        rw [List.getElem?_cons_succ] at hb
        rw [ih hx hb rest]

theorem readFrom_agree {skip n k : Nat} {bs bs' : List UInt8}
    (h : readFrom skip n bs = .error k) (agree : Agree (k - n + 1) bs bs') :
    readFrom skip n bs' = .error k := by
  induction bs generalizing skip n bs' with
  | nil => exact absurd agree.1 (Nat.not_succ_le_zero _)
  | cons b r ih =>
    obtain ⟨b', hb, control⟩ := control_of_readFrom_error h agree.1
    have fences := isPrefixOf_agree (x := fence) (by decide) hb control agree
    have escapes := isPrefixOf_agree (x := escapedFence) (by decide) hb control agree
    obtain ⟨r', rfl, rest⟩ := agree.cons
    have further {skip : Nat} (h : readFrom skip (n + 1) r = .error k) :
        readFrom skip (n + 1) r' = .error k := by
      have := le_of_readFrom_error h
      exact ih h (rest.mono (by omega))
    cases skip with
    | succ skip =>
      rw [readFrom] at h ⊢
      exact further h
    | zero =>
      rw [readFrom] at h ⊢
      rw [fences, escapes]
      by_cases hf : fence.isPrefixOf (b :: r) = true
      · rw [if_pos hf] at h
        cases h
      rw [if_neg hf] at h ⊢
      by_cases he : escapedFence.isPrefixOf (b :: r) = true
      · rw [if_pos he] at h ⊢
        exact further h
      rw [if_neg he] at h ⊢
      by_cases hc : Byte.isBlockControl b = true
      · rw [if_pos hc] at h ⊢
        exact h
      · rw [if_neg hc] at h ⊢
        exact further h

end Block

end QueryDoc
