import QueryDoc.Proofs.ErrorShape
import QueryDoc.Proofs.Syntax.Piece

/-! Four tokens for every three bytes are enough for a whole document. Until a selection set is
complete the scan is ahead of its bytes by a surplus that depends on the place alone. -/
namespace QueryDoc

namespace Shape

def least : Shape → Nat
  | empty => 0
  | sigil _ => 2
  | _ => 1

theorem least_le {s : Shape} {w : List UInt8} (h : s.Text w) : s.least ≤ w.length := by
  cases s with
  | empty => exact Nat.zero_le _
  | sigil s =>
    obtain ⟨v, ⟨c, cs, rfl, -, -⟩, rfl⟩ := h
    simp [least]
  | _ => exact List.length_pos_iff.2 (text_ne_nil (by simp) h)

theorem one_le_least {s : Shape} (h : s ≠ empty) : 1 ≤ s.least := by
  cases s with
  | empty => exact absurd rfl h
  | sigil => exact Nat.le_succ 1
  | _ => exact Nat.le_refl 1

end Shape

namespace Terminal

def least : List Terminal → Nat
  | [] => 0
  | t :: ts => t.shape.least + least ts

theorem Leaf.shape_ne_empty {t : Terminal} (h : t.Leaf) : t.shape ≠ .empty := by
  intro empty
  have plain := h.plain
  rw [empty] at plain
  cases plain

theorem kinds_le_least {ts : List Terminal} (h : ∀ t ∈ ts, t.shape ≠ .empty) :
    3 * (kinds ts).length + ts.length ≤ 4 * least ts := by
  induction ts with
  | nil => exact Nat.le_refl 0
  | cons t ts ih =>
    have first := Shape.one_le_least (h t List.mem_cons_self)
    have rest := ih fun u hu => h u (List.mem_cons_of_mem t hu)
    have kinds : (kinds (t :: ts)).length ≤ 1 + (Terminal.kinds ts).length := by
      cases hk : t.kind with
      | none => simp [Terminal.kinds, hk]
      | some k => simp [Terminal.kinds, hk, Nat.add_comm]
    rw [least, List.length_cons]
    omega

end Terminal

theorem Reads.least_le {ts : List Terminal} {c d : Cursor} {us : List Token} (h : Reads ts c us d) :
    c.pos + Terminal.least ts ≤ d.pos := by
  induction h with
  | nil => exact Nat.le_refl _
  | @cons t ts pos level g w r us d _ text _ _ ih =>
    have first := t.shape.least_le text
    simp only [Terminal.least] at ih ⊢
    omega

namespace State

/-- How far a scan may be ahead of its bytes, in thirds of a token; `ahead` is what the next byte
announces. -/
def surplus (ahead : Lead) : State → Nat
  | selectionSet _ => if ahead = .nothing then 0 else 3
  | selection => 2
  | afterField _ => 1
  | _ => 0

variable {s : State} (ahead : Lead)

theorem surplus_le (s : State) : s.surplus ahead ≤ 3 := by
  cases s with
  | selectionSet =>
    simp only [surplus]
    split <;> omega
  | _ => simp [surplus]

theorem surplus_of_mayCloseSet (h : s.mayCloseSet = true) : s.surplus ahead ≤ 1 := by
  cases s with
  | selectionOrEnd => exact Nat.zero_le 1
  | afterField => exact Nat.le_refl 1
  | afterSpreadName => exact Nat.zero_le 1
  | _ => cases h

theorem surplus_of_maySelect (h : s.maySelect = true) : s.surplus ahead ≤ 2 := by
  rcases Bool.or_eq_true_iff.1 h with h | h
  · rw [eq_of_beq h]
    exact Nat.le_refl 2
  · exact Nat.le_trans (surplus_of_mayCloseSet ahead h) (by decide)

theorem surplus_of_mayEndVariable (h : s.mayEndVariable = true) : s.surplus ahead = 0 := by
  cases s with
  | afterVariable => rfl
  | afterVariableType => rfl
  | _ => cases h

end State

open State in
/-- The bytes of an edge and the surplus behind it pay for its tokens and the surplus before it. -/
theorem Edge.pays {level : Nat} {s s' : State} {label : List Terminal} {x : Lead}
    (h : Edge level s label x s') (y : Lead) :
    3 * (Terminal.kinds label).length + s.surplus y ≤ 4 * Terminal.least label + s'.surplus x := by
  -- from a place without surplus only a token without text has to be paid for by the next place
  have balanced (ts : List Terminal) (zero : s.surplus y = 0) (texts : ∀ t ∈ ts, t.shape ≠ .empty) :
      3 * (Terminal.kinds ts).length + s.surplus y ≤ 4 * Terminal.least ts + s'.surplus x := by
    have paid := Terminal.kinds_le_least texts
    omega
  cases h with
  | shorthand => exact Nat.le_refl 3
  | untypedInline ahead => rcases ahead with rfl | rfl <;> exact Nat.le_refl 3
  | openSet may =>
    have before := s.surplus_le y
    change 3 + s.surplus y ≤ 4 + 2
    omega
  | closeSet may =>
    have before := surplus_of_mayCloseSet y may
    change 3 + s.surplus y ≤ 4 + _
    omega
  | fieldAlias may =>
    have before := surplus_of_maySelect y may
    change 3 + s.surplus y ≤ 8
    omega
  | field may =>
    have before := surplus_of_maySelect y may
    change 3 + s.surplus y ≤ 4 + 1
    omega
  | spread may =>
    have before := surplus_of_maySelect y may
    change 0 + s.surplus y ≤ 4
    omega
  | directive at_ =>
    have before := s.surplus_le y
    change 3 + s.surplus y ≤ 8
    omega
  | fieldArguments => exact Nat.le_refl 4
  | operation keyword =>
    refine balanced _ rfl fun t ht => ?_
    obtain rfl := List.mem_singleton.1 ht
    exact (Terminal.leaf_of_operation keyword).shape_ne_empty
  | scalar member =>
    refine balanced _ rfl fun t ht => ?_
    obtain rfl := List.mem_singleton.1 ht
    exact (Terminal.leaf_of_scalar member).shape_ne_empty
  | variableEnd may => exact balanced [] (surplus_of_mayEndVariable y may) (by simp)
  | _ => exact balanced _ rfl (by simp)

namespace Config

variable {c d : Config} {us : List Token}

def surplus (c : Config) : Nat := c.state.surplus c.ahead

theorem Goes.pays (h : c.Goes us d) :
    3 * us.length + 4 * c.pos + c.surplus ≤ 4 * d.pos + d.surplus := by
  obtain ⟨label, edge, reads⟩ := h.edge
  have tokens : us.length = (Terminal.kinds label).length := by
    rw [← reads.kinds_eq, List.length_map]
  have bytes : c.pos + Terminal.least label ≤ d.pos := reads.least_le
  have paid := edge.pays c.ahead
  simp only [surplus]
  omega

theorem Path.pays (h : c.Path us d) :
    3 * us.length + 4 * c.pos + c.surplus ≤ 4 * d.pos + d.surplus := by
  induction h with
  | refl =>
    rw [List.length_nil]
    omega
  | step first _ ih =>
    have paid := first.pays
    rw [List.length_append]
    omega

theorem surplus_le_of_rest (c : Config) : c.surplus ≤ 4 * c.rest.length + 2 := by
  have le := c.state.surplus_le c.ahead
  cases hr : c.rest with
  | nil =>
    have nothing : c.ahead = .nothing := by rw [ahead, hr]; rfl
    simp only [surplus, nothing]
    cases c.state <;> simp [State.surplus]
  | cons b r =>
    simp only [surplus, List.length_cons]
    omega

theorem Path.length_le {doc : List UInt8} (h : (start doc).Path us d) :
    3 * us.length + 4 * d.rest.length ≤ 4 * doc.length + d.surplus := by
  have paid : 3 * us.length + 4 * 0 + 0 ≤ 4 * d.pos + d.surplus := h.pays
  have extent : 0 + doc.length = d.pos + d.rest.length := h.extent_eq
  omega

theorem Trace.length_le {doc : List UInt8} {e : Ending} (h : (start doc).Trace us e) :
    3 * us.length ≤ 4 * doc.length + 2 := by
  obtain ⟨d, path, -⟩ := h
  have paid := path.length_le
  have left := d.surplus_le_of_rest
  omega

theorem Trace.length_le_of_complete {doc : List UInt8} (h : (start doc).Trace us .complete) :
    3 * us.length ≤ 4 * doc.length := by
  obtain ⟨d, path, ends⟩ := h
  have paid := path.length_le
  have nothing : d.surplus = 0 := by
    rw [surplus, (ends_complete_iff.1 ends).1]
    rfl
  omega

end Config

theorem Scan.outcome_of_bufferError {scan : Scan Buffer} {e : BufferError}
    (h : scan.bufferError? = some e) : scan.outcome = .error e.error := by
  unfold bufferError? at h
  split at h
  · next error =>
      cases h
      exact error
  · cases h

namespace Scanner

/-- A scan delivers at most four tokens for every three bytes of its document, and of a document
that is not accepted at most two thirds of a token more. A buffer of that size is therefore never
too small: the scan into it has the result of the scan that keeps every token. -/
theorem tokens_bounded (s : Scanner) (doc : List UInt8) :
    let tokens := (s.scan doc).state.toList
    3 * tokens.length ≤ 4 * doc.length + 2 ∧
      ((s.scan doc).outcome = .ok → 3 * tokens.length ≤ 4 * doc.length) ∧
      ∀ records : Array Token, (4 * doc.length + 2) / 3 ≤ records.size →
        (s.fill doc records).state.written = tokens.length ∧
          (s.fill doc records).outcome = (s.scan doc).outcome ∧
          ∀ e, (s.fill doc records).bufferError? = some e → e.error.code ≠ .bufferFull := by
  intro tokens
  have trace := (s.scan_iff_trace doc _ _).1 ⟨rfl, rfl⟩
  have bound : 3 * tokens.length ≤ 4 * doc.length + 2 := trace.length_le
  refine ⟨bound, fun accepted => ?_, fun records size => ?_⟩
  · have complete : (s.scan doc).ending = .complete := (s.options.outcome_eq_ok_iff _).1 accepted
    rw [complete] at trace
    exact trace.length_le_of_complete
  · have room : tokens.length ≤ records.size := by omega
    obtain ⟨written, -, ending⟩ := s.fill_of_room doc records room
    have outcome : (s.fill doc records).outcome = (s.scan doc).outcome :=
      congrArg s.options.outcome ending
    refine ⟨written, outcome, fun e failed => ?_⟩
    have rejected : (s.scan doc).outcome = .error e.error := by
      rw [← outcome]
      exact Scan.outcome_of_bufferError failed
    exact (s.coherent_of_error doc rejected).code_ne.2

/-- Both bounds are met with equality: by `{`, whose scan fails behind two tokens and fits into two
records, and by `{a}`, which is accepted with four. -/
theorem tokens_bounded_brace :
    let broken : List UInt8 := [0x7B]
    let whole : List UInt8 := [0x7B, 0x61, 0x7D]
    (standard.scan broken).state.toList.length = 2 ∧ 3 * 2 = 4 * broken.length + 2 ∧
      (standard.fill broken #[.blank, .blank]).state.written = 2 ∧
      (standard.fill broken #[.blank, .blank]).outcome =
        .error ⟨1, none, .unexpectedEnd, some .selection⟩ ∧
      (standard.scan whole).outcome = .ok ∧ (standard.scan whole).state.toList.length = 4 ∧
      3 * 4 ≤ 4 * whole.length := by
  intro broken whole
  have two : (standard.scan broken).state.toList.length = 2 := by decide +kernel
  have failed : (standard.scan broken).outcome =
      .error ⟨1, none, .unexpectedEnd, some .selection⟩ := by decide +kernel
  have accepted : (standard.scan whole).outcome = .ok := by decide +kernel
  have four : (standard.scan whole).state.toList.length = 4 := by decide +kernel
  obtain ⟨-, -, fits⟩ := tokens_bounded standard broken
  obtain ⟨written, outcome, -⟩ := fits #[.blank, .blank] (by decide)
  have bound := (tokens_bounded standard whole).2.1 accepted
  rw [four] at bound
  exact ⟨two, rfl, written.trans two, outcome.trans failed, accepted, four, bound⟩

end Scanner

end QueryDoc
