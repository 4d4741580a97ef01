import QueryDoc.Proofs.Acceptance
import QueryDoc.Proofs.Syntax.Failure

/-! Two documents that agree on the scope of an error are scanned along the same steps and fail
alike. -/
namespace QueryDoc

theorem scope_append (u r : List UInt8) (offset : Nat) (x : Option Expect) :
    scope (u ++ r) (u.length + offset) x = u.length + scope r offset x := by
  have drop : (u ++ r).drop (u.length + offset) = r.drop offset :=
    List.drop_length_add_append offset
  simp only [scope, drop]
  omega

theorem Agree.ahead_eq {n : Nat} {bs bs' : List UInt8}
    (h : Agree (Gap.length bs + n + 1) bs bs') : Gap.ahead bs' = Gap.ahead bs := by
  have here : Agree (Gap.length bs + 1) bs bs' := h.mono (by omega)
  rw [Gap.ahead, h.gap_eq, here.drop.lead_eq, Gap.ahead]

/-- The same offset, code and expectation; the character there may go on differently. -/
def Error.Alike (e f : Error) : Prop :=
  e.index = f.index ∧ e.code = f.code ∧ e.expected = f.expected

namespace Config

variable {c d : Config} {us : List Token} {err : Error}

/-- How many of the bytes ahead decide about an error. -/
def reach (c : Config) (err : Error) : Nat := scope c.rest (err.index - c.pos) err.expected

theorem Goes.reach_eq (h : c.Goes us d) {vs : List Token} (trace : d.Trace vs (.stopped err)) :
    ∃ u, c.rest = u ++ d.rest ∧ c.reach err = u.length + d.reach err := by
  obtain ⟨u, hu, hp⟩ := h.rest_eq
  obtain ⟨lo, -⟩ := trace.index_bounds
  refine ⟨u, hu, ?_⟩
  have hi : err.index - c.pos = u.length + (err.index - d.pos) := by omega
  rw [reach, hu, hi, scope_append, reach]

theorem Trace.gap_lt_reach (h : c.Trace us (.stopped err)) : ∃ n,
    c.reach err = Gap.length c.rest + n + 1 := by
  obtain ⟨lo, -⟩ := h.index_bounds
  refine ⟨c.reach err - Gap.length c.rest - 1, ?_⟩
  simp only [reach, scope]
  omega

theorem Goes.replace (h : c.Goes us d) {u r : List UInt8} (hu : c.rest = u ++ d.rest)
    (agree : Agree (Gap.length d.rest + 1) d.rest r) :
    ({ c with rest := u ++ r } : Config).Goes us { d with rest := r } := by
  obtain ⟨label, edge, reads⟩ := h.edge
  have same : Gap.ahead r = Gap.ahead d.rest := Agree.ahead_eq (n := 0) agree
  rw [Config.ahead, ← same] at edge
  refine goes_of_edge edge (reads.replace (fun t _ w _ follow => ?_) hu)
  have head : r.head? = d.rest.head? := agree.head?_eq
  rw [head]
  exact follow

/-- A step towards an error is also made on every other input that agrees on its reach. -/
theorem Goes.agree (h : c.Goes us d) {vs : List Token} (trace : d.Trace vs (.stopped err))
    {rest' : List UInt8} (agree : Agree (c.reach err) c.rest rest') :
    ∃ r, Agree (d.reach err) d.rest r ∧
      ({ c with rest := rest' } : Config).Goes us { d with rest := r } := by
  obtain ⟨u, hu, hr⟩ := h.reach_eq trace
  rw [hr, hu] at agree
  obtain ⟨r, rfl, ahead⟩ := agree.append
  obtain ⟨n, hn⟩ := trace.gap_lt_reach
  exact ⟨r, ahead, h.replace hu (ahead.mono (by omega))⟩

theorem Ends.agree (h : c.Ends (.stopped err)) {rest' : List UInt8}
    (agree : Agree (c.reach err) c.rest rest') :
    ∃ err', ({ c with rest := rest' } : Config).Ends (.stopped err') ∧ err'.Alike err := by
  obtain ⟨n, hn⟩ := (Trace.of_ends h).gap_lt_reach
  have gap : Gap.length rest' = Gap.length c.rest := by
    rw [hn] at agree
    exact agree.gap_eq
  obtain ⟨offset, code, x, hm, -, rfl⟩ := h.stopped
  have hr : c.reach (c.error (offset + Gap.length c.rest) code x) =
      Gap.length c.rest + scope c.front offset x := by
    have hi : c.pos + (offset + Gap.length c.rest) - c.pos = Gap.length c.rest + offset := by omega
    have split := scope_append (c.rest.take (Gap.length c.rest)) c.front offset x
    rw [Gap.length_take_length, front, List.take_append_drop] at split
    simp only [reach, error, Error.here]
    rw [hi]
    exact split
  rw [hr] at agree
  have failed : ({ c with rest := rest' } : Config).reaction = .fail offset code x := by
    have := Grammar.react_fail_agree hm agree.drop
    rw [← gap] at this
    exact this
  refine ⟨Config.error { c with rest := rest' } (offset + Gap.length rest') code x, .failed ?_, ?_⟩
  · rw [step_eq, failed]
    rfl
  · simp [Error.Alike, error, Error.here, gap]

theorem Path.agree {f : Config} (path : c.Path us f) (ends : f.Ends (.stopped err))
    {rest' : List UInt8} (agree : Agree (c.reach err) c.rest rest') :
    ∃ err', ({ c with rest := rest' } : Config).Trace us (.stopped err') ∧ err'.Alike err := by
  induction path generalizing rest' with
  | refl c =>
    obtain ⟨err', ends', alike⟩ := ends.agree agree
    exact ⟨err', .of_ends ends', alike⟩
  | step first rest ih =>
    obtain ⟨r, agree', goes⟩ := first.agree ⟨_, rest, ends⟩ agree
    obtain ⟨err', trace, alike⟩ := ih ends agree'
    exact ⟨err', .step goes trace, alike⟩

end Config

/-- The scan delivers these tokens and fails with such an error. -/
def Scan.FailsLike (r : Scan (Array Token)) (tokens : Array Token) (e : Error) : Prop :=
  r.state = tokens ∧ r.outcome ≠ .ok ∧ ∃ e', r.ending = .stopped e' ∧ e'.Alike e

theorem Scanner.failsLike_of_agree {s : Scanner} {doc doc' : List UInt8} {e : Error}
    (h : (s.scan doc).ending = .stopped e) (agree : Agree (scope doc e.index e.expected) doc doc') :
    (s.scan doc').FailsLike (s.scan doc).state e := by
  obtain ⟨f, path, ends⟩ := (s.scan_iff_trace doc _ _).1 ⟨rfl, h⟩
  have reach : Agree ((Config.start doc).reach e) (Config.start doc).rest doc' := agree
  obtain ⟨e', trace, alike⟩ := path.agree ends reach
  obtain ⟨tokens, failed⟩ := (s.scan_iff_trace doc' _ _).2 trace
  refine ⟨Array.toList_inj.1 tokens, fun ok => ?_, e', failed, alike⟩
  rw [outcome_eq_ok_iff, failed] at ok
  cases ok

/-- An error is decided by the bytes up to its offset, or up to the end of the word there where a
keyword was expected: every document that agrees on them fails alike, so none is accepted. -/
theorem Scanner.fails_alike (s : Scanner) (doc : List UInt8) (e : Error)
    (h : (s.scan doc).ending = .stopped e) :
    (e.expected.any Expect.isKeyword = false → e.index < doc.length →
      ∀ doc', doc'.take (e.index + 1) = doc.take (e.index + 1) →
        (s.scan doc').FailsLike (s.scan doc).state e) ∧
      (e.expected.any Expect.isKeyword = true →
        ∀ n, e.index ≤ n →
          (∀ i, e.index ≤ i → i < n → ∃ b, doc[i]? = some b ∧ Byte.isName b = true) →
          (∃ b, doc[n]? = some b ∧ Byte.isName b = false) →
          ∀ doc', doc'.take (n + 1) = doc.take (n + 1) →
            (s.scan doc').FailsLike (s.scan doc).state e) := by
  constructor
  · intro plain hl doc' hd
    refine failsLike_of_agree h ?_
    simp only [scope, plain, Bool.false_eq_true, if_false]
    exact ⟨hl, hd⟩
  · intro keyword n hle names last doc' hd
    refine failsLike_of_agree h ?_
    have hl : n < doc.length := by
      obtain ⟨b, hb, -⟩ := last
      exact (List.getElem?_eq_some_iff.1 hb).1
    have word : Word.length (doc.drop e.index) = n - e.index := by
      refine Word.length_eq (fun i hi => ?_) ?_
      · rw [List.getElem?_drop]
        exact names _ (Nat.le_add_right _ _) (by omega)
      · rw [List.getElem?_drop, Nat.add_sub_cancel' hle]
        exact last
    have hs : scope doc e.index e.expected = n + 1 := by
      simp only [scope, keyword, if_true, word]
      omega
    rw [hs]
    exact ⟨hl, hd⟩

/-- After `{a:(` no byte mends the missing field, and after `on ` none mends the keyword. -/
theorem Scanner.fails_alike_instances :
    (standard.scan [0x7B, 0x61, 0x3A, 0x28, 0x62]).FailsLike
        (standard.scan [0x7B, 0x61, 0x3A, 0x28]).state
        ⟨3, some '(', .unexpectedToken, some .afterAlias⟩ ∧
      (standard.scan [0x6F, 0x6E, 0x20, 0x61]).FailsLike
        (standard.scan [0x6F, 0x6E, 0x20]).state
        ⟨0, some 'o', .unexpectedToken, some .definition⟩ := by
  constructor
  · have failed : (standard.scan [0x7B, 0x61, 0x3A, 0x28]).ending =
        .stopped ⟨3, some '(', .unexpectedToken, some .afterAlias⟩ := by decide +kernel
    exact (fails_alike standard _ _ failed).1 rfl (by decide) _ rfl
  · have failed : (standard.scan [0x6F, 0x6E, 0x20]).ending =
        .stopped ⟨0, some 'o', .unexpectedToken, some .definition⟩ := by decide +kernel
    have names : ∀ i, 0 ≤ i → i < 2 →
        ∃ b, [0x6F, 0x6E, 0x20][i]? = some b ∧ Byte.isName b = true := by
      intro i _ hi
      match i, hi with
      | 0, _ => exact ⟨0x6F, rfl, rfl⟩
      | 1, _ => exact ⟨0x6E, rfl, rfl⟩
    exact (fails_alike standard _ _ failed).2 rfl 2 (by decide) names ⟨0x20, rfl, rfl⟩ _ rfl

end QueryDoc
