import QueryDoc.Lexical

/-! The bodies of strings as sequences of raw bytes and escapes. The readers find the closing quotes
exactly behind such a body. -/
namespace QueryDoc

namespace Quoted

def HexDigits (ds : List UInt8) : Prop := ∀ d ∈ ds, Byte.isHexDigit d = true

/-- What may stand between the quotes. -/
inductive Body : List UInt8 → Prop
  | nil : Body []
  | raw {b : UInt8} {bs : List UInt8} (quote : b ≠ Byte.quote) (backslash : b ≠ Byte.backslash)
      (control : Byte.isQuotedControl b = false) (rest : Body bs) : Body (b :: bs)
  | escape {b : UInt8} {bs : List UInt8} (letter : Byte.isSimpleEscape b = true)
      (rest : Body bs) : Body (Byte.backslash :: b :: bs)
  | unicode {ds bs : List UInt8} (four : ds.length = 4) (digits : HexDigits ds)
      (rest : Body bs) : Body (Byte.backslash :: Byte.lowerU :: (ds ++ bs))

/-- What the reader may still meet in a mode, up to the closing quote. -/
def Mode.Rest : Mode → List UInt8 → Prop
  | .plain, w => Body w
  | .escape, w => Body (Byte.backslash :: w)
  | .unicode more, w => ∃ ds bs, ds.length = more + 1 ∧ HexDigits ds ∧ Body bs ∧ w = ds ++ bs

theorem hexDigits_cons {d : UInt8} {ds : List UInt8} (hd : Byte.isHexDigit d = true)
    (h : HexDigits ds) : HexDigits (d :: ds) := by
  intro e he
  rcases List.mem_cons.1 he with rfl | he
  · exact hd
  · exact h e he

theorem rest_cons {m q : Mode} {b : UInt8} {w : List UInt8} (hq : ¬(m = .plain ∧ b = Byte.quote))
    (hm : m.next? b = some q) (h : q.Rest w) : m.Rest (b :: w) := by
  cases m with
  | plain =>
    have quote : b ≠ Byte.quote := fun hb => hq ⟨rfl, hb⟩
    simp only [Mode.next?] at hm
    split at hm
    · next hb =>
        cases hm
        exact hb ▸ h
    · next hb =>
        split at hm <;> cases hm
        next hc => exact .raw quote hb (Bool.eq_false_iff.2 hc) h
  | escape =>
    simp only [Mode.next?] at hm
    split at hm
    · next hb =>
        cases hm
        obtain ⟨ds, bs, hl, hd, hbs, rfl⟩ := h
        exact hb ▸ .unicode hl hd hbs
    · split at hm <;> cases hm
      next hb => exact .escape hb h
  | unicode more =>
    cases more with
    | zero =>
      simp only [Mode.next?] at hm
      split at hm <;> cases hm
      next hb => exact ⟨[b], w, rfl, hexDigits_cons hb (by simp [HexDigits]), h, rfl⟩
    | succ more =>
      simp only [Mode.next?] at hm
      split at hm <;> cases hm
      next hb =>
        obtain ⟨ds, bs, hl, hd, hbs, rfl⟩ := h
        exact ⟨b :: ds, bs, by simp [hl], hexDigits_cons hb hd, hbs, rfl⟩

theorem readFrom_ok {m : Mode} {n k : Nat} {bs : List UInt8} (h : readFrom m n bs = .ok k) :
    ∃ w r, bs = w ++ Byte.quote :: r ∧ k = n + w.length ∧ m.Rest w := by
  induction bs generalizing m n with
  | nil => cases h
  | cons b bs ih =>
    rw [readFrom] at h
    split at h
    · next hb =>
        obtain ⟨rfl, rfl⟩ := hb
        cases h
        exact ⟨[], bs, rfl, rfl, .nil⟩
    · next hb =>
        split at h
        · next q hm =>
            obtain ⟨w, r, rfl, rfl, hw⟩ := ih h
            refine ⟨b :: w, r, rfl, ?_, rest_cons hb hm hw⟩
            simp only [List.length_cons]
            omega
        · cases h

theorem exists_rest (m : Mode) : ∃ w, m.Rest w := by
  cases m with
  | plain => exact ⟨_, .nil⟩
  | escape => exact ⟨[Byte.quote], .escape (by decide) .nil⟩
  | unicode more =>
    refine ⟨_, List.replicate (more + 1) Byte.zero, [], by simp, ?_, .nil, rfl⟩
    intro d hd
    rw [List.eq_of_mem_replicate hd]
    decide

theorem readFrom_error {m : Mode} {n k : Nat} {bs : List UInt8} {x : Expect}
    (h : readFrom m n bs = .error (k, x)) :
    ∃ u r w, bs = u ++ r ∧ k = n + u.length ∧ m.Rest (u ++ w) := by
  have here (m : Mode) (r : List UInt8) (n : Nat) :
      ∃ u r' w, r = u ++ r' ∧ n = n + u.length ∧ m.Rest (u ++ w) := by
    obtain ⟨w, hw⟩ := exists_rest m
    exact ⟨[], r, w, rfl, rfl, hw⟩
  induction bs generalizing m n with
  | nil =>
    cases h
    exact here _ _ _
  | cons b bs ih =>
    rw [readFrom] at h
    split at h
    · cases h
    · next hb =>
        split at h
        · next q hm =>
            obtain ⟨u, r, w, rfl, rfl, hw⟩ := ih h
            refine ⟨b :: u, r, w, rfl, ?_, rest_cons hb hm hw⟩
            simp only [List.length_cons]
            omega
        · cases h
          exact here _ _ _

theorem readFrom_next {m q : Mode} {b : UInt8} (hq : ¬(m = .plain ∧ b = Byte.quote))
    (hm : m.next? b = some q) (n : Nat) (bs : List UInt8) :
    readFrom m n (b :: bs) = readFrom q (n + 1) bs := by
  rw [readFrom, if_neg hq, hm]

theorem readFrom_hexDigits {more : Nat} {ds : List UInt8} (hl : ds.length = more + 1)
    (hd : HexDigits ds) (n : Nat) (r : List UInt8) :
    readFrom (.unicode more) n (ds ++ r) = readFrom .plain (n + ds.length) r := by
  induction ds generalizing more n with
  | nil => cases hl
  | cons d ds ih =>
    have hdd := hd d (by simp)
    have rest : HexDigits ds := fun e he => hd e (by simp [he])
    cases more with
    | zero =>
      have hn : ds = [] := List.eq_nil_of_length_eq_zero (by simpa using hl)
      rw [hn, List.singleton_append, readFrom_next (q := .plain) (by simp)
        (by simp [Mode.next?, hdd])]
      rfl
    | succ more =>
      rw [List.cons_append, readFrom_next (q := .unicode more) (by simp)
        (by simp [Mode.next?, hdd]),
        ih (by simpa using hl) rest, List.length_cons]
      congr 1
      omega

theorem read_append {w : List UInt8} (h : Body w) (r : List UInt8) :
    read (w ++ Byte.quote :: r) = .ok w.length := by
  have from_ (n : Nat) : readFrom .plain n (w ++ Byte.quote :: r) = .ok (n + w.length) := by
    induction h generalizing n with
    | nil => simp [readFrom]
    | @raw b bs quote backslash control _ ih =>
      rw [List.cons_append, readFrom_next (q := .plain) (by simp [quote])
        (by simp [Mode.next?, backslash, control]), ih, List.length_cons]
      congr 1
      omega
    | @escape b bs letter _ ih =>
      have hu : b ≠ Byte.lowerU := by
        rintro rfl
        exact absurd letter (by decide)
      rw [List.cons_append, readFrom_next (q := .escape) (by decide) (by decide),
        List.cons_append, readFrom_next (q := .plain) (by simp)
          (by simp [Mode.next?, hu, letter]), ih]
      simp only [List.length_cons]
      congr 1
      omega
    | @unicode ds bs four digits _ ih =>
      rw [List.cons_append, readFrom_next (q := .escape) (by decide) (by decide),
        List.cons_append, readFrom_next (q := .unicode 3) (by simp) (by decide),
        List.append_assoc, readFrom_hexDigits four digits, ih]
      simp only [List.length_cons, List.length_append]
      congr 1
      omega
  simpa [read] using from_ 0

theorem Body.head_ne_quote {w : List UInt8} (h : Body w) (b : UInt8) (hb : w.head? = some b) :
    b ≠ Byte.quote := by
  cases h with
  | nil => cases hb
  | raw quote => cases hb; exact quote
  | escape => cases hb; decide
  | unicode => cases hb; decide

end Quoted

namespace Block

/-- What may stand between two fences, of which the second is the first that closes. -/
inductive Body : List UInt8 → Prop
  | nil : Body []
  | escaped {bs : List UInt8} (rest : Body bs) : Body (escapedFence ++ bs)
  | raw {b : UInt8} {bs : List UInt8} (control : Byte.isBlockControl b = false)
      (goesOn : ¬fence <+: b :: bs ++ fence) (literal : ¬escapedFence <+: b :: bs ++ fence)
      (rest : Body bs) : Body (b :: bs)

theorem fenced_eq_concat (w : List UInt8) :
    fence ++ (w ++ fence) = fence ++ w ++ [Byte.quote, Byte.quote] ++ [Byte.quote] := by
  simp [fence]

theorem not_isPrefixOf {x bs : List UInt8} (h : ¬x.isPrefixOf bs = true) : ¬x <+: bs :=
  fun hp => h (List.isPrefixOf_iff_prefix.2 hp)

theorem isPrefixOf_eq_false {x bs : List UInt8} (h : ¬x <+: bs) : x.isPrefixOf bs = false :=
  Bool.eq_false_iff.2 fun hp => h (List.isPrefixOf_iff_prefix.1 hp)

theorem eq_of_escapedFence {b : UInt8} {bs : List UInt8}
    (h : escapedFence.isPrefixOf (b :: bs) = true) : b = Byte.backslash ∧ ∃ t, bs = fence ++ t := by
  obtain ⟨t, ht⟩ := List.isPrefixOf_iff_prefix.1 h
  obtain ⟨hb, ht⟩ := List.cons.inj ht
  exact ⟨hb.symm, t, ht.symm⟩

theorem not_prefix_append {x u v : List UInt8} (h : ¬x <+: u ++ v) : ¬x <+: u :=
  fun hp => h (hp.trans (List.prefix_append u v))

theorem readFrom_ok {skip n k : Nat} {bs : List UInt8} (h : readFrom skip n bs = .ok k) :
    ∃ s w r, bs = s ++ w ++ fence ++ r ∧ s.length = skip ∧ k = n + skip + w.length ∧ Body w := by
  induction bs generalizing skip n with
  | nil => simp [readFrom] at h
  | cons b bs ih =>
    cases skip with
    | succ skip =>
      rw [readFrom] at h
      obtain ⟨s, w, r, rfl, rfl, rfl, hw⟩ := ih h
      refine ⟨b :: s, w, r, rfl, rfl, ?_, hw⟩
      omega
    | zero =>
      rw [readFrom] at h
      split at h
      · next hf =>
          cases h
          obtain ⟨r, hr⟩ := List.isPrefixOf_iff_prefix.1 hf
          exact ⟨[], [], r, hr.symm, rfl, rfl, .nil⟩
      · next hf =>
          split at h
          · next he =>
              obtain ⟨s, w, r, hs, hl, rfl, hw⟩ := ih h
              obtain ⟨rfl, t, rfl⟩ := eq_of_escapedFence he
              rw [List.append_assoc, List.append_assoc] at hs
              obtain ⟨rfl, rfl⟩ := List.append_inj hs hl.symm
              refine ⟨[], escapedFence ++ w, r, ?_, rfl, ?_, .escaped hw⟩
              · simp [escapedFence]
              · simp only [escapedFence, fence, List.length_append, List.length_cons,
                  List.length_nil]
                omega
          · next he =>
              split at h
              · cases h
              · next hc =>
                  obtain ⟨s, w, r, rfl, hl, rfl, hw⟩ := ih h
                  obtain rfl := List.eq_nil_of_length_eq_zero hl
                  have cut {x : List UInt8}
                      (hx : ¬x.isPrefixOf (b :: ([] ++ w ++ fence ++ r)) = true) :
                      ¬x <+: b :: w ++ fence := by
                    refine not_prefix_append (v := r) ?_
                    simpa using not_isPrefixOf hx
                  refine ⟨[], b :: w, r, by simp, rfl, ?_,
                    .raw (Bool.eq_false_iff.2 hc) (cut hf) (cut he) hw⟩
                  simp only [List.length_cons]
                  omega

theorem prefix_of_prefix_lineFeed {x u v : List UInt8} (hx : Byte.lineFeed ∉ x)
    (h : x <+: u ++ Byte.lineFeed :: v) : x <+: u := by
  rcases Nat.le_total x.length u.length with hl | hl
  · exact List.prefix_of_prefix_length_le h (List.prefix_append _ _) hl
  · obtain ⟨y, rfl⟩ := List.prefix_of_prefix_length_le (List.prefix_append _ _) h hl
    rw [List.prefix_append_right_inj] at h
    cases y with
    | nil => simp
    | cons c y =>
      obtain ⟨z, hz⟩ := h
      cases hz
      exact absurd (by simp) hx

theorem readFrom_error {skip n k : Nat} {bs : List UInt8} (h : readFrom skip n bs = .error k)
    (hl : skip ≤ bs.length) :
    ∃ s u r, bs = s ++ u ++ r ∧ s.length = skip ∧ k = n + skip + u.length ∧
      Body (u ++ [Byte.lineFeed]) := by
  have last : Body [Byte.lineFeed] := .raw (by decide) (by decide) (by decide) .nil
  induction bs generalizing skip n with
  | nil =>
    cases skip with
    | zero =>
      cases h
      exact ⟨[], [], [], rfl, rfl, rfl, last⟩
    | succ skip => exact absurd hl (by simp)
  | cons b bs ih =>
    cases skip with
    | succ skip =>
      rw [readFrom] at h
      obtain ⟨s, u, r, rfl, rfl, rfl, hu⟩ := ih h (by simpa using hl)
      refine ⟨b :: s, u, r, rfl, rfl, ?_, hu⟩
      omega
    | zero =>
      rw [readFrom] at h
      split at h
      · cases h
      · next hf =>
          split at h
          · next he =>
              obtain ⟨rfl, t, rfl⟩ := eq_of_escapedFence he
              obtain ⟨s, u, r, hs, hl, rfl, hu⟩ := ih h (by simp [fence])
              rw [List.append_assoc] at hs
              obtain ⟨rfl, rfl⟩ := List.append_inj hs hl.symm
              refine ⟨[], escapedFence ++ u, r, ?_, rfl, ?_, .escaped hu⟩
              · simp [escapedFence]
              · simp only [escapedFence, fence, List.length_append, List.length_cons,
                  List.length_nil]
                omega
          · next he =>
              split at h
              · cases h
                exact ⟨[], [], _, rfl, rfl, rfl, last⟩
              · next hc =>
                  obtain ⟨s, u, r, rfl, hl, rfl, hu⟩ := ih h (Nat.zero_le _)
                  obtain rfl := List.eq_nil_of_length_eq_zero hl
                  have keep {x : List UInt8} (hx : Byte.lineFeed ∉ x)
                      (hp : ¬x.isPrefixOf (b :: ([] ++ u ++ r)) = true) :
                      ¬x <+: b :: (u ++ [Byte.lineFeed]) ++ fence := by
                    intro h
                    refine not_isPrefixOf hp ?_
                    have h : x <+: b :: u ++ Byte.lineFeed :: fence := by simpa using h
                    exact (prefix_of_prefix_lineFeed hx h).trans (by simp)
                  refine ⟨[], b :: u, r, by simp, rfl, ?_, .raw (Bool.eq_false_iff.2 hc)
                    (keep (by decide) hf) (keep (by decide) he) hu⟩
                  simp only [List.length_cons]
                  omega

theorem not_prefix_behind {x bs : List UInt8} {b : UInt8} (hl : x.length ≤ 4)
    (hx : ¬x <+: b :: bs ++ fence) (r : List UInt8) : ¬x <+: b :: (bs ++ fence ++ r) := by
  intro hp
  have whole : b :: bs ++ fence <+: b :: (bs ++ fence ++ r) := by simp
  refine hx (List.prefix_of_prefix_length_le hp whole ?_)
  simp only [fence, List.cons_append, List.length_cons, List.length_append, List.length_nil]
  omega

theorem read_append {w : List UInt8} (h : Body w) (r : List UInt8) :
    read (w ++ fence ++ r) = .ok w.length := by
  have go (n : Nat) : readFrom 0 n (w ++ fence ++ r) = .ok (n + w.length) := by
    induction h generalizing n with
    | nil =>
      have : fence.isPrefixOf (fence ++ r) = true := by
        exact List.isPrefixOf_iff_prefix.2 (List.prefix_append _ _)
      rw [List.nil_append, show fence ++ r = Byte.quote :: ([Byte.quote, Byte.quote] ++ r) from rfl,
        readFrom]
      exact if_pos this
    | @escaped bs _ ih =>
      have escape :
          escapedFence.isPrefixOf (Byte.backslash :: (fence ++ (bs ++ fence ++ r))) = true :=
        List.isPrefixOf_iff_prefix.2 (List.prefix_append escapedFence _)
      rw [List.append_assoc, List.append_assoc, ← List.append_assoc bs]
      change readFrom 0 n (Byte.backslash :: (fence ++ (bs ++ fence ++ r))) = _
      have goesOn : ¬fence.isPrefixOf (Byte.backslash :: (fence ++ (bs ++ fence ++ r))) = true := by
        simp only [fence, List.cons_append, List.isPrefixOf]
        decide
      have skip : readFrom 3 (n + 1) (fence ++ (bs ++ fence ++ r)) =
          readFrom 0 (n + 4) (bs ++ fence ++ r) := rfl
      rw [readFrom, if_neg goesOn, if_pos escape, skip, ih]
      simp only [escapedFence, fence, List.length_append, List.length_cons, List.length_nil]
      congr 1
      omega
    | @raw b bs control goesOn literal _ ih =>
      rw [List.cons_append, List.cons_append, readFrom,
        isPrefixOf_eq_false (not_prefix_behind (by decide) goesOn r),
        isPrefixOf_eq_false (not_prefix_behind (by decide) literal r), control, ih]
      simp only [Bool.false_eq_true, if_false, List.length_cons]
      congr 1
      omega
  simpa [read] using go 0

end Block

end QueryDoc
