import QueryDoc.Lexical

/-! Which byte strings may be a gap or a word, said without the loops that read them. The loops read
the longest such string. -/
namespace QueryDoc

theorem Byte.forall_of_fin {p : UInt8 → Prop} (h : ∀ n : Fin 256, p (UInt8.ofFin n)) (b : UInt8) :
    p b := h b.toFin

namespace Gap

/-- A comment's bytes before its line end. -/
def Line (body : List UInt8) : Prop := ∀ c ∈ body, Byte.isLineEnd c = false

/-- Ignored bytes and comments, each comment with the line end behind it. -/
inductive Text : List UInt8 → Prop
  | nil : Text []
  | ignored {b : UInt8} {g : List UInt8} (byte : Byte.isIgnored b = true) (rest : Text g) :
      Text (b :: g)
  | comment {body : List UInt8} {b : UInt8} {g : List UInt8} (line : Line body)
      (lineEnd : Byte.isLineEnd b = true) (rest : Text g) :
      Text (Byte.hash :: (body ++ b :: g))

/-- The gap at the end of the input, whose last comment may lack its line end. -/
inductive Closing : List UInt8 → Prop
  | text {g : List UInt8} (text : Text g) : Closing g
  | comment {g body : List UInt8} (text : Text g) (line : Line body) :
      Closing (g ++ Byte.hash :: body)

/-- The byte belongs to no gap unless a comment holds it. -/
def Stops (b : UInt8) : Prop := Byte.isIgnored b = false ∧ b ≠ Byte.hash

instance (b : UInt8) : Decidable (Stops b) := inferInstanceAs (Decidable (_ ∧ _))

theorem Text.not_stops {b : UInt8} {g : List UInt8} (h : Text (b :: g)) : ¬Stops b := by
  intro stops
  cases h with
  | ignored byte => exact Bool.false_ne_true (stops.1.symm.trans byte)
  | comment => exact stops.2 rfl

theorem Text.append {g h : List UInt8} (hg : Text g) (hh : Text h) : Text (g ++ h) := by
  induction hg with
  | nil => exact hh
  | ignored byte _ ih => exact .ignored byte ih
  | comment line lineEnd _ ih => simpa using Text.comment line lineEnd ih

theorem Closing.append {g h : List UInt8} (hg : Text g) (hh : Closing h) : Closing (g ++ h) := by
  cases hh with
  | text hh => exact .text (hg.append hh)
  | comment hh line =>
    rw [← List.append_assoc]
    exact .comment (hg.append hh) line

theorem count_line {skips : UInt8 → Bool} {body : List UInt8} (line : Line body) (n : Nat)
    (r : List UInt8) : count skips true n (body ++ r) = count skips true (n + body.length) r := by
  induction body generalizing n with
  | nil => rfl
  | cons c body ih =>
    have hc := line c (by simp)
    rw [List.cons_append, count, hc, Bool.not_false, ih fun d hd => line d (by simp [hd])]
    simp only [List.length_cons]
    congr 1
    omega

theorem count_append {skips : UInt8 → Bool} (hs : ∀ b, Byte.isIgnored b = true → skips b = true)
    (hh : skips Byte.hash = false) {g : List UInt8} (h : Text g) (r : List UInt8) :
    count skips false 0 (g ++ r) = g.length + count skips false 0 r := by
  induction h with
  | nil => simp
  | ignored byte _ ih =>
    rw [List.cons_append, count, if_pos (hs _ byte), count_eq_add, ih, List.length_cons]
    omega
  | @comment body b g line lineEnd _ ih =>
    rw [List.cons_append, count, hh, if_neg Bool.false_ne_true, if_pos rfl, List.append_assoc,
      count_line line, List.cons_append, count, lineEnd, Bool.not_true, count_eq_add, ih]
    simp only [List.length_cons, List.length_append]
    omega

theorem length_append {g : List UInt8} (h : Text g) (r : List UInt8) :
    length (g ++ r) = g.length + length r := count_append (fun _ h => h) (by decide) h r

theorem length_of_stops {b : UInt8} (h : Stops b) (r : List UInt8) : length (b :: r) = 0 := by
  rw [length, count, h.1, if_neg Bool.false_ne_true, if_neg h.2]

theorem length_append_stops {g : List UInt8} (h : Text g) {b : UInt8} (hb : Stops b)
    (r : List UInt8) : length (g ++ b :: r) = g.length := by
  rw [length_append h, length_of_stops hb]
  rfl

theorem length_of_closing {g : List UInt8} (h : Closing g) : length g = g.length := by
  cases h with
  | text h => simpa [length, count] using length_append h []
  | @comment g body h line =>
    have hc : count Byte.isIgnored true 1 (body ++ []) = _ := count_line line 1 []
    rw [List.append_nil] at hc
    rw [length_append h, length, count, if_neg (by decide), if_pos rfl, hc]
    simp only [count, List.length_append, List.length_cons]
    omega

/-- Where the skipping of a gap leads: to a byte that stops it, behind a whole gap, or to the end.
Inside a comment the bytes of the comment read so far belong to the gap. -/
theorem split_line (bs : List UInt8) :
    ((∃ g b r, bs = g ++ b :: r ∧ Text g ∧ Stops b) ∨ Closing bs) ∧
      ∀ body, Line body →
        (∃ g b r, Byte.hash :: (body ++ bs) = g ++ b :: r ∧ Text g ∧ Stops b) ∨
          Closing (Byte.hash :: (body ++ bs)) := by
  induction bs with
  | nil =>
    refine ⟨.inr (.text .nil), fun body line => .inr ?_⟩
    rw [List.append_nil]
    exact .comment .nil line
  | cons b bs ih =>
    obtain ⟨plain, inside⟩ := ih
    constructor
    · by_cases hi : Byte.isIgnored b = true
      · obtain ⟨g, c, r, rfl, hg, hc⟩ | hc := plain
        · exact .inl ⟨b :: g, c, r, rfl, .ignored hi hg, hc⟩
        · exact .inr (.append (.ignored hi .nil) hc)
      · by_cases hh : b = Byte.hash
        · subst hh
          exact inside [] (by simp [Line])
        · exact .inl ⟨[], b, bs, rfl, .nil, Bool.eq_false_iff.2 hi, hh⟩
    · intro body line
      by_cases hl : Byte.isLineEnd b = true
      · have comment {g : List UInt8} (hg : Text g) := Text.comment line hl hg
        obtain ⟨g, c, r, rfl, hg, hc⟩ | hc := plain
        · exact .inl ⟨_, c, r, by simp, comment hg, hc⟩
        · have := Closing.append (comment .nil) hc
          simp only [List.cons_append, List.append_assoc, List.nil_append] at this
          exact .inr this
      · have := inside (body ++ [b]) (by
          intro c hc
          rw [List.mem_append, List.mem_singleton] at hc
          rcases hc with hc | rfl
          · exact line c hc
          · exact Bool.eq_false_iff.2 hl)
        simpa only [List.append_assoc, List.singleton_append] using this

theorem split (bs : List UInt8) :
    (∃ g b r, bs = g ++ b :: r ∧ Text g ∧ Stops b) ∨ Closing bs := (split_line bs).1

theorem length_take_length (bs : List UInt8) : (bs.take (length bs)).length = length bs := by
  rw [List.length_take]
  exact Nat.min_eq_left (length_le bs)

theorem drop_length_eq_nil_iff {bs : List UInt8} : bs.drop (length bs) = [] ↔ Closing bs := by
  constructor
  · intro h
    obtain ⟨g, b, r, rfl, hg, hb⟩ | hc := split bs
    · rw [length_append_stops hg hb, List.drop_left] at h
      cases h
    · exact hc
  · intro h
    rw [length_of_closing h, List.drop_length]

theorem length_drop_length (bs : List UInt8) : length (bs.drop (length bs)) = 0 := by
  obtain ⟨g, b, r, rfl, hg, hb⟩ | hc := split bs
  · rw [length_append_stops hg hb, List.drop_left, length_of_stops hb]
  · rw [length_of_closing hc, List.drop_length]
    rfl

theorem Closing.text_lineFeed {g : List UInt8} (h : Closing g) : Text (g ++ [Byte.lineFeed]) := by
  cases h with
  | text h => exact h.append (.ignored (by decide) .nil)
  | comment h line =>
    rw [List.append_assoc, List.cons_append]
    exact h.append (.comment line (by decide) .nil)

theorem text_take_lineFeed (bs : List UInt8) : Text (bs.take (length bs) ++ [Byte.lineFeed]) := by
  obtain ⟨g, b, r, rfl, hg, hb⟩ | hc := split bs
  · rw [length_append_stops hg hb, List.take_left]
    exact hg.append (.ignored (by decide) .nil)
  · rw [length_of_closing hc, List.take_length]
    exact hc.text_lineFeed

end Gap

namespace Word

/-- A name of the language, whatever it stands for. -/
def Text (w : List UInt8) : Prop :=
  ∃ b v, w = b :: v ∧ Byte.isNameStart b = true ∧ ∀ c ∈ v, Byte.isName c = true

/-- No name goes on with this byte, if there is one. -/
def Apart (next : Option UInt8) : Prop := ∀ b, next = some b → Byte.isName b = false

/-- A scalar may end in front of this byte, or at the end of the input. -/
def Ended (next : Option UInt8) : Prop := ∀ b, next = some b → Byte.isTerminator b = true

theorem isName_of_isTerminator (b : UInt8) : Byte.isTerminator b = true → Byte.isName b = false :=
  Byte.forall_of_fin (p := fun b => Byte.isTerminator b = true → Byte.isName b = false)
    (by decide +kernel) b

theorem Ended.apart {next : Option UInt8} (h : Ended next) : Apart next := by
  intro b hb
  exact isName_of_isTerminator b (h b hb)

theorem Text.isName {w : List UInt8} (h : Text w) : ∀ c ∈ w, Byte.isName c = true := by
  obtain ⟨b, v, rfl, hb, hv⟩ := h
  intro c hc
  rcases List.mem_cons.1 hc with rfl | hc
  · exact Byte.isName_of_isNameStart hb
  · exact hv c hc

theorem read_append {w r : List UInt8} (h : Text w) (hr : Apart r.head?) : read (w ++ r) = w := by
  have hn : r.takeWhile Byte.isName = [] := by
    cases r with
    | nil => rfl
    | cons b r => simp [hr b rfl]
  rw [read, List.takeWhile_append_of_pos h.isName, hn, List.append_nil]

theorem length_append {w r : List UInt8} (h : Text w) (hr : Apart r.head?) :
    length (w ++ r) = w.length := by
  rw [length, read_append h hr]

theorem read_append_drop (bs : List UInt8) : read bs ++ bs.drop (length bs) = bs := by
  induction bs with
  | nil => rfl
  | cons b bs ih =>
    by_cases hb : Byte.isName b = true
    · simpa [length, read, hb] using ih
    · simp [length, read, hb]

theorem take_length (bs : List UInt8) : bs.take (length bs) = read bs :=
  (List.prefix_iff_eq_take.1 (List.takeWhile_prefix _)).symm

theorem apart_drop (bs : List UInt8) : Apart (bs.drop (length bs)).head? := by
  induction bs with
  | nil => simp [Apart]
  | cons b bs ih =>
    by_cases hb : Byte.isName b = true
    · simpa [length, read, hb] using ih
    · simp [Apart, length, read, hb]

theorem text_read {bs : List UInt8} (h : Lead.of bs = .name) : Text (read bs) := by
  cases bs with
  | nil => cases h
  | cons b bs =>
    have hb := Lead.ofByte_eq_name_iff.1 h
    refine ⟨b, read bs, ?_, hb, List.all_eq_true.1 List.all_takeWhile⟩
    simp [read, Byte.isName_of_isNameStart hb]

theorem lead_append {w : List UInt8} (h : Text w) (r : List UInt8) : Lead.of (w ++ r) = .name := by
  obtain ⟨b, v, rfl, hb, -⟩ := h
  exact Lead.ofByte_eq_name_iff.2 hb

theorem lead_of_isOn {bs : List UInt8} (h : isOn bs = true) : Lead.of bs = .name := by
  have text : Text (read bs) := by
    rw [eq_of_beq h]
    exact ⟨_, _, rfl, by decide, List.all_eq_true.1 (by decide)⟩
  have lead := lead_append text (bs.drop (length bs))
  rwa [read_append_drop] at lead

theorem isOn_of_lead {bs : List UInt8} (h : Lead.of bs ≠ .name) : isOn bs = false :=
  Bool.eq_false_iff.2 fun on => h (lead_of_isOn on)

theorem length_eq {bs : List UInt8} {n : Nat}
    (names : ∀ i, i < n → ∃ b, bs[i]? = some b ∧ Byte.isName b = true)
    (last : ∃ b, bs[n]? = some b ∧ Byte.isName b = false) : length bs = n := by
  induction n generalizing bs with
  | zero =>
    obtain ⟨b, hb, hn⟩ := last
    cases bs with
    | nil => cases hb
    | cons c r =>
      cases hb
      simp [length, read, hn]
  | succ n ih =>
    obtain ⟨b, hb, hn⟩ := names 0 (Nat.succ_pos n)
    cases bs with
    | nil => cases hb
    | cons c r =>
      cases hb
      have rest : length r = n := by
        refine ih (fun i hi => ?_) ?_
        · simpa using names (i + 1) (Nat.succ_lt_succ hi)
        · simpa using last
      simpa [length, read, hn] using rest

end Word

end QueryDoc
