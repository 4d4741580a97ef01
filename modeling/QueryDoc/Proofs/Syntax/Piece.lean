import QueryDoc.Proofs.Syntax.Fits
import QueryDoc.Proofs.Syntax.Inversion
import QueryDoc.Proofs.Syntax.Terminal

/-! Tokens lie within the texts of their terminals, and the texts tell all that the tokens say apart
from their places. -/
namespace QueryDoc

namespace Shape

variable {s : Shape} {w : List UInt8}

theorem text_ne_nil (hs : s ≠ empty) (h : s.Text w) : w ≠ [] := by
  have follow : s.Follow w ([] : List UInt8).head? := follow_gap hs h nofun
  obtain ⟨b, v, hv, -⟩ := exists_cons h follow
  rw [List.append_nil] at hv
  rw [hv]
  exact List.cons_ne_nil b v

theorem span_le (h : s.Text w) :
    (s.span w.length).1 ≤ (s.span w.length).2 ∧ (s.span w.length).2 ≤ w.length := by
  cases s with
  | sigil s =>
    obtain ⟨v, -, rfl⟩ := h
    simp [span]
  | quoted =>
    obtain ⟨v, -, rfl⟩ := h
    simp [span]
  | block =>
    obtain ⟨v, -, rfl⟩ := h
    simp only [span, Block.fence, List.length_append, List.length_cons, List.length_nil]
    omega
  | _ => simp [span]

theorem span_lt (hs : s ≠ empty) (h : s.Text w) : (s.span w.length).1 < w.length := by
  have pos := List.length_pos_iff.2 (text_ne_nil hs h)
  cases s with
  | sigil s =>
    obtain ⟨v, ⟨c, cs, rfl, -, -⟩, rfl⟩ := h
    simp [span]
  | quoted =>
    obtain ⟨v, -, rfl⟩ := h
    simp [span]
  | block =>
    obtain ⟨v, -, rfl⟩ := h
    simp only [span, Block.fence, List.length_append, List.length_cons, List.length_nil]
    omega
  | _ => exact pos

end Shape

theorem Terminal.mem_tokens {t : Terminal} {pos level n : Nat} {u : Token}
    (h : u ∈ t.tokens pos level n) :
    u.tail = pos + (t.shape.span n).1 ∧ u.head = pos + (t.shape.span n).2 := by
  unfold tokens at h
  cases hk : t.kind with
  | none => simp [hk] at h
  | some k =>
    rw [hk] at h
    rw [List.mem_singleton.1 h]
    exact ⟨rfl, rfl⟩

theorem Reads.bounds {ts : List Terminal} {c d : Cursor} {us : List Token} (h : Reads ts c us d) :
    ∀ u ∈ us, c.pos ≤ u.tail ∧ u.head ≤ d.pos := by
  induction h with
  | nil => nofun
  | @cons t ts pos level g w r us d _ text _ rest ih =>
    obtain ⟨v, -, hpos⟩ := rest.rest_eq
    have span := t.shape.span_le text
    intro u hu
    rcases List.mem_append.1 hu with hu | hu
    · obtain ⟨tail, head⟩ := Terminal.mem_tokens hu
      simp only at hpos ⊢
      omega
    · obtain ⟨lo, hi⟩ := ih u hu
      simp only at lo ⊢
      omega

/-- What a token says apart from its place. -/
structure View where
  kind : Kind
  value : List UInt8
  level : Nat
  deriving DecidableEq, Repr

def Token.view (doc : List UInt8) (t : Token) : View := ⟨t.kind, t.value doc, t.level⟩

/-- A terminal with the text it has in a document. -/
structure Piece where
  terminal : Terminal
  text : List UInt8
  isText : terminal.shape.Text text

namespace Piece

def content (p : Piece) : List UInt8 :=
  let span := p.terminal.shape.span p.text.length
  (p.text.drop span.1).take (span.2 - span.1)

def view (p : Piece) (level : Nat) : List View :=
  match p.terminal.kind with
  | none => []
  | some k => [⟨k, p.content, k.levelAfter level⟩]

def views : Nat → List Piece → List View
  | _, [] => []
  | level, p :: ps => p.view level ++ views (p.terminal.levelAfter level) ps

def texts : List Piece → List (List UInt8)
  | [] => []
  | p :: ps => if p.text = [] then texts ps else p.text :: texts ps

def layout (ps : List Piece) : List UInt8 := [Byte.space].intercalate (texts ps)

/-- In front of a selection set or its directives stands every token without text. -/
def Joined : List Piece → Prop
  | [] => True
  | p :: ps =>
    (p.terminal.shape = .empty → Lead.of (layout ps) = .openBrace ∨ Lead.of (layout ps) = .atSign) ∧
      Joined ps

theorem views_append (level : Nat) (ps qs : List Piece) :
    views level (ps ++ qs) =
      views level ps ++ views (Terminal.levels (ps.map terminal) level) qs := by
  induction ps generalizing level with
  | nil => rfl
  | cons p ps ih =>
    rw [List.cons_append, views, ih, views, List.append_assoc]
    rfl

theorem texts_append (ps qs : List Piece) : texts (ps ++ qs) = texts ps ++ texts qs := by
  induction ps with
  | nil => rfl
  | cons p ps ih =>
    simp only [List.cons_append, texts, ih]
    split
    · rfl
    · rfl

theorem layout_of_empty {p : Piece} {ps : List Piece} (h : p.text = []) :
    layout (p :: ps) = layout ps := by
  simp only [layout, texts, if_pos h]

theorem layout_of_last {p : Piece} {ps : List Piece} (h : p.text ≠ []) (hp : texts ps = []) :
    layout (p :: ps) = p.text := by
  simp [layout, texts, if_neg h, hp]

theorem layout_of_more {p : Piece} {ps : List Piece} (h : p.text ≠ []) (hp : texts ps ≠ []) :
    layout (p :: ps) = p.text ++ Byte.space :: layout ps := by
  obtain ⟨w, ws, hw⟩ := List.exists_cons_of_ne_nil hp
  simp [layout, texts, if_neg h, hw]

end Piece

theorem Lead.of_append {w : List UInt8} (h : w ≠ []) (r r' : List UInt8) :
    of (w ++ r) = of (w ++ r') := by
  obtain ⟨b, v, rfl⟩ := List.exists_cons_of_ne_nil h
  rfl

theorem Piece.lead_layout {p : Piece} (h : p.text ≠ []) (ps : List Piece) (r : List UInt8) :
    Lead.of (layout (p :: ps)) = Lead.of (p.text ++ r) := by
  by_cases hp : texts ps = []
  · rw [layout_of_last h hp, ← List.append_nil p.text, List.append_assoc]
    exact Lead.of_append h _ _
  · rw [layout_of_more h hp]
    exact Lead.of_append h _ _

theorem Shape.text_eq_nil_iff {s : Shape} {w : List UInt8} (h : s.Text w) : w = [] ↔ s = empty := by
  constructor
  · intro hw
    apply Classical.byContradiction
    intro hs
    exact text_ne_nil hs h hw
  · rintro rfl
    exact h

theorem Shape.follow_empty_iff {r : List UInt8} :
    empty.Follow [] r.head? ↔ Lead.of r = .openBrace ∨ Lead.of r = .atSign := by
  constructor
  · intro h
    exact (fits_empty_iff.1 ⟨[], r, rfl, rfl, rfl, h⟩).2
  · intro h
    obtain ⟨w, r', hr, -, hw, follow⟩ := fits_empty_iff.2 ⟨rfl, h⟩
    obtain rfl : w = [] := hw
    rw [hr]
    exact follow

namespace Piece

theorem tokens_view (p : Piece) {doc g r : List UInt8} {pos : Nat} (level : Nat)
    (h : doc.drop pos = g ++ (p.text ++ r)) :
    (p.terminal.tokens (pos + g.length) level p.text.length).map (Token.view doc) =
      p.view level := by
  unfold Terminal.tokens view
  cases p.terminal.kind with
  | none => rfl
  | some k =>
    have span := p.terminal.shape.span_le p.isText
    generalize hs : p.terminal.shape.span p.text.length = span' at span
    have inside : span'.1 ≤ p.text.length := by omega
    have fits : span'.2 - span'.1 ≤ (p.text.drop span'.1).length := by
      rw [List.length_drop]
      omega
    have width : pos + g.length + span'.2 - (pos + g.length + span'.1) = span'.2 - span'.1 := by
      omega
    have value : (doc.drop (pos + g.length + span'.1)).take (span'.2 - span'.1) =
        (p.text.drop span'.1).take (span'.2 - span'.1) := by
      rw [Nat.add_assoc, ← List.drop_drop, h, List.drop_length_add_append,
        List.drop_append_of_le_length inside, List.take_append_of_le_length fits]
    simp only [List.map_cons, List.map_nil, Token.view, Token.value, content, hs, width, value]

/-- The terminals are written from here to the end of the document, and their tokens say what the
texts tell. -/
def Told (doc : List UInt8) (ps : List Piece) (c : Cursor) : Prop :=
  ∃ us e, Reads (ps.map terminal) c us e ∧ e.rest = [] ∧ us.map (Token.view doc) = views c.level ps

theorem Told.cons {doc r : List UInt8} {p : Piece} {ps : List Piece} {pos level : Nat}
    (follow : p.terminal.shape.Follow p.text r.head?) (h : doc.drop pos = p.text ++ r)
    (rest : Told doc ps ⟨pos + p.text.length, p.terminal.levelAfter level, r⟩) :
    Told doc (p :: ps) ⟨pos, level, p.text ++ r⟩ := by
  obtain ⟨us, e, reads, done, said⟩ := rest
  refine ⟨_, e, .cons (g := []) .nil p.isText follow reads, done, ?_⟩
  rw [List.map_append, said, p.tokens_view (g := []) level h, views]

theorem Told.space {doc bs : List UInt8} {ps : List Piece} {pos level : Nat} (hp : ps ≠ [])
    (h : Told doc ps ⟨pos + 1, level, bs⟩) : Told doc ps ⟨pos, level, Byte.space :: bs⟩ := by
  obtain ⟨us, e, reads, done, said⟩ := h
  obtain ⟨p, ps, rfl⟩ := List.exists_cons_of_ne_nil hp
  have gap : Gap.Text [Byte.space] := .ignored (by decide) .nil
  exact ⟨us, e, reads.prepend gap, done, said⟩

/-- The texts, one space apart, are read as the same terminals again. -/
theorem told_layout {ps : List Piece} (joined : Joined ps) {doc : List UInt8} {pos : Nat}
    (level : Nat) (h : doc.drop pos = layout ps) : Told doc ps ⟨pos, level, layout ps⟩ := by
  induction ps generalizing pos level with
  | nil => exact ⟨[], _, .nil _, rfl, rfl⟩
  | cons p ps ih =>
    obtain ⟨mark, joined⟩ := joined
    have behind {r : List UInt8} (h : doc.drop pos = p.text ++ r) :
        doc.drop (pos + p.text.length) = r := by
      rw [← List.drop_drop, h, List.drop_left]
    by_cases hw : p.text = []
    · have hs := (Shape.text_eq_nil_iff p.isText).1 hw
      have here : layout (p :: ps) = p.text ++ layout ps := by rw [layout_of_empty hw, hw]; rfl
      rw [here] at h ⊢
      refine .cons ?_ h (ih joined _ (behind h))
      rw [hs, hw]
      exact Shape.follow_empty_iff.2 (mark hs)
    · have hs : p.terminal.shape ≠ .empty := fun hs => hw ((Shape.text_eq_nil_iff p.isText).2 hs)
      by_cases ht : texts ps = []
      · have nothing : layout ps = [] := by rw [layout, ht]; rfl
        have here : layout (p :: ps) = p.text ++ layout ps := by
          rw [layout_of_last hw ht, nothing, List.append_nil]
        rw [here] at h ⊢
        refine .cons ?_ h (ih joined _ (behind h))
        rw [nothing]
        exact Shape.follow_gap hs p.isText nofun
      · have more : ps ≠ [] := by
          rintro rfl
          exact ht rfl
        rw [layout_of_more hw ht] at h ⊢
        refine .cons (Shape.follow_gap hs p.isText ?_) h (.space more (ih joined _ ?_))
        · rintro _ ⟨⟩
          decide
        · rw [← List.drop_drop, behind h]
          rfl

end Piece

theorem Reads.pieces {ts : List Terminal} {c m : Cursor} {us : List Token} (h : Reads ts c us m)
    {doc : List UInt8} (hc : doc.drop c.pos = c.rest) {ps : List Piece} (joined : Piece.Joined ps)
    (ahead : Lead.of (Piece.layout ps) = Gap.ahead m.rest) :
    ∃ qs : List Piece, qs.map Piece.terminal = ts ∧ Piece.Joined (qs ++ ps) ∧
      Lead.of (Piece.layout (qs ++ ps)) = Gap.ahead c.rest ∧
      us.map (Token.view doc) = Piece.views c.level qs := by
  induction h with
  | nil => exact ⟨[], rfl, joined, ahead, rfl⟩
  | @cons t ts pos level g w r us m gap text follow rest ih =>
    have behind : doc.drop (pos + g.length + w.length) = r := by
      rw [← List.drop_drop, ← List.drop_drop, hc, List.drop_left, List.drop_left]
    obtain ⟨qs, rfl, joined', ahead', said⟩ := ih behind ahead
    obtain ⟨b, v, hv, stops⟩ := t.shape.exists_cons text follow
    have front : Gap.ahead (g ++ (w ++ r)) = Lead.of (w ++ r) := by
      rw [Gap.ahead, hv, Gap.length_append_stops gap stops, List.drop_left]
    have mark (hs : t.shape = .empty) :
        Lead.of (Piece.layout (qs ++ ps)) = Lead.of r ∧
          (Lead.of r = .openBrace ∨ Lead.of r = .atSign) := by
      obtain rfl := (Shape.text_eq_nil_iff text).2 hs
      rw [hs] at follow
      have lead := Shape.follow_empty_iff.1 follow
      refine ⟨ahead'.trans (Gap.ahead_eq ?_), lead⟩
      rcases lead with lead | lead <;> rw [lead] <;> decide
    let p : Piece := ⟨t, w, text⟩
    refine ⟨p :: qs, rfl, ⟨?_, joined'⟩, ?_, ?_⟩
    · intro hs
      obtain ⟨same, lead⟩ := mark hs
      rw [← same] at lead
      exact lead
    · rw [front, List.cons_append]
      by_cases hw : w = []
      · rw [Piece.layout_of_empty hw, (mark ((Shape.text_eq_nil_iff text).1 hw)).1, hw]
        rfl
      · exact Piece.lead_layout hw _ r
    · rw [List.map_append, said, p.tokens_view level hc]
      rfl

end QueryDoc
