import QueryDoc.Scanner
import QueryDoc.Proofs.Text.Strings
import QueryDoc.Proofs.Text.Number
import QueryDoc.Token

/-! The lexemes of the grammar: what each looks like, what may follow it at once, and which token it
delivers. -/
namespace QueryDoc

inductive Punct where
  | bang
  | openParen
  | closeParen
  | colon
  | equals
  | openBracket
  | closeBracket
  | openBrace
  | closeBrace
  deriving DecidableEq, Repr

namespace Punct

def byte : Punct → UInt8
  | bang => Byte.bang
  | openParen => Byte.openParen
  | closeParen => Byte.closeParen
  | colon => Byte.colon
  | equals => Byte.equals
  | openBracket => Byte.openBracket
  | closeBracket => Byte.closeBracket
  | openBrace => Byte.openBrace
  | closeBrace => Byte.closeBrace

def lead : Punct → Lead
  | bang => .bang
  | openParen => .openParen
  | closeParen => .closeParen
  | colon => .colon
  | equals => .equals
  | openBracket => .openBracket
  | closeBracket => .closeBracket
  | openBrace => .openBrace
  | closeBrace => .closeBrace

end Punct

inductive Sigil where
  | dollar
  | atSign
  deriving DecidableEq, Repr

namespace Sigil

def byte : Sigil → UInt8
  | dollar => Byte.dollar
  | atSign => Byte.atSign

def lead : Sigil → Lead
  | dollar => .dollar
  | atSign => .atSign

end Sigil

inductive Keyword where
  | query
  | mutation
  | subscription
  | fragment
  | onWord
  | trueWord
  | falseWord
  | nullWord
  deriving DecidableEq, Repr

def Keyword.bytes : Keyword → List UInt8
  | query => Word.query
  | mutation => Word.mutation
  | subscription => Word.subscription
  | fragment => Word.fragment
  | onWord => Word.onWord
  | trueWord => Word.trueWord
  | falseWord => Word.falseWord
  | nullWord => Word.nullWord

inductive Words where
  | any
  | only (keyword : Keyword)
  | notOn
  | notLiteral
  deriving DecidableEq, Repr

def Words.Has : Words → List UInt8 → Prop
  | any, w => Word.Text w
  | only k, w => w = k.bytes
  | notOn, w => Word.Text w ∧ w ≠ Word.onWord
  | notLiteral, w =>
    Word.Text w ∧ w ≠ Word.trueWord ∧ w ≠ Word.falseWord ∧ w ≠ Word.nullWord

inductive Shape where
  /-- Nothing, in front of a selection set or of its directives. -/
  | empty
  | punct (p : Punct)
  | dots
  | word (ws : Words)
  /-- A name directly behind its sigil. -/
  | sigil (s : Sigil)
  /-- A word in value position. -/
  | scalar (ws : Words)
  | int
  | float
  | quoted
  | block
  deriving DecidableEq, Repr

namespace Shape

/-- The texts of this shape. -/
def Text : Shape → List UInt8 → Prop
  | empty, w => w = []
  | punct p, w => w = [p.byte]
  | dots, w => w = Upcoming.dots
  | word ws, w => ws.Has w
  | sigil s, w => ∃ v, Word.Text v ∧ w = s.byte :: v
  | scalar ws, w => ws.Has w
  | int, w => Number.Text .int w
  | float, w => Number.Text .float w
  | quoted, w => ∃ v, Quoted.Body v ∧ w = Byte.quote :: (v ++ [Byte.quote])
  | block, w => ∃ v, Block.Body v ∧ w = Block.fence ++ (v ++ Block.fence)

/-- What may stand directly behind the text: a name is the longest run of its bytes, a scalar ends
before a terminator, and three quotes never begin a quoted string. -/
def Follow : Shape → List UInt8 → Option UInt8 → Prop
  | empty, _, next => next = some Byte.openBrace ∨ next = some Byte.atSign
  | word _, _, next => Word.Apart next
  | sigil _, _, next => Word.Apart next
  | scalar _, _, next => Word.Ended next
  | int, _, next => Word.Ended next
  | float, _, next => Word.Ended next
  | quoted, w, next => ¬Block.fence <+: w ++ next.toList
  | _, _, _ => True

/-- The span of the token within a text of `n` bytes. -/
def span : Shape → Nat → Nat × Nat
  | punct _, _ => (0, 0)
  | sigil _, n => (1, n)
  | quoted, n => (1, n - 1)
  | block, n => (3, n - 3)
  | _, n => (0, n)

/-- What the first byte of the shape announces. -/
def leads : Shape → List Lead
  | empty => [.openBrace, .atSign]
  | punct p => [p.lead]
  | dots => [.dot]
  | word _ => [.name]
  | sigil s => [s.lead]
  | scalar _ => [.name]
  | int => [.number]
  | float => [.number]
  | quoted => [.quote]
  | block => [.quote]

/-- Whether the place of a token is told from its first bytes alone. -/
def plain : Shape → Bool
  | empty => false
  | dots => false
  | punct .colon => false
  | punct .equals => false
  | _ => true

end Shape

/-- A lexeme of the grammar, with the kind of the token it delivers if it delivers one. -/
structure Terminal where
  shape : Shape
  kind : Option Kind
  deriving DecidableEq, Repr

namespace Terminal

def levelAfter (t : Terminal) (level : Nat) : Nat :=
  match t.kind with
  | none => level
  | some k => k.levelAfter level

/-- The token of a text of `n` bytes at offset `pos`. -/
def tokens (t : Terminal) (pos level n : Nat) : List Token :=
  match t.kind with
  | none => []
  | some k => [⟨k, pos + (t.shape.span n).1, pos + (t.shape.span n).2, k.levelAfter level⟩]

end Terminal

/-- A place in the document and the depth of selection sets there. -/
structure Cursor where
  pos : Nat
  level : Nat
  rest : List UInt8

/-- The terminals are written from the first place up to the second, with these tokens. -/
inductive Reads : List Terminal → Cursor → List Token → Cursor → Prop
  | nil (c : Cursor) : Reads [] c [] c
  | cons {t : Terminal} {ts : List Terminal} {pos level : Nat} {g w r : List UInt8}
      {us : List Token} {d : Cursor} (gap : Gap.Text g) (text : t.shape.Text w)
      (follow : t.shape.Follow w r.head?)
      (rest : Reads ts ⟨pos + g.length + w.length, t.levelAfter level, r⟩ us d) :
      Reads (t :: ts) ⟨pos, level, g ++ (w ++ r)⟩
        (t.tokens (pos + g.length) level w.length ++ us) d

theorem Keyword.text_bytes (k : Keyword) : Word.Text k.bytes := by
  cases k <;> exact ⟨_, _, rfl, by decide, List.all_eq_true.1 (by decide)⟩

theorem Words.Has.text {ws : Words} {w : List UInt8} (h : ws.Has w) : Word.Text w := by
  cases ws with
  | any => exact h
  | only k => exact h ▸ k.text_bytes
  | notOn => exact h.1
  | notLiteral => exact h.1

theorem Punct.lead_append (p : Punct) (r : List UInt8) : Lead.of (p.byte :: r) = p.lead := by
  cases p <;> rfl

theorem Sigil.lead_append (s : Sigil) (r : List UInt8) : Lead.of (s.byte :: r) = s.lead := by
  cases s <;> rfl

namespace Shape

theorem lead_mem {s : Shape} {w r : List UInt8} (h : s.Text w) (hr : s.Follow w r.head?) :
    Lead.of (w ++ r) ∈ s.leads := by
  cases s with
  | empty =>
    subst h
    cases r with
    | nil => simp [Follow] at hr
    | cons b r =>
      rcases hr with hr | hr <;> cases hr
      · exact List.mem_cons_self
      · exact List.mem_cons_of_mem _ List.mem_cons_self
  | punct p => subst h; simp [leads, Punct.lead_append]
  | dots => subst h; exact List.mem_singleton.2 rfl
  | word ws => simp [leads, Word.lead_append (Words.Has.text h)]
  | sigil s =>
    obtain ⟨v, -, rfl⟩ := h
    simp [leads, Sigil.lead_append]
  | scalar ws => simp [leads, Word.lead_append (Words.Has.text h)]
  | int => simp [leads, Number.lead_append h]
  | float => simp [leads, Number.lead_append h]
  | quoted =>
    obtain ⟨v, -, rfl⟩ := h
    exact List.mem_singleton.2 rfl
  | block =>
    obtain ⟨v, -, rfl⟩ := h
    exact List.mem_singleton.2 rfl

theorem leads_ne_nothing {s : Shape} {x : Lead} (h : x ∈ s.leads) : x ≠ .nothing ∧ x ≠ .stray := by
  cases s with
  | punct p =>
    rw [List.mem_singleton.1 h]
    cases p <;> simp [Punct.lead]
  | sigil s =>
    rw [List.mem_singleton.1 h]
    cases s <;> simp [Sigil.lead]
  | empty =>
    simp only [leads, List.mem_cons, List.not_mem_nil, or_false] at h
    rcases h with rfl | rfl <;> simp
  | _ =>
    simp only [leads, List.mem_singleton] at h
    simp [h]

end Shape

theorem Gap.isTerminator_of_not_stops (b : UInt8) : ¬Stops b → Byte.isTerminator b = true :=
  Byte.forall_of_fin (p := fun b => ¬Stops b → Byte.isTerminator b = true) (by decide +kernel) b

theorem Lead.stops (b : UInt8) : ofByte b ≠ stray → Gap.Stops b :=
  Byte.forall_of_fin (p := fun b => ofByte b ≠ stray → Gap.Stops b) (by decide +kernel) b

namespace Shape

theorem exists_cons {s : Shape} {w r : List UInt8} (h : s.Text w) (hr : s.Follow w r.head?) :
    ∃ b v, w ++ r = b :: v ∧ Gap.Stops b := by
  have hm := leads_ne_nothing (lead_mem h hr)
  cases hv : w ++ r with
  | nil =>
    rw [hv] at hm
    exact absurd rfl hm.1
  | cons b v =>
    rw [hv] at hm
    exact ⟨b, v, rfl, Lead.stops b hm.2⟩

theorem follow_quoted {w : List UInt8} {next : Option UInt8} (h : quoted.Text w)
    (hn : next ≠ some Byte.quote) : quoted.Follow w next := by
  obtain ⟨v, hv, rfl⟩ := h
  rintro ⟨t, ht⟩
  cases v with
  | nil =>
    have ht := (List.cons.inj (List.cons.inj ht).2).2
    cases next with
    | none => cases ht
    | some b =>
      obtain ⟨rfl, -⟩ := List.cons.inj ht
      exact hn rfl
  | cons b v =>
    have hb : Byte.quote = b := (List.cons.inj (List.cons.inj ht).2).1
    exact hv.head_ne_quote b rfl hb.symm

theorem follow_gap {s : Shape} {w : List UInt8} {next : Option UInt8} (hs : s ≠ empty)
    (h : s.Text w) (hn : ∀ b, next = some b → ¬Gap.Stops b) : s.Follow w next := by
  have ended : Word.Ended next := fun b hb => Gap.isTerminator_of_not_stops b (hn b hb)
  cases s with
  | empty => exact absurd rfl hs
  | word ws => exact ended.apart
  | sigil s => exact ended.apart
  | scalar ws => exact ended
  | int => exact ended
  | float => exact ended
  | quoted => exact follow_quoted h fun hq => hn _ hq (by decide)
  | punct p => trivial
  | dots => trivial
  | block => trivial

theorem follow_lineFeed {s : Shape} {w : List UInt8} (hs : s ≠ empty) (h : s.Text w) :
    s.Follow w (some Byte.lineFeed) := by
  refine follow_gap hs h ?_
  rintro b ⟨⟩
  decide

end Shape

theorem Gap.text_take {bs : List UInt8} (h : bs.drop (length bs) ≠ []) :
    Text (bs.take (length bs)) := by
  obtain ⟨g, b, r, rfl, hg, hb⟩ | hc := split bs
  · rwa [length_append_stops hg hb, List.take_left]
  · rw [length_of_closing hc, List.drop_length] at h
    exact absurd rfl h

/-- The bytes begin with `n` bytes of this shape. -/
def Shape.Fits (s : Shape) (bs : List UInt8) (n : Nat) : Prop :=
  ∃ w r, bs = w ++ r ∧ w.length = n ∧ s.Text w ∧ s.Follow w r.head?

theorem reads_cons_iff {t : Terminal} {ts : List Terminal} {pos level : Nat} {bs : List UInt8}
    {us : List Token} {d : Cursor} :
    Reads (t :: ts) ⟨pos, level, bs⟩ us d ↔
      ∃ n vs, t.shape.Fits (bs.drop (Gap.length bs)) n ∧
        us = t.tokens (pos + Gap.length bs) level n ++ vs ∧
        Reads ts ⟨pos + Gap.length bs + n, t.levelAfter level, bs.drop (Gap.length bs + n)⟩
          vs d := by
  constructor
  · intro h
    cases h with
    | @cons _ _ _ _ g w r vs _ gap text follow rest =>
      obtain ⟨b, v, hv, hb⟩ := t.shape.exists_cons text follow
      have hl : Gap.length (g ++ (w ++ r)) = g.length := by
        rw [hv, Gap.length_append_stops gap hb]
      have hd : (g ++ (w ++ r)).drop (g.length + w.length) = r := by
        rw [← List.append_assoc, ← List.length_append, List.drop_left]
      rw [hl, List.drop_left]
      refine ⟨w.length, vs, ⟨w, r, rfl, rfl, text, follow⟩, rfl, ?_⟩
      rw [hd]
      exact rest
  · rintro ⟨n, vs, ⟨w, r, hd, rfl, text, follow⟩, rfl, rest⟩
    obtain ⟨b, v, hv, -⟩ := t.shape.exists_cons text follow
    have gap : Gap.Text (bs.take (Gap.length bs)) := Gap.text_take (by simp [hd, hv])
    have hl := Gap.length_take_length bs
    rw [← List.drop_drop, hd, List.drop_left] at rest
    rw [← hl] at rest ⊢
    have := Reads.cons gap text follow rest
    rwa [← hd, List.take_append_drop] at this

namespace Reads

theorem from_gap {t : Terminal} {ts : List Terminal} {pos level : Nat} {bs : List UInt8}
    {us : List Token} {d : Cursor}
    (h : Reads (t :: ts) ⟨pos + Gap.length bs, level, bs.drop (Gap.length bs)⟩ us d) :
    Reads (t :: ts) ⟨pos, level, bs⟩ us d := by
  rw [reads_cons_iff, Gap.length_drop_length] at h
  rw [reads_cons_iff]
  simpa only [List.drop_zero, Nat.add_zero, Nat.zero_add, List.drop_drop] using h

theorem append {ts ts' : List Terminal} {c d e : Cursor} {us us' : List Token}
    (h : Reads ts c us d) (g : Reads ts' d us' e) : Reads (ts ++ ts') c (us ++ us') e := by
  induction h with
  | nil => exact g
  | cons gap text follow _ ih =>
    rw [List.append_assoc]
    exact .cons gap text follow (ih g)

theorem of_append {ts ts' : List Terminal} {c e : Cursor} {us : List Token}
    (h : Reads (ts ++ ts') c us e) :
    ∃ d vs vs', Reads ts c vs d ∧ Reads ts' d vs' e ∧ us = vs ++ vs' := by
  induction ts generalizing c us with
  | nil => exact ⟨c, [], us, .nil c, h, rfl⟩
  | cons t ts ih =>
    cases h with
    | cons gap text follow rest =>
      obtain ⟨d, vs, vs', h₁, h₂, rfl⟩ := ih rest
      exact ⟨d, _, vs', .cons gap text follow h₁, h₂, (List.append_assoc _ _ _).symm⟩

theorem rest_eq {ts : List Terminal} {c d : Cursor} {us : List Token} (h : Reads ts c us d) :
    ∃ u, c.rest = u ++ d.rest ∧ d.pos = c.pos + u.length := by
  induction h with
  | nil c => exact ⟨[], rfl, rfl⟩
  | @cons t ts pos level g w r us d _ _ _ _ ih =>
    obtain ⟨u, hu, hp⟩ := ih
    simp only at hu hp
    refine ⟨g ++ (w ++ u), ?_, ?_⟩
    · simp [hu]
    · simp only [hp, List.length_append]
      omega

/-- What follows the terminals matters only through the byte directly behind the last of them. -/
theorem replace {ts : List Terminal} {c d : Cursor} {us : List Token} (h : Reads ts c us d)
    {r' : List UInt8} (hr : ∀ t ∈ ts, ∀ w, t.shape.Text w → t.shape.Follow w d.rest.head? →
      t.shape.Follow w r'.head?) {u : List UInt8} (hu : c.rest = u ++ d.rest) :
    Reads ts ⟨c.pos, c.level, u ++ r'⟩ us ⟨d.pos, d.level, r'⟩ := by
  induction h generalizing u with
  | nil c =>
    obtain rfl : u = [] := List.self_eq_append_left.1 hu
    exact .nil _
  | @cons t ts pos level g w r us d gap text follow rest ih =>
    obtain ⟨v, hv, -⟩ := rest.rest_eq
    simp only at hv hu
    obtain rfl : u = g ++ (w ++ v) := by
      rw [hv, ← List.append_assoc, ← List.append_assoc] at hu
      rw [← List.append_cancel_right hu, List.append_assoc]
    have := ih (fun t ht => hr t (by simp [ht])) hv
    rw [List.append_assoc, List.append_assoc]
    refine .cons gap text ?_ this
    cases v with
    | nil => exact hr t (by simp) w text (by simpa [hv] using follow)
    | cons b v => simpa [hv] using follow

end Reads

theorem Reads.prepend {t : Terminal} {ts : List Terminal} {pos level : Nat} {g bs : List UInt8}
    {us : List Token} {d : Cursor} (hg : Gap.Text g)
    (h : Reads (t :: ts) ⟨pos + g.length, level, bs⟩ us d) :
    Reads (t :: ts) ⟨pos, level, g ++ bs⟩ us d := by
  generalize hp : pos + g.length = p at h
  cases h with
  | @cons _ _ _ _ g' w r us _ gap text follow rest =>
    subst hp
    have hl : pos + g.length + g'.length = pos + (g ++ g').length := by
      rw [List.length_append, Nat.add_assoc]
    rw [hl] at rest ⊢
    rw [← List.append_assoc]
    exact .cons (hg.append gap) text follow rest

/-- The first `n` bytes begin the terminals: more bytes complete them in front of a line end. -/
def Begins (ts : List Terminal) (bs : List UInt8) (n : Nat) : Prop :=
  ∃ v, ∀ pos level r, r.head? = some Byte.lineFeed →
    ∃ us d, Reads ts ⟨pos, level, bs.take n ++ (v ++ r)⟩ us d ∧ d.rest = r

theorem begins_of_text {t : Terminal} {bs v : List UInt8} {n : Nat} (ht : t.shape ≠ .empty)
    (text : t.shape.Text (bs.take n ++ v)) : Begins [t] bs n := by
  refine ⟨v, fun pos level r hr => ?_⟩
  have follow := Shape.follow_lineFeed ht text
  rw [← hr] at follow
  rw [← List.append_assoc]
  exact ⟨_, _, .cons (g := []) .nil text follow (.nil _), rfl⟩

end QueryDoc
