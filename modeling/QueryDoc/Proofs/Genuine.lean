import QueryDoc.Proofs.Acceptance

/-! Every token of every scan spans bytes that its kind describes. No name can end at the left of
one, since every lexeme and every gap ends in front of a byte of no name or with one. -/
namespace QueryDoc

namespace Token

variable (doc : List UInt8) (t : Token)

/-- The token spans a name, and no name byte stands directly before or behind it. -/
structure IsName : Prop where
  text : Word.Text (t.value doc)
  left : Word.Apart (doc.take t.tail).getLast?
  right : Word.Apart (doc.drop t.head).head?

/-- The token spans exactly this name. -/
def IsKeyword (w : List UInt8) : Prop := t.IsName doc ∧ t.value doc = w

/-- The token spans nothing and stands at one of these bytes. -/
def IsEmptyAt (bytes : List UInt8) : Prop :=
  t.tail = t.head ∧ ∃ b ∈ bytes, doc[t.tail]? = some b

/-- These bytes stand directly before the token. -/
def IsBehind (w : List UInt8) : Prop := w <:+ doc.take t.tail

/-- These bytes stand directly behind the token. -/
def IsBefore (w : List UInt8) : Prop := w <+: doc.drop t.head

/-- What the bytes of a token are, by its kind. -/
def Genuine : Prop :=
  match t.kind with
  | .query => t.IsKeyword doc Word.query ∨ t.IsEmptyAt doc [Byte.openBrace]
  | .mutation => t.IsKeyword doc Word.mutation
  | .subscription => t.IsKeyword doc Word.subscription
  | .fragment => t.IsKeyword doc Word.fragment
  | .operationName | .typeCondition | .fieldAlias | .field | .argumentName | .typeName
  | .objectField => t.IsName doc
  | .fragmentName | .spreadName => t.IsName doc ∧ t.value doc ≠ Word.onWord
  | .inlineFragment => t.IsName doc ∨ t.IsEmptyAt doc [Byte.openBrace, Byte.atSign]
  | .variableName | .variableRef => t.IsName doc ∧ t.IsBehind doc [Byte.dollar]
  | .directiveName => t.IsName doc ∧ t.IsBehind doc [Byte.atSign]
  | .enumValue =>
    t.IsName doc ∧ t.value doc ∉ [Word.trueWord, Word.falseWord, Word.nullWord]
  | .trueValue => t.IsKeyword doc Word.trueWord
  | .falseValue => t.IsKeyword doc Word.falseWord
  | .nullValue => t.IsKeyword doc Word.nullWord
  | .int => Number.Text .int (t.value doc) ∧ Word.Ended (doc.drop t.head).head?
  | .float => Number.Text .float (t.value doc) ∧ Word.Ended (doc.drop t.head).head?
  | .quotedString =>
    Quoted.Body (t.value doc) ∧ t.IsBehind doc [Byte.quote] ∧ t.IsBefore doc [Byte.quote]
  | .blockString =>
    Block.Body (t.value doc) ∧ t.IsBehind doc Block.fence ∧ t.IsBefore doc Block.fence
  | .variablesOpen | .argumentsOpen => t.IsEmptyAt doc [Byte.openParen]
  | .variablesClose | .argumentsClose => t.IsEmptyAt doc [Byte.closeParen]
  | .setOpen | .objectOpen => t.IsEmptyAt doc [Byte.openBrace]
  | .setClose | .objectClose => t.IsEmptyAt doc [Byte.closeBrace]
  | .listOpen | .listTypeOpen => t.IsEmptyAt doc [Byte.openBracket]
  | .listClose | .listTypeClose => t.IsEmptyAt doc [Byte.closeBracket]
  | .nonNull => t.IsEmptyAt doc [Byte.bang]

end Token

theorem Token.inside_of_fits {doc : List UInt8} {t : Token} (h : t.fits doc = true) :
    t.tail ≤ t.head ∧ t.head ≤ doc.length := by
  simpa only [fits, Bool.and_eq_true, decide_eq_true_eq] using h

/-- The document is cut into what stands before the token, what it spans, and what follows. -/
structure Token.Cuts (doc front span back : List UInt8) (t : Token) : Prop where
  doc_eq : doc = front ++ (span ++ back)
  tail_eq : t.tail = front.length
  head_eq : t.head = front.length + span.length

namespace Token.Cuts

variable {doc front span back : List UInt8} {t : Token}

theorem value_eq (h : t.Cuts doc front span back) : t.value doc = span := by
  rw [value, h.tail_eq, h.head_eq, h.doc_eq, List.drop_left, Nat.add_sub_cancel_left,
    List.take_left]

theorem take_tail (h : t.Cuts doc front span back) : doc.take t.tail = front := by
  rw [h.tail_eq, h.doc_eq, List.take_left]

theorem drop_head (h : t.Cuts doc front span back) : doc.drop t.head = back := by
  rw [h.head_eq, h.doc_eq, ← List.drop_drop, List.drop_left, List.drop_left]

theorem fits (h : t.Cuts doc front span back) : t.fits doc = true := by
  have length : doc.length = front.length + (span.length + back.length) := by
    rw [h.doc_eq, List.length_append, List.length_append]
  simp only [Token.fits, h.tail_eq, h.head_eq, length, Bool.and_eq_true, decide_eq_true_eq]
  omega

theorem isName (h : t.Cuts doc front span back) (text : Word.Text span)
    (left : Word.Apart front.getLast?) (right : Word.Apart back.head?) : t.IsName doc := by
  refine ⟨?_, ?_, ?_⟩
  · rwa [h.value_eq]
  · rwa [h.take_tail]
  · rwa [h.drop_head]

theorem isEmptyAt (h : t.Cuts doc front [] back) {b : UInt8} {bytes : List UInt8}
    (hb : back.head? = some b) (mem : b ∈ bytes) : t.IsEmptyAt doc bytes := by
  refine ⟨by rw [h.tail_eq, h.head_eq]; rfl, b, mem, ?_⟩
  rw [h.tail_eq, h.doc_eq, List.getElem?_append_right (Nat.le_refl _), Nat.sub_self, ← hb]
  simp [List.head?_eq_getElem?]

theorem isBehind {w : List UInt8} (h : t.Cuts doc (front ++ w) span back) :
    t.IsBehind doc w := by
  rw [IsBehind, h.take_tail]
  exact List.suffix_append front w

theorem isBefore {w : List UInt8} (h : t.Cuts doc front span (w ++ back)) :
    t.IsBefore doc w := by
  rw [IsBefore, h.drop_head]
  exact List.prefix_append w back

end Token.Cuts

/-- No name reaches from the bytes in front into the bytes behind. -/
def Word.Severed (front rest : List UInt8) : Prop := Apart front.getLast? ∨ Apart rest.head?

theorem Word.Apart.append {u v : List UInt8} (h : Apart v.getLast?) (hv : v ≠ []) :
    Apart (u ++ v).getLast? := by
  rwa [List.getLast?_append, List.getLast?_eq_some_getLast hv, Option.some_or,
    ← List.getLast?_eq_some_getLast hv]

theorem Gap.Text.apart_getLast? {g : List UInt8} (h : Text g) : Word.Apart g.getLast? := by
  have ignored (b : UInt8) : Byte.isIgnored b = true → Byte.isName b = false :=
    Byte.forall_of_fin (p := fun b => Byte.isIgnored b = true → Byte.isName b = false)
      (by decide +kernel) b
  have lineEnd (b : UInt8) : Byte.isLineEnd b = true → Byte.isIgnored b = true := by
    intro hb
    simp [Byte.isIgnored, hb]
  have last {b : UInt8} {g : List UInt8} (hb : Byte.isIgnored b = true)
      (hg : Word.Apart g.getLast?) : Word.Apart (b :: g).getLast? := by
    cases g with
    | nil =>
      rintro _ ⟨⟩
      exact ignored b hb
    | cons c g => simpa using hg
  induction h with
  | nil => exact nofun
  | ignored byte _ ih => exact last byte ih
  | @comment body b g line end_ _ ih =>
    rw [← List.cons_append]
    exact (last (lineEnd b end_) ih).append (List.cons_ne_nil b g)

theorem Word.Severed.gap {front g rest : List UInt8} (h : Severed front (g ++ rest))
    (hg : Gap.Text g) : Severed (front ++ g) rest := by
  by_cases empty : g = []
  · rw [empty, List.append_nil]
    rwa [empty, List.nil_append] at h
  · exact .inl (hg.apart_getLast?.append empty)

namespace Shape

variable {s : Shape} {front w r : List UInt8}

/-- Every lexeme ends with a byte of no name or in front of one. -/
theorem severed (text : s.Text w) (follow : s.Follow w r.head?) : Word.Severed (front ++ w) r := by
  have byte {v : List UInt8} {b : UInt8} (hb : Byte.isName b = false) :
      Word.Apart (front ++ (v ++ [b])).getLast? := by
    rw [← List.append_assoc, List.getLast?_concat]
    rintro _ ⟨⟩
    exact hb
  cases s with
  | empty => exact .inr fun b hb => by rcases follow with h | h <;> cases hb.symm.trans h <;> rfl
  | punct p =>
    obtain rfl := text
    exact .inl (byte (v := []) (by cases p <;> decide))
  | dots =>
    obtain rfl := text
    exact .inl (byte (v := [Byte.dot, Byte.dot]) (by decide))
  | word ws => exact .inr follow
  | sigil s => exact .inr follow
  | scalar ws => exact .inr follow.apart
  | int => exact .inr follow.apart
  | float => exact .inr follow.apart
  | quoted =>
    obtain ⟨v, -, rfl⟩ := text
    exact .inl (byte (v := Byte.quote :: v) (by decide))
  | block =>
    obtain ⟨v, -, rfl⟩ := text
    rw [Block.fenced_eq_concat]
    exact .inl (byte (by decide))

/-- What the bytes of a token are, by the shape of its lexeme. -/
def Genuine (doc : List UInt8) (t : Token) : Shape → Prop
  | empty => t.IsEmptyAt doc [Byte.openBrace, Byte.atSign]
  | punct p => t.IsEmptyAt doc [p.byte]
  | dots => True
  | word ws => t.IsName doc ∧ ws.Has (t.value doc)
  | sigil s => t.IsName doc ∧ t.IsBehind doc [s.byte]
  | scalar ws => t.IsName doc ∧ ws.Has (t.value doc)
  | int => Number.Text .int (t.value doc) ∧ Word.Ended (doc.drop t.head).head?
  | float => Number.Text .float (t.value doc) ∧ Word.Ended (doc.drop t.head).head?
  | quoted =>
    Quoted.Body (t.value doc) ∧ t.IsBehind doc [Byte.quote] ∧ t.IsBefore doc [Byte.quote]
  | block =>
    Block.Body (t.value doc) ∧ t.IsBehind doc Block.fence ∧ t.IsBefore doc Block.fence

theorem apart_of_name {v : List UInt8} (severed : Word.Severed front (v ++ r))
    (text : Word.Text v) : Word.Apart front.getLast? := by
  rcases severed with left | right
  · exact left
  · obtain ⟨b, v, rfl, start, -⟩ := text
    have := right b rfl
    rw [Byte.isName_of_isNameStart start] at this
    cases this

theorem genuine (k : Kind) (level : Nat) (text : s.Text w) (follow : s.Follow w r.head?)
    (severed : Word.Severed front (w ++ r)) :
    let t : Token :=
      ⟨k, front.length + (s.span w.length).1, front.length + (s.span w.length).2, level⟩
    t.fits (front ++ (w ++ r)) = true ∧ s.Genuine (front ++ (w ++ r)) t := by
  intro t
  have whole (hs : s.span w.length = (0, w.length)) : t.Cuts (front ++ (w ++ r)) front w r :=
    ⟨rfl, by simp only [t, hs, Nat.add_zero], by simp only [t, hs]⟩
  have name (hs : s.span w.length = (0, w.length)) (text : Word.Text w)
      (apart : Word.Apart r.head?) : t.IsName (front ++ (w ++ r)) :=
    (whole hs).isName text (apart_of_name severed text) apart
  cases s with
  | empty =>
    obtain rfl : w = [] := text
    have cuts := whole rfl
    refine ⟨cuts.fits, ?_⟩
    rcases follow with h | h
    · exact cuts.isEmptyAt h (by simp)
    · exact cuts.isEmptyAt h (by simp)
  | punct p =>
    obtain rfl : w = [p.byte] := text
    have cuts : t.Cuts (front ++ ([p.byte] ++ r)) front [] (p.byte :: r) := ⟨rfl, rfl, rfl⟩
    exact ⟨cuts.fits, cuts.isEmptyAt rfl (by simp)⟩
  | dots => exact ⟨(whole rfl).fits, trivial⟩
  | word ws =>
    have cuts := whole rfl
    exact ⟨cuts.fits, name rfl text.text follow, cuts.value_eq.symm ▸ text⟩
  | sigil s =>
    obtain ⟨v, hv, rfl⟩ := text
    have cuts : t.Cuts (front ++ (s.byte :: v ++ r)) (front ++ [s.byte]) v r :=
      ⟨by simp, by simp [t, span], by simp [t, span]; omega⟩
    have left : Word.Apart (front ++ [s.byte]).getLast? := by
      rw [List.getLast?_concat]
      rintro _ ⟨⟩
      cases s <;> decide
    exact ⟨cuts.fits, cuts.isName hv left follow, cuts.isBehind⟩
  | scalar ws =>
    have cuts := whole rfl
    exact ⟨cuts.fits, name rfl text.text follow.apart, cuts.value_eq.symm ▸ text⟩
  | int =>
    have cuts := whole rfl
    refine ⟨cuts.fits, cuts.value_eq.symm ▸ text, ?_⟩
    rwa [cuts.drop_head]
  | float =>
    have cuts := whole rfl
    refine ⟨cuts.fits, cuts.value_eq.symm ▸ text, ?_⟩
    rwa [cuts.drop_head]
  | quoted =>
    obtain ⟨v, hv, rfl⟩ := text
    have cuts : t.Cuts (front ++ (Byte.quote :: (v ++ [Byte.quote]) ++ r))
        (front ++ [Byte.quote]) v ([Byte.quote] ++ r) :=
      ⟨by simp, by simp [t, span], by simp [t, span]; omega⟩
    exact ⟨cuts.fits, cuts.value_eq.symm ▸ hv, cuts.isBehind, cuts.isBefore⟩
  | block =>
    obtain ⟨v, hv, rfl⟩ := text
    have cuts : t.Cuts (front ++ (Block.fence ++ (v ++ Block.fence) ++ r))
        (front ++ Block.fence) v (Block.fence ++ r) :=
      ⟨by simp, by simp [t, span, Block.fence], by simp [t, span, Block.fence]; omega⟩
    exact ⟨cuts.fits, cuts.value_eq.symm ▸ hv, cuts.isBehind, cuts.isBefore⟩

end Shape

/-- No name reaches over this place of the document. -/
def Cursor.Severed (doc : List UInt8) (c : Cursor) : Prop :=
  ∃ front, doc = front ++ c.rest ∧ c.pos = front.length ∧ Word.Severed front c.rest

theorem Reads.genuine {ts : List Terminal} {c d : Cursor} {us : List Token} {doc : List UInt8}
    (h : Reads ts c us d) (hc : c.Severed doc) :
    d.Severed doc ∧
      ∀ u ∈ us, ∃ t ∈ ts, t.kind = some u.kind ∧ u.fits doc = true ∧ t.shape.Genuine doc u := by
  induction h with
  | nil => exact ⟨hc, nofun⟩
  | @cons t ts pos level g w r us d gap text follow rest ih =>
    obtain ⟨front, rfl, rfl, severed⟩ := hc
    have inside := severed.gap gap
    have behind : Word.Severed (front ++ g ++ w) r := t.shape.severed text follow
    obtain ⟨last, later⟩ := ih ⟨front ++ g ++ w, by simp, by simp [Nat.add_assoc], behind⟩
    refine ⟨last, fun u hu => ?_⟩
    rcases List.mem_append.1 hu with hu | hu
    · refine ⟨t, List.mem_cons_self, ?_⟩
      unfold Terminal.tokens at hu
      cases hk : t.kind with
      | none => simp [hk] at hu
      | some k =>
        rw [hk] at hu
        obtain rfl := List.mem_singleton.1 hu
        have genuine := Shape.genuine k (k.levelAfter level) text follow inside
        rw [List.length_append, List.append_assoc] at genuine
        exact ⟨rfl, genuine⟩
    · obtain ⟨t', ht, kind, genuine⟩ := later u hu
      exact ⟨t', List.mem_cons_of_mem t ht, kind, genuine⟩

theorem Terminal.genuine_of_scalar {t : Terminal} (ht : t ∈ scalars) {doc : List UInt8} {u : Token}
    (hk : t.kind = some u.kind) (hg : t.shape.Genuine doc u) : u.Genuine doc := by
  obtain ⟨kind, tail, head, depth⟩ := u
  simp only [scalars, List.mem_cons, List.not_mem_nil, or_false] at ht
  rcases ht with rfl | rfl | rfl | rfl | rfl | rfl | rfl | rfl | rfl <;> cases hk
  any_goals exact hg
  obtain ⟨name, -, notTrue, notFalse, notNull⟩ := hg
  exact ⟨name, by simp [notTrue, notFalse, notNull]⟩

/-- A token of a terminal on an edge is what its kind says. A query without keyword is followed by
its selection set. -/
theorem Edge.genuine {level : Nat} {s s' : State} {label : List Terminal} {x : Lead}
    (h : Edge level s label x s') {t : Terminal} (ht : t ∈ label) {doc : List UInt8} {u : Token}
    (hk : t.kind = some u.kind) (hg : t.shape.Genuine doc u)
    (brace : label = [.mark .query] → u.IsEmptyAt doc [Byte.openBrace]) : u.Genuine doc := by
  obtain ⟨kind, tail, head, depth⟩ := u
  cases h with
  | shorthand =>
    obtain rfl := List.mem_singleton.1 ht
    cases hk
    exact .inr (brace rfl)
  | operation keyword =>
    obtain rfl := List.mem_singleton.1 ht
    simp only [Terminal.operations, List.mem_cons, List.not_mem_nil, or_false] at keyword
    rcases keyword with rfl | rfl | rfl <;> cases hk
    · exact .inl hg
    · exact hg
    · exact hg
  | fragmentName =>
    obtain rfl := List.mem_singleton.1 ht
    cases hk
    exact ⟨hg.1, hg.2.2⟩
  | spreadName =>
    obtain rfl := List.mem_singleton.1 ht
    cases hk
    exact ⟨hg.1, hg.2.2⟩
  | untypedInline =>
    obtain rfl := List.mem_singleton.1 ht
    cases hk
    exact .inr hg
  | typedInline =>
    simp only [List.mem_cons, List.not_mem_nil, or_false] at ht
    rcases ht with rfl | rfl <;> cases hk
    exact .inl hg.1
  | fieldAlias =>
    simp only [List.mem_cons, List.not_mem_nil, or_false] at ht
    rcases ht with rfl | rfl <;> cases hk
    exact hg.1
  | scalar member =>
    obtain rfl := List.mem_singleton.1 ht
    exact Terminal.genuine_of_scalar member hk hg
  | _ =>
    first
      | exact absurd ht List.not_mem_nil
      | (obtain rfl := List.mem_singleton.1 ht
         cases hk <;> first | exact hg | exact hg.1)

namespace Config

variable {doc : List UInt8} {c d : Config} {us : List Token}

/-- No name reaches over the place of the configuration. -/
def Severed (doc : List UInt8) (c : Config) : Prop := c.cursor.Severed doc

theorem severed_start (doc : List UInt8) : (start doc).Severed doc :=
  ⟨[], rfl, rfl, .inl nofun⟩

theorem isEmptyAt_of_mark {u : Token} (reads : Reads [.mark .query] c.cursor us d.cursor)
    (ahead : d.ahead = .openBrace) (hd : d.Severed doc) (hu : u ∈ us) :
    u.IsEmptyAt doc [Byte.openBrace] := by
  obtain ⟨n, vs, fit, rfl, stop⟩ := reads_cursor_iff.1 reads
  obtain ⟨rfl, lead⟩ := Shape.fits_empty_iff.1 fit
  obtain ⟨pos, rest, level, state⟩ := d
  cases stop
  have first : Lead.of c.front = .openBrace := by
    have known : Lead.of c.front ≠ .stray := by
      rcases lead with h | h <;> simp [h]
    rw [← ahead, ← Gap.ahead_eq known]
    rfl
  obtain ⟨r, hr⟩ := Lead.eq_cons (c := Byte.openBrace) (by decide) first
  obtain ⟨front, doc_eq, place, -⟩ := hd
  obtain rfl := List.mem_singleton.1 hu
  have cuts : Token.Cuts doc front [] c.front
      ⟨.query, c.pos + Gap.length c.rest, c.pos + Gap.length c.rest, c.level⟩ :=
    ⟨doc_eq, place, place⟩
  exact cuts.isEmptyAt (by rw [hr]; rfl) (by simp)

theorem Goes.genuine (h : c.Goes us d) (hc : c.Severed doc) :
    d.Severed doc ∧ ∀ u ∈ us, u.fits doc = true ∧ u.Genuine doc := by
  obtain ⟨label, edge, reads⟩ := h.edge
  obtain ⟨severed, genuine⟩ := reads.genuine hc
  refine ⟨severed, fun u hu => ?_⟩
  obtain ⟨t, ht, kind, fits, shape⟩ := genuine u hu
  refine ⟨fits, edge.genuine ht kind shape ?_⟩
  rintro rfl
  exact isEmptyAt_of_mark reads edge.ahead_of_mark severed hu

theorem Path.genuine (h : c.Path us d) (hc : c.Severed doc) :
    ∀ u ∈ us, u.fits doc = true ∧ u.Genuine doc := by
  induction h with
  | refl => exact nofun
  | step first rest ih =>
    obtain ⟨severed, genuine⟩ := first.genuine hc
    intro u hu
    rcases List.mem_append.1 hu with hu | hu
    · exact genuine u hu
    · exact ih severed u hu

end Config

/-- Every token that a scan delivers lies within the document and is what its kind says. -/
theorem Scanner.scan_genuine (s : Scanner) (doc : List UInt8) :
    ∀ t ∈ (s.scan doc).state.toList, t.fits doc = true ∧ t.Genuine doc := by
  obtain ⟨d, path, -⟩ := (s.scan_iff_trace doc _ _).1 ⟨rfl, rfl⟩
  exact path.genuine (Config.severed_start doc)

/-- The scan of `{a(b:"x",c:-1.5e3,d:E` fails, and yet its string, its number and its enum value
are what their kinds say. -/
theorem Scanner.scan_genuine_unclosed :
    let doc : List UInt8 :=
      [0x7B, 0x61, 0x28, 0x62, 0x3A, 0x22, 0x78, 0x22, 0x2C, 0x63, 0x3A, 0x2D, 0x31, 0x2E, 0x35,
        0x65, 0x33, 0x2C, 0x64, 0x3A, 0x45]
    (standard.scan doc).outcome ≠ .ok ∧
      Token.Genuine doc ⟨.quotedString, 6, 7, 1⟩ ∧
      Token.Genuine doc ⟨.float, 11, 17, 1⟩ ∧
      Token.Genuine doc ⟨.enumValue, 20, 21, 1⟩ := by
  intro doc
  refine ⟨by decide +kernel, ?_, ?_, ?_⟩
  · exact (scan_genuine standard doc _ (by decide +kernel)).2
  · exact (scan_genuine standard doc _ (by decide +kernel)).2
  · exact (scan_genuine standard doc _ (by decide +kernel)).2

end QueryDoc
