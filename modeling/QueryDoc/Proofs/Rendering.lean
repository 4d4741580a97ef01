import QueryDoc.Proofs.Acceptance
import QueryDoc.Proofs.Syntax.Piece

/-! An accepted document can be written anew from what its tokens say. Along a scan the rendering
runs ahead of the document or behind it by what the place accounts for. -/
namespace QueryDoc

/-- The kinds that a variable's type ends with. -/
def Kind.endsType : Kind → Bool
  | typeName => true
  | listTypeClose => true
  | nonNull => true
  | _ => false

/-- The kinds that a value begins with. -/
def Kind.beginsValue : Kind → Bool
  | listOpen => true
  | objectOpen => true
  | quotedString => true
  | blockString => true
  | int => true
  | float => true
  | trueValue => true
  | falseValue => true
  | nullValue => true
  | enumValue => true
  | variableRef => true
  | _ => false

namespace View

/-- The lexemes that a token is rendered by. -/
def lexemes (v : View) : List (List UInt8) :=
  match v.kind with
  | .query => if v.value = [] then [] else [v.value]
  | .variableName => [Byte.dollar :: v.value, [Byte.colon]]
  | .variableRef => [Byte.dollar :: v.value]
  | .directiveName => [Byte.atSign :: v.value]
  | .fieldAlias => [v.value, [Byte.colon]]
  | .argumentName => [v.value, [Byte.colon]]
  | .objectField => [v.value, [Byte.colon]]
  | .fragmentName => [v.value, Word.onWord]
  | .spreadName => [Upcoming.dots, v.value]
  | .inlineFragment =>
    if v.value = [] then [Upcoming.dots] else [Upcoming.dots, Word.onWord, v.value]
  | .quotedString => [Byte.quote :: (v.value ++ [Byte.quote])]
  | .blockString => [Block.fence ++ (v.value ++ Block.fence)]
  | .variablesOpen => [[Byte.openParen]]
  | .variablesClose => [[Byte.closeParen]]
  | .argumentsOpen => [[Byte.openParen]]
  | .argumentsClose => [[Byte.closeParen]]
  | .setOpen => [[Byte.openBrace]]
  | .setClose => [[Byte.closeBrace]]
  | .listOpen => [[Byte.openBracket]]
  | .listClose => [[Byte.closeBracket]]
  | .listTypeOpen => [[Byte.openBracket]]
  | .listTypeClose => [[Byte.closeBracket]]
  | .nonNull => [[Byte.bang]]
  | .objectOpen => [[Byte.openBrace]]
  | .objectClose => [[Byte.closeBrace]]
  | _ => [v.value]

def link (last : Option Kind) (v : View) : List (List UInt8) :=
  if v.kind.beginsValue && last.any Kind.endsType then [[Byte.equals]] else []

/-- The lexemes of tokens behind a token of kind `last`. -/
def spell : Option Kind → List View → List (List UInt8)
  | _, [] => []
  | last, v :: vs => v.link last ++ (v.lexemes ++ spell (some v.kind) vs)

def final : Option Kind → List View → Option Kind
  | last, [] => last
  | _, v :: vs => final (some v.kind) vs

/-- The document that the tokens are rendered to. -/
def render (vs : List View) : List UInt8 := [Byte.space].intercalate (spell none vs)

theorem spell_append (last : Option Kind) (vs ws : List View) :
    spell last (vs ++ ws) = spell last vs ++ spell (final last vs) ws := by
  induction vs generalizing last with
  | nil => rfl
  | cons v vs ih => simp only [List.cons_append, spell, final, ih, List.append_assoc]

end View

namespace State

/-- Lexemes that are rendered already and still have to be read at the place. -/
def owed : State → List (List UInt8)
  | fragmentOn => [Word.onWord]
  | argumentColon _ => [[Byte.colon]]
  | variableColon => [[Byte.colon]]
  | objectColon _ _ => [[Byte.colon]]
  | _ => []

/-- Lexemes that have been read at the place and are rendered with the next token. -/
def kept : State → List (List UInt8)
  | afterSpread => [Upcoming.dots]
  | value _ _ e => if e = .defaultValue then [[Byte.equals]] else []
  | _ => []

/-- Whether the token before the place ends a type, where the rendering of a value asks for it. -/
def Typed (last : Option Kind) : State → Prop
  | afterVariableType _ _ => last.any Kind.endsType = true
  | argumentColon _ => last.any Kind.endsType = false
  | value _ _ e => last.any Kind.endsType = decide (e = .defaultValue)
  | afterValue _ _ => last.any Kind.endsType = false
  | objectField _ _ => last.any Kind.endsType = false
  | objectColon _ _ => last.any Kind.endsType = false
  | _ => True

theorem kept_or_owed (s : State) : s.kept = [] ∨ s.owed = [] := by
  cases s with
  | afterSpread => exact .inr rfl
  | value => exact .inr rfl
  | _ => exact .inl rfl

/-- The document and its rendering have come equally far. -/
def Even (s : State) : Prop := s.kept = [] ∧ s.owed = []

theorem even_resume_site (site : Site) : site.resume.Even := by
  cases site <;> exact ⟨rfl, rfl⟩

theorem even_resume_owner (owner : Owner) : owner.resume.Even := by
  cases owner with
  | field => exact ⟨rfl, rfl⟩
  | directive site => exact even_resume_site site

theorem even_afterSet (level : Nat) : (afterSet level).Even := by
  unfold afterSet
  split <;> exact ⟨rfl, rfl⟩

/-- Nothing is owed or kept where a selection set, a selection, a directive or the end of a
variable may stand. -/
theorem even_of_may {s : State} (h : s.mayOpenSet = true ∨ s.maySelect = true ∨
    s.site?.isSome = true ∨ s.mayEndVariable = true) : s.Even := by
  cases s with
  | fragmentOn | argumentColon | variableColon | objectColon | afterSpread | value =>
    simp [mayOpenSet, maySelect, mayCloseSet, site?, mayEndVariable] at h
  | _ => exact ⟨rfl, rfl⟩

theorem typed_resume_site (site : Site) (last : Option Kind) : site.resume.Typed last := by
  cases site <;> trivial

theorem typed_resume_owner (owner : Owner) (last : Option Kind) : owner.resume.Typed last := by
  cases owner with
  | field => trivial
  | directive site => exact typed_resume_site site last

theorem typed_afterSet (level : Nat) (last : Option Kind) : (afterSet level).Typed last := by
  unfold afterSet
  split <;> trivial

end State

namespace Piece

variable {ps : List Piece} {k : Kind} (level : Nat)

/-! What the terminals of an edge are rendered by. -/

theorem of_mark (h : ps.map terminal = [.mark k]) :
    texts ps = [] ∧ views level ps = [⟨k, [], k.levelAfter level⟩] := by
  obtain ⟨⟨_, w, text⟩, rfl, rfl⟩ := List.map_eq_singleton_iff.1 h
  obtain rfl : w = [] := text
  exact ⟨rfl, rfl⟩

theorem of_punct {p : Punct} (h : ps.map terminal = [.punct p k]) :
    texts ps = [[p.byte]] ∧ views level ps = [⟨k, [], k.levelAfter level⟩] := by
  obtain ⟨⟨_, w, text⟩, rfl, rfl⟩ := List.map_eq_singleton_iff.1 h
  obtain rfl : w = [p.byte] := text
  exact ⟨rfl, rfl⟩

theorem of_bare {s : Shape} {w : List UInt8} (h : ps.map terminal = [⟨s, none⟩]) (hw : w ≠ [])
    (hs : ∀ v, s.Text v → v = w) : texts ps = [w] ∧ views level ps = [] := by
  obtain ⟨⟨_, v, text⟩, rfl, rfl⟩ := List.map_eq_singleton_iff.1 h
  obtain rfl := hs v text
  exact ⟨if_neg hw, rfl⟩

theorem of_whole {s : Shape} (he : s ≠ .empty) (hs : ∀ n, s.span n = (0, n))
    (h : ps.map terminal = [⟨s, some k⟩]) :
    ∃ w, w ≠ [] ∧ texts ps = [w] ∧ views level ps = [⟨k, w, k.levelAfter level⟩] := by
  obtain ⟨⟨_, w, text⟩, rfl, rfl⟩ := List.map_eq_singleton_iff.1 h
  have hw := Shape.text_ne_nil he text
  refine ⟨w, hw, if_neg hw, ?_⟩
  simp [views, view, content, hs]

theorem of_word {ws : Words} (h : ps.map terminal = [⟨.word ws, some k⟩]) :
    ∃ w, w ≠ [] ∧ texts ps = [w] ∧ views level ps = [⟨k, w, k.levelAfter level⟩] :=
  of_whole (s := .word ws) level (by simp) (fun _ => rfl) h

theorem of_sigil {s : Sigil} (h : ps.map terminal = [.sigil s k]) :
    ∃ v, texts ps = [s.byte :: v] ∧ views level ps = [⟨k, v, k.levelAfter level⟩] := by
  obtain ⟨⟨_, w, text⟩, rfl, rfl⟩ := List.map_eq_singleton_iff.1 h
  obtain ⟨v, -, rfl⟩ := text
  refine ⟨v, rfl, ?_⟩
  simp [views, view, content, Shape.span]

theorem of_quoted (h : ps.map terminal = [.quoted]) :
    ∃ v, texts ps = [Byte.quote :: (v ++ [Byte.quote])] ∧
      views level ps = [⟨.quotedString, v, level⟩] := by
  obtain ⟨⟨_, w, text⟩, rfl, rfl⟩ := List.map_eq_singleton_iff.1 h
  obtain ⟨v, -, rfl⟩ := text
  refine ⟨v, rfl, ?_⟩
  simp [views, view, content, Shape.span, Kind.levelAfter]

theorem of_block (h : ps.map terminal = [.block]) :
    ∃ v, texts ps = [Block.fence ++ (v ++ Block.fence)] ∧
      views level ps = [⟨.blockString, v, level⟩] := by
  obtain ⟨⟨_, w, text⟩, rfl, rfl⟩ := List.map_eq_singleton_iff.1 h
  obtain ⟨v, -, rfl⟩ := text
  refine ⟨v, rfl, ?_⟩
  simp [views, view, content, Shape.span, Kind.levelAfter, Block.fence]

theorem of_scalar {t : Terminal} (ht : t ∈ Terminal.scalars) (h : ps.map terminal = [t]) :
    ∃ v : View, views level ps = [v] ∧ v.lexemes = texts ps ∧ v.kind.beginsValue = true ∧
      v.kind.endsType = false := by
  have whole {s : Shape} {k : Kind} (he : s ≠ .empty) (hs : ∀ n, s.span n = (0, n))
      (hk : ∀ w, View.lexemes ⟨k, w, k.levelAfter level⟩ = [w]) (hv : k.beginsValue = true)
      (ht : k.endsType = false) (h : ps.map terminal = [⟨s, some k⟩]) :
      ∃ v : View, views level ps = [v] ∧ v.lexemes = texts ps ∧ v.kind.beginsValue = true ∧
        v.kind.endsType = false := by
    obtain ⟨w, -, text, said⟩ := of_whole level he hs h
    exact ⟨_, said, (hk w).trans text.symm, hv, ht⟩
  simp only [Terminal.scalars, List.mem_cons, List.not_mem_nil, or_false] at ht
  rcases ht with rfl | rfl | rfl | rfl | rfl | rfl | rfl | rfl | rfl
  · obtain ⟨v, text, said⟩ := of_sigil level h
    exact ⟨_, said, text.symm, rfl, rfl⟩
  · exact whole (s := .int) (by simp) (fun _ => rfl) (fun _ => rfl) rfl rfl h
  · exact whole (s := .float) (by simp) (fun _ => rfl) (fun _ => rfl) rfl rfl h
  · obtain ⟨v, text, said⟩ := of_quoted level h
    exact ⟨_, said, text.symm, rfl, rfl⟩
  · obtain ⟨v, text, said⟩ := of_block level h
    exact ⟨_, said, text.symm, rfl, rfl⟩
  all_goals exact whole (s := .scalar _) (by simp) (fun _ => rfl) (fun _ => rfl) rfl rfl h

end Piece

open View in
/-- From one place to the next the document and its rendering go on alike, up to what is owed or
kept, and the place behind knows whether a type has ended. -/
def Spelled (last : Option Kind) (s : State) (texts : List (List UInt8)) (views : List View)
    (s' : State) : Prop :=
  s.kept ++ (texts ++ s'.owed) = s.owed ++ (spell last views ++ s'.kept) ∧
    s'.Typed (final last views)

namespace Spelled

variable {last : Option Kind} {s s' : State} {texts : List (List UInt8)} {v : View}

theorem silent (even : s.Even) (even' : s'.Even) (typed : s'.Typed last) :
    Spelled last s [] [] s' := by
  refine ⟨?_, typed⟩
  rw [even.1, even.2, even'.1, even'.2]
  rfl

theorem own (even : s.Even) (even' : s'.Even) (plain : v.kind.beginsValue = false)
    (same : v.lexemes = texts) (typed : s'.Typed (some v.kind)) : Spelled last s texts [v] s' := by
  refine ⟨?_, typed⟩
  rw [even.1, even.2, even'.1, even'.2, ← same]
  simp [View.spell, View.link, plain]

theorem value {use : Use} {cs : List Container} {e : Expect} (begins : v.kind.beginsValue = true)
    (typed : (State.value use cs e).Typed last) (even' : s'.Even) (same : v.lexemes = texts)
    (typed' : s'.Typed (some v.kind)) : Spelled last (.value use cs e) texts [v] s' := by
  refine ⟨?_, typed'⟩
  have typed : last.any Kind.endsType = decide (e = .defaultValue) := typed
  rw [even'.1, even'.2, ← same]
  by_cases he : e = .defaultValue
  · simp [State.kept, State.owed, View.spell, View.link, begins, typed, he]
  · simp [State.kept, State.owed, View.spell, View.link, begins, typed, he]

theorem append {texts' : List (List UInt8)} {views views' : List View}
    (first : Spelled last s texts views s')
    (rest : s'.kept ++ texts' = s'.owed ++ View.spell (View.final last views) views') :
    s.kept ++ (texts ++ texts') = s.owed ++ View.spell last (views ++ views') := by
  obtain ⟨equal, -⟩ := first
  rw [View.spell_append]
  rcases s'.kept_or_owed with none | none
  · rw [none, List.nil_append] at rest
    rw [none, List.append_nil] at equal
    calc
      s.kept ++ (texts ++ texts') =
          s.kept ++ (texts ++ s'.owed) ++ View.spell (View.final last views) views' := by
        simp [rest]
      _ = _ := by rw [equal, List.append_assoc]
  · rw [none, List.nil_append] at rest
    rw [none, List.append_nil] at equal
    calc
      s.kept ++ (texts ++ texts') = s.kept ++ texts ++ texts' := by rw [List.append_assoc]
      _ = s.owed ++ (View.spell last views ++ (s'.kept ++ texts')) := by simp [equal]
      _ = _ := by rw [rest]

section
open Piece

variable {ps : List Piece} {level : Nat} {k : Kind}

theorem of_punct {p : Punct} (hp : ps.map terminal = [.punct p k])
    (same : ∀ level, View.lexemes ⟨k, [], level⟩ = [[p.byte]]) (plain : k.beginsValue = false)
    (even : s.Even) (even' : s'.Even) (typed : s'.Typed (some k)) :
    Spelled last s (Piece.texts ps) (views level ps) s' := by
  obtain ⟨text, said⟩ := Piece.of_punct level hp
  rw [text, said]
  exact .own even even' plain (same _) typed

theorem of_word {ws : Words} (hp : ps.map terminal = [⟨.word ws, some k⟩])
    (same : ∀ w level, w ≠ [] → View.lexemes ⟨k, w, level⟩ = [w]) (plain : k.beginsValue = false)
    (even : s.Even) (even' : s'.Even) (typed : s'.Typed (some k)) :
    Spelled last s (Piece.texts ps) (views level ps) s' := by
  obtain ⟨w, hw, text, said⟩ := Piece.of_word level hp
  rw [text, said]
  exact .own even even' plain (same w _ hw) typed

theorem of_operation {t : Terminal} (ht : t ∈ Terminal.operations) (hp : ps.map terminal = [t])
    (even : s.Even) (even' : s'.Even) (typed : ∀ last, s'.Typed last) :
    Spelled last s (Piece.texts ps) (views level ps) s' := by
  simp only [Terminal.operations, List.mem_cons, List.not_mem_nil, or_false] at ht
  rcases ht with rfl | rfl | rfl
  · exact of_word hp (fun _ _ hw => if_neg hw) rfl even even' (typed _)
  · exact of_word hp (fun _ _ _ => rfl) rfl even even' (typed _)
  · exact of_word hp (fun _ _ _ => rfl) rfl even even' (typed _)

theorem of_bare {w : List UInt8} (text : Piece.texts ps = [w]) (said : views level ps = [])
    (h : s.kept ++ w :: s'.owed = s.owed ++ s'.kept) (typed : s'.Typed last) :
    Spelled last s (Piece.texts ps) (views level ps) s' := by
  rw [text, said]
  exact ⟨h, typed⟩

end

end Spelled

open State Piece in
/-- Along every edge the document and its rendering go on alike. -/
theorem Edge.spelled {level : Nat} {s s' : State} {label : List Terminal} {x : Lead}
    (h : Edge level s label x s') {ps : List Piece} (hp : ps.map Piece.terminal = label)
    {last : Option Kind} (typed : s.Typed last) :
    Spelled last s (texts ps) (views level ps) s' := by
  cases h with
  | shorthand =>
    obtain ⟨text, said⟩ := Piece.of_mark level hp
    rw [text, said]
    exact .own ⟨rfl, rfl⟩ ⟨rfl, rfl⟩ rfl rfl trivial
  | operation keyword => exact .of_operation keyword hp ⟨rfl, rfl⟩ ⟨rfl, rfl⟩ fun _ => trivial
  | fragment | operationName | fragmentType | aliasedField | namedType =>
    exact .of_word hp (fun _ _ _ => rfl) rfl ⟨rfl, rfl⟩ ⟨rfl, rfl⟩ (by trivial)
  | openVariables | directiveArguments | fieldArguments | variablesEnd | listType | nonNull
  | listTypeEnd | listClose | objectClose =>
    exact .of_punct hp (fun _ => rfl) rfl ⟨rfl, rfl⟩ ⟨rfl, rfl⟩ (by trivial)
  | openSet may =>
    exact .of_punct hp (fun _ => rfl) rfl (even_of_may (.inl may)) ⟨rfl, rfl⟩ trivial
  | closeSet may =>
    have select : s.maySelect = true := by rw [maySelect, may, Bool.or_true]
    exact .of_punct hp (fun _ => rfl) rfl (even_of_may (.inr (.inl select))) (even_afterSet level)
      (typed_afterSet level _)
  | argumentsEnd =>
    exact .of_punct hp (fun _ => rfl) rfl ⟨rfl, rfl⟩ (even_resume_owner _) (typed_resume_owner _ _)
  | field may _ =>
    exact .of_word hp (fun _ _ _ => rfl) rfl (even_of_may (.inr (.inl may))) ⟨rfl, rfl⟩ trivial
  | directive at_ =>
    obtain ⟨v, text, said⟩ := Piece.of_sigil level hp
    rw [text, said]
    exact .own (even_of_may (.inr (.inr (.inl (by rw [at_]; rfl))))) ⟨rfl, rfl⟩ rfl rfl trivial
  | directiveEnd =>
    obtain rfl := List.map_eq_nil_iff.1 hp
    exact .silent ⟨rfl, rfl⟩ (even_resume_site _) (typed_resume_site _ _)
  | variableEnd may =>
    obtain rfl := List.map_eq_nil_iff.1 hp
    exact .silent (even_of_may (.inr (.inr (.inr may)))) ⟨rfl, rfl⟩ trivial
  | @valueEnd use =>
    obtain rfl := List.map_eq_nil_iff.1 hp
    cases use <;> exact .silent ⟨rfl, rfl⟩ ⟨rfl, rfl⟩ trivial
  | nextValue | nextField =>
    obtain rfl := List.map_eq_nil_iff.1 hp
    exact .silent ⟨rfl, rfl⟩ ⟨rfl, rfl⟩ typed
  | fragmentName | argumentName | objectField =>
    obtain ⟨w, -, text, said⟩ := Piece.of_word level hp
    rw [text, said]
    exact ⟨rfl, by trivial⟩
  | variableName =>
    obtain ⟨v, text, said⟩ := Piece.of_sigil level hp
    rw [text, said]
    exact ⟨rfl, trivial⟩
  | fragmentOn =>
    obtain ⟨text, said⟩ := Piece.of_bare level hp (List.cons_ne_nil _ _) fun _ h => h
    exact .of_bare text said rfl trivial
  | argumentColon | variableColon | objectColon =>
    obtain ⟨text, said⟩ := Piece.of_bare level hp (List.cons_ne_nil _ _) fun _ h => h
    exact .of_bare text said rfl typed
  | spread may =>
    obtain ⟨text, said⟩ := Piece.of_bare level hp (List.cons_ne_nil _ _) fun _ h => h
    have even := even_of_may (.inr (.inl may))
    refine .of_bare text said ?_ trivial
    rw [even.1, even.2]
    rfl
  | defaultValue =>
    obtain ⟨text, said⟩ := Piece.of_bare level hp (List.cons_ne_nil _ _) fun _ h => h
    exact .of_bare text said rfl typed
  | untypedInline =>
    obtain ⟨text, said⟩ := Piece.of_mark level hp
    rw [text, said]
    exact ⟨rfl, trivial⟩
  | spreadName =>
    obtain ⟨w, -, text, said⟩ := Piece.of_word level hp
    rw [text, said]
    exact ⟨rfl, trivial⟩
  | scalar member =>
    obtain ⟨v, said, same, begins, ends⟩ := Piece.of_scalar level member hp
    rw [said]
    exact .value begins typed ⟨rfl, rfl⟩ same ends
  | listOpen | objectOpen =>
    obtain ⟨text, said⟩ := Piece.of_punct level hp
    rw [text, said]
    exact .value rfl typed ⟨rfl, rfl⟩ rfl rfl
  | fieldAlias may =>
    obtain ⟨p, qs, rfl, hp, hq⟩ := List.map_eq_cons_iff.1 hp
    have first : [p].map terminal = [.name .fieldAlias] := congrArg ([·]) hp
    obtain ⟨w, -, text, said⟩ := Piece.of_word level first
    obtain ⟨colon, silent⟩ := Piece.of_bare (Terminal.levels ([p].map terminal) level) hq
      (List.cons_ne_nil _ _) fun _ h => h
    rw [← List.singleton_append, texts_append, views_append, text, said, colon, silent]
    exact .own (even_of_may (.inr (.inl may))) ⟨rfl, rfl⟩ rfl rfl trivial
  | typedInline =>
    obtain ⟨p, qs, rfl, hp, hq⟩ := List.map_eq_cons_iff.1 hp
    have first : [p].map terminal = [.on] := congrArg ([·]) hp
    obtain ⟨on, silent⟩ := Piece.of_bare level first (List.cons_ne_nil _ _) fun _ h => h
    obtain ⟨w, hw, text, said⟩ := Piece.of_word (Terminal.levels ([p].map terminal) level) hq
    rw [← List.singleton_append, texts_append, views_append, text, said, on, silent]
    refine ⟨?_, trivial⟩
    simp [kept, owed, View.spell, View.link, View.lexemes, Kind.beginsValue, hw, Word.onWord]

namespace Config

/-- What is left of an accepted document, taken apart into terminals with their texts, and how it
is rendered. -/
structure Rendered (doc : List UInt8) (c : Config) (us : List Token) (ps : List Piece) : Prop where
  derives : Derives (c.state.form c.level) (ps.map Piece.terminal)
  reads : ∃ e, Reads (ps.map Piece.terminal) c.cursor us e ∧ Gap.Closing e.rest
  joined : Piece.Joined ps
  ahead : Lead.of (Piece.layout ps) = c.ahead
  said : us.map (Token.view doc) = Piece.views c.level ps
  spelled : ∀ last, c.state.Typed last →
    c.state.kept ++ Piece.texts ps = c.state.owed ++ View.spell last (Piece.views c.level ps)

variable {doc : List UInt8} {c m : Config} {us vs : List Token}

theorem Ends.rendered (h : c.Ends .complete) (hp : c.Placed) : c.Rendered doc [] [] := by
  obtain ⟨hs, closing⟩ := ends_complete_iff.1 h
  refine ⟨?_, ⟨_, .nil _, closing⟩, trivial, ?_, rfl, ?_⟩
  · rw [hs, hp.level_eq_zero hs]
    exact .done .nil
  · exact (Lead.of_eq_nothing_iff.2 (Gap.drop_length_eq_nil_iff.2 closing)).symm
  · rw [hs]
    exact fun _ _ => rfl

theorem Goes.rendered (h : c.Goes us m) {ps : List Piece} (rest : m.Rendered doc vs ps)
    (hp : c.Placed) (hc : doc.drop c.pos = c.rest) :
    ∃ qs, c.Rendered doc (us ++ vs) (qs ++ ps) := by
  obtain ⟨e, reads, closing⟩ := rest.reads
  obtain ⟨label, edge, read, derives⟩ := h.derives hp rest.derives reads closing
  obtain ⟨qs, rfl, joined, ahead, said⟩ := read.pieces hc rest.joined rest.ahead
  have level : m.level = Terminal.levels (qs.map Piece.terminal) c.level := read.level_eq
  have views : Piece.views c.level (qs ++ ps) =
      Piece.views c.level qs ++ Piece.views m.level ps := by rw [Piece.views_append, level]
  refine ⟨qs, ?_, ⟨e, ?_, closing⟩, joined, ahead, ?_, fun last typed => ?_⟩
  · rwa [List.map_append]
  · rw [List.map_append]
    exact read.append reads
  · rw [List.map_append, said, rest.said, views]
    rfl
  · have step := edge.spelled rfl typed
    rw [Piece.texts_append, views]
    exact step.append (rest.spelled _ step.2)

theorem Goes.drop_eq (h : c.Goes us m) (hc : doc.drop c.pos = c.rest) :
    doc.drop m.pos = m.rest := by
  obtain ⟨u, hu, hpos⟩ := h.rest_eq
  rw [hpos, ← List.drop_drop, hc, hu, List.drop_left]

theorem Trace.rendered (h : c.Trace us .complete) (hp : c.Placed) (hc : doc.drop c.pos = c.rest) :
    ∃ ps, c.Rendered doc us ps := by
  obtain ⟨d, path, ends⟩ := h
  induction path with
  | refl c => exact ⟨[], ends.rendered hp⟩
  | step first _ ih =>
    obtain ⟨ps, rest⟩ := ih (first.placed hp) (first.drop_eq hc) ends
    obtain ⟨qs, whole⟩ := first.rendered rest hp hc
    exact ⟨qs ++ ps, whole⟩

end Config

/-- What the tokens of a document say. -/
def Scanner.views (s : Scanner) (doc : List UInt8) : List View :=
  (s.scan doc).state.toList.map (Token.view doc)

/-- The tokens of an accepted document are rendered to an accepted document whose tokens have the
same kinds, values and levels. -/
theorem Scanner.scan_render (s : Scanner) (doc : List UInt8) (ok : (s.scan doc).outcome = .ok) :
    (s.scan (View.render (s.views doc))).outcome = .ok ∧
      s.views (View.render (s.views doc)) = s.views doc := by
  have complete := (s.outcome_eq_ok_iff doc).1 ok
  have trace := (s.scan_iff_trace doc _ _).1 ⟨rfl, complete⟩
  have here : doc.drop (Config.start doc).pos = (Config.start doc).rest := rfl
  obtain ⟨ps, rendered⟩ := trace.rendered (Config.placed_start doc) here
  have said : s.views doc = Piece.views 0 ps := rendered.said
  have layout : View.render (s.views doc) = Piece.layout ps := by
    rw [View.render, said, Piece.layout]
    exact congrArg _ (rendered.spelled none trivial).symm
  have whole : (Piece.layout ps).drop 0 = Piece.layout ps := rfl
  obtain ⟨us, e, reads, done, told⟩ := Piece.told_layout rendered.joined 0 whole
  have accepted : (Config.start (Piece.layout ps)).Trace us .complete := by
    refine Config.Derivable.trace ⟨_, e, rendered.derives, reads, ?_⟩ (Config.placed_start _)
    rw [done]
    exact .text .nil
  obtain ⟨state, ending⟩ := (s.scan_iff_trace _ _ _).2 accepted
  rw [layout, said]
  refine ⟨(s.outcome_eq_ok_iff _).2 ending, ?_⟩
  rw [views, state]
  exact told

/-- The tokens of `query($a:T=1){...{b:c}}` are rendered to
`query ( $a : T = 1 ) { ... { b : c } }`, where the colons, the equals sign and the dots have no
tokens of their own. -/
theorem Scanner.scan_render_query :
    let doc : List UInt8 :=
      [0x71, 0x75, 0x65, 0x72, 0x79, 0x28, 0x24, 0x61, 0x3A, 0x54, 0x3D, 0x31, 0x29, 0x7B, 0x2E,
       0x2E, 0x2E, 0x7B, 0x62, 0x3A, 0x63, 0x7D, 0x7D]
    let again : List UInt8 :=
      [0x71, 0x75, 0x65, 0x72, 0x79, 0x20, 0x28, 0x20, 0x24, 0x61, 0x20, 0x3A, 0x20, 0x54, 0x20,
       0x3D, 0x20, 0x31, 0x20, 0x29, 0x20, 0x7B, 0x20, 0x2E, 0x2E, 0x2E, 0x20, 0x7B, 0x20, 0x62,
       0x20, 0x3A, 0x20, 0x63, 0x20, 0x7D, 0x20, 0x7D]
    (standard.scan doc).outcome = .ok ∧ (standard.scan again).outcome = .ok ∧
      standard.views again = standard.views doc := by
  intro doc again
  have ok : (standard.scan doc).outcome = .ok := by decide +kernel
  have rendered : View.render (standard.views doc) = again := by decide +kernel
  have same := scan_render standard doc ok
  rw [rendered] at same
  exact ⟨ok, same⟩

end QueryDoc
