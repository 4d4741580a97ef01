import QueryDoc.Proofs.Chunking
import QueryDoc.Proofs.Genuine

/-! A literal is scanned as the value of an argument, in the smallest document that has one, and its
content reaches the receiver whole. -/
namespace QueryDoc

namespace Reads

variable {t : Terminal} {ts : List Terminal} {pos level : Nat} {w r : List UInt8}
  {us : List Token} {d : Cursor}

theorem token {k : Kind} {after : Nat} (hk : t.kind = some k) (hl : k.levelAfter level = after)
    (text : t.shape.Text w) (follow : t.shape.Follow w r.head?)
    (rest : Reads ts ⟨pos + w.length, after, r⟩ us d) :
    Reads (t :: ts) ⟨pos, level, w ++ r⟩
      (⟨k, pos + (t.shape.span w.length).1, pos + (t.shape.span w.length).2, after⟩ :: us) d := by
  subst hl
  have after : t.levelAfter level = k.levelAfter level := by rw [Terminal.levelAfter, hk]
  rw [← after] at rest
  have first := Reads.cons (g := []) .nil text follow rest
  rwa [Terminal.tokens, hk] at first

theorem link (hk : t.kind = none) (text : t.shape.Text w) (follow : t.shape.Follow w r.head?)
    (rest : Reads ts ⟨pos + w.length, level, r⟩ us d) :
    Reads (t :: ts) ⟨pos, level, w ++ r⟩ us d := by
  have after : t.levelAfter level = level := by rw [Terminal.levelAfter, hk]
  have rest : Reads ts ⟨pos + w.length, t.levelAfter level, r⟩ us d := by rwa [after]
  have first := Reads.cons (g := []) .nil text follow rest
  rwa [Terminal.tokens, hk] at first

end Reads

namespace Literal

/-- The document `{f(s:` … `)}` around a value. -/
def document (w : List UInt8) : List UInt8 :=
  [0x7B, 0x66, 0x28, 0x73, 0x3A] ++ (w ++ [0x29, 0x7D])

def terminals (t : Terminal) : List Terminal :=
  [.mark .query, .punct .openBrace .setOpen, .name .field, .punct .openParen .argumentsOpen,
    .name .argumentName, .link .colon, t, .punct .closeParen .argumentsClose,
    .punct .closeBrace .setClose]

/-- The tokens of the document around a value of `n` bytes whose token has this kind and span. -/
def tokens (k : Kind) (span : Nat × Nat) (n : Nat) : List Token :=
  [⟨.query, 0, 0, 0⟩, ⟨.setOpen, 0, 0, 1⟩, ⟨.field, 1, 2, 1⟩, ⟨.argumentsOpen, 2, 2, 1⟩,
    ⟨.argumentName, 3, 4, 1⟩, ⟨k, 5 + span.1, 5 + span.2, 1⟩, ⟨.argumentsClose, 5 + n, 5 + n, 1⟩,
    ⟨.setClose, 5 + n + 1, 5 + n + 1, 0⟩]

variable {t : Terminal} {k : Kind} {w : List UInt8}

theorem derives_terminals (ht : t ∈ Terminal.scalars) :
    Derives [.rule .document] (terminals t) := by
  have close : Derives [.token (.punct .closeBrace .setClose), (Phrase.rule .definition).star]
      [.punct .closeBrace .setClose] := .token (.done .nil)
  have value : Derives [.rule .value, (Phrase.rule .argument).star,
        .token (.punct .closeParen .argumentsClose), (Phrase.rule .directives).opt,
        (Phrase.rule .selectionSet).opt, (Phrase.rule .selection).star,
        .token (.punct .closeBrace .setClose), (Phrase.rule .definition).star]
      [t, .punct .closeParen .argumentsClose, .punct .closeBrace .setClose] :=
    (heads_value.2 (.inl ⟨ht, rfl⟩)).derives (.done (.token (.absent (.absent (.done close)))))
  have arguments := heads_arguments.2 ⟨rfl, rfl⟩ |>.derives <| .plus <|
    (heads_argument.2 ⟨rfl, rfl⟩).derives (.token value)
  have set := heads_selectionSet.2 ⟨rfl, rfl⟩ |>.derives <| .plus <|
    (heads_selection.2 (.inl ⟨rfl, rfl⟩)).derives (.present arguments)
  exact .rule (.plus ((heads_definition.2 (.inl ⟨rfl, rfl⟩)).derives set))

theorem reads_terminals (hk : t.kind = some k) (hl : ∀ level, k.levelAfter level = level)
    (text : t.shape.Text w) (follow : t.shape.Follow w (some 0x29)) :
    Reads (terminals t) ⟨0, 0, document w⟩ (tokens k (t.shape.span w.length) w.length)
      ⟨5 + w.length + 2, 0, []⟩ := by
  have name (b : UInt8) (hb : Byte.isNameStart b = true) : Word.Text [b] :=
    ⟨b, [], rfl, hb, nofun⟩
  have apart (b : UInt8) (hb : Byte.isName b = false) : Word.Apart (some b) := by
    rintro _ ⟨⟩
    exact hb
  refine .token (w := []) rfl rfl rfl (.inl rfl) ?_
  refine .token (w := [0x7B]) rfl rfl rfl trivial ?_
  refine .token (w := [0x66]) rfl rfl (name _ (by decide)) (apart _ (by decide)) ?_
  refine .token (w := [0x28]) rfl rfl rfl trivial ?_
  refine .token (w := [0x73]) rfl rfl (name _ (by decide)) (apart _ (by decide)) ?_
  refine .link (w := [0x3A]) rfl rfl trivial ?_
  refine .token (r := [0x29, 0x7D]) hk (hl 1) text follow ?_
  refine .token (w := [0x29]) rfl rfl rfl trivial ?_
  refine .token (w := [0x7D]) rfl rfl rfl trivial ?_
  exact .nil _

theorem document_tokens (ht : t ∈ Terminal.scalars) (hk : t.kind = some k)
    (text : t.shape.Text w) (follow : t.shape.Follow w (some 0x29)) :
    Document (document w) (tokens k (t.shape.span w.length) w.length) := by
  have level (n : Nat) : k.levelAfter n = n := by
    have := (Terminal.leaf_of_scalar ht).level n
    rwa [Terminal.levelAfter, hk] at this
  exact ⟨_, _, derives_terminals ht, reads_terminals hk level text follow, .text .nil⟩

theorem filter_tokens (ht : t ∈ Terminal.scalars) (hk : t.kind = some k) (span : Nat × Nat)
    (n : Nat) :
    (tokens k span n).filter (fun u => u.kind = k) = [⟨k, 5 + span.1, 5 + span.2, 1⟩] := by
  simp only [Terminal.scalars, List.mem_cons, List.not_mem_nil, or_false] at ht
  rcases ht with rfl | rfl | rfl | rfl | rfl | rfl | rfl | rfl | rfl <;> cases hk <;> rfl

end Literal

/-- The scan of a document succeeds and delivers exactly one token of a kind; the token spans the
body, and its chunks make up the content. -/
structure Scanner.Conveys (s : Scanner) (doc : List UInt8) (k : Kind) (body content : List UInt8) :
    Prop where
  accepts : (s.scan doc).outcome = .ok
  delivers : ∃ t, (s.scan doc).state.toList.filter (fun u => u.kind = k) = [t] ∧
    t.value doc = body ∧
    ∀ size, 0 < size → ∃ chunks, t.chunks? doc size 0 = some chunks ∧ chunks.flatten = content

/-- A scalar between delimiters conveys what its body stands for. -/
theorem Scanner.conveys_literal (s : Scanner) {t : Terminal} {k : Kind}
    {opening body closing : List UInt8} (ht : t ∈ Terminal.scalars) (hk : t.kind = some k)
    (text : t.shape.Text (opening ++ (body ++ closing)))
    (follow : t.shape.Follow (opening ++ (body ++ closing)) (some 0x29))
    (span : t.shape.span (opening ++ (body ++ closing)).length =
      (opening.length, opening.length + body.length)) :
    s.Conveys (Literal.document (opening ++ (body ++ closing))) k body (k.content body) := by
  have trace := Config.trace_complete_iff.2 (Literal.document_tokens ht hk text follow)
  obtain ⟨tokens, ending⟩ := (s.scan_iff_trace _ _ _).2 trace
  rw [span] at tokens
  have cuts : Token.Cuts (Literal.document (opening ++ (body ++ closing)))
      ([0x7B, 0x66, 0x28, 0x73, 0x3A] ++ opening) body (closing ++ [0x29, 0x7D])
      ⟨k, 5 + opening.length, 5 + (opening.length + body.length), 1⟩ := by
    refine ⟨by simp [Literal.document], ?_, ?_⟩
    · simp only [List.length_append, List.length_cons, List.length_nil]
    · simp only [List.length_append, List.length_cons, List.length_nil]
      omega
  refine ⟨(s.outcome_eq_ok_iff _).2 ending, _, ?_, cuts.value_eq, fun size hs => ?_⟩
  · rw [tokens, Literal.filter_tokens ht hk]
  · refine ⟨_, by rw [Token.chunks?, if_pos cuts.fits, cuts.value_eq], ?_⟩
    exact Chunks.flatten_collect k body hs

end QueryDoc
