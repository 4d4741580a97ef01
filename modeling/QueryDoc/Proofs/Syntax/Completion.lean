import QueryDoc.Proofs.Syntax.Form

/-! Whatever is left to derive at a place can be derived without empty tokens, and written down on
lines of its own. -/
namespace QueryDoc

open Phrase

/-- Some terminals with a text derive from the phrases. -/
def Completes (f : List Phrase) : Prop := ∃ ts, Derives f ts ∧ ∀ t ∈ ts, t.shape ≠ .empty

namespace Completes

variable {a : Phrase} {f g : List Phrase} {t : Terminal}

theorem nil : Completes [] := ⟨[], .nil, nofun⟩

theorem head (h : Completes g) (heads : Heads f t g) (ht : t.shape ≠ .empty) : Completes f := by
  obtain ⟨ts, hd, hs⟩ := h
  refine ⟨t :: ts, heads.derives hd, fun u hu => ?_⟩
  rcases List.mem_cons.1 hu with rfl | hu
  · exact ht
  · exact hs u hu

theorem token (h : Completes f) (ht : t.shape ≠ .empty) : Completes (.token t :: f) :=
  h.head .token ht

theorem opt (h : Completes f) : Completes (a.opt :: f) := by
  obtain ⟨ts, hd, hs⟩ := h
  exact ⟨ts, .absent hd, hs⟩

theorem star (h : Completes f) : Completes (a.star :: f) := by
  obtain ⟨ts, hd, hs⟩ := h
  exact ⟨ts, .done hd, hs⟩

theorem plus (h : Completes (a :: a.star :: f)) : Completes (a.plus :: f) := by
  obtain ⟨ts, hd, hs⟩ := h
  exact ⟨ts, .plus hd, hs⟩

theorem value (h : Completes f) : Completes (rule .value :: f) :=
  h.head (t := .int) (heads_value.2 (.inl ⟨by simp [Terminal.scalars], rfl⟩)) (by simp)

theorem type (h : Completes f) : Completes (rule .type :: f) :=
  h.opt.head (heads_type.2 (.inl ⟨rfl, rfl⟩)) (by simp)

theorem selection (h : Completes f) : Completes (rule .selection :: f) :=
  h.opt.opt.opt.head (heads_selection.2 (.inl ⟨rfl, rfl⟩)) (by simp)

theorem selectionSet (h : Completes f) : Completes (rule .selectionSet :: f) :=
  (h.token (by simp)).star.selection.plus.head (heads_selectionSet.2 ⟨rfl, rfl⟩) (by simp)

theorem definition (h : Completes f) : Completes (rule .definition :: f) :=
  h.selectionSet.opt.opt.opt.head (t := .keyword .query .query)
    (heads_definition.2 (.inr (.inl ⟨by simp [Terminal.operations], rfl⟩))) (by simp)

theorem argument (h : Completes f) : Completes (rule .argument :: f) :=
  (h.value.token (by simp)).head (heads_argument.2 ⟨rfl, rfl⟩) (by simp)

theorem variableDefinition (h : Completes f) : Completes (rule .variableDefinition :: f) :=
  (h.opt.opt.type.token (by simp)).head (heads_variableDefinition.2 ⟨rfl, rfl⟩) (by simp)

end Completes

theorem completes_sets (level : Nat) : Completes (sets level) := by
  induction level with
  | zero => exact Completes.nil.star
  | succ level ih => exact (ih.token (by simp)).star

theorem completes_site (site : Site) (level : Nat) : Completes (site.form level) := by
  have h := completes_sets level
  cases site with
  | spread => exact h.star
  | field => exact h.opt.star
  | variableDefinition => exact (h.selectionSet.star.token (by simp)).star.star
  | _ => exact h.selectionSet.star

theorem completes_owner (owner : Owner) (level : Nat) : Completes (owner.form level) := by
  cases owner with
  | field => exact completes_site .field level
  | directive site => exact completes_site site level

theorem completes_use (use : Use) (level : Nat) : Completes (use.form level) := by
  cases use with
  | argument owner => exact ((completes_owner owner level).token (by simp)).star
  | variableDefault => exact completes_site .variableDefinition level

theorem completes_containers (cs : List Container) {f : List Phrase} (h : Completes f) :
    Completes (Container.forms cs ++ f) := by
  induction cs with
  | nil => exact h
  | cons c cs ih =>
    cases c with
    | list => exact (ih.token (by simp)).star
    | object => exact (ih.token (by simp)).star

theorem completes_typeEnds (depth : Nat) {f : List Phrase} (h : Completes f) :
    Completes (typeEnds depth ++ f) := by
  induction depth with
  | zero => exact h
  | succ depth ih => exact ih.opt.token (by simp)

/-- What is left at a place can be derived. -/
theorem completes_form (s : State) (level : Nat) : Completes (s.form level) := by
  have site (site : Site) := completes_site site level
  have variable_rest : Completes (variableRest level) := (site .variableDefinition).opt
  have value (use : Use) (cs : List Container) :=
    completes_containers cs (completes_use use level)
  cases s with
  | definition seen =>
    cases seen with
    | false => exact Completes.nil.star.definition.plus
    | true => exact completes_sets level
  | operationHead named =>
    cases named with
    | false => exact (site .operation).opt.opt
    | true => exact (site .operation).opt
  | selectionSet s => exact site s
  | fragmentName =>
    exact (((site .fragmentDefinition).token (by simp)).token (by simp)).token (by simp)
  | fragmentOn => exact ((site .fragmentDefinition).token (by simp)).token (by simp)
  | fragmentType => exact (site .fragmentDefinition).token (by simp)
  | selection => exact ((completes_sets _).token (by simp)).star.selection.plus
  | selectionOrEnd => exact completes_sets level
  | afterField b =>
    cases b with
    | false => exact site .field
    | true => exact (site .field).opt
  | aliasedField => exact (site .field).opt.token (by simp)
  | afterSpread =>
    exact (completes_sets level).opt.head (.left (.seq .token)) (by simp)
  | afterSpreadName => exact site .spread
  | afterDirective s => exact (site s).opt
  | argument owner first =>
    have close := (completes_owner owner level).token (t := .punct .closeParen .argumentsClose)
      (by simp)
    cases first with
    | true => exact close.star.argument.plus
    | false => exact close.star
  | argumentColon owner => exact (completes_use (.argument owner) level).value.token (by simp)
  | variableName first =>
    have close := (site .operation).token (t := .punct .closeParen .variablesClose) (by simp)
    cases first with
    | true => exact close.star.variableDefinition.plus
    | false => exact close.star
  | variableColon => exact variable_rest.type.token (by simp)
  | variableType depth => exact (completes_typeEnds depth variable_rest).type
  | afterVariableType depth nonNull =>
    have close := completes_typeEnds depth variable_rest
    cases nonNull with
    | true => exact close
    | false => exact close.opt
  | afterVariable => exact site .variableDefinition
  | value use cs e => exact (value use cs).value
  | afterValue use cs => exact value use cs
  | objectField use cs => exact value use cs
  | objectColon use cs => exact (value use cs).value.token (by simp)

theorem Shape.exists_text {s : Shape} (hs : s ≠ empty) : ∃ w, s.Text w := by
  have underscore : Word.Text [Byte.underscore] := ⟨_, [], rfl, by decide, nofun⟩
  have has (ws : Words) : ∃ w, ws.Has w := by
    cases ws with
    | any => exact ⟨_, underscore⟩
    | only k => exact ⟨_, rfl⟩
    | notOn => exact ⟨_, underscore, by decide⟩
    | notLiteral => exact ⟨_, underscore, by decide⟩
  cases s with
  | empty => exact absurd rfl hs
  | punct p => exact ⟨_, rfl⟩
  | dots => exact ⟨_, rfl⟩
  | word ws => exact has ws
  | sigil s => exact ⟨_, _, underscore, rfl⟩
  | scalar ws => exact has ws
  | int => exact ⟨_, .mk (.positive .zero) .int⟩
  | float =>
    have digits : Number.Digits [Byte.zero] := Number.digits_cons (by decide) Number.allDigits_nil
    exact ⟨_, .mk (.positive .zero) (.ofPoint digits .absent)⟩
  | quoted => exact ⟨_, [], .nil, rfl⟩
  | block => exact ⟨_, [], .nil, rfl⟩

/-- Terminals with a text can be written on lines of their own behind a gap that may have been cut
short, and the bytes do not depend on the place. -/
theorem exists_reads {ts : List Terminal} (h : ∀ t ∈ ts, t.shape ≠ .empty) {g : List UInt8}
    (hg : Gap.Text (g ++ [Byte.lineFeed])) :
    ∃ bs, ∀ pos level, ∃ us d,
      Reads ts ⟨pos, level, g ++ Byte.lineFeed :: bs⟩ us d ∧ Gap.Closing d.rest := by
  induction ts generalizing g with
  | nil => exact ⟨[], fun pos level => ⟨[], _, .nil _, .text hg⟩⟩
  | cons t ts ih =>
    have ht : t.shape ≠ .empty := h t (by simp)
    obtain ⟨w, text⟩ := Shape.exists_text ht
    have follow := Shape.follow_lineFeed ht text
    obtain ⟨bs, hbs⟩ := ih (fun u hu => h u (by simp [hu])) (g := []) (.ignored (by decide) .nil)
    refine ⟨w ++ Byte.lineFeed :: bs, fun pos level => ?_⟩
    obtain ⟨us, d, reads, closing⟩ :=
      hbs (pos + (g ++ [Byte.lineFeed]).length + w.length) (t.levelAfter level)
    have first := Reads.cons hg text (r := Byte.lineFeed :: bs) follow reads
    rw [List.append_assoc] at first
    exact ⟨_, d, first, closing⟩

end QueryDoc
