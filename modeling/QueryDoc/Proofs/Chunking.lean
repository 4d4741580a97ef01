import QueryDoc.Content

/-! A writer takes bytes at once or in parts alike, so what the receiver is handed are the
consecutive pieces of the content up to the one at which it stops. -/
namespace QueryDoc

/-- Bytes may be written at once or in parts. -/
structure Piecewise {ω ε : Type} (write : ω → List UInt8 → Except ε ω) : Prop where
  nil (w : ω) : write w [] = .ok w
  append (w : ω) (as bs : List UInt8) : write w (as ++ bs) = write w as >>= (write · bs)

section
variable {ω ε : Type} {write : ω → List UInt8 → Except ε ω}

namespace Unescape

namespace Reader

/-- The reader with some output in front of its own. -/
def behind (out : Array UInt8) (r : Reader) : Reader := { r with out := out ++ r.out }

theorem step_behind (out : Array UInt8) (r : Reader) (b : UInt8) :
    (r.behind out).step b = (r.step b).behind out := by
  obtain ⟨mode, held, own⟩ := r
  unfold step
  cases mode with
  | plain =>
    simp only [behind]
    split
    · rfl
    · simp [put, ← Array.toList_inj]
  | escape =>
    simp only [behind]
    split
    · rfl
    · simp [put, ← Array.toList_inj]
  | unicode more unit =>
    cases more with
    | zero => simp [behind, putUnit, ← Array.toList_inj]
    | succ more => rfl

theorem foldl_behind (out : Array UInt8) (r : Reader) (bs : List UInt8) :
    bs.foldl step (r.behind out) = (bs.foldl step r).behind out := by
  induction bs generalizing r with
  | nil => rfl
  | cons b bs ih => rw [List.foldl_cons, step_behind, ih, List.foldl_cons]

theorem finish_behind (out : Array UInt8) (r : Reader) :
    (r.behind out).finish = out ++ r.finish := by
  obtain ⟨mode, held, own⟩ := r
  cases mode <;> simp [finish, behind, putUnit, ← Array.toList_inj]

theorem finish_foldl (r : Reader) (bs : List UInt8) :
    (bs.foldl step r).finish = r.out ++ (bs.foldl step { r with out := #[] }).finish := by
  have front : ({ r with out := #[] } : Reader).behind r.out = r := by simp [behind]
  calc (bs.foldl step r).finish
      = (bs.foldl step (({ r with out := #[] } : Reader).behind r.out)).finish := by rw [front]
    _ = r.out ++ (bs.foldl step { r with out := #[] }).finish := by
        rw [foldl_behind, finish_behind]

end Reader

theorem stream_eq (h : Piecewise write) (r : Reader) (w : ω) (raw : List UInt8) :
    stream write r w raw = write w (raw.foldl Reader.step r).finish.toList := by
  induction raw generalizing r w with
  | nil => rfl
  | cons b raw ih =>
    rw [List.foldl_cons, Reader.finish_foldl, Array.toList_append, h.append, stream]
    simp only [ih]

end Unescape

namespace Dedent

theorem writeLines_eq (h : Piecewise write) (w : ω) (ls : List (List UInt8)) :
    writeLines write w ls = write w ([Byte.lineFeed].intercalate (ls.map unescape)) := by
  induction ls generalizing w with
  | nil => exact (h.nil w).symm
  | cons line ls ih =>
    cases ls with
    | nil => simp [writeLines, List.intercalate]
    | cons next ls =>
      rw [List.map_cons, List.map_cons, List.intercalate_cons_cons, ← List.map_cons, h.append,
        h.append, bind_assoc, writeLines]
      simp only [ih]
      exact List.cons_ne_nil next ls

theorem exists_writeLines (h : ∀ w bytes, ∃ v, write w bytes = .ok v) (w : ω)
    (ls : List (List UInt8)) : ∃ v, writeLines write w ls = .ok v := by
  fun_induction writeLines write w ls with
  | case1 w => exact ⟨w, rfl⟩
  | case2 w line => exact h w _
  | case3 w line rest _ ih =>
    obtain ⟨v, first⟩ := h w (unescape line)
    obtain ⟨v', feed⟩ := h v [Byte.lineFeed]
    rw [first]
    change ∃ v'', (write v [Byte.lineFeed] >>= fun w => writeLines write w rest) = .ok v''
    rw [feed]
    exact ih v'

end Dedent

theorem Kind.stream_eq (h : Piecewise write) (kind : Kind) (w : ω) (raw : List UInt8) :
    kind.stream write w raw = write w (kind.content raw) := by
  unfold stream content
  split
  · exact Unescape.stream_eq h .start w raw
  · exact Dedent.writeLines_eq h w _
  · rfl

end

namespace Chunks

/-- The consecutive pieces of `size` bytes that a text is cut into. The last one may be shorter,
but not empty. -/
inductive Cuts (size : Nat) : List UInt8 → List (List UInt8) → Prop
  | nil : Cuts size [] []
  | last {piece : List UInt8} (nonempty : piece ≠ []) (short : piece.length < size) :
      Cuts size piece [piece]
  | full {piece bytes : List UInt8} {pieces : List (List UInt8)} (length : piece.length = size)
      (rest : Cuts size bytes pieces) : Cuts size (piece ++ bytes) (piece :: pieces)

theorem exists_cuts {size : Nat} (h : 0 < size) (bytes : List UInt8) :
    ∃ pieces, Cuts size bytes pieces := by
  induction hn : bytes.length using Nat.strongRecOn generalizing bytes with
  | ind n ih =>
    subst hn
    by_cases short : bytes.length < size
    · cases bytes with
      | nil => exact ⟨[], .nil⟩
      | cons b bs => exact ⟨[b :: bs], .last (List.cons_ne_nil b bs) short⟩
    · have le : size ≤ bytes.length := Nat.le_of_not_lt short
      obtain ⟨pieces, rest⟩ := ih (bytes.drop size).length
        (by rw [List.length_drop]; omega) (bytes.drop size) rfl
      have first := Cuts.full (List.length_take_of_le le) rest
      rw [List.take_append_drop] at first
      exact ⟨_, first⟩

theorem Cuts.flatten_eq {size : Nat} {bytes : List UInt8} {pieces : List (List UInt8)}
    (h : Cuts size bytes pieces) : pieces.flatten = bytes := by
  induction h with
  | nil => rfl
  | last => simp
  | full length rest ih => rw [List.flatten_cons, ih]

section
variable {σ : Type} {size : Nat} {receive : Receiver σ}

def feed (receive : Receiver σ) (s : σ) (chunks : List (List UInt8)) : σ :=
  chunks.foldl (fun s chunk => (receive s chunk).1) s

/-- The chunks up to the first one at which the receiver answers true. -/
def upToStop (receive : Receiver σ) : σ → List (List UInt8) → List (List UInt8)
  | _, [] => []
  | s, chunk :: rest =>
    if (receive s chunk).2 then [chunk] else chunk :: upToStop receive (receive s chunk).1 rest

theorem upToStop_of_never (never : ∀ s chunk, (receive s chunk).2 = false) (s : σ)
    (chunks : List (List UInt8)) : upToStop receive s chunks = chunks := by
  induction chunks generalizing s with
  | nil => rfl
  | cons chunk rest ih => rw [upToStop, never, ih, if_neg Bool.false_ne_true]

namespace Writer

theorem piecewise_write (receive : Receiver σ) : Piecewise (@write σ size receive) where
  nil _ := rfl
  append _ _ _ := List.foldlM_append

theorem exists_write (never : ∀ s chunk, (receive s chunk).2 = false) (w : Writer σ size)
    (bytes : List UInt8) : ∃ v, w.write receive bytes = .ok v := by
  induction bytes generalizing w with
  | nil => exact ⟨w, rfl⟩
  | cons b bs ih =>
    obtain ⟨v, first⟩ : ∃ v, w.put receive b = .ok v := by
      unfold put
      split
      · exact ⟨_, rfl⟩
      · split
        · next answer => exact absurd (congrArg Prod.snd answer) (by simp [never])
        · exact ⟨_, rfl⟩
    rw [write, List.foldlM_cons, first]
    exact ih v

theorem write_of_short (receive : Receiver σ) (w : Writer σ size) (bytes : List UInt8)
    (h : w.held.size + bytes.length < size) :
    ∃ v, w.write receive bytes = .ok v ∧ v.state = w.state ∧
      v.held.toList = w.held.toList ++ bytes := by
  induction bytes generalizing w with
  | nil => exact ⟨w, rfl, rfl, (List.append_nil _).symm⟩
  | cons b bs ih =>
    rw [List.length_cons] at h
    have room : w.held.size + 1 < size := by omega
    let next : Writer σ size := ⟨w.state, w.held.push b, by rwa [Array.size_push]⟩
    have first : w.put receive b = .ok next := dif_pos room
    obtain ⟨v, rest, state, held⟩ := ih next (by simp only [next, Array.size_push]; omega)
    refine ⟨v, ?_, state, ?_⟩
    · rw [write, List.foldlM_cons, first]
      exact rest
    · rw [held]
      simp [next]

theorem write_of_full (s : σ) (h : 0 < size) {piece : List UInt8} (length : piece.length = size) :
    (start s h).write receive piece =
      if (receive s piece).2 then .error (receive s piece).1
      else .ok (start (receive s piece).1 h) := by
  obtain ⟨front, b, rfl⟩ : ∃ front b, piece = front ++ [b] :=
    ⟨_, _, (List.dropLast_concat_getLast (List.ne_nil_of_length_pos (length ▸ h))).symm⟩
  simp only [List.length_append, List.length_cons, List.length_nil] at length
  obtain ⟨v, kept, state, held⟩ := write_of_short receive (start s h) front
    (by simp only [start, List.size_toArray, List.length_nil]; omega)
  have held : v.held.toList = front := held
  have fills : ¬v.held.size + 1 < size := by
    rw [← Array.length_toList, held]
    omega
  have whole : (v.held.push b).toList = front ++ [b] := by rw [Array.toList_push, held]
  rw [(piecewise_write receive).append, kept]
  change List.foldlM (put receive) v [b] = _
  rw [List.foldlM_cons, put, dif_neg fills, whole, state]
  cases answer : receive s (front ++ [b]) with
  | mk s' stop =>
    cases stop <;> simp [start, answer, bind, Except.bind, pure, Except.pure]

/-- Written to an empty buffer, a text is handed over piece by piece. -/
theorem conclude_write (s : σ) (h : 0 < size) {bytes : List UInt8} {pieces : List (List UInt8)}
    (cuts : Cuts size bytes pieces) :
    conclude receive ((start s h).write receive bytes) =
      feed receive s (upToStop receive s pieces) := by
  induction cuts generalizing s with
  | nil => rfl
  | @last piece nonempty short =>
    obtain ⟨v, kept, state, held⟩ := write_of_short receive (start s h) piece
      (by simpa [start] using short)
    have held : v.held.toList = piece := held
    have some_left : v.held.isEmpty = false := by
      rw [← Array.isEmpty_toList, held]
      exact List.isEmpty_eq_false_iff.2 nonempty
    have handed : upToStop receive s [piece] = [piece] := by simp [upToStop]
    rw [kept, handed, conclude, finish, some_left, state, held]
    rfl
  | @full piece bytes pieces length rest ih =>
    rw [(piecewise_write receive).append, write_of_full s h length, upToStop]
    split
    · rfl
    · exact ih (receive s piece).1

end Writer

theorem deliver_eq (kind : Kind) {raw : List UInt8} (h : 0 < size) (s : σ)
    {pieces : List (List UInt8)} (cuts : Cuts size (kind.content raw) pieces) :
    deliver kind raw size receive s = feed receive s (upToStop receive s pieces) := by
  rw [deliver, dif_pos h, Kind.stream_eq (Writer.piecewise_write receive)]
  exact Writer.conclude_write s h cuts

/-- The same receiver, which also keeps the chunks it is handed. -/
def keeping (receive : Receiver σ) : Receiver (σ × List (List UInt8)) := fun (s, kept) chunk =>
  (((receive s chunk).1, kept ++ [chunk]), (receive s chunk).2)

/-- The chunks of a token's content that a receiver is handed. -/
def handed (kind : Kind) (raw : List UInt8) (size : Nat) (receive : Receiver σ) (s : σ) :
    List (List UInt8) :=
  (deliver kind raw size (keeping receive) (s, [])).2

theorem feed_keeping (s : σ) (kept chunks : List (List UInt8)) :
    feed (keeping receive) (s, kept) chunks = (feed receive s chunks, kept ++ chunks) := by
  induction chunks generalizing s kept with
  | nil => simp [feed]
  | cons chunk rest ih =>
    have behind : feed (keeping receive) ((receive s chunk).1, kept ++ [chunk]) rest = _ :=
      ih (receive s chunk).1 (kept ++ [chunk])
    simpa [feed, keeping] using behind

theorem upToStop_keeping (s : σ) (kept chunks : List (List UInt8)) :
    upToStop (keeping receive) (s, kept) chunks = upToStop receive s chunks := by
  induction chunks generalizing s kept with
  | nil => rfl
  | cons chunk rest ih =>
    have first : keeping receive (s, kept) chunk =
        (((receive s chunk).1, kept ++ [chunk]), (receive s chunk).2) := rfl
    rw [upToStop, upToStop, first, ih]

theorem handed_eq (kind : Kind) {raw : List UInt8} (h : 0 < size) (s : σ)
    {pieces : List (List UInt8)} (cuts : Cuts size (kind.content raw) pieces) :
    handed kind raw size receive s = upToStop receive s pieces := by
  rw [handed, deliver_eq kind h (s, []) cuts, feed_keeping, upToStop_keeping, List.nil_append]

theorem flatten_handed (kind : Kind) (raw : List UInt8) (h : 0 < size)
    (never : ∀ s chunk, (receive s chunk).2 = false) (s : σ) :
    (handed kind raw size receive s).flatten = kind.content raw := by
  obtain ⟨pieces, cuts⟩ := exists_cuts h (kind.content raw)
  rw [handed_eq kind h s cuts, upToStop_of_never never, cuts.flatten_eq]

end

theorem feed_keep (stopAfter : Nat) (chunks : Array (List UInt8)) (pieces : List (List UInt8)) :
    feed (keep stopAfter) chunks pieces = chunks ++ pieces := by
  induction pieces generalizing chunks with
  | nil => simp [feed]
  | cons piece rest ih =>
    have behind : feed (keep stopAfter) (chunks.push piece) rest = _ := ih (chunks.push piece)
    simpa [feed, keep] using behind

theorem collect_eq_handed (kind : Kind) (raw : List UInt8) (size stopAfter : Nat) :
    collect kind raw size stopAfter = handed kind raw size (keep stopAfter) #[] := by
  by_cases positive : 0 < size
  · obtain ⟨pieces, cuts⟩ := exists_cuts positive (kind.content raw)
    rw [handed_eq kind positive _ cuts, collect, deliver_eq kind positive #[] cuts, feed_keep]
    simp
  · simp [collect, handed, deliver, positive]

theorem flatten_collect (kind : Kind) (raw : List UInt8) {size : Nat} (h : 0 < size) :
    (collect kind raw size 0).flatten = kind.content raw := by
  have never : ∀ chunks chunk, (keep 0 chunks chunk).2 = false := by simp [keep]
  rw [collect_eq_handed, flatten_handed kind raw h never]

/-- The content of a token reaches any receiver in consecutive pieces as long as the buffer, of
which only the last may be shorter, up to the one at which the receiver stops; it is handed nothing
else. A receiver that never stops is handed the whole content, and without content or without a
buffer a receiver is handed nothing. -/
theorem delivers_pieces (kind : Kind) (raw : List UInt8) (size : Nat) :
    (0 < size → ∃ pieces, Cuts size (kind.content raw) pieces) ∧
      (∀ pieces, 0 < size → Cuts size (kind.content raw) pieces →
        ∀ (σ : Type) (receive : Receiver σ) (s : σ),
          handed kind raw size receive s = upToStop receive s pieces ∧
            deliver kind raw size receive s = feed receive s (upToStop receive s pieces) ∧
            ((∀ u chunk, (receive u chunk).2 = false) →
              (handed kind raw size receive s).flatten = kind.content raw)) ∧
      (size = 0 ∨ kind.content raw = [] →
        ∀ (σ : Type) (receive : Receiver σ) (s : σ),
          handed kind raw size receive s = [] ∧ deliver kind raw size receive s = s) := by
  refine ⟨fun h => exists_cuts h _, fun pieces h cuts σ receive s => ?_,
    fun h σ receive s => ?_⟩
  · exact ⟨handed_eq kind h s cuts, deliver_eq kind h s cuts,
      fun never => flatten_handed kind raw h never s⟩
  · by_cases positive : 0 < size
    · have empty : kind.content raw = [] := h.resolve_left (Nat.ne_of_gt positive)
      have cuts : Cuts size (kind.content raw) [] := empty ▸ .nil
      exact ⟨handed_eq kind positive s cuts, deliver_eq kind positive s cuts⟩
    · simp [handed, deliver, positive]

/-- The string `ab\tc\u00e9` in a buffer of two bytes: a receiver that stops at the second chunk is
not handed the letter of two bytes. -/
theorem delivers_pieces_escapes :
    let raw : List UInt8 := [0x61, 0x62, 0x5C, 0x74, 0x63, 0x5C, 0x75, 0x30, 0x30, 0x65, 0x39]
    let receive : Receiver Nat := fun n _ => (n + 1, n == 1)
    Cuts 2 (Kind.quotedString.content raw) [[0x61, 0x62], [0x09, 0x63], [0xC3, 0xA9]] ∧
      handed .quotedString raw 2 receive 0 = [[0x61, 0x62], [0x09, 0x63]] ∧
      deliver .quotedString raw 2 receive 0 = 2 := by
  intro raw receive
  have content : Kind.quotedString.content raw =
      [0x61, 0x62] ++ ([0x09, 0x63] ++ ([0xC3, 0xA9] ++ [])) := by decide +kernel
  have cuts : Cuts 2 (Kind.quotedString.content raw)
      [[0x61, 0x62], [0x09, 0x63], [0xC3, 0xA9]] := by
    rw [content]
    exact .full rfl (.full rfl (.full rfl .nil))
  obtain ⟨handed, state, -⟩ :=
    (delivers_pieces .quotedString raw 2).2.1 _ (by decide) cuts Nat receive 0
  exact ⟨cuts, handed, state⟩

end Chunks

end QueryDoc
