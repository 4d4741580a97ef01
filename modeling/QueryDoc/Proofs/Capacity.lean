import QueryDoc.Proofs.Delivery

/-! A buffer takes the tokens of a scan as long as it has records for them, and the token that finds
none ends the scan just as a hook does. -/
namespace QueryDoc

/-- Every sink that lets the first `k` tokens pass and asks for the end at the next one is stopped
at the same configuration. -/
theorem Scanner.exists_stop (s : Scanner) (doc : List UInt8) {k : Nat}
    (hk : k < (s.scan doc).state.toList.length) :
    ∃ (t : Token) (d : Config), (s.scan doc).state.toList[k]? = some t ∧
      ∀ {σ : Type} {sink : Sink σ} {init u v : σ} {code : ErrorCode},
        sink.Passes init ((s.scan doc).state.toList.take k) u → sink u t = (v, .stop code) →
          (s.scanInto doc sink init).state = v ∧
            (s.scanInto doc sink init).ending = .stopped (d.stop t.kind code) := by
  have trace := (s.scan_iff_trace doc _ _).1 ⟨rfl, rfl⟩
  generalize (s.scan doc).state.toList = ts at hk trace ⊢
  have split : ts = ts.take k ++ ts[k] :: ts.drop (k + 1) := by
    rw [← List.drop_eq_getElem_cons hk, List.take_append_drop]
  rw [split] at trace
  obtain ⟨c, d, path, goes, -⟩ := trace.split
  refine ⟨ts[k], d, List.getElem?_eq_getElem hk, fun {σ sink init u v code} passes stop => ?_⟩
  have run : (Config.start doc).run sink init = ⟨v, .stopped (d.stop ts[k].kind code), d⟩ := by
    cases goes with
    | token step => rw [path.run passes, Config.run_of_token step, stop]
  simp only [scanInto, run, and_self]

theorem Options.outcome_of_request (o : Options) {e : Error} (h : e.code.isRequest = true) :
    o.outcome (.stopped e) = .error e := by
  rw [outcome, h, Bool.not_true, Bool.and_false]
  exact if_neg Bool.false_ne_true

namespace Buffer

theorem write_of_full {b : Buffer} (h : b.records.size ≤ b.written) (t : Token) :
    write b t = (b, .stop .bufferFull) := dif_neg (Nat.not_lt.2 h)

end Buffer

namespace Scanner

variable (s : Scanner) (doc : List UInt8) (records : Array Token)

/-- With a record for every token, the buffer holds them all and the scan ends by itself. -/
theorem fill_of_room (room : (s.scan doc).state.toList.length ≤ records.size) :
    (s.fill doc records).state.written = (s.scan doc).state.toList.length ∧
      (s.fill doc records).state.records.toList = (s.scan doc).state.toList ++
        records.toList.drop (s.scan doc).state.toList.length ∧
      (s.fill doc records).ending = (s.scan doc).ending := by
  have trace := (s.scan_iff_trace doc _ _).1 ⟨rfl, rfl⟩
  obtain ⟨b, passes, written, kept⟩ := Buffer.passes_ofRecords records _ room
  obtain ⟨state, ending⟩ := trace.run passes
  have buffer : (s.fill doc records).state = b := state
  rw [buffer]
  exact ⟨written, kept, ending⟩

/-- With fewer records than tokens, every record is written and the scan ends where a hook would
end it at the token that found no record. -/
theorem fill_of_overflow (short : records.size < (s.scan doc).state.toList.length) :
    (s.fill doc records).state.written = records.size ∧
      (s.fill doc records).state.records.toList =
        (s.scan doc).state.toList.take records.size ++ records.toList.drop records.size ∧
      ∃ (t : Token) (d : Config),
        (s.fill doc records).ending = .stopped (d.stop t.kind .bufferFull) ∧
        ∀ (σ : Type) (hook : σ → Token → σ × Bool) (init : σ),
          Hook.FirstAt hook init (s.scan doc).state.toList records.size →
            (s.scanUntil doc hook init).ending = .stopped (d.stop t.kind .aborted) := by
  obtain ⟨t, d, ht, stops⟩ := s.exists_stop doc short
  generalize (s.scan doc).state.toList = ts at short ht stops ⊢
  have length : (ts.take records.size).length = records.size :=
    List.length_take_of_le (Nat.le_of_lt short)
  obtain ⟨b, passes, written, kept⟩ := Buffer.passes_ofRecords records (ts.take records.size)
    (Nat.le_of_eq length)
  rw [length] at written kept
  have full : b.records.size ≤ b.written := by
    rw [← Array.length_toList, kept, written]
    simp [length]
  obtain ⟨state, ending⟩ := stops passes (Buffer.write_of_full full t)
  have buffer : (s.fill doc records).state = b := state
  refine ⟨buffer ▸ written, buffer ▸ kept, t, d, ending, fun σ hook init first => ?_⟩
  obtain ⟨u, hu, -, -, true_⟩ := first.split
  obtain rfl : t = u := Option.some.inj (ht.symm.trans hu)
  exact (stops first.passes (Hook.stop_of_true true_)).2

/-- A scan into a buffer writes the tokens of the document one after another into its records, as
many as there is room for, and leaves the other records as they were. With room for all of them its
result is that of the scan that keeps every token; without, it is an error at the place that a hook
is told which asks for the end at the first token that found no room. -/
theorem fill_bounded :
    let tokens := (s.scan doc).state.toList
    let scan := s.fill doc records
    scan.state.written = min records.size tokens.length ∧
      scan.state.records.toList =
        tokens.take scan.state.written ++ records.toList.drop scan.state.written ∧
      (tokens.length ≤ records.size →
        scan.outcome = (s.scan doc).outcome ∧
          (scan.outcome = .ok → scan.bufferError? = none) ∧
          ∀ e, scan.outcome = .error e → scan.bufferError? = some ⟨tokens.length, e⟩) ∧
      (records.size < tokens.length →
        ∃ e, scan.bufferError? = some ⟨records.size, e⟩ ∧ e.code = .bufferFull ∧
          e.expected = none ∧
          ∀ (σ : Type) (hook : σ → Token → σ × Bool) (init : σ),
            Hook.FirstAt hook init tokens records.size →
              ∃ a, (s.scanUntil doc hook init).outcome = .error a ∧ a.index = e.index ∧
                a.char = e.char) := by
  intro tokens scan
  by_cases room : tokens.length ≤ records.size
  · obtain ⟨written, kept, ending⟩ := s.fill_of_room doc records room
    have whole : scan.state.written = tokens.length := written
    refine ⟨?_, ?_, fun _ => ⟨congrArg s.options.outcome ending, fun ok => ?_, fun e error => ?_⟩,
      fun short => absurd short (Nat.not_lt.2 room)⟩
    · rw [whole, Nat.min_eq_right room]
    · rw [whole, List.take_length]
      exact kept
    · rw [Scan.bufferError?, ok]
    · rw [Scan.bufferError?, error, whole]
  · have short : records.size < tokens.length := Nat.lt_of_not_le room
    obtain ⟨written, kept, t, d, ending, hooks⟩ := s.fill_of_overflow doc records short
    have full : scan.state.written = records.size := written
    have outcome : scan.outcome = .error (d.stop t.kind .bufferFull) := by
      rw [← s.options.outcome_of_request rfl, ← ending]
      rfl
    refine ⟨?_, ?_, fun all => absurd all room, fun _ => ⟨d.stop t.kind .bufferFull, ?_, rfl, rfl,
      fun σ hook init first => ⟨d.stop t.kind .aborted, ?_, rfl, rfl⟩⟩⟩
    · rw [full, Nat.min_eq_left (Nat.le_of_lt short)]
    · rw [full]
      exact kept
    · rw [Scan.bufferError?, outcome, full]
    · rw [← s.options.outcome_of_request rfl, ← hooks σ hook init first]
      rfl

/-- The document `{a}x` has four tokens and is rejected at its last byte. A buffer of two records is
told the place of the token behind the first that it did not take, and one of five records holds all
tokens in front of the record that it does not need. -/
theorem fill_bounded_shorthand :
    let doc : List UInt8 := [0x7B, 0x61, 0x7D, 0x78]
    let old : Token := ⟨.int, 7, 8, 9⟩
    let hook : Nat → Token → Nat × Bool := fun n _ => (n + 1, n == 2)
    Hook.FirstAt hook 0 (standard.scan doc).state.toList 2 ∧
      (standard.scan doc).state.toList.length = 4 ∧
      (∃ e, (standard.fill doc #[old, old]).bufferError? = some ⟨2, e⟩ ∧ e.code = .bufferFull ∧
        ∃ a, (standard.scanUntil doc hook 0).outcome = .error a ∧ a.index = e.index) ∧
      (standard.fill doc #[old, old, old, old, old]).state.records.toList =
        [⟨.query, 0, 0, 0⟩, ⟨.setOpen, 0, 0, 1⟩, ⟨.field, 1, 2, 1⟩, ⟨.setClose, 2, 2, 0⟩, old] ∧
      (standard.fill doc #[old, old, old, old, old]).bufferError? =
        some ⟨4, ⟨3, some 'x', .unexpectedToken, some .definition⟩⟩ := by
  intro doc old hook
  have tokens : (standard.scan doc).state.toList =
      [⟨.query, 0, 0, 0⟩, ⟨.setOpen, 0, 0, 1⟩, ⟨.field, 1, 2, 1⟩, ⟨.setClose, 2, 2, 0⟩] := by
    decide +kernel
  have four : (standard.scan doc).state.toList.length = 4 := by rw [tokens]; rfl
  have first : Hook.FirstAt hook 0 (standard.scan doc).state.toList 2 := by
    rw [tokens]
    refine ⟨fun i t hi _ => ?_, _, rfl, rfl⟩
    match i with
    | 0 | 1 => rfl
  obtain ⟨-, -, -, overflow⟩ := fill_bounded standard doc #[old, old]
  obtain ⟨e, error, code, -, hooks⟩ := overflow (by rw [four]; decide)
  obtain ⟨a, aborted, index, -⟩ := hooks Nat hook 0 first
  obtain ⟨written, records, room, -⟩ := fill_bounded standard doc #[old, old, old, old, old]
  obtain ⟨same, -, rejected⟩ := room (by rw [four]; decide)
  have outcome : (standard.scan doc).outcome =
      .error ⟨3, some 'x', .unexpectedToken, some .definition⟩ := by decide +kernel
  refine ⟨first, four, ⟨e, error, code, a, aborted, index⟩, ?_, ?_⟩
  · rw [records, written, tokens]
    rfl
  · rw [rejected _ (same.trans outcome), four]

end Scanner

end QueryDoc
