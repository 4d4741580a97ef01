import QueryDoc.Proofs.Upcoming

/-! A receiver that asks for the end of the scan gets no further token, and is told the place of the
token that would have come next. -/
namespace QueryDoc

namespace Config

variable {c d m : Config} {k : Kind} {u : Token} {us : List Token}

/-- Since a token of kind `k` was delivered in front of the first configuration, the scan has come
to the second without a further token. -/
structure Awaits (k : Kind) (d m : Config) : Prop where
  reads : Reads m.state.since d.cursor [] m.cursor
  named : m.state.named = (k == .fragmentName)

theorem Goes.awaits (h : c.Goes [u] d) : Awaits u.kind d d := by
  obtain ⟨label, edge, reads⟩ := h.edge
  obtain ⟨since, named⟩ := edge.since_of_token reads.kinds_eq.symm
  refine ⟨?_, named⟩
  rw [since]
  exact .nil _

theorem Awaits.silent (h : Awaits k d m) {m' : Config} (goes : m.Goes [] m') :
    Awaits k d m' := by
  obtain ⟨label, edge, reads⟩ := goes.edge
  obtain ⟨since, named⟩ := edge.since_of_silent reads.kinds_eq.symm
  refine ⟨?_, named.trans h.named⟩
  rw [since]
  exact h.reads.append reads

theorem Awaits.path (h : Awaits k d c) (path : c.Path us m) (hu : us = []) : Awaits k d m := by
  induction path with
  | refl => exact h
  | step first rest ih =>
    obtain ⟨rfl, rfl⟩ := List.append_eq_nil_iff.1 hu
    exact ih (h.silent first) rfl

theorem Awaits.token {n : Config} (h : Awaits k d m) (goes : m.Goes [u] n) :
    d.pos + Upcoming.offset k d.rest = u.tail := by
  obtain ⟨label, edge, reads⟩ := goes.edge
  have kinds : Terminal.kinds label ≠ [] := by
    rw [← reads.kinds_eq]
    exact List.cons_ne_nil _ _
  refine (edge.between kinds).tail_eq h.named (h.reads.append reads) fun mark => ?_
  rcases List.append_eq_singleton_iff.1 mark with ⟨-, rfl⟩ | ⟨-, rfl⟩
  · exact edge.ahead_of_mark
  · exact absurd rfl kinds

/-- Behind a token the next one is expected where it comes. -/
theorem Goes.next_tail {t : Token} {e : Ending} (h : c.Goes [t] d) (trace : d.Trace (u :: us) e) :
    d.pos + Upcoming.offset t.kind d.rest = u.tail := by
  have trace : d.Trace ([] ++ u :: us) e := trace
  obtain ⟨m, n, path, goes, -⟩ := trace.split
  exact (h.awaits.path path rfl).token goes

theorem Goes.next_end (h : c.Goes [u] d) (trace : d.Trace [] .complete) :
    Upcoming.offset u.kind d.rest = d.rest.length := by
  obtain ⟨m, path, ends⟩ := trace
  obtain ⟨hs, closing⟩ := ends_complete_iff.1 ends
  have reads := (h.awaits.path path rfl).reads
  rw [hs] at reads
  generalize hc : d.cursor = c' at reads
  generalize hm : m.cursor = m' at reads
  cases reads
  have hr : d.rest = m.rest := congrArg Cursor.rest (hc.trans hm.symm)
  rw [hr]
  exact Upcoming.offset_of_closing _ closing

end Config

namespace Hook

variable {σ : Type}

def feed (hook : σ → Token → σ × Bool) (init : σ) (ts : List Token) : σ :=
  ts.foldl (fun s t => (hook s t).1) init

/-- The same hook, which also keeps the tokens it is handed. -/
def keeping (hook : σ → Token → σ × Bool) : σ × List Token → Token → (σ × List Token) × Bool :=
  fun (s, kept) t => (((hook s t).1, kept ++ [t]), (hook s t).2)

/-- Handed these tokens one after another, the hook answers true at ordinal `k` for the first
time. -/
structure FirstAt (hook : σ → Token → σ × Bool) (init : σ) (ts : List Token) (k : Nat) : Prop where
  before : ∀ i t, i < k → ts[i]? = some t → (hook (feed hook init (ts.take i)) t).2 = false
  at_ : ∃ t, ts[k]? = some t ∧ (hook (feed hook init (ts.take k)) t).2 = true

variable {hook : σ → Token → σ × Bool} {init : σ} {ts : List Token} {k : Nat}

theorem feed_keeping (kept : List Token) :
    feed (keeping hook) (init, kept) ts = (feed hook init ts, kept ++ ts) := by
  induction ts generalizing init kept with
  | nil => simp [feed]
  | cons t ts ih =>
    have rest : feed (keeping hook) ((hook init t).1, kept ++ [t]) ts = _ := ih (kept ++ [t])
    simpa [feed, keeping] using rest

theorem FirstAt.keeping (h : FirstAt hook init ts k) (kept : List Token) :
    FirstAt (Hook.keeping hook) (init, kept) ts k := by
  constructor
  · intro i t hi ht
    rw [feed_keeping]
    exact h.before i t hi ht
  · obtain ⟨t, ht, true_⟩ := h.at_
    refine ⟨t, ht, ?_⟩
    rw [feed_keeping]
    exact true_

theorem FirstAt.split (h : FirstAt hook init ts k) :
    ∃ t, ts[k]? = some t ∧ ts = ts.take k ++ t :: ts.drop (k + 1) ∧
      ts.take (k + 1) = ts.take k ++ [t] ∧ (hook (feed hook init (ts.take k)) t).2 = true := by
  obtain ⟨t, ht, true_⟩ := h.at_
  obtain ⟨hk, rfl⟩ := List.getElem?_eq_some_iff.1 ht
  refine ⟨_, ht, ?_, List.take_succ_eq_append_getElem hk, true_⟩
  rw [← List.drop_eq_getElem_cons hk, List.take_append_drop]

theorem passes_of_false {code : ErrorCode}
    (h : ∀ i t, ts[i]? = some t → (hook (feed hook init (ts.take i)) t).2 = false) :
    (Sink.breaking code hook).Passes init ts (feed hook init ts) := by
  induction ts generalizing init with
  | nil => rfl
  | cons t ts ih =>
    have first : (hook init t).2 = false := h 0 t rfl
    refine ⟨(hook init t).1, ?_, ih fun i u hu => h (i + 1) u hu⟩
    rw [Sink.breaking]
    split
    · next he =>
        rw [he] at first
        cases first
    · next he => rw [he]

theorem stop_of_true {code : ErrorCode} {t : Token} (h : (hook init t).2 = true) :
    Sink.breaking code hook init t = ((hook init t).1, .stop code) := by
  rw [Sink.breaking]
  split
  · next he => rw [he]
  · next he =>
      rw [he] at h
      cases h

theorem FirstAt.passes (h : FirstAt hook init ts k) {code : ErrorCode} :
    (Sink.breaking code hook).Passes init (ts.take k) (feed hook init (ts.take k)) := by
  refine passes_of_false fun i u hu => ?_
  rw [List.getElem?_take] at hu
  split at hu
  · next hi =>
      rw [List.take_take, Nat.min_eq_left (Nat.le_of_lt hi)]
      exact h.before i u hi hu
  · cases hu

end Hook

/-- A scan with a hook goes along the trace of the document up to the first true answer, and is
ended behind that token. -/
theorem Scanner.scanUntil_eq {σ : Type} {s : Scanner} {doc : List UInt8}
    {hook : σ → Token → σ × Bool} {init : σ} {k : Nat}
    (h : Hook.FirstAt hook init (s.scan doc).state.toList k) :
    ∃ t c d, (s.scan doc).state.toList[k]? = some t ∧
      (Config.start doc).Path ((s.scan doc).state.toList.take k) c ∧ c.Goes [t] d ∧
      d.Trace ((s.scan doc).state.toList.drop (k + 1)) (s.scan doc).ending ∧
      (s.scanUntil doc hook init).state =
        Hook.feed hook init ((s.scan doc).state.toList.take (k + 1)) ∧
      (s.scanUntil doc hook init).ending = .stopped (d.stop t.kind .aborted) := by
  have trace := (s.scan_iff_trace doc _ _).1 ⟨rfl, rfl⟩
  generalize (s.scan doc).state.toList = ts at h trace ⊢
  obtain ⟨t, ht, split, taken, true_⟩ := h.split
  rw [split] at trace
  obtain ⟨c, d, path, goes, rest⟩ := trace.split
  have passes : (Sink.abortable hook).Passes init (ts.take k)
      (Hook.feed hook init (ts.take k)) := h.passes
  have run : (Config.start doc).run (.abortable hook) init =
      ⟨Hook.feed hook init (ts.take (k + 1)), .stopped (d.stop t.kind .aborted), d⟩ := by
    cases goes with
    | token step =>
      rw [path.run passes, Config.run_of_token step, Sink.abortable, Hook.stop_of_true true_, taken]
      simp [Hook.feed]
  refine ⟨t, c, d, ht, path, goes, rest, ?_, ?_⟩
  · simp only [scanUntil, scanInto, run]
  · simp only [scanUntil, scanInto, run]

/-- A hook that answers true at ordinal `k` for the first time is handed the tokens up to that one
and no other, and the scan ends with an error at the place of the next token. -/
theorem Scanner.scanUntil_aborts {σ : Type} (s : Scanner) (doc : List UInt8)
    (hook : σ → Token → σ × Bool) (init : σ) (k : Nat)
    (h : Hook.FirstAt hook init (s.scan doc).state.toList k) :
    (s.scanUntil doc hook init).state =
        Hook.feed hook init ((s.scan doc).state.toList.take (k + 1)) ∧
      (s.scanUntil doc (Hook.keeping hook) (init, [])).state.2 =
        (s.scan doc).state.toList.take (k + 1) ∧
      ∃ e, (s.scanUntil doc hook init).outcome = .error e ∧ e.code = .aborted ∧
        e.expected = none ∧
        (∀ t, (s.scan doc).state.toList[k + 1]? = some t → e.index = t.tail) ∧
        (k + 1 = (s.scan doc).state.size → (s.scan doc).outcome = .ok → e.index = doc.length) ∧
        (∀ t, (s.scan doc).state.toList[k]? = some t → t.head ≤ e.index) ∧
        e.index ≤ doc.length := by
  obtain ⟨t, c, d, ht, path, goes, rest, state, ending⟩ := scanUntil_eq h
  have extent : doc.length = d.pos + d.rest.length := by
    have := (path.trans (.step goes (.refl d))).extent_eq
    simpa [Config.start] using this
  refine ⟨state, ?_, d.stop t.kind .aborted, ?_, rfl, rfl, ?_, ?_, ?_, ?_⟩
  · obtain ⟨-, -, -, -, -, -, -, kept, -⟩ := scanUntil_eq (h.keeping [])
    rw [kept, Hook.feed_keeping]
    rfl
  · change s.options.outcome (s.scanUntil doc hook init).ending = _
    rw [ending, Options.outcome]
    exact if_neg (by simp [Config.stop, Config.error, Error.here, ErrorCode.isRequest])
  · intro u hu
    obtain ⟨hk, rfl⟩ := List.getElem?_eq_some_iff.1 hu
    rw [List.drop_eq_getElem_cons hk] at rest
    exact goes.next_tail rest
  · intro last ok
    rw [outcome_eq_ok_iff] at ok
    have none_left : (s.scan doc).state.toList.drop (k + 1) = [] := by
      rw [last, ← Array.length_toList]
      exact List.drop_length
    rw [none_left, ok] at rest
    rw [extent, ← goes.next_end rest]
    rfl
  · intro u hu
    obtain rfl : t = u := Option.some.inj (ht.symm.trans hu)
    exact Nat.le_trans goes.head_le (Nat.le_add_right _ _)
  · rw [extent]
    exact Nat.add_le_add_left (Upcoming.offset_le _ _) _

/-- In `fragment F on T{a}` the name of the fragment is followed by the type behind the keyword. -/
theorem Scanner.scanUntil_aborts_fragment :
    let doc : List UInt8 := Word.fragment ++
      [0x20, 0x46, 0x20, 0x6F, 0x6E, 0x20, 0x54, 0x7B, 0x61, 0x7D]
    let hook : Nat → Token → Nat × Bool := fun n _ => (n + 1, n == 1)
    Hook.FirstAt hook 0 (standard.scan doc).state.toList 1 ∧
      (standard.scan doc).state.toList[2]? = some ⟨.typeCondition, 14, 15, 0⟩ ∧
      ∃ e, (standard.scanUntil doc hook 0).outcome = .error e ∧ e.code = .aborted ∧
        e.index = 14 := by
  intro doc hook
  have first : Hook.FirstAt hook 0 (standard.scan doc).state.toList 1 := by
    refine ⟨fun i t hi _ => ?_, ⟨.fragmentName, 9, 10, 0⟩, by decide +kernel, by decide +kernel⟩
    obtain rfl : i = 0 := Nat.lt_one_iff.1 hi
    rfl
  have next : (standard.scan doc).state.toList[2]? = some ⟨.typeCondition, 14, 15, 0⟩ := by
    decide +kernel
  obtain ⟨-, -, e, outcome, code, -, index, -⟩ := scanUntil_aborts standard doc hook 0 1 first
  exact ⟨first, next, e, outcome, code, index _ next⟩

end QueryDoc
