import BitCalculus.Proofs.Run.Programs
import BitCalculus.Proofs.Run.Renumbering

/-!
# Runs are isolated

What can be observed of a run is the value it shows, its debug lines, how many numbers it gave out,
by how much it increased the counters of its cache, and the bits that it wrote and read. In a
sequential session all this is determined by the text of the program and by the bits that the reader
still has to deliver. Neither earlier runs, nor the counter from which the text was compiled, nor
the state of the writer make a difference.
-/

namespace BitCalculus

/-! ### Binding -/

namespace Cache.Renumbers

variable {f : Nat → Nat} {c c' : Cache}

theorem instantiate (h : c.Renumbers f c') (b : Builtin) :
    (b.instantiate c').1 = (b.instantiate c).1.renumber f ∧
      (b.instantiate c).2.Renumbers f (b.instantiate c').2 := by
  obtain ⟨id, renumbers⟩ := h.next
  refine ⟨?_, renumbers⟩
  rw [Builtin.instantiate, Builtin.instantiate]
  dsimp only
  rw [id]
  cases b <;> rfl

/-- Only the texts of names matter for the values that are made of them. -/
theorem instantiateAll (h : c.Renumbers f c') {names names' : List Token}
    (texts : names'.map Token.text = names.map Token.text) :
    (c'.instantiateAll names').1 = (c.instantiateAll names).1.map (Value.renumber f) ∧
      (c'.instantiateAll names').2.1.map Token.text =
        (c.instantiateAll names).2.1.map Token.text ∧
      (c.instantiateAll names).2.2.Renumbers f (c'.instantiateAll names').2.2 := by
  induction names generalizing c c' names' with
  | nil =>
    cases List.map_eq_nil_iff.mp texts
    exact ⟨rfl, rfl, h⟩
  | cons token names ih =>
    cases names' with
    | nil => simp at texts
    | cons token' names' =>
      simp only [List.map_cons, List.cons.injEq] at texts
      obtain ⟨text, texts⟩ := texts
      simp only [Cache.instantiateAll, text]
      cases Builtin.find? token.text with
      | none =>
        obtain ⟨values, undefined, renumbers⟩ := ih h texts
        exact ⟨values, by simp [text, undefined], renumbers⟩
      | some b =>
        obtain ⟨value, made⟩ := h.instantiate b
        obtain ⟨values, undefined, renumbers⟩ := ih made texts
        exact ⟨by simp [value, values], undefined, renumbers⟩

/-- Names that have the same texts can be bound or cannot be bound together. -/
theorem bind (h : c.Renumbers f c') {names names' : List Token}
    (texts : names'.map Token.text = names.map Token.text) :
    (∃ env c₁ c₁', c.bind names = (.ok env, c₁) ∧
        c'.bind names' = (.ok (env.renumber f), c₁') ∧ c₁.Renumbers f c₁') ∨
      ∃ undefined undefined' c₁ c₁', c.bind names = (.error undefined, c₁) ∧
        c'.bind names' = (.error undefined', c₁') := by
  obtain ⟨values, undefined, renumbers⟩ := h.instantiateAll texts
  rw [Cache.bind, Cache.bind]
  rcases hi : c.instantiateAll names with ⟨vs, us, c₁⟩
  rcases hi' : c'.instantiateAll names' with ⟨vs', us', c₁'⟩
  rw [hi, hi'] at values undefined renumbers
  cases us with
  | nil =>
    cases List.map_eq_nil_iff.mp undefined
    obtain ⟨env, renumbers⟩ := renumbers.environment vs
    dsimp only at values env renumbers
    rw [← values] at env renumbers
    refine .inl ⟨(c₁.environment vs).1, (c₁.environment vs).2, (c₁'.environment vs').2, rfl, ?_,
      renumbers⟩
    rw [← env]
  | cons u us =>
    cases us' with
    | nil => simp at undefined
    | cons u' us' => exact .inr ⟨_, _, _, _, rfl, rfl⟩

end Cache.Renumbers

namespace Session

/-- A run whose names can be bound evaluates the root. -/
theorem run_of_bind (s : Session) {p : Program} {env : Base} {cache : Cache}
    (h : Cache.bind {} p.free = (.ok env, cache)) :
    s.run p =
      let r := s.evaluate p.root env
        { cache, output := s.output, input := s.input, stats := s.stats }
      (conclude r.1 r.2,
        { s with
          output := r.2.output, input := r.2.input, stats := r.2.stats
          cache := some r.2.cache }) := by
  rw [run, h]
  rfl

/-- Two runs did the same but for node numbers: they came to the same value, showed the same to the
outside and gave out as many numbers, their readers have the same bits left to deliver, and they
increased all counters by the same amounts. -/
structure RunAlike (f : Nat → Nat) (before before' : Option Stats) (r r' : RunResult × Session) :
    Prop where
  value : r'.1.value = r.1.value.map (Value.renumber f)
  journal : r'.1.journal.toList = r.1.journal.toList.map (Event.renumber f)
  allocated : r'.1.allocated = r.1.allocated
  input : r'.2.input.remaining = r.2.input.remaining
  counters : ∃ amounts, Stats.Counts amounts before r.2.stats ∧
    Stats.Counts amounts before' r'.2.stats

theorem evaluate_alike {f : Nat → Nat} (inj : f.Injective) {s s' : Session}
    (sequential : s.plan.strategy = .sequential) (sequential' : s'.plan.strategy = .sequential)
    (depth : s'.depth = s.depth) {before before' : Option Stats} {w w' : World}
    (alike : w.Alike f before before' w') (root : Option Expr) (env : Base) :
    Eval.EndAlike f before before' (Answer.renumber f) (s.evaluate root env w)
      (s'.evaluate (root.map (Expr.renumber f)) (env.renumber f) w') := by
  cases root with
  | none => exact ⟨rfl, alike⟩
  | some e =>
    have ends := Eval.alike_eval inj sequential sequential' s.depth 0 0 e (.base env) w w' alike
    rw [evaluate, Option.map_some, evaluate, depth]
    exact ends

theorem run_alike {f : Nat → Nat} (inj : f.Injective) {p q : Program} (h : p.Renumbers f q)
    {s s' : Session} (sequential : s.plan.strategy = .sequential)
    (sequential' : s'.plan.strategy = .sequential) (depth : s'.depth = s.depth)
    (input : s'.input.remaining = s.input.remaining) :
    RunAlike f s.stats s'.stats (s.run p) (s'.run q) := by
  rcases (Cache.renumbers_empty f).bind h.names with
    ⟨env, cache, cache', bound, bound', renumbers⟩ | ⟨us, us', c₁, c₁', bound, bound'⟩
  · have alike : World.Alike f s.stats s'.stats
        { cache, output := s.output, input := s.input, stats := s.stats }
        { cache := cache', output := s'.output, input := s'.input, stats := s'.stats } :=
      ⟨renumbers, input, rfl, _, Stats.counts_refl _, Stats.counts_refl _⟩
    have ends := evaluate_alike inj sequential sequential' depth alike p.root env
    rw [← h.root] at ends
    rw [s.run_of_bind bound, s'.run_of_bind bound']
    rcases he : s.evaluate p.root env _ with ⟨outcome, w⟩
    rcases he' : s'.evaluate q.root (env.renumber f) _ with ⟨outcome', w'⟩
    rw [he, he'] at ends
    obtain ⟨rfl, alike⟩ := ends
    refine ⟨?_, ?_, ?_, alike.input, alike.counters⟩
    · cases outcome <;> rfl
    · cases outcome <;> exact alike.journal
    · cases outcome <;> exact congrArg some alike.cache.lastId
  · have run : s.run p = ({ error := some (.undefined us) }, s) := by rw [Session.run, bound]
    have run' : s'.run q = ({ error := some (.undefined us') }, s') := by
      rw [Session.run, bound']
    rw [run, run']
    exact ⟨rfl, rfl, rfl, input, _, Stats.counts_refl _, Stats.counts_refl _⟩

end Session

/-! ### Observations -/

/-- The counters of what a cache does. -/
def Stats.Counter.ofCache : List Stats.Counter :=
  [.closureHits, .closureMisses, .applyHits, .applyMisses, .applyUncached]

/-- What can be observed of a run: the value it shows, its debug lines, how many numbers it gave
out, and the bits that it wrote and read, in order. -/
structure Observation where
  value : Option Bytes
  debug : List Bytes
  allocated : Option Nat
  calls : List StreamCall
deriving DecidableEq

namespace Session

/-- What can be observed of the run of a program; `runId` identifies the run in its debug lines. -/
def observe (runId : Bytes) (s : Session) (p : Program) : Observation where
  value := (s.run p).1.value.map Value.text
  debug := (s.run p).1.probes.map (debugLine runId)
  allocated := (s.run p).1.allocated
  calls := (s.run p).1.calls

/-- By how much the run of a program increases the counters of its cache, if statistics are kept. -/
def increments (s : Session) (p : Program) : Option (List Nat) :=
  match s.stats, (s.run p).2.stats with
  | some before, some after =>
    some (Stats.Counter.ofCache.map fun k ↦ after.get k - before.get k)
  | _, _ => none

theorem increments_of_counts {s : Session} {p : Program} {amounts : Stats.Counter → Nat}
    (h : Stats.Counts amounts s.stats (s.run p).2.stats) (kept : s.stats.isSome) :
    s.increments p = some (Stats.Counter.ofCache.map amounts) := by
  obtain ⟨before, hs⟩ := Option.isSome_iff_exists.mp kept
  unfold increments
  rw [hs]
  rcases ha : (s.run p).2.stats with _ | after
  · have impossible := h .forks
    simp [hs, ha] at impossible
  · have amount (k : Stats.Counter) : after.get k - before.get k = amounts k := by
      have hk := h k
      simp only [hs, ha, Option.map_some, Option.some.injEq] at hk
      omega
    simp [amount]

section RunAlike

variable {f : Nat → Nat} {s s' : Session} {p q : Program}

theorem RunAlike.probes (h : RunAlike f s.stats s'.stats (s.run p) (s'.run q)) :
    (s'.run q).1.probes = (s.run p).1.probes.map (Value.renumber f) := by
  rw [RunResult.probes, RunResult.probes, h.journal, List.filterMap_map, List.map_filterMap]
  congr 1
  funext event
  cases event <;> rfl

theorem RunAlike.calls (h : RunAlike f s.stats s'.stats (s.run p) (s'.run q)) :
    (s'.run q).1.calls = (s.run p).1.calls := by
  rw [RunResult.calls, RunResult.calls, h.journal, List.filterMap_map]
  congr 1
  funext event
  cases event <;> rfl

/-- Runs that did the same but for node numbers cannot be told apart. -/
theorem RunAlike.observe (h : RunAlike f s.stats s'.stats (s.run p) (s'.run q)) (runId : Bytes) :
    s'.observe runId q = s.observe runId p := by
  have texts : Value.text ∘ Value.renumber f = Value.text := by
    funext v
    exact v.text_renumber f
  have lines : debugLine runId ∘ Value.renumber f = debugLine runId := by
    funext v
    simp [debugLine]
  simp only [Session.observe, h.value, h.probes, h.allocated, h.calls, Option.map_map,
    List.map_map, texts, lines]

theorem RunAlike.increments (h : RunAlike f s.stats s'.stats (s.run p) (s'.run q))
    (kept : s.stats.isSome) (kept' : s'.stats.isSome) : s'.increments q = s.increments p := by
  obtain ⟨amounts, counts, counts'⟩ := h.counters
  rw [increments_of_counts counts kept, increments_of_counts counts' kept']

end RunAlike

end Session

/-- Compile one text under any names and from any counters. It is a program under all of them or
under none, and its programs are equal but for a constant shift of all node numbers and for the name
of the text in locations. Run two of them in any sequential sessions, whatever was run before and
whatever was written, as long as the readers have the same bits left to deliver. Then the runs
cannot be told apart, they increase all counters by the same amounts, and again the readers have the
same bits left to deliver. -/
theorem runs_isolated (text source source' : Bytes) (n m : Nat) :
    ((∃ r, Program.compile source text n = .ok r) ↔
        ∃ r, Program.compile source' text m = .ok r) ∧
      ∀ p last q last', Program.compile source text n = .ok (p, last) →
        Program.compile source' text m = .ok (q, last') →
        p.Renumbers (fun id ↦ id - n + m) q ∧ last' = last - n + m ∧
        ∀ s s' : Session, s.plan.strategy = .sequential → s'.plan.strategy = .sequential →
          s.depth = s'.depth → s.input.remaining = s'.input.remaining →
          (∀ runId, s.observe runId p = s'.observe runId q) ∧
            (s.stats.isSome → s'.stats.isSome → s.increments p = s'.increments q) ∧
            (s.run p).2.input.remaining = (s'.run q).2.input.remaining := by
  constructor
  · constructor
    · rintro ⟨⟨p, last⟩, compiled⟩
      obtain ⟨base, size, all⟩ := Program.exists_base compiled
      obtain ⟨q, compiled', -⟩ := all source' m
      exact ⟨_, compiled'⟩
    · rintro ⟨⟨q, last⟩, compiled⟩
      obtain ⟨base, size, all⟩ := Program.exists_base compiled
      obtain ⟨p, compiled', -⟩ := all source n
      exact ⟨_, compiled'⟩
  · intro p last q last' compiled compiled'
    obtain ⟨base, size, all⟩ := Program.exists_base compiled
    obtain ⟨p', again, renumbers⟩ := all source n
    cases compiled.symm.trans again
    obtain ⟨q', again', renumbers'⟩ := all source' m
    cases compiled'.symm.trans again'
    refine ⟨renumbers.shift renumbers', by omega, ?_⟩
    intro s s' sequential sequential' depth input
    -- The map from the numbers of `p` to those of `q` is not injective on all numbers, so both runs
    -- are compared with the run of `base` in `s`.
    have alike := Session.run_alike (add_left_injective n) renumbers sequential sequential rfl rfl
    have alike' := Session.run_alike (add_left_injective m) renumbers' sequential sequential'
      depth.symm input.symm
    refine ⟨fun runId ↦ ?_, fun kept kept' ↦ ?_, ?_⟩
    · exact (alike.observe runId).trans (alike'.observe runId).symm
    · exact (alike.increments kept kept).trans (alike'.increments kept kept').symm
    · exact alike.input.trans alike'.input.symm

/-- The text is compiled from a counter at zero and run at once, and it is compiled and run after a
program that used up node numbers, counted an application and left a bit pending. One reader has
fetched its byte already, the other has not. -/
theorem runs_isolated_after :
    ∃ (earlier p q : Program) (last last' : Nat) (s s' : Session),
      Program.compile (lit "a") (lit "__builtin_p0 __builtin_p1") 0 = .ok (earlier, 3) ∧
      s' = (Session.run
        { input := ⟨⟨[], 1⟩, Bits.unpack 0xA5, false⟩, stats := some {}, depth := 9 } earlier).2 ∧
      s'.output.pending = 1 ∧ s'.stats.map Stats.applyUncached = some 1 ∧
      s = { input := .ofBytes [0xA5], stats := some {}, depth := 9 } ∧
      Program.compile (lit "b")
        (lit "(\\i __builtin_debug (i __builtin_p1)) (\\x x) __builtin_p1") 0 = .ok (p, last) ∧
      Program.compile (lit "c")
        (lit "(\\i __builtin_debug (i __builtin_p1)) (\\x x) __builtin_p1") 3 = .ok (q, last') ∧
      p.Renumbers (fun id ↦ id - 0 + 3) q ∧
      (∀ runId, s.observe runId p = s'.observe runId q) ∧
      s'.observe (lit "RUN") q =
        ⟨some (lit "<p1 #2>"), [lit "[debug RUN] <p1 #2>"], some 6, [.write true]⟩ ∧
      s'.increments q = some [0, 2, 0, 3, 1] := by
  obtain ⟨earlier, p, q, last, last', s, s', compiled₀, hs', pending, uncached, hs, compiled,
      compiled', depth, sequential', kept', input, observed, counters⟩ :
      ∃ (earlier p q : Program) (last last' : Nat) (s s' : Session),
        Program.compile (lit "a") (lit "__builtin_p0 __builtin_p1") 0 = .ok (earlier, 3) ∧
        s' = (Session.run
          { input := ⟨⟨[], 1⟩, Bits.unpack 0xA5, false⟩, stats := some {}, depth := 9 } earlier).2 ∧
        s'.output.pending = 1 ∧ s'.stats.map Stats.applyUncached = some 1 ∧
        s = { input := .ofBytes [0xA5], stats := some {}, depth := 9 } ∧
        Program.compile (lit "b")
          (lit "(\\i __builtin_debug (i __builtin_p1)) (\\x x) __builtin_p1") 0 = .ok (p, last) ∧
        Program.compile (lit "c")
          (lit "(\\i __builtin_debug (i __builtin_p1)) (\\x x) __builtin_p1") 3 = .ok (q, last') ∧
        s.depth = s'.depth ∧ s'.plan.strategy = .sequential ∧ s'.stats.isSome ∧
        s.input.remaining = s'.input.remaining ∧
        s.observe (lit "RUN") p =
          ⟨some (lit "<p1 #2>"), [lit "[debug RUN] <p1 #2>"], some 6, [.write true]⟩ ∧
        s.increments p = some [0, 2, 0, 3, 1] :=
    ⟨_, _, _, _, _, _, _, by cbv, by cbv, by cbv, by cbv, rfl, by cbv, by cbv, by cbv, by cbv,
      by cbv, by cbv, by cbv, by cbv⟩
  have sequential : s.plan.strategy = .sequential := by rw [hs]
  have kept : s.stats.isSome := by
    rw [hs]
    rfl
  obtain ⟨renumbers, -, isolated⟩ :=
    (runs_isolated _ (lit "b") (lit "c") 0 3).2 p last q last' compiled compiled'
  obtain ⟨same, counts, -⟩ := isolated s s' sequential sequential' depth input
  refine ⟨earlier, p, q, last, last', s, s', compiled₀, hs', pending, uncached, hs, compiled,
    compiled', renumbers, same, ?_, ?_⟩
  · rw [← same, observed]
  · rw [← counts kept kept', counters]

end BitCalculus
