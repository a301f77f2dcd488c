import BitCalculus.Proofs.Graph.Resolve
import BitCalculus.Proofs.Run.Simulation
import BitCalculus.Run.Session

/-!
# Runs of programs

A run binds the free names of its program to built-in functions and evaluates the root. What holds of
calls holds of runs: under every plan, the run of a program whose slots are in range comes to an end
exactly if plain evaluation does, and then both come to the same datum and leave the same streams.
-/

namespace BitCalculus

/-! ### Built-in data -/

/-- The function as a datum. -/
def Builtin.datum : Builtin → Datum
  | writeZero => .writer false
  | writeOne => .writer true
  | read => .reader []
  | debug => .probe

/-- The value of a function is its datum, whatever its number. -/
theorem Builtin.erase_value (b : Builtin) (id : Nat) : (b.value id).erase = b.datum := by
  cases b <;> rfl

theorem Builtin.id_value (b : Builtin) (id : Nat) : (b.value id).id = id := by
  cases b <;> rfl

/-- The value of a function is no closure. -/
theorem Builtin.closureKey?_value (b : Builtin) (id : Nat) : (b.value id).closureKey? = none := by
  cases b <;> rfl

/-- All names are built in. -/
def AllBuiltin (names : List Token) : Prop :=
  ∀ t ∈ names, (Builtin.find? t.text).isSome

instance (names : List Token) : Decidable (AllBuiltin names) :=
  inferInstanceAs (Decidable (∀ t ∈ names, (Builtin.find? t.text).isSome))

/-- The data of the names that are built in, in order. -/
def builtinData (names : List Token) : List Datum :=
  names.filterMap fun t ↦ (Builtin.find? t.text).map Builtin.datum

theorem builtinData_cons {t : Token} {b : Builtin} (h : Builtin.find? t.text = some b)
    (names : List Token) : builtinData (t :: names) = b.datum :: builtinData names := by
  simp [builtinData, h]

theorem length_builtinData {names : List Token} (h : AllBuiltin names) :
    (builtinData names).length = names.length := by
  induction names with
  | nil => rfl
  | cons t names ih =>
    obtain ⟨b, hb⟩ := Option.isSome_iff_exists.mp (h t List.mem_cons_self)
    rw [builtinData_cons hb, List.length_cons, List.length_cons,
      ih fun t ht ↦ h t (List.mem_cons_of_mem _ ht)]

namespace Cache

variable {F : NodeFamily}

/-- Making the values of built-in names keeps the cache sound. -/
theorem sound_instantiateAll {names : List Token} (hb : AllBuiltin names) {c : Cache}
    {R : Registry F} (h : c.Sound R) :
    ∃ R' values c', c.instantiateAll names = (values, [], c') ∧ R ≤ R' ∧ c'.Sound R' ∧
      (∀ v ∈ values, R'.Holds v) ∧ values.map Value.erase = builtinData names := by
  induction names generalizing c R with
  | nil => exact ⟨R, [], c, rfl, R.le_refl, h, by simp, rfl⟩
  | cons t names ih =>
    obtain ⟨b, hf⟩ := Option.isSome_iff_exists.mp (hb t List.mem_cons_self)
    have parts : R.Supports (b.value (c.lastId + 1)) := by
      cases b with
      | read =>
        intro v hv
        cases hv
      | writeZero => trivial
      | writeOne => trivial
      | debug => trivial
    obtain ⟨R₁, le₁, made, sound₁⟩ :=
      h.next_value (b.id_value _) parts (b.closureKey?_value _)
    obtain ⟨R₂, values, c', hi, le₂, sound₂, held, erased⟩ :=
      ih (fun t ht ↦ hb t (List.mem_cons_of_mem _ ht)) sound₁
    refine ⟨R₂, b.value (c.lastId + 1) :: values, c', ?_, Registry.le_trans le₁ le₂, sound₂, ?_, ?_⟩
    · rw [instantiateAll, hf]
      dsimp only [Builtin.instantiate]
      rw [hi]
      rfl
    · intro v hv
      rcases List.mem_cons.mp hv with rfl | hv
      · exact made.mono le₂
      · exact held v hv
    · rw [List.map_cons, erased, b.erase_value, builtinData_cons hf]

/-- Binding built-in names in a new cache gives an environment of their data. -/
theorem sound_bind {names : List Token} (hb : AllBuiltin names) :
    ∃ (R : Registry F) (env : Base) (c : Cache), bind {} names = (.ok env, c) ∧ c.Sound R ∧
      R.HoldsBase env ∧ env.values.map Value.erase = builtinData names := by
  obtain ⟨R₁, values, c₁, hi, -, sound₁, held, erased⟩ :=
    sound_instantiateAll hb (sound_empty (F := F))
  obtain ⟨R₂, -, sound₂, heldE, hv⟩ := sound_environment sound₁ held
  refine ⟨R₂, (c₁.environment values).1, (c₁.environment values).2, ?_, sound₂, heldE, ?_⟩
  · rw [bind, hi]
  · rw [hv, erased]

/-- If no name is left over, all are built in. -/
theorem allBuiltin_of_instantiateAll {c : Cache} {names : List Token}
    (h : (c.instantiateAll names).2.1 = []) : AllBuiltin names := by
  induction names generalizing c with
  | nil =>
    intro t ht
    cases ht
  | cons t names ih =>
    rw [instantiateAll] at h
    cases hf : Builtin.find? t.text with
    | none =>
      rw [hf] at h
      cases h
    | some b =>
      rw [hf] at h
      intro t' ht'
      rcases List.mem_cons.mp ht' with rfl | ht'
      · rw [hf]
        rfl
      · exact ih h t' ht'

/-- Only built-in names can be bound. -/
theorem allBuiltin_of_bind {c : Cache} {names : List Token} {env : Base}
    (h : (c.bind names).1 = .ok env) : AllBuiltin names := by
  unfold bind at h
  split at h
  · next values c' hi => exact allBuiltin_of_instantiateAll (congrArg (·.2.1) hi)
  · cases h

end Cache

/-! ### Runs -/

/-- The stream calls of a run. -/
def RunResult.calls (r : RunResult) : List StreamCall :=
  r.journal.toList.filterMap Event.streamCall?

namespace Session

/-- The streams on which the next run begins. -/
def streams (s : Session) : Streams :=
  ⟨s.output, s.input, []⟩

/-- The session with another bound on the depth of evaluation. -/
def atDepth (s : Session) (depth : Nat) : Session :=
  { s with depth }

/-- The call with which the run of a program begins. -/
def start (s : Session) (p : Program) : Option Eval.Call :=
  match Cache.bind {} p.free, p.root with
  | (.ok env, cache), some root =>
    some ⟨s.depth, 0, root, .base env,
      { cache, output := s.output, input := s.input, stats := s.stats }⟩
  | _, _ => none

/-- The run of a program ends before it runs out of depth. -/
def Terminates (s : Session) (p : Program) : Prop :=
  (s.run p).1.error ≠ some .outOfDepth

/-- The run of a program ends with the datum `d` and leaves the streams `t`, whose calls are the
stream calls of the run. -/
structure ComesTo (s : Session) (p : Program) (d : Datum) (t : Streams) : Prop where
  value : ∃ v, (s.run p).1.value = some v ∧ v.erase = d
  output : (s.run p).2.output = t.output
  input : (s.run p).2.input = t.input
  calls : (s.run p).1.calls = t.calls

/-- A run begins once its names are bound, with the statistics of the session. -/
theorem bound_of_start {s : Session} {p : Program} {c : Eval.Call} (h : s.start p = some c) :
    (∃ env, (Cache.bind {} p.free).1 = .ok env) ∧ c.w.stats = s.stats := by
  unfold start at h
  split at h
  · next env cache root hb hr =>
    cases h
    exact ⟨⟨env, congrArg Prod.fst hb⟩, rfl⟩
  · cases h

/-- A run is the call with which it begins. -/
theorem run_eq {s : Session} {p : Program} {c : Eval.Call} (h : s.start p = some c) :
    s.run p =
      (conclude (c.result s.plan).1 (c.result s.plan).2,
        { s with
          output := (c.result s.plan).2.output
          input := (c.result s.plan).2.input
          stats := (c.result s.plan).2.stats
          cache := some (c.result s.plan).2.cache }) := by
  unfold start at h
  split at h
  · next env cache root hb hr =>
    cases h
    rw [run, hb, hr]
    rfl
  · cases h

end Session

/-- Evaluates the root of a program to the given depth, with its free names bound to built-in
data. -/
def Plain.run (depth : Nat) (p : Program) (s : Streams) : Outcome Datum × Streams :=
  match p.root with
  | none => (.fault .absentExpression, s)
  | some root => Plain.eval depth root (builtinData p.free) s

/-- Plain evaluation of a program ends before it runs out of depth. -/
def Plain.Terminates (depth : Nat) (p : Program) (s : Streams) : Prop :=
  (Plain.run depth p s).1 ≠ .outOfDepth

theorem Plain.terminates_of_value {depth : Nat} {p : Program} {s t : Streams} {d : Datum}
    (h : Plain.run depth p s = (.value d, t)) : Plain.Terminates depth p s := by
  rw [Plain.Terminates, h]
  simp

/-- A program is closed in a family of expressions: its free names are built in and its root belongs
to the family. -/
structure Program.ClosedIn (F : NodeFamily) (p : Program) : Prop where
  builtins : AllBuiltin p.free
  root : ∃ root, p.root = some root ∧ F.admits p.free.length root

section Runs

variable {F : NodeFamily} {p : Program}

/-- The first call of a run begins in order. -/
theorem Program.ClosedIn.start (h : p.ClosedIn F) (s : Session) :
    ∃ c, s.start p = some c ∧ c.depth = s.depth ∧ p.root = some c.e ∧
      c.env.data = builtinData p.free ∧ c.w.streams = s.streams ∧
      ∃ R : Registry F, Eval.Ready R c := by
  obtain ⟨root, hr, admitted⟩ := h.root
  obtain ⟨R, env, cache, hb, sound, held, erased⟩ := Cache.sound_bind (F := F) h.builtins
  refine ⟨⟨s.depth, 0, root, .base env,
    { cache, output := s.output, input := s.input, stats := s.stats }⟩,
    ?_, rfl, hr, erased, rfl, R, ?_, held, sound⟩
  · rw [Session.start, hb, hr]
  · have hl := length_builtinData h.builtins
    rw [← erased] at hl
    exact hl ▸ admitted

/-- All calls of a run begin and end in order, and in the end its cache is sound. -/
theorem Program.ClosedIn.spans_sound (h : p.ClosedIn F) {s : Session} {c : Eval.Call}
    (hc : s.start p = some c) :
    ∃ R R' : Registry F, Eval.Spans s.plan R R' c ∧ (c.result s.plan).2.cache.Sound R' := by
  obtain ⟨c', hc', -, -, -, -, R, ready⟩ := h.start s
  cases hc.symm.trans hc'
  obtain ⟨R', -, sound, spans, -⟩ := Eval.settlesAt s.plan c.depth R c.busy c.e c.env c.w ready
  exact ⟨R, R', spans c List.mem_cons_self, sound⟩

/-- All calls of a run begin and end in order. -/
theorem Program.ClosedIn.spans (h : p.ClosedIn F) {s : Session} {c : Eval.Call}
    (hc : s.start p = some c) : ∃ R R' : Registry F, Eval.Spans s.plan R R' c := by
  obtain ⟨R, R', spans, -⟩ := h.spans_sound hc
  exact ⟨R, R', spans⟩

/-- Plain evaluation of a program whose slots are in range has no fault. -/
theorem Program.ClosedIn.plain_value (h : p.ClosedIn F) (safe : F.InRange) {n : Nat} {s : Streams}
    (ht : Plain.Terminates n p s) : ∃ d t, Plain.run n p s = (.value d, t) := by
  obtain ⟨root, hr, admitted⟩ := h.root
  rw [Plain.Terminates, Plain.run, hr] at ht
  rw [← length_builtinData h.builtins] at admitted
  have data : ∀ d ∈ builtinData p.free, d.Admitted F := by
    intro d hd
    obtain ⟨t, -, ht⟩ := List.mem_filterMap.mp hd
    obtain ⟨b, -, rfl⟩ := Option.map_eq_some_iff.mp ht
    cases b with
    | writeZero => exact .writer false
    | writeOne => exact .writer true
    | read => exact .reader (by simp)
    | debug => exact .probe
  have meets := Plain.eval_admitted n s admitted data
  rw [Plain.run, hr]
  dsimp only at ht ⊢
  rcases he : Plain.eval n root (builtinData p.free) s with ⟨d | reason | _, t⟩
  · exact ⟨d, t, rfl⟩
  · rw [he] at meets
    exact absurd safe meets
  · rw [he] at ht
    exact absurd rfl ht

/-- A run that ends comes to what plain evaluation of some depth comes to. -/
theorem Program.ClosedIn.comesTo (h : p.ClosedIn F) (safe : F.InRange) {s : Session}
    (ht : s.Terminates p) :
    ∃ n d t, Plain.run n p s.streams = (.value d, t) ∧ s.ComesTo p d t := by
  obtain ⟨c, hc, -, hr, hd, hs, R, ready⟩ := h.start s
  obtain ⟨R', -, -, -, meets, -⟩ := Eval.settlesAt s.plan c.depth R c.busy c.e c.env c.w ready
  have run := Session.run_eq hc
  rw [Session.Terminates, run] at ht
  rw [Eval.Call.result] at run ht
  rcases he : eval s.plan c.depth c.busy c.e c.env c.w with ⟨a | reason | _, w⟩
  · rw [he] at meets run
    obtain ⟨-, ⟨n, hn⟩, -⟩ := meets
    rw [hd, hs] at hn
    refine ⟨n, a.value.erase, w.streams, ?_, ⟨a.value, ?_, rfl⟩, ?_, ?_, ?_⟩
    · rw [Plain.run, hr]
      exact hn
    all_goals
      rw [run]
      rfl
  · rw [he] at meets
    exact absurd safe meets
  · rw [he] at ht
    exact absurd rfl ht

/-- A run ends if plain evaluation of its depth comes to a datum. -/
theorem Program.ClosedIn.terminates (h : p.ClosedIn F) {s : Session} {d : Datum} {t : Streams}
    (hp : Plain.run s.depth p s.streams = (.value d, t)) : s.Terminates p := by
  obtain ⟨c, hc, hn, hr, hd, hs, R, ready⟩ := h.start s
  obtain ⟨R', -, -, -, -, returns⟩ := Eval.settlesAt s.plan c.depth R c.busy c.e c.env c.w ready
  rw [Plain.run, hr, ← hn, ← hd, ← hs] at hp
  obtain ⟨a, ha⟩ := returns ⟨d, t, hp⟩
  have hv : (c.result s.plan).1 = .value a := ha
  rw [Session.Terminates, Session.run_eq hc, hv, Session.conclude]
  cases (c.result s.plan).2.output.firstError <;> simp

/-- Under every plan, runs come to an end exactly if plain evaluation does. -/
theorem Program.ClosedIn.terminates_iff (h : p.ClosedIn F) (safe : F.InRange) (s : Session) :
    (∃ n, (s.atDepth n).Terminates p) ↔ ∃ n, Plain.Terminates n p s.streams := by
  constructor
  · rintro ⟨n, ht⟩
    obtain ⟨m, d, t, hm, -⟩ := h.comesTo safe ht
    exact ⟨m, Plain.terminates_of_value hm⟩
  · rintro ⟨n, ht⟩
    obtain ⟨d, t, hn⟩ := h.plain_value safe ht
    exact ⟨n, h.terminates (s := s.atDepth n) hn⟩

/-- A run that ends comes to what plain evaluation comes to, at any depths at which both end. -/
theorem Program.ClosedIn.comesTo_plain (h : p.ClosedIn F) (safe : F.InRange) {s : Session}
    (ht : s.Terminates p) {m : Nat} (hm : Plain.Terminates m p s.streams) :
    ∃ d t, Plain.run m p s.streams = (.value d, t) ∧ s.ComesTo p d t := by
  obtain ⟨n, d, t, hn, comes⟩ := h.comesTo safe ht
  obtain ⟨d', t', hm⟩ := h.plain_value safe hm
  refine ⟨d', t', hm, ?_⟩
  obtain ⟨root, hr, -⟩ := h.root
  rw [Plain.run, hr] at hn hm
  obtain ⟨rfl, rfl⟩ := Plain.eval_agree hn hm
  exact comes

/-- Two runs on the same streams that end come to the same, whatever their plans and depths. -/
theorem Program.ClosedIn.comesTo_same (h : p.ClosedIn F) (safe : F.InRange) {s s' : Session}
    (hs : s.streams = s'.streams) (ht : s.Terminates p) (ht' : s'.Terminates p) :
    ∃ d t, s.ComesTo p d t ∧ s'.ComesTo p d t := by
  obtain ⟨n, d, t, plain, comes⟩ := h.comesTo safe ht
  rw [hs] at plain
  obtain ⟨d', t', plain', comes'⟩ := h.comesTo_plain safe ht' (Plain.terminates_of_value plain)
  cases plain.symm.trans plain'
  exact ⟨d, t, comes, comes'⟩

end Runs

/-! ### Interned programs -/

/-- The program of a tree that was interned in an arena with natural captures reads slots in range
only. -/
theorem Program.closedIn_of_intern {a a' : Arena} (ha : a.Built (0 ≤ ·)) {tree : Tree} {root : Expr}
    {free : Scope} (hi : a.intern tree = (root, free, a')) (hb : AllBuiltin free) (source : Bytes) :
    ∃ F : NodeFamily, F.InRange ∧ ClosedIn F ⟨source, a'.graph, some root, free⟩ := by
  have interned := Arena.interned_of_internIn ha hi
  have lawful := interned.built.wellFormed.toLawful
  exact ⟨lawful.scopedFamily, lawful.inRange_scopedFamily, hb, root, rfl, interned.mem,
    interned.inScope⟩

/-- A compiled program reads slots in range only. -/
theorem Program.closedIn_of_compile {source text : Bytes} {lastId last : Nat} {p : Program}
    (hc : compile source text lastId = .ok (p, last)) (hb : AllBuiltin p.free) :
    ∃ F : NodeFamily, F.InRange ∧ ClosedIn F p := by
  obtain ⟨tree, root, hi, hp⟩ := intern_of_compile hc
  obtain ⟨F, safe, closed⟩ := closedIn_of_intern (.empty lastId) hi hb source
  exact ⟨F, safe, hp ▸ closed⟩

end BitCalculus
