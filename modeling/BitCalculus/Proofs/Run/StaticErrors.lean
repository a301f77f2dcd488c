import Mathlib
import BitCalculus.Prompt
import BitCalculus.Proofs.Graph.FreeNames
import BitCalculus.Proofs.Run.Programs

/-!
# Static errors leave no trace

The names of a program are bound before anything else happens. A run therefore reports undefined
names exactly if the text has free names that are not built in; it reports all of them, each once
and where it occurs first, and leaves the session as it was: the streams, the statistics and the
cache of the run before. A text that is no program does not even come to a run.
-/

namespace BitCalculus

/-- The name is that of a built-in function. -/
def Builtin.Names (name : Bytes) : Prop :=
  name ∈ Builtin.all.map Builtin.name

instance (name : Bytes) : Decidable (Builtin.Names name) :=
  inferInstanceAs (Decidable (name ∈ _))

theorem Builtin.find?_eq_none {name : Bytes} : find? name = none ↔ ¬ Names name := by
  simp [find?, Names]

/-- The tokens list the free names of the tree that are not built in: each once, as the token of its
first free occurrence, and in the order of these occurrences. -/
structure Tree.Undefined (t : Tree) (names : List Token) : Prop where
  different : (names.map Token.text).Nodup
  exact : ∀ name, name ∈ names.map Token.text ↔ name ∈ t.freeNames ∧ ¬ Builtin.Names name
  ordered : names.Sublist t.freeOccurrences
  first : ∀ token ∈ names, t.freeOccurrences.find? (fun u ↦ u.text == token.text) = some token

/-! ### Binding -/

/-- The names that are not built in, in order. -/
def undefinedNames (names : List Token) : List Token :=
  names.filter fun t ↦ ¬ Builtin.Names t.text

theorem Cache.undefined_instantiateAll (c : Cache) (names : List Token) :
    (c.instantiateAll names).2.1 = undefinedNames names := by
  induction names generalizing c with
  | nil => rfl
  | cons t names ih =>
    rw [instantiateAll, undefinedNames]
    cases hf : Builtin.find? t.text with
    | none =>
      rw [List.filter_cons_of_pos (by simpa using Builtin.find?_eq_none.mp hf)]
      exact congrArg (t :: ·) (ih c)
    | some b =>
      have named : Builtin.Names t.text := by
        by_contra h
        rw [Builtin.find?_eq_none.mpr h] at hf
        cases hf
      rw [List.filter_cons_of_neg (by simpa using named)]
      exact ih (b.instantiate c).2

/-- Names can be bound exactly if all of them are built in, and those that are not are reported. -/
theorem Cache.bind_fst (c : Cache) (names : List Token) :
    (undefinedNames names = [] ∧ ∃ env, (c.bind names).1 = .ok env) ∨
      (undefinedNames names ≠ [] ∧ (c.bind names).1 = .error (undefinedNames names)) := by
  have undefined := c.undefined_instantiateAll names
  rw [bind]
  rcases hi : c.instantiateAll names with ⟨values, us, c'⟩
  rw [hi] at undefined
  cases us with
  | nil => exact .inl ⟨undefined.symm, _, rfl⟩
  | cons u us =>
    refine .inr ⟨?_, congrArg Except.error undefined⟩
    rw [← undefined]
    exact List.cons_ne_nil u us

/-! ### Runs -/

namespace Session

/-- A run with undefined names reports them and does nothing else. -/
theorem run_of_undefined (s : Session) {p : Program} (h : undefinedNames p.free ≠ []) :
    s.run p = ({ error := some (.undefined (undefinedNames p.free)) }, s) := by
  rcases Cache.bind_fst {} p.free with ⟨none, -⟩ | ⟨-, bound⟩
  · exact absurd none h
  · rcases hb : Cache.bind {} p.free with ⟨result, cache⟩
    rw [hb] at bound
    cases bound
    rw [run, hb]

/-- What an evaluation comes to is no report of undefined names. -/
theorem error_conclude_ne (outcome : Outcome Answer) (w : World) (names : List Token) :
    (conclude outcome w).error ≠ some (.undefined names) := by
  cases outcome with
  | value answer => cases hw : w.output.firstError <;> simp [conclude, hw]
  | fault reason => simp [conclude]
  | outOfDepth => simp [conclude]

/-- Undefined names are reported exactly if there are any. -/
theorem error_run_eq_undefined {s : Session} {p : Program} {names : List Token} :
    (s.run p).1.error = some (.undefined names) ↔
      undefinedNames p.free ≠ [] ∧ names = undefinedNames p.free := by
  rcases Cache.bind_fst {} p.free with ⟨defined, env, bound⟩ | ⟨undefined, -⟩
  · rcases hb : Cache.bind {} p.free with ⟨result, cache⟩
    rw [hb] at bound
    cases bound
    rw [run, hb]
    exact iff_of_false (error_conclude_ne _ _ names) fun h ↦ h.1 defined
  · rw [run_of_undefined s undefined, Option.some.injEq, RunError.undefined.injEq, eq_comm]
    exact (and_iff_right undefined).symm

end Session

/-! ### Compiled programs -/

/-- A text that parses compiles to a program whose free names are those of the tree. -/
theorem Program.compile_of_parse {source text : Bytes} {tree : Tree}
    (parsed : parseText source text = .ok tree) (lastId : Nat) :
    ∃ p last, compile source text lastId = .ok (p, last) ∧ p.free = tree.freeVariables := by
  have scope := Arena.scope_internIn { lastId } [] tree
  rw [Tree.shapeIn_nil_snd] at scope
  rcases hi : Arena.intern { lastId } tree with ⟨root, free, arena⟩
  rw [show Arena.internIn { lastId } [] tree = _ from hi] at scope
  refine ⟨⟨source, arena.graph, some root, free⟩, arena.lastId, ?_, scope⟩
  rw [compile, parsed]
  dsimp only
  rw [hi]

/-- Leaving out what is built in keeps the first free occurrences of all other names. -/
theorem Tree.undefined_freeVariables (t : Tree) : t.Undefined (undefinedNames t.freeVariables) where
  different := (nodup_firstOfEach t.freeOccurrences).sublist (List.filter_sublist.map _)
  exact name := by
    have free : name ∈ t.freeVariables.map Token.text ↔ name ∈ t.freeNames := by
      rw [← t.map_freeOccurrences]
      exact mem_map_firstOfEach t.freeOccurrences
    rw [← free]
    simp only [undefinedNames, List.mem_map, List.mem_filter, decide_eq_true_eq]
    constructor
    · rintro ⟨token, ⟨hm, undefined⟩, rfl⟩
      exact ⟨⟨token, hm, rfl⟩, undefined⟩
    · rintro ⟨⟨token, hm, rfl⟩, undefined⟩
      exact ⟨token, ⟨hm, undefined⟩, rfl⟩
  ordered := List.filter_sublist.trans (sublist_firstOfEach t.freeOccurrences)
  first token hm := find?_of_mem_firstOfEach _ (List.mem_of_mem_filter hm)

/-- A tree has undefined names exactly if one of its free names is not built in. -/
theorem Tree.undefinedNames_ne_nil (t : Tree) :
    undefinedNames t.freeVariables ≠ [] ↔ ∃ name ∈ t.freeNames, ¬ Builtin.Names name := by
  constructor
  · intro h
    obtain ⟨token, hm⟩ := List.exists_mem_of_ne_nil _ h
    exact ⟨token.text, (t.undefined_freeVariables.exact _).mp (List.mem_map_of_mem hm)⟩
  · rintro ⟨name, undefined⟩ none
    have hm := (t.undefined_freeVariables.exact name).mpr undefined
    rw [none] at hm
    cases hm

/-! ### The prompt -/

/-- A text is rejected if it does not parse or has a free name that is not built in. -/
def Rejected (source text : Bytes) : Prop :=
  ∀ tree, parseText source text = .ok tree → ∃ name ∈ tree.freeNames, ¬ Builtin.Names name

/-- All that a rejected entry changes at the prompt is the numbering of nodes, and no run that is
shown for it did anything. -/
theorem Prompt.evaluate_of_rejected {source text : Bytes} (h : Rejected source text) (d : Desk) :
    (evaluate d source text).2.2 = { d with lastId := (evaluate d source text).2.2.lastId } ∧
      ∀ record, .ran record ∈ (evaluate d source text).2.1 → record.result.journal = #[] := by
  cases parsed : parseText source text with
  | error e =>
    have refused : Program.compile source text d.lastId = .error e := by
      rw [Program.compile, parsed]
    rw [evaluate, refused]
    by_cases more : e.kind = .missingRightParen <;> simp [more, line]
  | ok tree =>
    obtain ⟨p, last, compiled, free⟩ := Program.compile_of_parse parsed d.lastId
    have undefined : undefinedNames p.free ≠ [] := by
      rw [free]
      exact tree.undefinedNames_ne_nil.mpr (h tree parsed)
    rw [evaluate, compiled]
    simp [Desk.run, d.session.run_of_undefined undefined, line]

/-- For every text: if it parses, it compiles, and in any session the program fails with undefined
names exactly if one of the free names of the text is not built in; the names that are reported are
all of these, each once and in order, where they first occur free; and the run does nothing and
leaves the session as it was. Neither an undefined name nor an error of syntax changes anything at
the prompt but the numbering of nodes. -/
theorem static_errors_complete (source text : Bytes) (lastId : Nat) :
    (∀ tree, parseText source text = .ok tree →
      ∃ p last, Program.compile source text lastId = .ok (p, last) ∧ ∀ s : Session,
        ((∃ names, (s.run p).1.error = some (.undefined names)) ↔
          ∃ name ∈ tree.freeNames, ¬ Builtin.Names name) ∧
        ∀ names, (s.run p).1.error = some (.undefined names) →
          tree.Undefined names ∧ s.run p = ({ error := some (.undefined names) }, s)) ∧
    (∀ e, parseText source text = .error e ↔ Program.compile source text lastId = .error e) ∧
    (Rejected source text → ∀ d : Desk,
      (Prompt.evaluate d source text).2.2 =
          { d with lastId := (Prompt.evaluate d source text).2.2.lastId } ∧
        ∀ record, .ran record ∈ (Prompt.evaluate d source text).2.1 →
          record.result.journal = #[]) := by
  refine ⟨fun tree parsed ↦ ?_, fun e ↦ ?_, Prompt.evaluate_of_rejected⟩
  · obtain ⟨p, last, compiled, free⟩ := Program.compile_of_parse parsed lastId
    refine ⟨p, last, compiled, fun s ↦ ⟨?_, fun names reported ↦ ?_⟩⟩
    · simp only [Session.error_run_eq_undefined, exists_and_left, exists_eq, and_true]
      rw [free, tree.undefinedNames_ne_nil]
    · obtain ⟨undefined, rfl⟩ := Session.error_run_eq_undefined.mp reported
      refine ⟨?_, s.run_of_undefined undefined⟩
      rw [free]
      exact tree.undefined_freeVariables
  · rw [Program.compile]
    cases parseText source text <;> simp

/-- A program with a name that is bound in one place and free in another, and with names that occur
twice, reports the first free occurrences. A parenthesis too many leaves the session alone. -/
theorem static_errors_complete_shadowed :
    (∃ tree p last, parseText (lit "t") (lit "(\\x y x) (__builtin_p1 (x y z x))") = .ok tree ∧
      Program.compile (lit "t") (lit "(\\x y x) (__builtin_p1 (x y z x))") 7 = .ok (p, last) ∧
      ∀ s : Session, ∃ names, tree.Undefined names ∧
        s.run p = ({ error := some (.undefined names) }, s) ∧
        names.map (fun t ↦ (t.text, t.location.column)) =
          [(lit "y", 5), (lit "x", 25), (lit "z", 29)]) ∧
    Rejected (lit "t") (lit "x)") ∧
      ∀ d : Desk, (Prompt.evaluate d (lit "t") (lit "x)")).2.2.session = d.session := by
  constructor
  · have parsed : ∃ tree,
        parseText (lit "t") (lit "(\\x y x) (__builtin_p1 (x y z x))") = .ok tree ∧
          (undefinedNames tree.freeVariables).map (fun t ↦ (t.text, t.location.column)) =
            [(lit "y", 5), (lit "x", 25), (lit "z", 29)] := ⟨_, by cbv, by cbv⟩
    obtain ⟨tree, parsed, shown⟩ := parsed
    have undefined : undefinedNames tree.freeVariables ≠ [] := by
      intro none
      rw [none] at shown
      cases shown
    obtain ⟨p, last, compiled, runs⟩ := (static_errors_complete _ _ 7).1 tree parsed
    refine ⟨tree, p, last, parsed, compiled, fun s ↦ ?_⟩
    obtain ⟨names, reported⟩ := (runs s).1.mpr (tree.undefinedNames_ne_nil.mp undefined)
    obtain ⟨listed, traceless⟩ := (runs s).2 names reported
    obtain ⟨p', last', compiled', free⟩ := Program.compile_of_parse parsed 7
    cases compiled.symm.trans compiled'
    rw [← free, ← (Session.error_run_eq_undefined.mp reported).2] at shown
    exact ⟨names, listed, traceless, shown⟩
  · have refused : ∃ e, parseText (lit "t") (lit "x)") = .error e := ⟨_, by cbv⟩
    obtain ⟨e, refused⟩ := refused
    have rejected : Rejected (lit "t") (lit "x)") := by
      intro tree parsed
      rw [refused] at parsed
      cases parsed
    refine ⟨rejected, fun d ↦ ?_⟩
    rw [((static_errors_complete _ _ 0).2.2 rejected d).1]

end BitCalculus
