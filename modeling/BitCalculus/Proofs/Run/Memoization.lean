import Mathlib
import BitCalculus.Proofs.Run.Moments
import BitCalculus.Proofs.Run.Programs

/-!
# Memoization is unobservable

A sequential run with its cache and plain evaluation, which executes every application and knows no
numbers, cannot be told apart: either both go on for ever, or both end with the same stream calls,
the same streams and the same datum. At every moment of a run, what is remembered for a function and
an argument is what executing them comes to without a stream call.
-/

namespace BitCalculus

open Eval (Moment Occurs)

theorem Cache.applications_instantiateAll (c : Cache) (names : List Token) :
    (c.instantiateAll names).2.2.applications = c.applications := by
  induction names generalizing c with
  | nil => rfl
  | cons t names ih =>
    rw [instantiateAll]
    split
    · exact ih c
    · exact ih _

/-- A run begins with nothing remembered. -/
theorem Session.applications_start {s : Session} {p : Program} {c : Eval.Call}
    (h : s.start p = some c) : c.w.cache.applications = {} := by
  unfold start at h
  split at h
  · next env cache root hb hr =>
    cases h
    unfold Cache.bind at hb
    split at hb
    · next values c' hi =>
      have hc := Cache.applications_instantiateAll {} p.free
      rw [hi] at hc
      cases hb
      exact (Cache.applications_environment _ _).trans hc
    · cases hb
  · cases h

/-- For every compiled program whose free names are built in, on all streams and under every plan:
the run comes to an end exactly if plain evaluation does; both then come to the same datum with the
same stream calls and leave the same streams; and at every moment of the run numbers identify its
values, and a remembered result belongs to a function and an argument of the run whose execution
comes to it without a stream call. -/
theorem memoization_unobservable {source text : Bytes} {lastId last : Nat} {p : Program}
    (compiled : Program.compile source text lastId = .ok (p, last)) (builtins : AllBuiltin p.free)
    (s : Session) :
    ((∃ n, (s.atDepth n).Terminates p) ↔ ∃ n, Plain.Terminates n p s.streams) ∧
      (∀ n m, (s.atDepth n).Terminates p → Plain.Terminates m p s.streams →
        ∃ d t, Plain.run m p s.streams = (.value d, t) ∧ (s.atDepth n).ComesTo p d t) ∧
      ∀ n c, (s.atDepth n).start p = some c →
        (∀ v v', Occurs s.plan c v → Occurs s.plan c v' → v.id = v'.id → v = v') ∧
        ∀ w, Moment s.plan c w → ∀ (key : Nat × Nat) (r : Value),
          w.cache.applications[key]? = some r →
            ∃ f a, Occurs s.plan c f ∧ Occurs s.plan c a ∧ key = (f.id, a.id) ∧
              Plain.Quiet f.erase a.erase r.erase := by
  obtain ⟨F, safe, closed⟩ := Program.closedIn_of_compile compiled builtins
  refine ⟨closed.terminates_iff safe s, fun n m hn hm ↦ closed.comesTo_plain safe hn hm, ?_⟩
  intro n c hc
  obtain ⟨R, R', spans⟩ := closed.spans hc
  refine ⟨fun v v' ↦ spans.id_inj, fun w hw key r hk ↦ ?_⟩
  exact spans.entry (Session.applications_start hc) hw hk

/-- The identity is applied to itself twice, so that the second result is a remembered one, and a bit
is written afterwards. -/
theorem memoization_unobservable_identity :
    ∃ p last, Program.compile (lit "t")
        (lit "(\\i (\\a \\b __builtin_p1 a) (i i) (i i)) (\\x x)") 0 = .ok (p, last) ∧
      AllBuiltin p.free ∧
      ∃ n d t, Plain.run 6 p ({} : Session).streams = (.value d, t) ∧
        (({} : Session).atDepth n).ComesTo p d t := by
  obtain ⟨p, last, compiled, builtins, d, t, plain⟩ : ∃ p last, Program.compile (lit "t")
        (lit "(\\i (\\a \\b __builtin_p1 a) (i i) (i i)) (\\x x)") 0 = .ok (p, last) ∧
      AllBuiltin p.free ∧ ∃ d t, Plain.run 6 p ({} : Session).streams = (.value d, t) :=
    ⟨_, _, by cbv, by decide +kernel, _, _, by cbv⟩
  have terminates : Plain.Terminates 6 p ({} : Session).streams := by
    rw [Plain.Terminates, plain]
    simp
  obtain ⟨ends, agree, -⟩ := memoization_unobservable compiled builtins {}
  obtain ⟨n, hn⟩ := ends.mpr ⟨6, terminates⟩
  obtain ⟨d, t, plain, comes⟩ := agree n 6 hn terminates
  exact ⟨p, last, compiled, builtins, n, d, t, plain, comes⟩

end BitCalculus
