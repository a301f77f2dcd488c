import Mathlib
import BitCalculus.Proofs.Run.Moments
import BitCalculus.Proofs.Run.Programs

/-!
# Purity

An expression is provably pure in an environment if none of the slots that it reads holds a value
from which a stream can be reached. At every moment of every run, evaluating such an expression
calls no stream and comes to a value from which no stream can be reached, and so does applying such a
value to such a value. Nothing is assumed of the slots of the graph: they need not be in range.
-/

namespace BitCalculus

namespace Eval

variable {F : NodeFamily} {plan : Plan} {R R₁ R' : Registry F} {c c' : Call} {w : World}

/-! ### Inert calls -/

/-- The body of a closure is inert if no stream can be reached from the closure or its argument. -/
theorem inert_overlay {i : Nat} {captured : Base} {body : Expr} {x : Value}
    (hf : R.Holds (.closure i captured body))
    (pureF : (Value.closure i captured body).effectful = false) (pureX : x.effectful = false) :
    (Env.overlay captured x).Inert body := by
  rw [Value.effectful, R.effectful (R.closure hf).1, List.any_eq_false] at pureF
  intro i _ v hv
  rw [Env.get] at hv
  split at hv
  · cases hv
    exact pureX
  · simpa using pureF v (mem_of_elementAt hv)

/-- The answers to the parts of an inert call come without a stream, and so does a call that it
makes. -/
theorem inert_asks (ready : Ready R c) (inert : c.env.Inert c.e) :
    (∀ f a w, c.parts plan = some (.value (f, a), w) → f.value.effectful = false) ∧
      ∀ c' ∈ c.asks plan, c'.env.Inert c'.e := by
  have answers {f a : Answer} {w : World} (hp : c.parts plan = some (.value (f, a), w)) :
      ∃ R' : Registry F, (R'.Holds f.value ∧ f.value.effectful = false) ∧
        a.value.effectful = false := by
    obtain ⟨depth, busy, e, env, w₀⟩ := c
    unfold Call.parts at hp
    split at hp
    · next he =>
      cases he
      obtain ⟨R', -, ⟨heldF, -, pureF⟩, -, -, pureA⟩ := inert_operands (settlesAt plan _)
        ready.admitted ready.env ready.cache inert (Option.some.inj hp)
      exact ⟨R', ⟨heldF, pureF⟩, pureA⟩
    · cases hp
  constructor
  · intro f a w hp
    obtain ⟨R', ⟨-, pureF⟩, -⟩ := answers hp
    exact pureF
  · intro c' hm
    obtain ⟨-, id, function, argument, reads, size, he, part | body⟩ := asks_cases hm
    · obtain ⟨henv, hp⟩ := part
      have admitted := ready.admitted
      rw [he] at admitted inert
      obtain ⟨inertF, inertA⟩ := F.inert_parts admitted inert
      rcases hp with hp | hp
      · rwa [henv, hp]
      · rwa [henv, hp]
    · obtain ⟨f, a, w, i, captured, hp, hf, henv⟩ := body
      obtain ⟨R', ⟨heldF, pureF⟩, pureA⟩ := answers hp
      rw [hf] at heldF pureF
      rw [henv]
      exact inert_overlay heldF pureF pureA

/-- All calls that an inert call leads to are inert. -/
theorem Spans.inert (h : Spans plan R R' c) (inert : c.env.Inert c.e) (hr : Reaches plan c c') :
    c'.env.Inert c'.e :=
  h.along (fun _ _ c₂ ready inert hm ↦ (inert_asks ready inert).2 c₂ hm) inert hr

/-- The streams stay as they are while only values are applied from which no stream can be
reached. -/
theorem stable_streams (s : Streams) :
    Stable (fun w ↦ w.streams = s) fun f _ ↦ f.effectful = false where
  note w event he h := (w.streams_note he).trans h
  bump _ _ h := h
  countBody _ _ h := h
  nextFork _ h := h
  nextId _ h := h
  close _ _ _ h := h
  write _ _ _ _ hf := by cases hf
  read _ _ _ _ hf := by cases hf
  store _ _ _ _ _ h := h

/-- An inert call calls no stream, whether or not it comes to an end. -/
theorem Spans.streams_eq (h : Spans plan R R' c) (inert : c.env.Inert c.e) :
    (c.result plan).2.streams = c.w.streams := by
  refine ((stable_streams c.w.streams).result c ?_ rfl).1
  rintro f a ⟨c', w, hr, hp⟩
  obtain ⟨R₁, R₂, -, -, -, ready, -⟩ := h c' hr
  exact (inert_asks ready (h.inert inert hr)).1 f a w hp

/-! ### Inert parts of a run -/

/-- A part of a run that began with the given streams is inert: no stream was called, and if it came
to an answer, the answer is pure and no stream can be reached from its value. -/
def Inert (s : Streams) (r : Evaluated) : Prop :=
  r.2.streams = s ∧ ∀ a, r.1 = .value a → a.isPure = true ∧ a.value.effectful = false

/-- Evaluating an inert expression is inert. -/
theorem inert_eval (n busy : Nat) {e : Expr} {env : Env} (he : F.admits env.data.length e)
    (henv : R.HoldsEnv env) (sound : w.cache.Sound R) (inert : env.Inert e) :
    Inert w.streams (eval plan n busy e env w) := by
  obtain ⟨R', -, -, spans, meets, -⟩ := settlesAt plan n R busy e env w ⟨he, henv, sound⟩
  refine ⟨(spans _ List.mem_cons_self).streams_eq inert, fun a ha ↦ ?_⟩
  rw [ha] at meets
  exact (meets.2.inert meets.1 he henv inert).2

/-- Applying a value from which no stream can be reached to such a value is inert. -/
theorem inert_applyValue (n busy : Nat) {f x : Value} (hf : R.Holds f) (hx : R.Holds x)
    (sound : w.cache.Sound R) (pureF : f.effectful = false) (pureX : x.effectful = false) :
    Inert w.streams (applyValue (eval plan n) busy f x w) := by
  cases f with
  | closure i captured body =>
    obtain ⟨hb, he⟩ := R.closure hf
    have admitted : F.admits (Env.overlay captured x).data.length body := by
      simpa [Env.data] using he
    have sound' : (w.countBody body.id).cache.Sound R := sound
    exact inert_eval n busy admitted ⟨hb, hx⟩ sound' (inert_overlay hf pureF pureX)
  | writer i bit => cases pureF
  | reader i held => cases pureF
  | probe i =>
    refine ⟨w.streams_note rfl, fun a ha ↦ ?_⟩
    cases ha
    exact ⟨rfl, pureX⟩

/-! ### What is present at a moment -/

/-- The value occurs in the run and was made by the moment `w`. -/
def Present (plan : Plan) (c : Call) (w : World) (v : Value) : Prop :=
  Occurs plan c v ∧ v.id ≤ w.cache.lastId

/-- All that the environment is made of occurs in the run and was made by the moment `w`. -/
def PresentEnv (plan : Plan) (c : Call) (w : World) : Env → Prop
  | .base b => OccursBase plan c b ∧ b.id ≤ w.cache.lastId
  | .overlay b v => (OccursBase plan c b ∧ b.id ≤ w.cache.lastId) ∧ Present plan c w v

/-- What is present at a moment was registered by then. -/
theorem Spans.present (h : Spans plan R R' c) (le : R₁ ≤ R') (sound : w.cache.Sound R₁) {v : Value}
    (hv : Present plan c w v) : R₁.Holds v :=
  (h.occurs hv.1).earlier le (sound.lastId ▸ hv.2)

/-- An environment that is present at a moment was registered by then. -/
theorem Spans.presentEnv (h : Spans plan R R' c) (le : R₁ ≤ R') (sound : w.cache.Sound R₁)
    {env : Env} (henv : PresentEnv plan c w env) : R₁.HoldsEnv env := by
  cases env with
  | base b => exact (h.occursBase henv.1).earlier le (sound.lastId ▸ henv.2)
  | overlay b v =>
    exact ⟨(h.occursBase henv.1.1).earlier le (sound.lastId ▸ henv.1.2),
      h.present le sound henv.2⟩

end Eval

open Eval (Inert Moment Present PresentEnv)

/-- Take any graph built by operations, any program with a root in it and built-in free names, any
run of the program and any moment of the run. Evaluating a node of the graph, in an environment of
the run in which it is provably pure, is inert, and so is applying a value of the run from which no
stream can be reached to such a value. -/
theorem provablyPure_sound {a : Arena} (built : a.Built fun _ ↦ True) {p : Program} {root : Expr}
    (rooted : p.root = some root) (mem : root ∈ a.graph.nodes) (builtins : AllBuiltin p.free)
    (s : Session) {c : Eval.Call} (starts : s.start p = some c) {w : World}
    (moment : Moment s.plan c w) (plan : Plan) (n busy : Nat) :
    (∀ e env, e ∈ a.graph.nodes → PresentEnv s.plan c w env → env.provablyPure e = .ok true →
        Inert w.streams (eval plan n busy e env w)) ∧
      ∀ f x, Present s.plan c w f → Present s.plan c w x → f.effectful = false →
        x.effectful = false → Inert w.streams (Eval.applyValue (eval plan n) busy f x w) := by
  have lawful := built.wellFormed.toLawful
  have closed : p.ClosedIn lawful.family := ⟨builtins, root, rooted, mem⟩
  obtain ⟨R, R', spans⟩ := closed.spans starts
  obtain ⟨R₁, le, sound⟩ := spans.moment moment
  constructor
  · intro e env he henv hp
    exact Eval.inert_eval n busy he (spans.presentEnv le sound henv) sound
      (Env.inert_of_provablyPure hp)
  · intro f x hf hx
    exact Eval.inert_applyValue n busy (spans.present le sound hf) (spans.present le sound hx) sound

/-- The identity is applied to a probe, which leaves the streams alone. -/
theorem provablyPure_sound_probe :
    ∃ p last c r w', Program.compile (lit "t") (lit "(\\x x) __builtin_debug") 0 = .ok (p, last) ∧
      ({} : Session).start p = some c ∧ c.env.provablyPure c.e = .ok true ∧
      eval {} 3 0 c.e c.env c.w = (.value r, w') ∧
      w'.streams = c.w.streams ∧ r.isPure = true ∧ r.value.effectful = false := by
  obtain ⟨p, last, c, b, r, w', compiled, builtins, starts, rooted, henv, hid, hp, he⟩ :
      ∃ p last c b r w',
        Program.compile (lit "t") (lit "(\\x x) __builtin_debug") 0 = .ok (p, last) ∧
        AllBuiltin p.free ∧ ({} : Session).start p = some c ∧ p.root = some c.e ∧
        c.env = .base b ∧ b.id ≤ c.w.cache.lastId ∧ c.env.provablyPure c.e = .ok true ∧
        eval {} 3 0 c.e c.env c.w = (.value r, w') :=
    ⟨_, _, _, _, _, _, by cbv, by decide +kernel, by cbv, by cbv, by cbv,
      by decide, by cbv, by cbv⟩
  obtain ⟨built, mem⟩ := Program.built_of_compile compiled rooted
  have present : PresentEnv {} c c.w c.env := by
    rw [henv]
    exact ⟨.base (.refl c) henv, hid⟩
  obtain ⟨hs, hv⟩ := (provablyPure_sound (built.mono fun _ _ ↦ trivial) rooted mem builtins {} starts
    (.entry (.refl c)) {} 3 0).1 c.e c.env mem present hp
  rw [he] at hs hv
  exact ⟨p, last, c, r, w', compiled, starts, hp, he, hs, hv r rfl⟩

end BitCalculus
