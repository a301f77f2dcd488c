import BitCalculus.Proofs.Run.Calls

/-!
# Runs and plain evaluation

A call of a run and the plain evaluation of its expression go the same way, whatever the plan: the
same stream calls, values with the same data, and neither comes to an end without the other. The
proof carries a registry along. A call begins with a cache that is sound for a registry and ends
with one that is sound for a larger registry, and so do all the calls it leads to.
-/

namespace BitCalculus

open Outcome (andThen)

/-! ### Provably pure expressions -/

namespace Env

/-- All slots are pure exactly if each holds a value from which no stream can be reached. -/
theorem allPure_eq_true {env : Env} {slots : List Int} :
    env.allPure slots = .ok true ↔ ∀ i ∈ slots, ∃ v, env.get i = .ok v ∧ v.effectful = false := by
  induction slots with
  | nil => simp [allPure]
  | cons slot slots ih =>
    rw [allPure, List.forall_mem_cons, ← ih]
    cases env.get slot with
    | error fault => simp
    | ok v => cases hv : v.effectful <;> simp [hv]

/-- Only a slot that holds nothing makes the test for purity fail. -/
theorem allPure_eq_error {env : Env} {slots : List Int} {fault : Fault}
    (h : env.allPure slots = .error fault) : ∃ i ∈ slots, ∃ fault, env.get i = .error fault := by
  induction slots with
  | nil => cases h
  | cons slot slots ih =>
    rw [allPure] at h
    cases hg : env.get slot with
    | error fault => exact ⟨slot, List.mem_cons_self, fault, hg⟩
    | ok v =>
      rw [hg] at h
      dsimp only at h
      split at h
      · cases h
      · obtain ⟨i, hi, hf⟩ := ih h
        exact ⟨i, List.mem_cons_of_mem _ hi, hf⟩

end Env

/-- A slot without a value holds no datum. -/
theorem Env.no_datum {env : Env} {i : Int} {fault : Fault} (h : env.get i = .error fault) :
    ¬ ∃ d, elementAt env.data i = .ok d := by
  rintro ⟨d, hd⟩
  obtain ⟨v, hv, -⟩ := (env.elementAt_data i d).mp hd
  rw [h] at hv
  cases hv

namespace Strategy

/-- Only provably pure applications are forkable. -/
theorem provablyPure_of_forkable {minForkSize : Int} {env : Env} {e : Expr}
    (h : forkable minForkSize env e = .ok true) : env.provablyPure e = .ok true := by
  unfold forkable at h
  split at h
  · split at h
    · exact h
    · cases h
  · cases h

/-- A fault of the test for forks is a fault of the test for purity. -/
theorem provablyPure_of_forkable_error {minForkSize : Int} {env : Env} {e : Expr} {fault : Fault}
    (h : forkable minForkSize env e = .error fault) : env.provablyPure e = .error fault := by
  unfold forkable at h
  split at h
  · split at h
    · exact h
    · cases h
  · cases h

end Strategy

/-- No slot that the expression reads holds a value from which a stream can be reached. -/
def Env.Inert (env : Env) (e : Expr) : Prop :=
  ∀ i ∈ e.reads, ∀ v, env.get i = .ok v → v.effectful = false

theorem Env.inert_of_provablyPure {env : Env} {e : Expr} (h : env.provablyPure e = .ok true) :
    env.Inert e := by
  intro i hi v hv
  obtain ⟨v', hv', hp⟩ := Env.allPure_eq_true.mp h i hi
  rw [hv] at hv'
  cases hv'
  exact hp

/-- The parts of an inert application are inert. -/
theorem NodeFamily.inert_parts (F : NodeFamily) {env : Env} {n id size : Nat}
    {function argument : Expr} {reads : List Int}
    (he : F.admits n (.apply id function argument reads size))
    (inert : env.Inert (.apply id function argument reads size)) :
    env.Inert function ∧ env.Inert argument :=
  ⟨fun i hi ↦ inert i ((F.reads_apply he i).mpr (.inl hi)),
    fun i hi ↦ inert i ((F.reads_apply he i).mpr (.inr hi))⟩

/-- Plain evaluation of an inert expression calls no stream and comes to nothing effectful. -/
theorem Registry.HoldsEnv.eval_inert {F : NodeFamily} {R : Registry F} {env : Env} {e : Expr}
    (henv : R.HoldsEnv env) (he : F.admits env.data.length e) (inert : env.Inert e) (n : Nat)
    (s : Streams) : (Plain.eval n e env.data s).2 = s ∧
      ∀ d, (Plain.eval n e env.data s).1 = .value d → d.effectful = false := by
  refine Plain.eval_inert n s he henv.admitted fun i hi d hd ↦ ?_
  obtain ⟨v, hv, rfl⟩ := (env.elementAt_data i d).mp hd
  rw [← (henv.get hv).effectful]
  exact inert i hi v hv

namespace Plain

/-- Evaluation comes to a value at the given depth. -/
def Returns (n : Nat) (e : Expr) (env : List Datum) (s : Streams) : Prop :=
  ∃ d s', eval n e env s = (.value d, s')

/-- Application comes to a value when bodies are evaluated to the given depth. -/
def ApplyReturns (n : Nat) (f a : Datum) (s : Streams) : Prop :=
  ∃ d s', apply (eval n) f a s = (.value d, s')

/-- Both parts of an application come to a value at the given depth, one after the other. -/
def PartsReturn (n : Nat) (function argument : Expr) (env : List Datum) (s : Streams) : Prop :=
  ∃ f s', eval n function env s = (.value f, s') ∧ Returns n argument env s'

end Plain

namespace Eval

variable {F : NodeFamily}

/-! ### What a call promises -/

/-- The answer to an expression agrees with its plain evaluation from `s` to `s'`, and its flag
tells whether a stream was called in between. -/
structure Agrees (e : Expr) (env : List Datum) (s : Streams) (a : Answer) (s' : Streams) :
    Prop where
  plain : ∃ n, Plain.eval n e env s = (.value a.value.erase, s')
  isPure : a.isPure = true ↔ s'.calls = s.calls

/-- The answer to an application agrees with its plain execution from `s` to `s'`, and its flag
tells whether a stream was called in between. -/
structure ApplyAgrees (f a : Value) (s : Streams) (r : Answer) (s' : Streams) : Prop where
  plain : ∃ n, Plain.apply (Plain.eval n) f.erase a.erase s = (.value r.value.erase, s')
  isPure : r.isPure = true ↔ s'.calls = s.calls

/-- The answers to both parts of an application agree with their plain evaluation in turn. -/
def PartsAgree (function argument : Expr) (env : List Datum) (s : Streams)
    (parts : Answer × Answer) (s' : Streams) : Prop :=
  ∃ s₁, Agrees function env s parts.1 s₁ ∧ Agrees argument env s₁ parts.2 s'

/-- An answer is registered and agrees with plain evaluation from `s` on. -/
def Answered (e : Expr) (env : Env) (s : Streams) (R : Registry F) (a : Answer) (w : World) :
    Prop :=
  R.Holds a.value ∧ Agrees e env.data s a w.streams

/-- The answers to both parts of an application are registered and agree with plain evaluation from
`s` on. -/
def PartsAnswered (function argument : Expr) (env : Env) (s : Streams) (R : Registry F)
    (parts : Answer × Answer) (w : World) : Prop :=
  R.Holds parts.1.value ∧ R.Holds parts.2.value ∧
    PartsAgree function argument env.data s parts w.streams

/-- A call begins in order: its expression belongs to the family, its environment is registered and
its cache is sound. -/
structure Ready (R : Registry F) (c : Call) : Prop where
  admitted : F.admits c.env.data.length c.e
  env : R.HoldsEnv c.env
  cache : c.w.cache.Sound R

/-- A call ends in order: its cache is sound, its answer is registered and agrees with plain
evaluation, it has no fault if all slots are in range, and it has an answer if plain evaluation of
the same depth comes to a value. -/
structure Done (plan : Plan) (R : Registry F) (c : Call) : Prop where
  cache : (c.result plan).2.cache.Sound R
  outcome : (c.result plan).1.Meets
    (fun a ↦ Answered c.e c.env c.w.streams R a (c.result plan).2) F.InRange
  returns : Plain.Returns c.depth c.e c.env.data c.w.streams →
    ∃ a, (c.result plan).1 = .value a

/-- Between two registries, every call that `c` leads to begins and ends in order. -/
def Spans (plan : Plan) (R R' : Registry F) (c : Call) : Prop :=
  ∀ c', Reaches plan c c' → ∃ R₁ R₂, R ≤ R₁ ∧ R₁ ≤ R₂ ∧ R₂ ≤ R' ∧ Ready R₁ c' ∧ Done plan R₂ c'

theorem Spans.mono {plan : Plan} {R₀ R R' R₁ : Registry F} {c : Call} (h : Spans plan R R' c)
    (le : R₀ ≤ R) (le' : R' ≤ R₁) : Spans plan R₀ R₁ c := by
  intro c' hc
  obtain ⟨Rb, Re, hb, he, hl, ready, done⟩ := h c' hc
  exact ⟨Rb, Re, Registry.le_trans le hb, he, Registry.le_trans hl le', ready, done⟩

theorem Spans.of_reaches {plan : Plan} {R R' : Registry F} {c c' : Call} (h : Spans plan R R' c)
    (hr : Reaches plan c c') : Spans plan R R' c' :=
  fun c'' hr' ↦ h c'' (hr.trans hr')

/-- A call spans two registries if it begins and ends in order itself and the calls that it makes
do. -/
theorem spans_of_asks {plan : Plan} {R R' : Registry F} {c : Call} (le : R ≤ R')
    (ready : Ready R c) (done : Done plan R' c) (h : ∀ c' ∈ c.asks plan, Spans plan R R' c') :
    Spans plan R R' c := by
  intro c' hc
  cases hc with
  | refl => exact ⟨R, R', R.le_refl, le, R'.le_refl, ready, done⟩
  | step hm hc => exact h _ hm c' hc

/-- A part of a run that begins with the registry `R` and makes the given calls settles: it ends
with a larger registry and a sound cache, its calls span the two registries, its result satisfies
`Q`, it has no fault if all slots are in range, and it has a result if `returns` holds. -/
def Settles {α : Type} (plan : Plan) (R : Registry F) (calls : List Call) (r : Outcome α × World)
    (returns : Prop) (Q : Registry F → α → World → Prop) : Prop :=
  ∃ R', R ≤ R' ∧ r.2.cache.Sound R' ∧ (∀ c ∈ calls, Spans plan R R' c) ∧
    r.1.Meets (fun a ↦ Q R' a r.2) F.InRange ∧ (returns → ∃ a, r.1 = .value a)

section Settles

variable {α β : Type} {plan : Plan} {R R' : Registry F}

theorem settles_value {returns : Prop} {Q : Registry F → α → World → Prop} {a : α} {w : World}
    (le : R ≤ R') (sound : w.cache.Sound R') (hq : Q R' a w) :
    Settles plan R [] (.value a, w) returns Q :=
  ⟨R', le, sound, by simp, hq, fun _ ↦ ⟨a, rfl⟩⟩

theorem settles_fault {returns : Prop} {Q : Registry F → α → World → Prop} {reason : Fault}
    {w : World} (sound : w.cache.Sound R) (hr : ¬ F.InRange) (hn : ¬ returns) :
    Settles plan R [] (.fault reason, w) returns Q :=
  ⟨R, R.le_refl, sound, by simp, hr, fun h ↦ absurd h hn⟩

/-- What settles with a result still does under a weaker promise. -/
theorem Settles.weaken {calls : List Call} {r : Outcome α × World} {returns returns' : Prop}
    {Q Q' : Registry F → α → World → Prop} (h : Settles plan R calls r returns Q)
    (hr : returns' → returns) (hq : ∀ R' a, R ≤ R' → r.1 = .value a → Q R' a r.2 → Q' R' a r.2) :
    Settles plan R calls r returns' Q' := by
  obtain ⟨R', le, sound, spans, meets, value⟩ := h
  refine ⟨R', le, sound, spans, ?_, fun h ↦ value (hr h)⟩
  rcases r with ⟨a | reason | _, w⟩
  · exact hq R' a le rfl meets
  · exact meets
  · trivial

/-- A first part that settles and a second part that settles from there make a whole that does. -/
theorem Settles.andThen {calls : List Call} {first : Outcome α × World} {returns : Prop}
    {Q : Registry F → α → World → Prop} {next : α → World → Outcome β × World} {returns' : Prop}
    {Q' : Registry F → β → World → Prop} (hf : Settles plan R calls first returns Q)
    (nextCalls : α → World → List Call) (hr : returns' → returns)
    (hn : ∀ R' a w, R ≤ R' → w.cache.Sound R' → first = (.value a, w) → Q R' a w →
      Settles plan R' (nextCalls a w) (next a w) returns' Q') :
    Settles plan R (calls ++ followUps first nextCalls) (andThen first next) returns' Q' := by
  obtain ⟨R₁, le, sound, spans, meets, value⟩ := hf
  rcases first with ⟨a | reason | _, w⟩
  · obtain ⟨R₂, le', sound', spans', rest⟩ := hn R₁ a w le sound rfl meets
    refine ⟨R₂, Registry.le_trans le le', sound', ?_, rest⟩
    intro c hc
    rcases List.mem_append.mp hc with hc | hc
    · exact (spans c hc).mono R.le_refl le'
    · exact (spans' c hc).mono le R₂.le_refl
  · refine ⟨R₁, le, sound, by simpa [followUps] using spans, meets, fun h ↦ ?_⟩
    obtain ⟨a, ha⟩ := value (hr h)
    cases ha
  · refine ⟨R₁, le, sound, by simpa [followUps] using spans, trivial, fun h ↦ ?_⟩
    obtain ⟨a, ha⟩ := value (hr h)
    cases ha

/-- A second part that makes no calls adds none. -/
theorem Settles.andReturn {calls : List Call} {first : Outcome α × World} {returns : Prop}
    {Q : Registry F → α → World → Prop} {next : α → World → Outcome β × World}
    {Q' : Registry F → β → World → Prop} (hf : Settles plan R calls first returns Q)
    (hn : ∀ R' a w, R ≤ R' → w.cache.Sound R' → first = (.value a, w) → Q R' a w →
      Settles plan R' [] (next a w) returns Q') :
    Settles plan R calls (Outcome.andThen first next) returns Q' := by
  have h := hf.andThen (fun _ _ ↦ []) id hn
  rwa [followUps_nil, List.append_nil] at h

end Settles

/-! ### The parts of an application -/

/-- Every call of the given depth that begins in order settles. -/
def SettlesAt (F : NodeFamily) (plan : Plan) (n : Nat) : Prop :=
  ∀ (R : Registry F) (busy : Nat) (e : Expr) (env : Env) (w : World),
    Ready R ⟨n, busy, e, env, w⟩ →
      Settles plan R [⟨n, busy, e, env, w⟩] (eval plan n busy e env w)
        (Plain.Returns n e env.data w.streams) (Answered e env w.streams)

/-- An answer to an inert expression is pure, no stream was called for it, and no stream can be
reached from its value. -/
theorem Agrees.inert {R R' : Registry F} {e : Expr} {env : Env} {s s' : Streams} {a : Answer}
    (h : Agrees e env.data s a s') (held : R'.Holds a.value) (he : F.admits env.data.length e)
    (henv : R.HoldsEnv env) (inert : env.Inert e) :
    s' = s ∧ a.isPure = true ∧ a.value.effectful = false := by
  obtain ⟨n, hn⟩ := h.plain
  obtain ⟨hs, hd⟩ := henv.eval_inert he inert n s
  rw [hn] at hs hd
  refine ⟨hs, h.isPure.mpr (congrArg Streams.calls hs), ?_⟩
  rw [held.effectful]
  exact hd _ rfl

section Parts

variable {plan : Plan} {n : Nat} {R : Registry F} {function argument : Expr} {env : Env} {w : World}

/-- If the function is evaluated first, it is enough that the second evaluation settles. -/
theorem settles_afterFunction (ih : SettlesAt F plan n) (busy : Nat)
    (hf : F.admits env.data.length function) (henv : R.HoldsEnv env) (sound : w.cache.Sound R)
    (nextCalls : World → List Call) {next : World → Evaluated}
    (hn : ∀ R₁ w₁, R ≤ R₁ → w₁.cache.Sound R₁ → Settles plan R₁ (nextCalls w₁) (next w₁)
      (Plain.Returns n argument env.data w₁.streams) (Answered argument env w₁.streams)) :
    Settles plan R
      (⟨n, busy, function, env, w⟩ ::
        followUps (eval plan n busy function env w) fun _ w ↦ nextCalls w)
      (andThen (eval plan n busy function env w) fun f w ↦
        andThen (next w) fun a w ↦ (.value (f, a), w))
      (Plain.PartsReturn n function argument env.data w.streams)
      (PartsAnswered function argument env w.streams) := by
  refine (ih R busy function env w ⟨hf, henv, sound⟩).andThen (fun _ w ↦ nextCalls w) ?_ ?_
  · rintro ⟨f, s, h, -⟩
    exact ⟨f, s, h⟩
  · intro R₁ f w₁ le sound₁ _ ⟨held, agrees⟩
    refine ((hn R₁ w₁ le sound₁).weaken ?_ fun _ _ _ _ h ↦ h).andReturn ?_
    · -- Plain evaluation of the function left the streams on which the argument begins.
      rintro ⟨d, s, h, returns⟩
      obtain ⟨m, hm⟩ := agrees.plain
      obtain ⟨-, rfl⟩ := Plain.eval_agree h hm
      exact returns
    · intro R₂ a w₂ le₂ sound₂ _ ⟨held', agrees'⟩
      exact settles_value R₂.le_refl sound₂ ⟨held.mono le₂, held', _, agrees, agrees'⟩

theorem settles_inTurn (ih : SettlesAt F plan n) (busy : Nat)
    (hf : F.admits env.data.length function) (ha : F.admits env.data.length argument)
    (henv : R.HoldsEnv env) (sound : w.cache.Sound R) :
    Settles plan R (inTurnCalls plan n busy function argument env w)
      (inTurn (eval plan n) busy function argument env w)
      (Plain.PartsReturn n function argument env.data w.streams)
      (PartsAnswered function argument env w.streams) := by
  rw [inTurn_eq]
  exact settles_afterFunction ih busy hf henv sound _ fun R₁ w₁ le sound₁ ↦
    ih R₁ busy argument env w₁ ⟨ha, henv.mono le, sound₁⟩

theorem settles_forked (ih : SettlesAt F plan n) (busy number : Nat)
    (ha : F.admits env.data.length argument) (henv : R.HoldsEnv env) (sound : w.cache.Sound R) :
    Settles plan R [⟨n, busy, argument, env, w.note (.forkBegan number)⟩]
      (forked (eval plan n) busy number argument env w)
      (Plain.Returns n argument env.data w.streams) (Answered argument env w.streams) := by
  rw [forked_eq]
  have settled := ih R busy argument env (w.note (.forkBegan number)) ⟨ha, henv, sound⟩
  rw [w.streams_note rfl] at settled
  refine settled.andReturn fun R₁ a w₁ le sound₁ _ answered ↦ ?_
  refine settles_value R₁.le_refl sound₁ ?_
  rwa [Answered, w₁.streams_note rfl]

theorem settles_functionFirst (ih : SettlesAt F plan n) (busy number : Nat)
    (hf : F.admits env.data.length function) (ha : F.admits env.data.length argument)
    (henv : R.HoldsEnv env) (sound : w.cache.Sound R) :
    Settles plan R (sideBySideCalls plan n .functionFirst busy number function argument env w)
      (sideBySide (eval plan n) .functionFirst busy number function argument env w)
      (Plain.PartsReturn n function argument env.data w.streams)
      (PartsAnswered function argument env w.streams) := by
  rw [sideBySide_functionFirst]
  exact settles_afterFunction ih busy hf henv sound _ fun R₁ w₁ le sound₁ ↦
    settles_forked ih busy number ha (henv.mono le) sound₁

/-- If both parts are inert, the argument may be evaluated first. -/
theorem settles_argumentFirst (ih : SettlesAt F plan n) (busy number : Nat)
    (hf : F.admits env.data.length function) (ha : F.admits env.data.length argument)
    (henv : R.HoldsEnv env) (sound : w.cache.Sound R) (inertF : env.Inert function)
    (inertA : env.Inert argument) :
    Settles plan R (sideBySideCalls plan n .argumentFirst busy number function argument env w)
      (sideBySide (eval plan n) .argumentFirst busy number function argument env w)
      (Plain.PartsReturn n function argument env.data w.streams)
      (PartsAnswered function argument env w.streams) := by
  have returnsA : Plain.PartsReturn n function argument env.data w.streams →
      Plain.Returns n argument env.data w.streams := by
    rintro ⟨f, s, h, returns⟩
    have hs := (henv.eval_inert hf inertF n w.streams).1
    rw [h] at hs
    exact (show s = w.streams from hs) ▸ returns
  have settledF (R₁ : Registry F) (a : Answer) (w₁ : World) (le : R ≤ R₁)
      (sound₁ : w₁.cache.Sound R₁) (answered : Answered argument env w.streams R₁ a w₁) :
      Settles plan R₁ [⟨n, busy, function, env, w₁⟩]
        (Outcome.andThen (eval plan n busy function env w₁) fun f w ↦ (.value (f, a), w))
        (Plain.PartsReturn n function argument env.data w.streams)
        (PartsAnswered function argument env w.streams) := by
    obtain ⟨held, agrees⟩ := answered
    have hw : w₁.streams = w.streams := (agrees.inert held ha henv inertA).1
    have settled := ih R₁ busy function env w₁ ⟨hf, henv.mono le, sound₁⟩
    rw [hw] at settled agrees
    refine (settled.weaken ?_ fun _ _ _ _ h ↦ h).andReturn ?_
    · rintro ⟨f, s, h, -⟩
      exact ⟨f, s, h⟩
    · intro R₂ f w₂ le₂ sound₂ _ ⟨held', agrees'⟩
      have hw' : w₂.streams = w.streams := (agrees'.inert held' hf henv inertF).1
      refine settles_value R₂.le_refl sound₂ ⟨held', held.mono le₂, w.streams, ?_, ?_⟩
      · exact hw' ▸ agrees'
      · exact hw'.symm ▸ agrees
  have settledA := settles_forked ih busy number ha henv sound
  rw [sideBySide_argumentFirst, sideBySideCalls]
  rcases hr : forked (eval plan n) busy number argument env w with ⟨a | reason | _, w₁⟩
  · rw [hr] at settledA
    have settled := settledA.andThen _ returnsA fun R₁ a w₁ le sound₁ _ ↦
      settledF R₁ a w₁ le sound₁
    exact settled
  · -- The function is evaluated all the same, but the outcome is a fault either way.
    rw [hr] at settledA
    obtain ⟨R₁, le, sound₁, spans, meets, value⟩ := settledA
    obtain ⟨R₂, le₂, sound₂, spans₂, meets₂, -⟩ :=
      ih R₁ busy function env w₁ ⟨hf, henv.mono le, sound₁⟩
    refine ⟨R₂, Registry.le_trans le le₂, ?_, ?_, ?_, ?_⟩
    · exact Outcome.andThen_state (P := fun w : World ↦ w.cache.Sound R₂) sound₂ fun _ _ h ↦ h
    · intro c hc
      rcases List.mem_cons.mp hc with rfl | hc
      · exact (spans _ List.mem_cons_self).mono R.le_refl le₂
      · exact (spans₂ c hc).mono le R₂.le_refl
    · exact Outcome.andThen_meets meets₂ fun _ _ ↦ meets
    · intro returns
      obtain ⟨a, ha⟩ := value (returnsA returns)
      cases ha
  · rw [hr] at settledA
    obtain ⟨R₁, le, sound₁, spans, -, value⟩ := settledA
    refine ⟨R₁, le, sound₁, spans, trivial, fun returns ↦ ?_⟩
    obtain ⟨a, ha⟩ := value (returnsA returns)
    cases ha

/-- The parts of an application settle, whatever the plan says about them. -/
theorem settles_operands (ih : SettlesAt F plan n) (busy : Nat) {id size : Nat} {reads : List Int}
    (he : F.admits env.data.length (.apply id function argument reads size))
    (henv : R.HoldsEnv env) (sound : w.cache.Sound R) :
    Settles plan R
      (operandCalls plan n busy (.apply id function argument reads size) function argument env w)
      (operands plan (eval plan n) busy (.apply id function argument reads size) function argument
        env w)
      (Plain.PartsReturn n function argument env.data w.streams)
      (PartsAnswered function argument env w.streams) := by
  have hf := F.function he
  have ha := F.argument he
  unfold operands operandCalls
  cases plan.strategy with
  | sequential => exact settles_inTurn ih busy hf ha henv sound
  | parallel workers minForkSize =>
    dsimp only
    cases hk : Strategy.forkable minForkSize env (.apply id function argument reads size) with
    | error reason =>
      obtain ⟨i, hi, fault, hg⟩ :=
        Env.allPure_eq_error (Strategy.provablyPure_of_forkable_error hk)
      refine settles_fault sound (F.not_inRange he hi (Env.no_datum hg)) ?_
      rintro ⟨f, s, hef, a, s', hea⟩
      rcases (F.reads_apply he i).mp hi with hi | hi
      · exact Env.no_datum hg (Plain.eval_reads hf hef i hi)
      · exact Env.no_datum hg (Plain.eval_reads ha hea i hi)
    | ok forkable =>
      cases forkable with
      | false => exact settles_inTurn ih busy hf ha henv sound
      | true =>
        dsimp only
        by_cases free : Strategy.hasWorker workers busy = true
        · rw [if_pos free, if_pos free]
          have inert := Env.inert_of_provablyPure (Strategy.provablyPure_of_forkable hk)
          obtain ⟨inertF, inertA⟩ := F.inert_parts he inert
          have sound' : (w.bump .forks).nextFork.2.cache.Sound R := sound
          cases plan.schedule (w.bump .forks).nextFork.1 with
          | functionFirst => exact settles_functionFirst ih _ _ hf ha henv sound'
          | argumentFirst => exact settles_argumentFirst ih _ _ hf ha henv sound' inertF inertA
        · rw [if_neg free, if_neg free]
          have sound' : (w.bump .forksDeclined).cache.Sound R := sound
          exact settles_inTurn ih busy hf ha henv sound'

/-- The answers to the parts of an inert application are pure, and no stream can be reached from
them. -/
theorem inert_operands (ih : SettlesAt F plan n) {busy id size : Nat} {reads : List Int}
    {f a : Answer} {w' : World}
    (he : F.admits env.data.length (.apply id function argument reads size))
    (henv : R.HoldsEnv env) (sound : w.cache.Sound R)
    (inert : env.Inert (.apply id function argument reads size))
    (hr : operands plan (eval plan n) busy (.apply id function argument reads size) function
      argument env w = (.value (f, a), w')) :
    ∃ R', R ≤ R' ∧ (R'.Holds f.value ∧ f.isPure = true ∧ f.value.effectful = false) ∧
      R'.Holds a.value ∧ a.isPure = true ∧ a.value.effectful = false := by
  obtain ⟨R', le, -, -, meets, -⟩ := settles_operands ih busy he henv sound
  rw [hr] at meets
  obtain ⟨heldF, heldA, s₁, agreesF, agreesA⟩ := meets
  obtain ⟨inertF, inertA⟩ := F.inert_parts he inert
  obtain ⟨-, pureF, hf⟩ := agreesF.inert heldF (F.function he) henv inertF
  obtain ⟨-, pureA, ha⟩ := agreesA.inert heldA (F.argument he) henv inertA
  exact ⟨R', le, ⟨heldF, pureF, hf⟩, heldA, pureA, ha⟩

end Parts

/-! ### Applications -/

section Applications

variable {plan : Plan} {n : Nat} {R : Registry F} {w : World}

/-- An answer to an application is registered and agrees with its plain execution from `s` on. -/
def Applied (f a : Value) (s : Streams) (R : Registry F) (r : Answer) (w : World) : Prop :=
  R.Holds r.value ∧ ApplyAgrees f a s r w.streams

/-- A reader that holds all three continuations reads a bit and picks one of them. -/
theorem applyValue_reader (ev : Evaluator) (busy id : Nat) (zero one atEnd a : Value) :
    applyValue ev busy (.reader id [zero, one, atEnd]) a w =
      (.value ⟨(w.streams.pick zero one atEnd).1, false⟩, w.read.2) := by
  rw [Streams.pick, applyValue]
  have hs : w.streams.read = (w.read.1, w.streams.read.2) := by rw [w.read_eq]
  rw [hs]
  rcases hr : w.read with ⟨_ | _ | _, w'⟩ <;> rfl

/-- A reader that lacks a continuation becomes a new reader that holds its argument too. -/
theorem applyValue_reader_of_ne (ev : Evaluator) (busy id : Nat) {held : List Value}
    (h : held.length ≠ 3) (a : Value) :
    applyValue ev busy (.reader id held) a w =
      (.value ⟨.reader w.nextId.1 (held ++ [a]), true⟩, w.nextId.2) := by
  unfold applyValue
  split
  · next he => cases he
  · next he => cases he
  · next he =>
    cases he
    exact absurd rfl h
  · next he =>
    cases he
    rfl
  · next he => cases he

/-- Executing a registered value on a registered argument settles. -/
theorem settles_applyValue (ih : SettlesAt F plan n) (busy : Nat) {f a : Value} (hf : R.Holds f)
    (ha : R.Holds a) (sound : w.cache.Sound R) :
    Settles plan R (bodyCalls n busy f a w) (applyValue (eval plan n) busy f a w)
      (Plain.ApplyReturns n f.erase a.erase w.streams) (Applied f a w.streams) := by
  cases f with
  | closure id captured body =>
    obtain ⟨hb, he⟩ := R.closure hf
    have settled := ih R busy body (.overlay captured a) (w.countBody body.id)
      ⟨by simpa [Env.data] using he, ⟨hb, ha⟩, sound⟩
    refine settled.weaken ?_ ?_
    · rw [Value.erase_closure]
      exact fun returns ↦ returns
    · rintro R₁ r - - ⟨held, ⟨m, hm⟩, hp⟩
      refine ⟨held, ⟨m, ?_⟩, hp⟩
      rw [Value.erase_closure]
      exact hm
  | writer id bit =>
    refine settles_value R.le_refl sound ⟨ha, ⟨0, ?_⟩, ?_⟩
    · rw [w.streams_write]
      rfl
    · rw [w.streams_write, Streams.calls_write]
      simp
  | reader id held =>
    rcases Plain.three_or_not held with ⟨zero, one, atEnd, rfl⟩ | hl
    · rw [applyValue_reader]
      refine settles_value R.le_refl sound ⟨R.held hf _ (w.streams.pick_mem zero one atEnd),
        ⟨0, ?_⟩, ?_⟩
      · rw [Value.erase_reader, w.streams_read, ← Streams.pick_snd _ zero one atEnd]
        rw [List.map_cons, List.map_cons, List.map_cons, List.map_nil, Plain.apply,
          Streams.pick_map]
      · rw [w.streams_read, ← Streams.pick_snd _ zero one atEnd, Streams.calls_pick]
        simp
    · rw [applyValue_reader_of_ne _ _ _ hl]
      have parts : R.Supports (.reader w.nextId.1 (held ++ [a])) := by
        intro v hv
        rcases List.mem_append.mp hv with hv | hv
        · exact R.held hf v hv
        · rw [List.mem_singleton.mp hv]
          exact ha
      obtain ⟨R₁, le, made, sound₁⟩ :=
        sound.next_value (v := .reader w.nextId.1 (held ++ [a])) rfl parts rfl
      refine settles_value le sound₁ ⟨made, ⟨0, ?_⟩, ?_⟩
      · rw [w.streams_nextId, Value.erase_reader, Value.erase_reader,
          Plain.apply_reader _ (by simpa using hl)]
        simp
      · rw [w.streams_nextId]
        simp
  | probe id =>
    have hs : (w.note (.probed a)).streams = w.streams := w.streams_note rfl
    refine settles_value R.le_refl sound ⟨ha, ⟨0, ?_⟩, ?_⟩
    · rw [hs]
      rfl
    · rw [hs]
      simp

end Applications

section Application

variable {function argument : Expr} {id size : Nat} {reads : List Int} {env : List Datum}
variable {s t u : Streams} {f a r : Answer}

/-- Parts that agree and an execution that agrees make an application that does. -/
theorem PartsAgree.plain_apply {d : Datum} (h : PartsAgree function argument env s (f, a) t)
    (hr : ∃ n, Plain.apply (Plain.eval n) f.value.erase a.value.erase t = (.value d, u)) :
    ∃ n, Plain.eval n (.apply id function argument reads size) env s = (.value d, u) := by
  obtain ⟨s₁, ⟨⟨nf, hf⟩, -⟩, ⟨⟨na, ha⟩, -⟩⟩ := h
  obtain ⟨nr, hr⟩ := hr
  refine ⟨nf + na + nr + 1, Plain.eval_apply_eq_value.mpr
    ⟨f.value.erase, s₁, a.value.erase, t, ?_, ?_, ?_⟩⟩
  · exact Plain.eval_mono (by omega) hf
  · exact Plain.eval_mono (by omega) ha
  · exact Plain.apply_mono (fun _ _ _ _ _ ↦ Plain.eval_mono (by omega)) hr

/-- Both parts are pure exactly if no stream was called while they were evaluated. -/
theorem PartsAgree.isPure (h : PartsAgree function argument env s (f, a) t) :
    (f.isPure && a.isPure) = true ↔ t.calls = s.calls := by
  obtain ⟨s₁, ⟨⟨nf, hf⟩, pureF⟩, ⟨⟨na, ha⟩, pureA⟩⟩ := h
  have h₁ : s.calls <+: s₁.calls := by simpa [hf] using Plain.eval_calls nf function env s
  have h₂ : s₁.calls <+: t.calls := by simpa [ha] using Plain.eval_calls na argument env s₁
  rw [Bool.and_eq_true, pureF, pureA, Plain.calls_eq_iff h₁ h₂]

/-- An application is pure exactly if no stream was called while it was evaluated. -/
theorem PartsAgree.isPure_apply (h : PartsAgree function argument env s (f, a) t)
    (hr : ApplyAgrees f.value a.value t r u) :
    (f.isPure && a.isPure && r.isPure) = true ↔ u.calls = s.calls := by
  obtain ⟨⟨n, hn⟩, pureR⟩ := hr
  have pureParts := h.isPure
  obtain ⟨s₁, ⟨⟨nf, hf⟩, -⟩, ⟨⟨na, ha⟩, -⟩⟩ := h
  have h₁ : s.calls <+: s₁.calls := by simpa [hf] using Plain.eval_calls nf function env s
  have h₂ : s₁.calls <+: t.calls := by simpa [ha] using Plain.eval_calls na argument env s₁
  have h₃ : t.calls <+: u.calls := by
    simpa [hn] using Plain.apply_calls (Plain.eval_calls n) f.value.erase a.value.erase t
  rw [Bool.and_eq_true, pureParts, pureR, Plain.calls_eq_iff (h₁.trans h₂) h₃]

/-- If plain evaluation of an application comes to a value, then so does the execution of answers
that agree with its parts, one level below. -/
theorem PartsAgree.applyReturns (h : PartsAgree function argument env s (f, a) t) {n : Nat}
    (returns : Plain.Returns (n + 1) (.apply id function argument reads size) env s) :
    Plain.ApplyReturns n f.value.erase a.value.erase t := by
  obtain ⟨d, s', h'⟩ := returns
  obtain ⟨f', s₁, a', s₂, hf, ha, hv⟩ := Plain.eval_apply_eq_value.mp h'
  obtain ⟨u, ⟨⟨m, hm⟩, -⟩, ⟨⟨k, hk⟩, -⟩⟩ := h
  obtain ⟨rfl, rfl⟩ := Plain.eval_agree hf hm
  obtain ⟨rfl, rfl⟩ := Plain.eval_agree ha hk
  exact ⟨d, s', hv⟩

end Application

/-! ### Calls -/

section Calls

variable {plan : Plan} {n : Nat} {R : Registry F} {function argument : Expr} {id size : Nat}
variable {reads : List Int} {env : Env} {w : World}

/-- Applying the answers to the parts of an application settles. -/
theorem settles_applyAnswers (ih : SettlesAt F plan n) (busy : Nat) {f a : Answer} {s : Streams}
    (sound : w.cache.Sound R) (h : PartsAnswered function argument env s R (f, a) w) :
    Settles plan R (applyCalls n busy f a w) (applyAnswers (eval plan n) busy f a w)
      (Plain.ApplyReturns n f.value.erase a.value.erase w.streams)
      (Answered (.apply id function argument reads size) env s) := by
  obtain ⟨heldF, heldA, agree⟩ := h
  cases hl : w.cache.lookup f.value a.value with
  | some r =>
    obtain ⟨heldR, m, quiet⟩ := sound.lookup heldF heldA hl
    rw [applyAnswers, applyCalls, hl]
    refine settles_value R.le_refl sound ⟨heldR, agree.plain_apply ⟨m, quiet w.streams⟩, ?_⟩
    exact agree.isPure
  | none =>
    rw [applyAnswers_of_none _ _ hl, applyCalls, hl]
    refine (settles_applyValue ih busy heldF heldA sound).andReturn ?_
    intro R₁ r w₁ le sound₁ _ ⟨heldR, agreeR⟩
    have isPure := agree.isPure_apply agreeR
    cases hp : (f.isPure && a.isPure && r.isPure) with
    | true =>
      rw [if_pos rfl]
      have hc : w₁.streams.calls = w.streams.calls :=
        agreeR.isPure.mp (Bool.and_eq_true_iff.mp hp).2
      obtain ⟨m, hm⟩ := agreeR.plain
      obtain ⟨sound₂, heldR', he⟩ := Cache.sound_store sound₁ (heldF.mono le) (heldA.mono le)
        heldR (Plain.quiet_of_apply hm hc) w.streams
      refine settles_value R₁.le_refl sound₂ ⟨heldR', ?_, ?_⟩
      · refine agree.plain_apply ⟨m, ?_⟩
        rw [hm]
        exact congrArg (fun d ↦ (Outcome.value d, w₁.streams)) he.symm
      · rw [hp] at isPure
        exact isPure
    | false =>
      rw [if_neg Bool.false_ne_true]
      rw [hp] at isPure
      exact settles_value R₁.le_refl sound₁ ⟨heldR, agree.plain_apply agreeR.plain, isPure⟩

/-- A call settles if what it consists of does. -/
theorem Settles.call {c : Call} (ready : Ready R c)
    (h : Settles plan R (c.asks plan) (c.result plan)
      (Plain.Returns c.depth c.e c.env.data c.w.streams) (Answered c.e c.env c.w.streams)) :
    Settles plan R [c] (c.result plan) (Plain.Returns c.depth c.e c.env.data c.w.streams)
      (Answered c.e c.env c.w.streams) := by
  obtain ⟨R', le, sound, spans, meets, value⟩ := h
  refine ⟨R', le, sound, ?_, meets, value⟩
  intro c' hc
  rw [List.mem_singleton.mp hc]
  exact spans_of_asks le ready ⟨sound, meets, value⟩ spans

/-- The call of a slot settles. -/
theorem settles_slot (busy : Nat) {index : Int} (he : F.admits env.data.length (.slot id index))
    (henv : R.HoldsEnv env) (sound : w.cache.Sound R) :
    Settles plan R [] (eval plan (n + 1) busy (.slot id index) env w)
      (Plain.Returns (n + 1) (.slot id index) env.data w.streams)
      (Answered (.slot id index) env w.streams) := by
  rw [eval, step]
  cases hg : env.get index with
  | ok v =>
    refine settles_value R.le_refl sound ⟨henv.get hg, ⟨1, ?_⟩, by simp⟩
    rw [Plain.eval, (env.elementAt_data index v.erase).mpr ⟨v, hg, rfl⟩]
  | error reason =>
    have reads : index ∈ (Expr.slot id index).reads := List.mem_singleton.mpr rfl
    refine settles_fault sound (F.not_inRange he reads (Env.no_datum hg)) ?_
    rintro ⟨d, s, h⟩
    exact Env.no_datum hg (Plain.eval_reads he h index reads)

/-- The call of an abstraction settles. -/
theorem settles_lambda (busy : Nat) {captured : List Int} {body : Expr}
    (he : F.admits env.data.length (.lambda id captured body reads size))
    (henv : R.HoldsEnv env) (sound : w.cache.Sound R) :
    Settles plan R [] (eval plan (n + 1) busy (.lambda id captured body reads size) env w)
      (Plain.Returns (n + 1) (.lambda id captured body reads size) env.data w.streams)
      (Answered (.lambda id captured body reads size) env w.streams) := by
  cases hg : env.getAll captured with
  | ok values =>
    rw [eval_lambda _ _ _ _ _ _ _ hg]
    obtain ⟨held, collected⟩ := henv.getAll hg
    have hl : captured.length = values.length := by
      simpa using congrArg List.length (collect_eq_ok.mp collected)
    obtain ⟨R₁, le, sound₁, heldC, erased⟩ := w.sound_close sound held (hl ▸ F.body he)
    refine settles_value le sound₁ ⟨heldC, ⟨1, ?_⟩, iff_of_true rfl rfl⟩
    rw [Plain.eval, collected, w.streams_close, erased]
  | error reason =>
    rw [eval, step, hg]
    have missing : ∃ i ∈ captured, ¬ ∃ d, elementAt env.data i = .ok d := by
      rw [env.getAll_eq_collect] at hg
      obtain ⟨i, hi, fault, hf⟩ := exists_of_collect_error hg
      exact ⟨i, hi, Env.no_datum hf⟩
    obtain ⟨i, hi, hn⟩ := missing
    have hr : i ∈ reads := (F.reads_lambda he i).mpr hi
    refine settles_fault sound (F.not_inRange he hr hn) ?_
    rintro ⟨d, s, h⟩
    exact hn (Plain.eval_reads he h i hr)

/-- The call of an application settles. -/
theorem settles_apply (ih : SettlesAt F plan n) (busy : Nat)
    (he : F.admits env.data.length (.apply id function argument reads size))
    (henv : R.HoldsEnv env) (sound : w.cache.Sound R) :
    Settles plan R
      (Call.asks plan ⟨n + 1, busy, .apply id function argument reads size, env, w⟩)
      (eval plan (n + 1) busy (.apply id function argument reads size) env w)
      (Plain.Returns (n + 1) (.apply id function argument reads size) env.data w.streams)
      (Answered (.apply id function argument reads size) env w.streams) := by
  rw [eval_apply]
  refine (settles_operands ih busy he henv sound).andThen
    (fun parts w ↦ applyCalls n busy parts.1 parts.2 w) ?_ ?_
  · rintro ⟨d, s, h⟩
    obtain ⟨f, s₁, a, s₂, hf, ha, -⟩ := Plain.eval_apply_eq_value.mp h
    exact ⟨f, s₁, hf, a, s₂, ha⟩
  · rintro R₁ ⟨f, a⟩ w₁ le sound₁ - answered
    exact (settles_applyAnswers ih busy sound₁ answered).weaken
      (fun returns ↦ answered.2.2.applyReturns returns) fun _ _ _ _ h ↦ h

/-- Every call that begins in order settles, at every depth. -/
theorem settlesAt (plan : Plan) (n : Nat) : SettlesAt F plan n := by
  induction n with
  | zero =>
    intro R busy e env w ready
    refine Settles.call ready ⟨R, R.le_refl, ready.cache, ?_, trivial, ?_⟩
    · intro c hc
      cases hc
    · rintro ⟨d, s, h⟩
      cases h
  | succ n ih =>
    intro R busy e env w ready
    apply Settles.call ready
    cases e with
    | slot id index => exact settles_slot busy ready.admitted ready.env ready.cache
    | lambda id captured body reads size =>
      exact settles_lambda busy ready.admitted ready.env ready.cache
    | apply id function argument reads size =>
      exact settles_apply ih busy ready.admitted ready.env ready.cache

end Calls

end Eval

end BitCalculus
