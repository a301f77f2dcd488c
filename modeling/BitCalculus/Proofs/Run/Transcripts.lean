import Mathlib
import BitCalculus.Proofs.Run.Canonicity

/-!
# Runs as transcripts

A run asks its cache for values, environments and closures, one request after the other, and names
only what it was given before. So at each of its moments the cache has served a transcript, in which
all that is in the slots and answers of its calls was given out. Nothing is assumed of the program:
whatever holds of all transcripts holds of all runs.
-/

namespace BitCalculus

open Outcome (andThen)

/-! ### What items are made of -/

namespace Transcript

theorem items_mono {t t' : Transcript} (le : t <+: t') {x : Item} (h : x ∈ t.items) :
    x ∈ t'.items := by
  obtain ⟨rest, rfl⟩ := le
  rw [items_append]
  exact List.mem_append_left _ h

/-- What the item is made of was given out, and an environment is marked as effectful exactly if one
of its values is. -/
def Supports (t : Transcript) : Item → Prop
  | .number _ => True
  | .value (.closure _ env _) => .base env ∈ t.items
  | .value (.reader _ held) => ∀ v ∈ held, .value v ∈ t.items
  | .value (.writer _ _) => True
  | .value (.probe _) => True
  | .base b => b.effectful = b.values.any Value.effectful ∧ ∀ v ∈ b.values, .value v ∈ t.items

theorem Supports.mono {t t' : Transcript} {x : Item} (h : t.Supports x) (le : t <+: t') :
    t'.Supports x := by
  match x with
  | .number _ => trivial
  | .value (.closure _ env _) => exact items_mono le h
  | .value (.reader _ held) => exact fun v hv ↦ items_mono le (h v hv)
  | .value (.writer _ _) => trivial
  | .value (.probe _) => trivial
  | .base b => exact ⟨h.1, fun v hv ↦ items_mono le (h.2 v hv)⟩

end Transcript

/-- An answer was given before, or it is made of what the request names. -/
theorem Keeps.answer_supports {t : Transcript} {c : Cache} {r : Request} (h : Keeps t c)
    (proper : ∀ x ∈ r.operands, x ∈ t.items) {x : Item} (hx : (c.answer r).1 = some x) :
    x ∈ t.items ∨ t.Supports x := by
  rcases h.answer_cases proper with ⟨-, -, -, hl⟩ | ⟨-, -, old⟩
  · right
    cases r with
    | number =>
      cases hx
      trivial
    | builtin b =>
      cases hx
      cases b with
      | read => exact fun v hv ↦ nomatch hv
      | writeZero => trivial
      | writeOne => trivial
      | debug => trivial
    | stage held =>
      cases hx
      exact fun v hv ↦ proper _ (List.mem_map_of_mem hv)
    | environment values =>
      rw [Cache.answer] at hx hl
      rcases c.environment_cases values with ⟨b, -, he⟩ | ⟨-, b, rfl, he⟩
      · simp [he] at hl
      · rw [he] at hx
        cases hx
        exact ⟨rfl, fun v hv ↦ proper _ (List.mem_map_of_mem hv)⟩
    | closure env body =>
      rw [Cache.answer] at hx hl
      rcases c.closure_cases env body with ⟨v, -, he⟩ | ⟨-, v, rfl, he⟩
      · simp [he] at hl
      · rw [he] at hx
        cases hx
        exact proper (.base env) (by simp [Request.operands])
    | lookup f a => simp [Cache.answer] at hl
    | store f a result => simp [Cache.answer, Cache.lastId_store] at hl
  · exact .inl (old x hx)

namespace Served

variable {t : Transcript} {c : Cache}

/-- What an item is made of was given out before it, and environments are marked right. -/
theorem supports (h : Served t c) {x : Item} (hx : x ∈ t.items) : t.Supports x := by
  induction h with
  | new => simp [Transcript.items] at hx
  | @ask t c _ r answer h proper ha ih =>
    have le : t <+: t ++ [(r, answer)] := List.prefix_append _ _
    rcases Transcript.mem_items_concat.mp hx with hx | hx
    · exact (ih hx).mono le
    · rcases h.keeps.answer_supports proper ((congrArg Prod.fst ha).trans hx) with hx | made
      · exact (ih hx).mono le
      · exact made.mono le

/-- A proper request makes the transcript longer, and its answer is in it. -/
theorem extend (h : Served t c) {r : Request} (proper : ∀ x ∈ r.operands, x ∈ t.items) :
    ∃ t' : Transcript, t <+: t' ∧ Served t' (c.answer r).2 ∧ (r, (c.answer r).1) ∈ t' ∧
      ∀ x, (c.answer r).1 = some x → x ∈ t'.items :=
  ⟨t ++ [(r, (c.answer r).1)], List.prefix_append _ _, h.ask proper rfl, by simp,
    fun _ hx ↦ Transcript.mem_items_concat.mpr (.inr hx)⟩

/-- Closing a body over values that were given out gives a closure that captures just these. -/
theorem close {w : World} (h : Served t w.cache) {values : List Value}
    (given : ∀ v ∈ values, .value v ∈ t.items) (body : Expr) :
    ∃ t' : Transcript, t <+: t' ∧ Served t' (w.close values body).2.cache ∧
      .value (w.close values body).1 ∈ t'.items ∧
      ∃ id env body', (w.close values body).1 = .closure id env body' ∧ env.values = values := by
  obtain ⟨t₁, le₁, served₁, asked₁, given₁⟩ := h.extend (r := .environment values) (by
    simpa [Request.operands] using given)
  have base := given₁ _ rfl
  obtain ⟨b, hb, hv⟩ := served₁.environment asked₁
  obtain ⟨t₂, le₂, served₂, asked₂, given₂⟩ :=
    served₁.extend (r := .closure (w.cache.environment values).1 body) (by
      simpa [Request.operands] using base)
  obtain ⟨id, body', hc, -⟩ := served₂.closure asked₂
  have env : (w.cache.environment values).1.values = values := by
    cases hb
    exact hv
  exact ⟨t₂, le₁.trans le₂, served₂, given₂ _ rfl, id, _, body',
    Item.value.inj (Option.some.inj hc), env⟩

/-- Built-in functions are given out one after the other. -/
theorem instantiateAll (h : Served t c) (names : List Token) :
    ∃ t' : Transcript, t <+: t' ∧ Served t' (c.instantiateAll names).2.2 ∧
      ∀ v ∈ (c.instantiateAll names).1, .value v ∈ t'.items := by
  induction names generalizing t c with
  | nil => exact ⟨t, List.prefix_rfl, h, fun v hv ↦ nomatch hv⟩
  | cons token names ih =>
    rw [Cache.instantiateAll]
    cases Builtin.find? token.text with
    | none => exact ih h
    | some b =>
      obtain ⟨t₁, le₁, served₁, -, given₁⟩ := h.extend (r := .builtin b) (by
        simp [Request.operands])
      obtain ⟨t₂, le₂, served₂, given₂⟩ := ih served₁
      refine ⟨t₂, le₁.trans le₂, served₂, ?_⟩
      rw [List.forall_mem_cons]
      exact ⟨Transcript.items_mono le₂ (given₁ _ rfl), given₂⟩

end Served

/-! ### Environments -/

/-- All that the environment is made of was given out. -/
def Transcript.HoldsEnv (t : Transcript) : Env → Prop
  | .base b => .base b ∈ t.items
  | .overlay b v => .base b ∈ t.items ∧ .value v ∈ t.items

theorem Transcript.HoldsEnv.mono {t t' : Transcript} {env : Env} (h : t.HoldsEnv env)
    (le : t <+: t') : t'.HoldsEnv env := by
  cases env with
  | base b => exact items_mono le h
  | overlay b v => exact ⟨items_mono le h.1, items_mono le h.2⟩

section Env

variable {t : Transcript} {c : Cache} {env : Env}

/-- What is found in the environment was given out. -/
theorem Served.get (h : Served t c) (henv : t.HoldsEnv env) {i : Int} {v : Value}
    (hv : env.get i = .ok v) : .value v ∈ t.items := by
  cases env with
  | base b => exact (h.supports henv).2 v (mem_of_elementAt hv)
  | overlay b a =>
    rw [Env.get] at hv
    split at hv
    · cases hv
      exact henv.2
    · exact (h.supports henv.1).2 v (mem_of_elementAt hv)

theorem Served.getAll (h : Served t c) (henv : t.HoldsEnv env) {slots : List Int}
    {values : List Value} (hv : env.getAll slots = .ok values) :
    ∀ v ∈ values, .value v ∈ t.items := by
  rw [Env.getAll_eq_collect, collect_eq_ok] at hv
  intro v hm
  have hg : Except.ok v ∈ slots.map env.get := hv ▸ List.mem_map_of_mem hm
  obtain ⟨i, -, hi⟩ := List.mem_map.mp hg
  exact h.get henv hi

end Env

namespace Eval

/-! ### What is recorded of a call -/

/-- A call begins with a cache that has served the transcript, which gave out all that is in its
slots. -/
structure Begins (t : Transcript) (c : Call) : Prop where
  cache : Served t c.w.cache
  env : t.HoldsEnv c.env

/-- The answer was given out. -/
def Given (t : Transcript) (a : Answer) : Prop :=
  .value a.value ∈ t.items

/-- A call ends with a cache that has served the transcript, which gave out its answer. -/
structure Ends (plan : Plan) (t : Transcript) (c : Call) : Prop where
  cache : Served t (c.result plan).2.cache
  answer : ∀ a, (c.result plan).1 = .value a → Given t a

/-- Every call that `c` leads to begins and ends with some beginning of the transcript. -/
def Recorded (plan : Plan) (t : Transcript) (c : Call) : Prop :=
  ∀ c', Reaches plan c c' → (∃ t₁, t₁ <+: t ∧ Begins t₁ c') ∧ ∃ t₂, t₂ <+: t ∧ Ends plan t₂ c'

theorem Recorded.mono {plan : Plan} {t t' : Transcript} {c : Call} (h : Recorded plan t c)
    (le : t <+: t') : Recorded plan t' c := by
  intro c' hr
  obtain ⟨⟨t₁, le₁, begins⟩, t₂, le₂, ends⟩ := h c' hr
  exact ⟨⟨t₁, le₁.trans le, begins⟩, t₂, le₂.trans le, ends⟩

/-- A part of a run that begins with the transcript `t` and makes the given calls is recorded: a
longer transcript records the calls, the cache has served it, and a result satisfies `Q`. -/
def Records {α : Type} (plan : Plan) (t : Transcript) (calls : List Call) (r : Outcome α × World)
    (Q : Transcript → α → Prop) : Prop :=
  ∃ t' : Transcript, t <+: t' ∧ Served t' r.2.cache ∧ (∀ c ∈ calls, Recorded plan t' c) ∧
    ∀ a, r.1 = .value a → Q t' a

section Records

variable {α β : Type} {plan : Plan} {t t' : Transcript}

/-- A part that makes no calls. -/
theorem records_here {r : Outcome α × World} {Q : Transcript → α → Prop} (le : t <+: t')
    (served : Served t' r.2.cache) (hq : ∀ a, r.1 = .value a → Q t' a) : Records plan t [] r Q :=
  ⟨t', le, served, by simp, hq⟩

/-- What is recorded before a part counts as recorded with it. -/
theorem Records.after {calls calls' : List Call} {r : Outcome α × World}
    {Q : Transcript → α → Prop} (h : Records plan t' calls' r Q) (le : t <+: t')
    (recorded : ∀ c ∈ calls, Recorded plan t' c) : Records plan t (calls ++ calls') r Q := by
  obtain ⟨t₂, le₂, served, recorded', hq⟩ := h
  refine ⟨t₂, le.trans le₂, served, fun c hc ↦ ?_, hq⟩
  rcases List.mem_append.mp hc with hc | hc
  · exact (recorded c hc).mono le₂
  · exact recorded' c hc

/-- A first part that is recorded and a second part that is recorded from there make a whole that
is. -/
theorem Records.andThen {calls : List Call} {first : Outcome α × World}
    {Q : Transcript → α → Prop} {next : α → World → Outcome β × World}
    {Q' : Transcript → β → Prop} (hf : Records plan t calls first Q)
    (nextCalls : α → World → List Call)
    (hn : ∀ (t' : Transcript) a w, t <+: t' → Served t' w.cache → Q t' a →
      Records plan t' (nextCalls a w) (next a w) Q') :
    Records plan t (calls ++ followUps first nextCalls) (andThen first next) Q' := by
  obtain ⟨t₁, le, served, recorded, hq⟩ := hf
  rcases first with ⟨a | reason | _, w⟩
  · exact (hn t₁ a w le served (hq a rfl)).after le recorded
  · exact ⟨t₁, le, served, by simpa [followUps] using recorded, fun b hb ↦ by cases hb⟩
  · exact ⟨t₁, le, served, by simpa [followUps] using recorded, fun b hb ↦ by cases hb⟩

/-- A second part that makes no calls adds none. -/
theorem Records.andReturn {calls : List Call} {first : Outcome α × World}
    {Q : Transcript → α → Prop} {next : α → World → Outcome β × World}
    {Q' : Transcript → β → Prop} (hf : Records plan t calls first Q)
    (hn : ∀ (t' : Transcript) a w, t <+: t' → Served t' w.cache → Q t' a →
      Records plan t' [] (next a w) Q') :
    Records plan t calls (Outcome.andThen first next) Q' := by
  have h := hf.andThen (fun _ _ ↦ []) hn
  rwa [followUps_nil, List.append_nil] at h

/-- A call is recorded if what it consists of is. -/
theorem Records.call {c : Call} (begins : Begins t c)
    (h : Records plan t (c.asks plan) (c.result plan) Given) :
    Records plan t [c] (c.result plan) Given := by
  obtain ⟨t', le, served, recorded, given⟩ := h
  refine ⟨t', le, served, fun c' hc ↦ ?_, given⟩
  rw [List.mem_singleton.mp hc]
  intro c'' hr
  cases hr with
  | refl => exact ⟨⟨t, le, begins⟩, t', List.prefix_rfl, served, given⟩
  | step hm hr => exact recorded _ hm c'' hr

end Records

/-! ### The parts of an application -/

/-- Every call of the given depth is recorded. -/
def RecordsAt (plan : Plan) (n : Nat) : Prop :=
  ∀ t busy e env w, Served t w.cache → t.HoldsEnv env →
    Records plan t [⟨n, busy, e, env, w⟩] (eval plan n busy e env w) Given

/-- Both answers were given out. -/
def BothGiven (t : Transcript) (parts : Answer × Answer) : Prop :=
  Given t parts.1 ∧ Given t parts.2

section Parts

variable {plan : Plan} {n : Nat} {t : Transcript} {function argument : Expr} {env : Env}
variable {w : World}

/-- If the function is evaluated first, it is enough that the second evaluation is recorded. -/
theorem records_afterFunction (ih : RecordsAt plan n) (busy : Nat) (served : Served t w.cache)
    (henv : t.HoldsEnv env) (nextCalls : World → List Call) {next : World → Evaluated}
    (hn : ∀ (t₁ : Transcript) w₁, t <+: t₁ → Served t₁ w₁.cache →
      Records plan t₁ (nextCalls w₁) (next w₁) Given) :
    Records plan t
      (⟨n, busy, function, env, w⟩ ::
        followUps (eval plan n busy function env w) fun _ w ↦ nextCalls w)
      (andThen (eval plan n busy function env w) fun f w ↦
        andThen (next w) fun a w ↦ (.value (f, a), w)) BothGiven := by
  refine (ih t busy function env w served henv).andThen (fun _ w ↦ nextCalls w) ?_
  intro t₁ f w₁ le served₁ givenF
  refine (hn t₁ w₁ le served₁).andReturn fun t₂ a w₂ le₂ served₂ givenA ↦ ?_
  refine records_here List.prefix_rfl served₂ fun parts hp ↦ ?_
  cases hp
  exact ⟨Transcript.items_mono le₂ givenF, givenA⟩

theorem records_inTurn (ih : RecordsAt plan n) (busy : Nat) (served : Served t w.cache)
    (henv : t.HoldsEnv env) :
    Records plan t (inTurnCalls plan n busy function argument env w)
      (inTurn (eval plan n) busy function argument env w) BothGiven := by
  rw [inTurn_eq]
  exact records_afterFunction ih busy served henv _ fun t₁ w₁ le served₁ ↦
    ih t₁ busy argument env w₁ served₁ (henv.mono le)

theorem records_forked (ih : RecordsAt plan n) (busy number : Nat) (served : Served t w.cache)
    (henv : t.HoldsEnv env) :
    Records plan t [⟨n, busy, argument, env, w.note (.forkBegan number)⟩]
      (forked (eval plan n) busy number argument env w) Given := by
  rw [forked_eq]
  refine (ih t busy argument env (w.note (.forkBegan number)) served henv).andReturn ?_
  intro t₁ a w₁ _ served₁ given
  refine records_here List.prefix_rfl served₁ fun a' ha ↦ ?_
  cases ha
  exact given

theorem records_sideBySide (ih : RecordsAt plan n) (order : Order) (busy number : Nat)
    (served : Served t w.cache) (henv : t.HoldsEnv env) :
    Records plan t (sideBySideCalls plan n order busy number function argument env w)
      (sideBySide (eval plan n) order busy number function argument env w) BothGiven := by
  cases order with
  | functionFirst =>
    rw [sideBySide_functionFirst]
    exact records_afterFunction ih busy served henv _ fun t₁ w₁ le served₁ ↦
      records_forked ih busy number served₁ (henv.mono le)
  | argumentFirst =>
    rw [sideBySide_argumentFirst, sideBySideCalls]
    obtain ⟨t₁, le, served₁, recorded, given⟩ := records_forked ih busy number served henv
    rcases hr : forked (eval plan n) busy number argument env w with ⟨a | reason | _, w₁⟩
    · rw [hr] at served₁ given
      refine Records.after ?_ le recorded
      refine (ih t₁ busy function env w₁ served₁ (henv.mono le)).andReturn ?_
      intro t₂ f w₂ le₂ served₂ givenF
      refine records_here List.prefix_rfl served₂ fun parts hp ↦ ?_
      cases hp
      exact ⟨givenF, Transcript.items_mono le₂ (given a rfl)⟩
    · -- The function is evaluated after all, but there will be no answer.
      rw [hr] at served₁
      refine Records.after ?_ le recorded
      refine (ih t₁ busy function env w₁ served₁ (henv.mono le)).andReturn ?_
      exact fun t₂ f w₂ _ served₂ _ ↦ records_here List.prefix_rfl served₂ fun _ h ↦ by cases h
    · rw [hr] at served₁
      exact ⟨t₁, le, served₁, recorded, fun _ h ↦ by cases h⟩

theorem records_operands (ih : RecordsAt plan n) (busy : Nat) (e : Expr)
    (served : Served t w.cache) (henv : t.HoldsEnv env) :
    Records plan t (operandCalls plan n busy e function argument env w)
      (operands plan (eval plan n) busy e function argument env w) BothGiven := by
  unfold operands operandCalls
  cases plan.strategy with
  | sequential => exact records_inTurn ih busy served henv
  | parallel workers minForkSize =>
    dsimp only
    cases Strategy.forkable minForkSize env e with
    | error reason => exact records_here List.prefix_rfl served fun _ h ↦ by cases h
    | ok forkable =>
      cases forkable with
      | false => exact records_inTurn ih busy served henv
      | true =>
        dsimp only
        by_cases free : Strategy.hasWorker workers busy = true
        · rw [if_pos free, if_pos free]
          exact records_sideBySide ih _ _ _ served henv
        · rw [if_neg free, if_neg free]
          exact records_inTurn ih busy served henv

/-! ### Applications -/

/-- Executing a value that was given out on one that was gives out the result. -/
theorem records_applyValue (ih : RecordsAt plan n) (busy : Nat) {f a : Value}
    (served : Served t w.cache) (hf : .value f ∈ t.items) (ha : .value a ∈ t.items) :
    Records plan t (bodyCalls n busy f a w) (applyValue (eval plan n) busy f a w) Given := by
  cases f with
  | closure id captured body =>
    exact ih t busy body (.overlay captured a) (w.countBody body.id) served
      ⟨served.supports hf, ha⟩
  | writer id bit =>
    refine records_here List.prefix_rfl served fun r hr ↦ ?_
    cases hr
    exact ha
  | reader id held =>
    have given := served.supports hf
    rcases Plain.three_or_not held with ⟨zero, one, atEnd, rfl⟩ | hl
    · rw [applyValue_reader]
      refine records_here List.prefix_rfl served fun r hr ↦ ?_
      cases hr
      exact given _ (w.streams.pick_mem zero one atEnd)
    · rw [applyValue_reader_of_ne _ _ _ hl]
      obtain ⟨t₁, le, served₁, -, given₁⟩ := served.extend (r := .stage (held ++ [a])) (by
        simpa [Request.operands, or_imp, forall_and] using ⟨given, ha⟩)
      refine records_here le served₁ fun r hr ↦ ?_
      cases hr
      exact given₁ _ rfl
  | probe id =>
    refine records_here List.prefix_rfl served fun r hr ↦ ?_
    cases hr
    exact ha

theorem records_applyAnswers (ih : RecordsAt plan n) (busy : Nat) {f a : Answer}
    (served : Served t w.cache) (hf : Given t f) (ha : Given t a) :
    Records plan t (applyCalls n busy f a w) (applyAnswers (eval plan n) busy f a w) Given := by
  cases hl : w.cache.lookup f.value a.value with
  | some r =>
    rw [applyAnswers, applyCalls, hl]
    refine records_here List.prefix_rfl served fun r' hr ↦ ?_
    cases hr
    rw [Cache.lookup, served.keeps.applications] at hl
    exact served.keeps.results _ r hl
  | none =>
    rw [applyAnswers_of_none _ _ hl, applyCalls, hl]
    refine (records_applyValue ih busy served hf ha).andReturn ?_
    intro t₁ r w₁ le served₁ givenR
    split
    · have proper : ∀ x ∈ (Request.store f.value a.value r.value).operands, x ∈ t₁.items := by
        simpa [Request.operands] using
          ⟨Transcript.items_mono le hf, Transcript.items_mono le ha, givenR⟩
      obtain ⟨t₂, le₂, served₂, -, given₂⟩ := served₁.extend proper
      refine records_here le₂ served₂ fun r' hr ↦ ?_
      cases hr
      exact given₂ _ rfl
    · refine records_here List.prefix_rfl served₁ fun r' hr ↦ ?_
      cases hr
      exact givenR

end Parts

/-- Every call is recorded, whatever its expression. -/
theorem recordsAt (plan : Plan) (n : Nat) : RecordsAt plan n := by
  induction n with
  | zero =>
    intro t busy e env w served henv
    refine Records.call ⟨served, henv⟩ ?_
    exact records_here List.prefix_rfl served fun _ h ↦ by cases h
  | succ n ih =>
    intro t busy e env w served henv
    refine Records.call ⟨served, henv⟩ ?_
    rw [Call.result]
    cases e with
    | slot id index =>
      rw [eval, step]
      cases hg : env.get index with
      | ok v =>
        refine records_here List.prefix_rfl served fun a ha ↦ ?_
        cases ha
        exact served.get henv hg
      | error reason => exact records_here List.prefix_rfl served fun _ h ↦ by cases h
    | lambda id captured body reads size =>
      cases hg : env.getAll captured with
      | ok values =>
        rw [eval_lambda _ _ _ _ _ _ _ hg]
        obtain ⟨t₁, le, served₁, given, -⟩ := served.close (served.getAll henv hg) body
        refine records_here le served₁ fun a ha ↦ ?_
        cases ha
        exact given
      | error reason =>
        rw [eval, step, hg]
        exact records_here List.prefix_rfl served fun _ h ↦ by cases h
    | apply id function argument reads size =>
      rw [eval_apply]
      refine (records_operands ih busy _ served henv).andThen
        (fun parts w ↦ applyCalls n busy parts.1 parts.2 w) ?_
      exact fun t₁ parts w₁ _ served₁ given ↦
        records_applyAnswers ih busy served₁ given.1 given.2

end Eval

/-! ### Runs -/

open Eval (Begins Recorded Occurs OccursBase Reaches Moment)

/-- A run begins with a cache that has given out the values of its free names. -/
theorem Session.begins_start {s : Session} {p : Program} {c : Eval.Call}
    (h : s.start p = some c) : ∃ t, Begins t c := by
  unfold start Cache.bind at h
  obtain ⟨t₁, -, served₁, given₁⟩ := Served.new.instantiateAll p.free
  rcases hi : Cache.instantiateAll {} p.free with ⟨values, undefined, cache⟩
  rw [hi] at h served₁ given₁
  cases undefined with
  | cons token tokens => simp at h
  | nil =>
    obtain ⟨t₂, -, served₂, -, given₂⟩ := served₁.extend (r := .environment values) (by
      simpa [Request.operands] using given₁)
    cases hr : p.root with
    | none => simp [hr] at h
    | some root =>
      rw [hr] at h
      cases h
      exact ⟨t₂, served₂, given₂ _ rfl⟩

/-- The cache of every run has served a transcript, and all calls of the run are recorded in it. -/
theorem Session.recorded_start {s : Session} {p : Program} {c : Eval.Call}
    (h : s.start p = some c) :
    ∃ t, Served t (c.result s.plan).2.cache ∧ Recorded s.plan t c := by
  obtain ⟨t, begins⟩ := s.begins_start h
  obtain ⟨t', -, served, recorded, -⟩ :=
    Eval.recordsAt s.plan c.depth t c.busy c.e c.env c.w begins.cache begins.env
  exact ⟨t', served, recorded c List.mem_cons_self⟩

namespace Eval

section Recorded

variable {plan : Plan} {t : Transcript} {c : Call}

/-- At every moment the cache has served a transcript. -/
theorem Recorded.moment (h : Recorded plan t c) {w : World} (hw : Moment plan c w) :
    ∃ t' : Transcript, t' <+: t ∧ Served t' w.cache := by
  cases hw with
  | entry hr =>
    obtain ⟨⟨t₁, le, begins⟩, -⟩ := h _ hr
    exact ⟨t₁, le, begins.cache⟩
  | exit hr =>
    obtain ⟨-, t₂, le, ends⟩ := h _ hr
    exact ⟨t₂, le, ends.cache⟩

/-- What occurs in a call was given out. -/
theorem Recorded.occurs (h : Recorded plan t c) {cache : Cache} (served : Served t cache)
    {v : Value} (hv : Occurs plan c v) : .value v ∈ t.items := by
  induction hv with
  | slot hr hv =>
    obtain ⟨⟨t₁, le, begins⟩, -⟩ := h _ hr
    exact Transcript.items_mono le (begins.cache.get begins.env hv)
  | answer hr ha =>
    obtain ⟨-, t₂, le, ends⟩ := h _ hr
    exact Transcript.items_mono le (ends.answer _ ha)
  | captured _ hv ih => exact (served.supports (served.supports ih)).2 _ hv
  | held _ hv ih => exact served.supports ih _ hv

/-- The environments that occur in a call were given out. -/
theorem Recorded.occursBase (h : Recorded plan t c) {cache : Cache} (served : Served t cache)
    {b : Base} (hb : OccursBase plan c b) : .base b ∈ t.items := by
  cases hb with
  | base hr hb =>
    obtain ⟨⟨t₁, le, begins⟩, -⟩ := h _ hr
    have env := begins.env
    rw [hb] at env
    exact Transcript.items_mono le env
  | overlay hr hb =>
    obtain ⟨⟨t₁, le, begins⟩, -⟩ := h _ hr
    have env := begins.env
    rw [hb] at env
    exact Transcript.items_mono le env.1
  | closure hv => exact served.supports (h.occurs served hv)

/-- An abstraction that comes to an answer captures the values in the slots that it names. -/
theorem Recorded.captures (h : Recorded plan t c) {c' : Call} (hr : Reaches plan c c')
    {id size : Nat} {captured reads : List Int} {body : Expr} {values : List Value}
    (he : c'.e = .lambda id captured body reads size)
    (hg : c'.env.getAll captured = .ok values) {a : Answer}
    (ha : (c'.result plan).1 = .value a) :
    ∃ id env body', a.value = .closure id env body' ∧ env.values = values := by
  obtain ⟨⟨t₁, -, begins⟩, -⟩ := h c' hr
  obtain ⟨depth, busy, e, env, w⟩ := c'
  cases he
  cases depth with
  | zero => cases ha
  | succ n =>
    rw [Call.result, eval_lambda _ _ _ _ _ _ _ hg] at ha
    cases ha
    obtain ⟨-, -, -, -, closure⟩ :=
      begins.cache.close (begins.cache.getAll begins.env hg) body
    exact closure

end Recorded

end Eval

end BitCalculus
