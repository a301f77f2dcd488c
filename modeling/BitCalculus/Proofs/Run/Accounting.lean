import Mathlib
import BitCalculus.Proofs.Run.Courses
import BitCalculus.Proofs.Run.Flags

/-!
# What the statistics count

The counters of a run are moved in different places: when an abstraction is closed, when a result is
found, when a body is entered, and when an executed application ends. Each is tied to a kind of
evaluation. Along a sequential run the books are kept: between any two states the counters grow by
the number of evaluations of each kind in between, and the numbers given out by what was made.
-/

namespace BitCalculus

/-! ### Sizes of tables -/

/-- A table that files objects under keys of their own has as many entries as objects. -/
theorem Indexes.encard {κ β : Type} [BEq κ] [LawfulBEq κ] [Hashable κ] [LawfulHashable κ]
    {table : Std.HashMap κ β} {made : β → Prop} {key : β → Option κ} (h : Indexes table made key) :
    {b | made b ∧ (key b).isSome}.encard = table.size := by
  classical
  have keys : key '' {b | made b ∧ (key b).isSome} = some '' (table.keys.toFinset : Set κ) := by
    ext k
    simp only [Set.mem_image, Set.mem_ofPred_eq, List.coe_toFinset, Std.HashMap.mem_keys]
    constructor
    · rintro ⟨b, ⟨hb, hs⟩, rfl⟩
      obtain ⟨k, hk⟩ := Option.isSome_iff_exists.mp hs
      have found := (h k b).mpr ⟨hb, hk⟩
      exact ⟨k, Std.HashMap.mem_iff_isSome_getElem?.mpr (by rw [found]; rfl), hk.symm⟩
    · rintro ⟨k, hm, rfl⟩
      obtain ⟨b, found⟩ := Option.isSome_iff_exists.mp (Std.HashMap.mem_iff_isSome_getElem?.mp hm)
      obtain ⟨hb, hk⟩ := (h k b).mp found
      exact ⟨b, ⟨hb, by rw [hk]; rfl⟩, hk⟩
  have inj : Set.InjOn key {b | made b ∧ (key b).isSome} := by
    rintro b ⟨hb, hs⟩ b' ⟨hb', -⟩ he
    obtain ⟨k, hk⟩ := Option.isSome_iff_exists.mp hs
    exact h.unique hb hb' hk (he ▸ hk)
  rw [← inj.encard_image, keys, (Option.some_injective κ).injOn.encard_image,
    Set.encard_coe_eq_coe_finsetCard, List.toFinset_card_of_nodup Std.HashMap.nodup_keys,
    Std.HashMap.length_keys]

theorem size_insert_of_absent {κ β : Type} [BEq κ] [LawfulBEq κ] [Hashable κ] [LawfulHashable κ]
    {table : Std.HashMap κ β} {k : κ} (absent : table[k]? = none) (b : β) :
    (table.insert k b).size = table.size + 1 := by
  rw [Std.HashMap.size_insert, if_neg]
  rw [Std.HashMap.mem_iff_isSome_getElem?, absent]
  simp

/-- A number is given out for each environment that is filed. -/
theorem Cache.sizes_environment (c : Cache) (values : List Value) :
    (c.environment values).2.lastId + c.environments.size =
        c.lastId + (c.environment values).2.environments.size ∧
      (c.environment values).2.closures = c.closures := by
  rcases c.environment_cases values with ⟨b, -, he⟩ | ⟨absent, b, -, he⟩
  · rw [he]
    exact ⟨rfl, rfl⟩
  · rw [he]
    refine ⟨?_, rfl⟩
    rw [size_insert_of_absent absent]
    dsimp only
    omega

/-- The applications of all bodies taken together. -/
def Stats.bodyTotal (s : Stats) : Nat :=
  ∑ id ∈ s.bodies.keys.toFinset, s.bodyCount id

theorem Stats.bodyTotal_empty : ({} : Stats).bodyTotal = 0 := by
  simp [bodyTotal]

theorem Stats.bodyTotal_bump (s : Stats) (counter : Counter) :
    (s.bump counter).bodyTotal = s.bodyTotal := by
  cases counter <;> rfl

/-- Entering a body adds one to the total, whether or not it was entered before. -/
theorem Stats.bodyTotal_countBody (s : Stats) (id : Nat) :
    (s.countBody id).bodyTotal = s.bodyTotal + 1 := by
  have keys : (s.countBody id).bodies.keys.toFinset = insert id s.bodies.keys.toFinset := by
    ext k
    simp only [countBody, List.mem_toFinset, Std.HashMap.mem_keys, Std.HashMap.mem_alter,
      Finset.mem_insert]
    by_cases hk : id = k
    · simp [hk]
    · simp [hk, Ne.symm hk]
  have count (k : Nat) : (s.countBody id).bodyCount k =
      s.bodyCount k + if k = id then 1 else 0 := by
    simp only [bodyCount, countBody, Std.HashMap.getD_alter]
    by_cases hk : id = k
    · subst hk
      simp [Std.HashMap.getD_eq_getD_getElem?]
    · simp [hk, Ne.symm hk]
  have fresh : ∑ k ∈ insert id s.bodies.keys.toFinset, s.bodyCount k = s.bodyTotal := by
    refine Finset.sum_insert_of_eq_zero_if_notMem fun hk ↦ ?_
    rw [List.mem_toFinset, Std.HashMap.mem_keys] at hk
    exact Std.HashMap.getD_eq_fallback hk
  rw [bodyTotal, keys, Finset.sum_congr rfl fun k _ ↦ count k, Finset.sum_add_distrib, fresh]
  simp

/-! ### Books -/

/-- How many evaluations of each kind there were: of applications, of abstractions, of applications
that were executed, of those that entered a body, and of those that gave a reader a continuation. -/
@[ext]
structure Tally where
  applications : Nat
  abstractions : Nat
  executions : Nat
  bodies : Nat
  stages : Nat

namespace Tally

instance : Zero Tally := ⟨⟨0, 0, 0, 0, 0⟩⟩

instance : Add Tally where
  add t u := ⟨t.applications + u.applications, t.abstractions + u.abstractions,
    t.executions + u.executions, t.bodies + u.bodies, t.stages + u.stages⟩

instance : AddCommMonoid Tally where
  add_assoc _ _ _ := Tally.ext (Nat.add_assoc ..) (Nat.add_assoc ..) (Nat.add_assoc ..)
    (Nat.add_assoc ..) (Nat.add_assoc ..)
  zero_add _ := Tally.ext (Nat.zero_add _) (Nat.zero_add _) (Nat.zero_add _) (Nat.zero_add _)
    (Nat.zero_add _)
  add_zero _ := rfl
  add_comm _ _ := Tally.ext (Nat.add_comm ..) (Nat.add_comm ..) (Nat.add_comm ..)
    (Nat.add_comm ..) (Nat.add_comm ..)
  nsmul := nsmulRec

end Tally

/-- Statistics and a cache went on to the given ones, and the tally is what happened in between. The
counters of closures move with the table of closures, and each number was given to an environment,
to a closure or to a reader. -/
structure Posted (t : Tally) (st : Stats) (c : Cache) (st' : Stats) (c' : Cache) : Prop where
  applications : st'.applyHits + st'.applyMisses + st'.applyUncached =
    st.applyHits + st.applyMisses + st.applyUncached + t.applications
  abstractions : st'.closureHits + st'.closureMisses =
    st.closureHits + st.closureMisses + t.abstractions
  executions : st'.applyMisses + st'.applyUncached =
    st.applyMisses + st.applyUncached + t.executions
  bodies : st'.bodyTotal = st.bodyTotal + t.bodies
  closures : st'.closureMisses + c.closures.size = st.closureMisses + c'.closures.size
  numbers : c'.lastId + c.environments.size + c.closures.size =
    c.lastId + c'.environments.size + c'.closures.size + t.stages

/-- If statistics are kept in a state, they are kept in a later one, and the tally is what happened
in between. -/
def Books (t : Tally) (w w' : World) : Prop :=
  ∀ st, w.stats = some st → ∃ st', w'.stats = some st' ∧ Posted t st w.cache st' w'.cache

theorem Books.trans {t u : Tally} {w w₁ w₂ : World} (h : Books t w w₁) (h' : Books u w₁ w₂) :
    Books (t + u) w w₂ := by
  intro st hst
  obtain ⟨st₁, hst₁, posted⟩ := h st hst
  obtain ⟨st₂, hst₂, posted'⟩ := h' st₁ hst₁
  refine ⟨st₂, hst₂, ?_⟩
  have sums : (t + u).applications = t.applications + u.applications ∧
      (t + u).abstractions = t.abstractions + u.abstractions ∧
      (t + u).executions = t.executions + u.executions ∧
      (t + u).bodies = t.bodies + u.bodies ∧ (t + u).stages = t.stages + u.stages :=
    ⟨rfl, rfl, rfl, rfl, rfl⟩
  obtain ⟨applications, abstractions, executions, bodies, closures, numbers⟩ := posted
  obtain ⟨applications', abstractions', executions', bodies', closures', numbers'⟩ := posted'
  constructor <;> omega

section Operations

variable (w : World)

/-- What leaves the statistics and the cache alone leaves the books alone. -/
theorem books_of_eq {w w' : World} (hs : w'.stats = w.stats) (hc : w'.cache = w.cache) :
    Books 0 w w' := by
  intro st hst
  refine ⟨st, hs.trans hst, ?_⟩
  rw [hc]
  constructor <;> rfl

theorem books_found : Books ⟨1, 0, 0, 0, 0⟩ w (w.bump .applyHits) := by
  intro st hst
  refine ⟨st.bump .applyHits, congrArg (Option.map _) hst, ?_, rfl, rfl, st.bodyTotal_bump _,
    rfl, rfl⟩
  simp only [Stats.bump, Stats.set, Stats.get]
  omega

/-- The result of an executed application is counted as remembered or as not. -/
theorem books_executed {counter : Stats.Counter}
    (h : counter = .applyMisses ∨ counter = .applyUncached) :
    Books ⟨1, 0, 1, 0, 0⟩ w (w.bump counter) := by
  intro st hst
  refine ⟨st.bump counter, congrArg (Option.map _) hst, ?_, ?_, ?_, st.bodyTotal_bump _, ?_, rfl⟩
  all_goals
    rcases h with rfl | rfl <;> simp only [Stats.bump, Stats.set, Stats.get, World.bump] <;> omega

theorem books_store (f a r : Value) : Books 0 w (w.store f a r).2 := by
  intro st hst
  refine ⟨st, hst, rfl, rfl, rfl, rfl, ?_, ?_⟩
  all_goals
    rcases w.cache.store_cases f a r with ⟨v, -, he⟩ | ⟨-, he⟩ <;>
    simp only [World.store, he] <;> rfl

theorem books_countBody (id : Nat) : Books ⟨0, 0, 0, 1, 0⟩ w (w.countBody id) := by
  intro st hst
  exact ⟨st.countBody id, congrArg (Option.map _) hst, rfl, rfl, rfl, st.bodyTotal_countBody id,
    rfl, rfl⟩

theorem books_nextId : Books ⟨0, 0, 0, 0, 1⟩ w w.nextId.2 := by
  intro st hst
  refine ⟨st, hst, rfl, rfl, rfl, rfl, rfl, ?_⟩
  rw [show w.nextId.2.cache = { w.cache with lastId := w.cache.lastId + 1 } from rfl]
  dsimp only
  omega

/-- An environment is counted among the numbers when it is made, and a closure there and among the
closures that were made. -/
theorem books_close (values : List Value) (body : Expr) :
    Books ⟨0, 1, 0, 0, 0⟩ w (w.close values body).2 := by
  intro st hst
  obtain ⟨sizes, closures⟩ := w.cache.sizes_environment values
  have cache : (w.close values body).2.cache =
      ((w.cache.environment values).2.closure (w.cache.environment values).1 body).2.2 := rfl
  have stats : (w.close values body).2.stats = w.stats.map (·.bump
      (if ((w.cache.environment values).2.closure (w.cache.environment values).1 body).2.1 then
        .closureHits else .closureMisses)) := rfl
  rw [hst, Option.map_some] at stats
  refine ⟨_, stats, ?_⟩
  rw [cache]
  rcases (w.cache.environment values).2.closure_cases (w.cache.environment values).1 body with
    ⟨v, -, he⟩ | ⟨absent, v, -, he⟩
  · rw [he]
    refine ⟨rfl, ?_, rfl, st.bodyTotal_bump _, ?_, ?_⟩
    · simp only [Stats.bump, Stats.set, Stats.get, if_true]
      omega
    · rw [closures]
      rfl
    · rw [closures]
      dsimp only
      omega
  · have size := size_insert_of_absent absent v
    rw [closures] at size
    rw [he]
    refine ⟨rfl, ?_, rfl, st.bodyTotal_bump _, ?_, ?_⟩
    · simp only [Stats.bump, Stats.set, Stats.get, Bool.false_eq_true, if_false]
      omega
    · simp only [Stats.bump, Stats.set, Stats.get, Bool.false_eq_true, if_false, closures, size]
      omega
    · simp only [closures, size]
      omega

end Operations

/-! ### Kinds of evaluations -/

/-- Whether the expression is an abstraction. -/
def Expr.isLambda : Expr → Bool
  | lambda .. => true
  | _ => false

namespace Value

/-- Whether the value is a closure; the other values are built in. -/
def isClosure : Value → Bool
  | closure _ _ _ => true
  | _ => false

/-- Whether the value is a reader that lacks a continuation. -/
def lacksContinuation : Value → Bool
  | reader _ held => held.length < 3
  | _ => false

end Value

namespace Eval

/-- The function of an application whose parts came to answers without a remembered result. -/
def Call.executes (plan : Plan) (c : Call) : Option Value :=
  match c.parts plan with
  | some (.value (f, a), w) =>
    if (w.cache.lookup f.value a.value).isNone then some f.value else none
  | _ => none

/-- How many of the calls there are of each kind. -/
def tallyOf (plan : Plan) (calls : List Call) : Tally where
  applications := calls.countP fun c ↦ c.e.isApply
  abstractions := calls.countP fun c ↦ c.e.isLambda
  executions := calls.countP fun c ↦ (c.executes plan).isSome
  bodies := calls.countP fun c ↦ (c.executes plan).any Value.isClosure
  stages := calls.countP fun c ↦ (c.executes plan).any Value.lacksContinuation

section Tallies

variable {plan : Plan} {c : Call}

theorem tallyOf_append (calls calls' : List Call) :
    tallyOf plan (calls ++ calls') = tallyOf plan calls + tallyOf plan calls' := by
  ext <;> exact List.countP_append

theorem tallyOf_cons (c : Call) (calls : List Call) :
    tallyOf plan (c :: calls) = tallyOf plan [c] + tallyOf plan calls :=
  tallyOf_append [c] calls

/-- What is executed is a closure or built in. -/
theorem executions_tallyOf (plan : Plan) (calls : List Call) :
    (tallyOf plan calls).executions = (tallyOf plan calls).bodies +
      calls.countP fun c ↦ (c.executes plan).any (!·.isClosure) := by
  induction calls with
  | nil => rfl
  | cons c calls ih =>
    simp only [tallyOf, List.countP_cons] at ih ⊢
    cases hx : c.executes plan with
    | none =>
      simp only [Option.isSome_none, Option.any_none, Bool.false_eq_true, if_false]
      omega
    | some f =>
      cases hf : f.isClosure <;> simp only [Option.isSome_some, Option.any_some, hf, Bool.not_false,
        Bool.not_true, Bool.false_eq_true, if_true, if_false] <;> omega

theorem executes_of_found {f a : Answer} {r : Value} {w : World}
    (hp : c.parts plan = some (.value (f, a), w)) (hl : w.cache.lookup f.value a.value = some r) :
    c.executes plan = none := by
  simp [Call.executes, hp, hl]

theorem executes_of_executed {f a : Answer} {w : World}
    (hp : c.parts plan = some (.value (f, a), w)) (hl : w.cache.lookup f.value a.value = none) :
    c.executes plan = some f.value := by
  simp [Call.executes, hp, hl]

/-- What executing the function adds to the books, apart from the evaluation of a body. -/
def executionTally (f : Value) : Tally :=
  ⟨0, 0, 0, f.isClosure.toNat, f.lacksContinuation.toNat⟩

theorem tallyOf_found {busy n id size : Nat} {function argument : Expr} {reads : List Int}
    {env : Env} {w : World}
    (h : Call.executes plan ⟨n, busy, .apply id function argument reads size, env, w⟩ = none) :
    tallyOf plan [⟨n, busy, .apply id function argument reads size, env, w⟩] =
      ⟨1, 0, 0, 0, 0⟩ := by
  simp [tallyOf, h, Expr.isApply, Expr.isLambda]

theorem tallyOf_executed {busy n id size : Nat} {function argument : Expr} {reads : List Int}
    {env : Env} {w : World} {f : Value}
    (h : Call.executes plan ⟨n, busy, .apply id function argument reads size, env, w⟩ = some f) :
    tallyOf plan [⟨n, busy, .apply id function argument reads size, env, w⟩] =
      executionTally f + ⟨1, 0, 1, 0, 0⟩ := by
  cases hc : f.isClosure <;> cases hl : f.lacksContinuation <;>
    simp [tallyOf, h, hc, hl, Expr.isApply, Expr.isLambda, executionTally] <;> rfl

/-- Between the beginning and the end of an execution the books are kept, if they are during the
evaluation of bodies. -/
theorem books_execution {n busy : Nat} {f a : Value} {w w' : World} {calls : List Call} {r : Answer}
    (hx : Execution plan n busy f a w calls r w')
    (staged : ∀ id held, f = .reader id held → held.length ≤ 3)
    (body : ∀ c' ∈ calls, ∀ r w, c'.result plan = (.value r, w) →
      Books (tallyOf plan (c'.evaluations plan)) c'.w w) :
    Books (executionTally f + tallyOf plan (calls.flatMap (Call.evaluations plan))) w w' := by
  cases hx with
  | closure h =>
    rw [List.flatMap_cons, List.flatMap_nil, List.append_nil]
    exact (books_countBody w _).trans (body _ List.mem_cons_self r w' h)
  | writer i bit a w => exact books_of_eq rfl rfl
  | pick i zero one atEnd a w => exact books_of_eq rfl rfl
  | hold i h a w =>
    have lacks : (Value.reader i _).lacksContinuation = true :=
      decide_eq_true (Nat.lt_of_le_of_ne (staged i _ rfl) h)
    rw [executionTally, lacks]
    exact books_nextId w
  | probe i a w => exact books_of_eq rfl rfl

/-- The end of an executed application is one of an execution. -/
theorem books_settle (f a r : Answer) (w : World) :
    Books ⟨1, 0, 1, 0, 0⟩ w (settle f a r w).2 := by
  rw [settle]
  split
  · exact (books_executed w (.inl rfl)).trans (books_store _ _ _ _)
  · exact books_executed w (.inr rfl)

/-- In a sequential run the books are kept from the beginning of every call to its answer, and what
happened in between are the evaluations that the call leads to. -/
theorem books_evaluations (sequential : plan.strategy = .sequential)
    (staged : ∀ id held, Occurs plan c (.reader id held) → held.length ≤ 3) {c' : Call} {r : Answer}
    {w : World} (h : c'.result plan = (.value r, w)) (hr : Reaches plan c c') :
    Books (tallyOf plan (c'.evaluations plan)) c'.w w := by
  refine answer_induction sequential
    (P := fun c' _ w ↦ Books (tallyOf plan (c'.evaluations plan)) c'.w w)
    (fun c' calls r w hr asks course ih ↦ ?_) hr h
  rw [evaluations_eq, tallyOf_cons, asks]
  cases course with
  | slot hv => exact books_of_eq rfl rfl
  | lambda hv => exact books_close _ _ _
  | @found n busy id size function argument reads env w w₁ w₂ f a r hf ha hl =>
    rw [List.forall_mem_cons, List.forall_mem_cons] at ih
    have hp := parts_of_results sequential id size reads hf ha
    rw [tallyOf_found (executes_of_found hp hl), List.flatMap_cons, List.flatMap_cons,
      List.flatMap_nil, List.append_nil, tallyOf_append, add_comm]
    exact ((ih.1 _ _ hf).trans (ih.2.1 _ _ ha)).trans (books_found w₂)
  | @executed n busy id size function argument reads env w w₁ w₂ w₃ f a r calls hf ha hl hx =>
    rw [List.forall_mem_cons, List.forall_mem_cons] at ih
    have hp := parts_of_results sequential id size reads hf ha
    have joined : Occurs plan c f.value := (Joins.occurs ⟨_, _, hr, hp⟩).1
    have parts := (ih.1 _ _ hf).trans (ih.2.1 _ _ ha)
    have execution := books_execution hx (fun id held he ↦ staged id held (he ▸ joined)) ih.2.2
    have books := (parts.trans execution).trans (books_settle f a r w₃)
    rw [tallyOf_executed (executes_of_executed hp hl), List.flatMap_cons, List.flatMap_cons,
      tallyOf_append, tallyOf_append]
    convert books using 1
    abel

/-! ### Impure applications -/

/-- Between two states so many executed applications were not pure. -/
def Uncached (k : Nat) (w w' : World) : Prop :=
  w'.stats.map Stats.applyUncached = w.stats.map fun st ↦ st.applyUncached + k

theorem Uncached.trans {k k' : Nat} {w w₁ w₂ : World} (h : Uncached k w w₁)
    (h' : Uncached k' w₁ w₂) : Uncached (k + k') w w₂ := by
  rw [Uncached] at *
  rw [h', ← Function.comp_def (· + k') Stats.applyUncached, ← Option.map_map, h, Option.map_map]
  exact congrArg (Option.map · w.stats) (funext fun st ↦ Nat.add_assoc _ _ _)

theorem uncached_bump (w : World) {counter : Stats.Counter} (h : counter ≠ .applyUncached) :
    Uncached 0 w (w.bump counter) := by
  rw [Uncached, World.bump]
  cases w.stats with
  | none => rfl
  | some st =>
    cases counter with
    | applyUncached => exact absurd rfl h
    | _ => rfl

theorem uncached_of_eq {w w' : World} (h : w'.stats = w.stats) : Uncached 0 w w' := by
  rw [Uncached, h]
  rfl

theorem uncached_close (w : World) (values : List Value) (body : Expr) :
    Uncached 0 w (w.close values body).2 := by
  rw [Uncached, World.close]
  dsimp only
  cases w.stats with
  | none => rfl
  | some st => split <;> rfl

theorem uncached_countBody (w : World) (id : Nat) : Uncached 0 w (w.countBody id) := by
  rw [Uncached, World.countBody]
  cases w.stats <;> rfl

/-- A pure execution executes no impure application if that is so for bodies. -/
theorem exists_uncached_execution {n busy : Nat} {f a : Value} {w w' : World} {calls : List Call}
    {r : Answer} (hx : Execution plan n busy f a w calls r w')
    (body : ∀ c' ∈ calls, ∀ r w, c'.result plan = (.value r, w) →
      ∃ k, Uncached k c'.w w ∧ (r.isPure = true ↔ k = 0)) :
    ∃ k, Uncached k w w' ∧ (r.isPure = true → k = 0) := by
  cases hx with
  | closure h =>
    obtain ⟨k, uncached, isPure⟩ := body _ List.mem_cons_self r w' h
    exact ⟨_, (uncached_countBody w _).trans uncached, fun h ↦ by rw [isPure.mp h]⟩
  | writer i bit a w => exact ⟨0, uncached_of_eq rfl, fun _ ↦ rfl⟩
  | pick i zero one atEnd a w => exact ⟨0, uncached_of_eq rfl, fun _ ↦ rfl⟩
  | hold i h a w => exact ⟨0, uncached_of_eq rfl, fun _ ↦ rfl⟩
  | probe i a w => exact ⟨0, uncached_of_eq rfl, fun _ ↦ rfl⟩

/-- The end of an executed application counts it as impure exactly if it is. -/
theorem exists_uncached_settle (f a r : Answer) (w : World) :
    ∃ k, Uncached k w (settle f a r w).2 ∧
      ((settle f a r w).1.isPure = true ↔ (f.isPure ∧ a.isPure) ∧ r.isPure) ∧
      ((f.isPure ∧ a.isPure) ∧ r.isPure ↔ k = 0) := by
  rw [settle, ← Bool.and_eq_true, ← Bool.and_eq_true]
  cases hp : (f.isPure && a.isPure && r.isPure) with
  | true =>
    exact ⟨0, (uncached_bump w (by simp)).trans (uncached_of_eq rfl), by simp, by simp⟩
  | false =>
    refine ⟨1, ?_, by simp, by simp⟩
    rw [if_neg Bool.false_ne_true, Uncached, World.bump]
    cases w.stats <;> rfl

/-- No impure application is executed before a pure answer, and one is before any other. -/
theorem exists_uncached (sequential : plan.strategy = .sequential) {r : Answer} {w : World}
    (h : c.result plan = (.value r, w)) :
    ∃ k, Uncached k c.w w ∧ (r.isPure = true ↔ k = 0) := by
  refine answer_induction sequential
    (P := fun c r w ↦ ∃ k, Uncached k c.w w ∧ (r.isPure = true ↔ k = 0))
    (fun c calls r w _ _ course ih ↦ ?_) (.refl c) h
  cases course with
  | slot hv => exact ⟨0, uncached_of_eq rfl, by simp⟩
  | lambda hv => exact ⟨0, uncached_close _ _ _, by simp⟩
  | @found n busy id size function argument reads env w w₁ w₂ f a r hf ha hl =>
    rw [List.forall_mem_cons, List.forall_mem_cons] at ih
    obtain ⟨kf, uncachedF, pureF⟩ := ih.1 _ _ hf
    obtain ⟨ka, uncachedA, pureA⟩ := ih.2.1 _ _ ha
    refine ⟨_, (uncachedF.trans uncachedA).trans (uncached_bump w₂ (by simp)), ?_⟩
    rw [Bool.and_eq_true, pureF, pureA]
    omega
  | @executed n busy id size function argument reads env w w₁ w₂ w₃ f a r calls hf ha hl hx =>
    rw [List.forall_mem_cons, List.forall_mem_cons] at ih
    obtain ⟨kf, uncachedF, pureF⟩ := ih.1 _ _ hf
    obtain ⟨ka, uncachedA, pureA⟩ := ih.2.1 _ _ ha
    obtain ⟨kx, uncachedX, pureX⟩ := exists_uncached_execution hx ih.2.2
    obtain ⟨ks, uncachedS, pureS, none⟩ := exists_uncached_settle f a r w₃
    refine ⟨_, ((uncachedF.trans uncachedA).trans uncachedX).trans uncachedS, ?_⟩
    rw [pureS]
    constructor
    · intro isPure
      rw [pureF.mp isPure.1.1, pureA.mp isPure.1.2, pureX isPure.2, none.mp isPure]
    · intro zero
      exact none.mpr (by omega)

/-- The number of impure applications stays exactly if no stream was called. -/
theorem applyUncached_eq_iff (sequential : plan.strategy = .sequential) {r : Answer} {w : World}
    {st st' : Stats} (h : c.result plan = (.value r, w)) (begins : c.w.stats = some st)
    (ends : w.stats = some st') :
    st'.applyUncached = st.applyUncached ↔ w.streams.calls = c.w.streams.calls := by
  obtain ⟨k, uncached, isPure⟩ := exists_uncached sequential h
  rw [Uncached, begins, ends] at uncached
  have flags := flagsAt plan c.depth c.busy c.e c.env c.w
  rw [show eval plan c.depth c.busy c.e c.env c.w = _ from h] at flags
  obtain ⟨calls, -, streams, none⟩ := flags.exact.calls
  rw [Option.some.inj uncached, Nat.add_eq_left, ← isPure, none, streams, List.append_right_eq_self]

end Tallies

/-! ### What was made -/

/-- An evaluation of an abstraction that `c` leads to comes to the value. -/
def Closes (plan : Plan) (c : Call) (v : Value) : Prop :=
  ∃ c' isPure, Reaches plan c c' ∧ c'.e.isLambda = true ∧
    (c'.result plan).1 = .value ⟨v, isPure⟩

/-- All closures that are filed were made by evaluations of abstractions, and all environments that
are filed occur. -/
structure Originated (plan : Plan) (c : Call) (cache : Cache) : Prop where
  closures : ∀ (key : Nat × Nat) (v : Value), cache.closures[key]? = some v → Closes plan c v
  environments : ∀ (key : Bytes) (b : Base), cache.environments[key]? = some b →
    OccursBase plan c b

section Origins

variable {F : NodeFamily} {plan : Plan} {R R' : Registry F} {c : Call} {w w' : World}

theorem Originated.of_tables {cache cache' : Cache} (h : Originated plan c cache)
    (hc : cache'.closures = cache.closures) (he : cache'.environments = cache.environments) :
    Originated plan c cache' where
  closures := hc ▸ h.closures
  environments := he ▸ h.environments

/-- A call of an abstraction that begins in order comes to the closure of its body over the
environment of the captured values. -/
theorem Ready.exists_close {n busy id size : Nat} {captured reads : List Int} {body : Expr}
    {env : Env} {values : List Value}
    (ready : Ready R ⟨n, busy, .lambda id captured body reads size, env, w⟩)
    (hv : env.getAll captured = .ok values) :
    ∃ i, (w.close values body).1 = .closure i (w.cache.environment values).1 body := by
  obtain ⟨held, collected⟩ := ready.env.getAll hv
  have length : captured.length = values.length := by
    simpa using congrArg List.length (collect_eq_ok.mp collected)
  obtain ⟨R₁, -, sound₁, heldE, values_eq⟩ := Cache.sound_environment ready.cache held
  have admitted := F.body ready.admitted
  rw [length, ← values_eq] at admitted
  obtain ⟨R₂, -, -, -, closure⟩ := Cache.sound_closure sound₁ heldE admitted
  exact closure

/-- Closing a body files at most the closure that it comes to and the environment of the captured
values. -/
theorem Originated.close (h : Originated plan c w.cache) {values : List Value} {body : Expr}
    (closes : Closes plan c (w.close values body).1)
    (occurs : OccursBase plan c (w.cache.environment values).1) :
    Originated plan c (w.close values body).2.cache := by
  have cache : (w.close values body).2.cache =
      ((w.cache.environment values).2.closure (w.cache.environment values).1 body).2.2 := rfl
  have value : (w.close values body).1 =
      ((w.cache.environment values).2.closure (w.cache.environment values).1 body).1 := rfl
  rw [value] at closes
  have filed : ∀ (key : Bytes) (b : Base),
      (w.cache.environment values).2.environments[key]? = some b → OccursBase plan c b := by
    intro key b hb
    rcases w.cache.environment_cases values with ⟨_, -, he⟩ | ⟨-, _, -, he⟩
    · rw [he] at hb
      exact h.environments key b hb
    · rw [he] at hb occurs
      rcases insert_cases hb with ⟨-, rfl⟩ | hb
      · exact occurs
      · exact h.environments key b hb
  have closures := (w.cache.sizes_environment values).2
  rcases (w.cache.environment values).2.closure_cases (w.cache.environment values).1 body with
    ⟨_, -, he⟩ | ⟨-, _, -, he⟩
  · rw [he] at cache
    exact ⟨cache ▸ closures ▸ h.closures, cache ▸ filed⟩
  · rw [he] at cache closes
    refine ⟨fun key v hk ↦ ?_, cache ▸ filed⟩
    rw [cache] at hk
    rcases insert_cases hk with ⟨-, rfl⟩ | hk
    · exact closes
    · rw [closures] at hk
      exact h.closures key v hk

theorem Originated.settle (h : Originated plan c w.cache) (f a r : Answer) :
    Originated plan c (settle f a r w).2.cache := by
  rw [Eval.settle]
  split
  · rcases (w.bump .applyMisses).cache.store_cases f.value a.value r.value with
      ⟨v, -, he⟩ | ⟨-, he⟩ <;>
    exact h.of_tables (congrArg (·.2.closures) he) (congrArg (·.2.environments) he)
  · exact h

/-- Executing a value makes nothing that is filed, apart from what the evaluation of a body makes.
-/
theorem Originated.execution {n busy : Nat} {f a : Value} {calls : List Call} {r : Answer}
    (h : Originated plan c w.cache) (hx : Execution plan n busy f a w calls r w')
    (body : ∀ c' ∈ calls, ∀ r w, c'.result plan = (.value r, w) → Originated plan c c'.w.cache →
      Originated plan c w.cache) : Originated plan c w'.cache := by
  cases hx with
  | closure hv => exact body _ List.mem_cons_self r w' hv h
  | writer i bit a w => exact h
  | pick i zero one atEnd a w => exact h
  | hold i _ a w => exact h.of_tables rfl rfl
  | probe i a w => exact h

/-- In a sequential run all that is filed originates in the run, if that was so in the beginning. -/
theorem Spans.originated (spans : Spans plan R R' c) (sequential : plan.strategy = .sequential)
    {c' : Call} {r : Answer} (h : c'.result plan = (.value r, w)) (hr : Reaches plan c c')
    (begins : Originated plan c c'.w.cache) : Originated plan c w.cache := by
  refine answer_induction sequential
    (P := fun c' _ w ↦ Originated plan c c'.w.cache → Originated plan c w.cache)
    (fun c' calls r w hr _ course ih begins ↦ ?_) hr h begins
  obtain ⟨R₁, R₂, -, -, -, ready, -⟩ := spans c' hr
  cases course with
  | slot hv => exact begins
  | @lambda n busy id size captured reads expr env w values hv =>
    have result := eval_lambda busy plan n id expr reads size hv w
    obtain ⟨i, closure⟩ := ready.exists_close hv
    have occurs : Occurs plan c (.closure i (w.cache.environment values).1 expr) := by
      rw [← closure]
      exact .answer hr (congrArg Prod.fst result)
    exact begins.close ⟨_, _, hr, rfl, congrArg Prod.fst result⟩ (.closure occurs)
  | found hf ha hl =>
    rw [List.forall_mem_cons, List.forall_mem_cons] at ih
    have parts := ih.2.1 _ _ ha (ih.1 _ _ hf begins)
    exact parts
  | @executed _ _ _ _ _ _ _ _ _ _ _ _ f a r _ hf ha hl hx =>
    rw [List.forall_mem_cons, List.forall_mem_cons] at ih
    have parts := ih.2.1 _ _ ha (ih.1 _ _ hf begins)
    exact (parts.execution hx ih.2.2).settle f a r

/-- If all that is filed in the end originates in the run, then the closures and the environments of
the run are as many as are filed. -/
theorem Spans.encard_made (spans : Spans plan R R' c) (sequential : plan.strategy = .sequential)
    {cache : Cache} (sound : cache.Sound R') (originated : Originated plan c cache) :
    {v | Closes plan c v}.encard = cache.closures.size ∧
      {b | OccursBase plan c b}.encard = cache.environments.size := by
  constructor
  · rw [← sound.closures.encard]
    congr 1
    ext v
    constructor
    · rintro ⟨c', isPure, hr, isLambda, hv⟩
      refine ⟨spans.occurs (.answer hr hv), ?_⟩
      obtain ⟨R₁, R₂, -, -, -, ready, -⟩ := spans c' hr
      rcases result : c'.result plan with ⟨r | reason | _, w'⟩
      · rw [result] at hv
        have course := course_of_result sequential result
        generalize c'.asks plan = calls at course
        cases course with
        | lambda captured =>
          obtain ⟨i, closure⟩ := ready.exists_close captured
          cases hv
          rw [closure]
          rfl
        | _ => cases isLambda
      · rw [result] at hv
        cases hv
      · rw [result] at hv
        cases hv
    · rintro ⟨held, filed⟩
      obtain ⟨key, hk⟩ := Option.isSome_iff_exists.mp filed
      exact originated.closures key v ((sound.closures key v).mpr ⟨held, hk⟩)
  · rw [← sound.environments.encard]
    congr 1
    ext b
    constructor
    · intro occurs
      exact ⟨spans.occursBase occurs, rfl⟩
    · rintro ⟨held, -⟩
      exact originated.environments _ b ((sound.environments _ b).mpr ⟨held, rfl⟩)

end Origins

end Eval

/-! ### Runs -/

/-- Making the values of built-in names gives out a number for each of them and files nothing. -/
theorem Cache.instantiateAll_eq {c : Cache} {names : List Token} (hb : AllBuiltin names) :
    (c.instantiateAll names).2.2 = { c with lastId := c.lastId + names.length } := by
  induction names generalizing c with
  | nil => rfl
  | cons t names ih =>
    obtain ⟨b, hf⟩ := Option.isSome_iff_exists.mp (hb t List.mem_cons_self)
    rw [instantiateAll, hf]
    dsimp only
    rw [ih fun t ht ↦ hb t (List.mem_cons_of_mem _ ht), List.length_cons, Nat.add_comm names.length,
      ← Nat.add_assoc]
    rfl

/-- Binding names in a new cache files their environment and nothing else. -/
theorem Cache.bind_eq {names : List Token} {env : Base} {c : Cache}
    (h : bind {} names = (.ok env, c)) :
    c.environments = Std.HashMap.insert {} (environmentKey env.values) env ∧ c.closures = {} ∧
      c.lastId = names.length + 1 := by
  have made := instantiateAll_eq (c := {}) (allBuiltin_of_bind (congrArg Prod.fst h))
  unfold bind at h
  split at h
  · next values c' hi =>
    replace made : c' = { lastId := 0 + names.length } := by
      rw [hi] at made
      exact made
    rcases c'.environment_cases values with ⟨b, found, -⟩ | ⟨-, b, rfl, he⟩
    · rw [made] at found
      simp at found
    · rw [he] at h
      cases h
      rw [made]
      exact ⟨rfl, rfl, by simp⟩
  · cases h

/-- A run begins with the environment of its names, and with a number for each name and for it. -/
theorem Session.cache_start {s : Session} {p : Program} {c : Eval.Call} (h : s.start p = some c) :
    ∃ env, c.env = .base env ∧
      c.w.cache.environments = Std.HashMap.insert {} (Cache.environmentKey env.values) env ∧
      c.w.cache.closures = {} ∧ c.w.cache.lastId = p.free.length + 1 := by
  unfold start at h
  split at h
  · next env cache root hb hr =>
    cases h
    exact ⟨env, rfl, Cache.bind_eq hb⟩
  · cases h

open Eval (Call Closes OccursBase)

/-- In the beginning there is one environment, which is that of the first call, and no closure. -/
theorem Session.originated_start {s : Session} {p : Program} {c : Call} (h : s.start p = some c) :
    Eval.Originated s.plan c c.w.cache := by
  obtain ⟨env, first, environments, closures, -⟩ := cache_start h
  refine ⟨fun key v hk ↦ ?_, fun key b hb ↦ ?_⟩
  · rw [closures] at hk
    simp at hk
  · rw [environments] at hb
    rcases insert_cases hb with ⟨-, rfl⟩ | hb
    · exact .base (.refl c) first
    · simp at hb

/-- The stream calls of a run are those of the streams that its call leaves. -/
theorem Session.calls_run {s : Session} {p : Program} {c : Call} (h : s.start p = some c) :
    (s.run p).1.calls = (c.result s.plan).2.streams.calls := by
  rw [RunResult.calls, (journal_run h).1]
  rfl

/-- In every sequential run of a compiled program that ends, with new statistics: applications that
were found, remembered and not remembered are as many as evaluations of applications; closures that
were found and made are as many as evaluations of abstractions, and those that were made as many as
closures in the run; applications that were remembered and not remembered are as many as bodies that
were entered and built-in functions that were executed; there is none that was not remembered
exactly if the run called no stream; and numbers were given to the free names, to the environments
and the closures of the run, and to readers that took a continuation. -/
theorem counters_account {source text : Bytes} {lastId last : Nat} {p : Program}
    (compiled : Program.compile source text lastId = .ok (p, last)) (builtins : AllBuiltin p.free)
    {s : Session} (sequential : s.plan.strategy = .sequential) (fresh : s.stats = some {})
    (terminates : s.Terminates p) :
    ∃ c st, s.start p = some c ∧ (s.run p).2.stats = some st ∧
      st.applyHits + st.applyMisses + st.applyUncached =
        (c.evaluations s.plan).countP (fun c' ↦ c'.e.isApply) ∧
      st.closureHits + st.closureMisses =
        (c.evaluations s.plan).countP (fun c' ↦ c'.e.isLambda) ∧
      {v | Closes s.plan c v}.encard = st.closureMisses ∧
      st.applyMisses + st.applyUncached = st.bodyTotal +
        (c.evaluations s.plan).countP (fun c' ↦ (c'.executes s.plan).any (!·.isClosure)) ∧
      (st.applyUncached = 0 ↔ (s.run p).1.calls = []) ∧
      ∃ environments : Nat, {b | OccursBase s.plan c b}.encard = environments ∧
        (s.run p).1.allocated = some (p.free.length + environments + st.closureMisses +
          (c.evaluations s.plan).countP
            fun c' ↦ (c'.executes s.plan).any Value.lacksContinuation) := by
  obtain ⟨F, inRange, closed⟩ := Program.closedIn_of_compile compiled builtins
  obtain ⟨c, starts, -, -, -, streams, -⟩ := closed.start s
  obtain ⟨R, R', spans, sound⟩ := closed.spans_sound starts
  obtain ⟨r, w, answers⟩ := closed.exists_answer inRange starts terminates
  have begins : c.w.stats = some {} := (Session.bound_of_start starts).2.trans fresh
  obtain ⟨_, -, environments, closures, lastId⟩ := Session.cache_start starts
  obtain ⟨st, ends, posted⟩ := Eval.books_evaluations sequential
    (fun id held ↦ (closed.safe inRange s).readers c id held starts) answers (.refl c) {} begins
  have originated := spans.originated sequential answers (.refl c) (Session.originated_start starts)
  rw [answers] at sound
  obtain ⟨madeClosures, madeEnvironments⟩ := spans.encard_made sequential sound originated
  have executions := Eval.executions_tallyOf s.plan (c.evaluations s.plan)
  have allocated := (Session.journal_run starts).2
  have calls := Session.calls_run starts
  rw [answers] at allocated calls
  obtain ⟨applications, abstractions, executed, bodies, made, numbers⟩ := posted
  rw [environments, closures, lastId, size_insert_of_absent (by simp), Std.HashMap.size_empty,
    Std.HashMap.size_empty] at numbers
  rw [closures, Std.HashMap.size_empty, Nat.add_zero, Nat.zero_add] at made
  rw [Stats.bodyTotal_empty, Nat.zero_add] at bodies
  rw [Nat.add_zero, Nat.zero_add, executions, ← bodies] at executed
  refine ⟨c, st, starts, ?_, ?_, ?_, ?_, executed, ?_, _, madeEnvironments, ?_⟩
  · rw [Session.run_eq starts, answers]
    exact ends
  · exact applications.trans (Nat.zero_add _)
  · exact abstractions.trans (Nat.zero_add _)
  · rw [madeClosures, made]
  · rw [calls, ← show s.streams.calls = [] from rfl, ← streams]
    exact Eval.applyUncached_eq_iff sequential answers begins ends
  · rw [allocated, made]
    refine congrArg some ?_
    dsimp only [Eval.tallyOf] at numbers ⊢
    omega

/-- The identity is applied to itself twice, and a reader takes two continuations; before it takes
the second, a bit is written. One of the six applications is found, and three are not remembered.
The program and its first abstraction have one environment. -/
theorem counters_account_reader :
    ∃ p last c, Program.compile (lit "t")
        (lit "(\\i __builtin_g (i i) (__builtin_p1 (i i))) (\\x x)") 0 = .ok (p, last) ∧
      AllBuiltin p.free ∧ (({ stats := some {} } : Session).atDepth 6).Terminates p ∧
      (({ stats := some {} } : Session).atDepth 6).start p = some c ∧
      (c.evaluations {}).countP (fun c' ↦ c'.e.isApply) = 1 + 2 + 3 ∧
      {v | Closes {} c v}.encard = 2 ∧ {b | OccursBase {} c b}.encard = 2 ∧
      (c.evaluations {}).countP (fun c' ↦ (c'.executes {}).any Value.lacksContinuation) = 2 := by
  obtain ⟨p, last, r, s, c, compiled, builtins, free, starts, stages, run, noError, allocated,
      counters⟩ :
      ∃ p last r s c, Program.compile (lit "t")
        (lit "(\\i __builtin_g (i i) (__builtin_p1 (i i))) (\\x x)") 0 = .ok (p, last) ∧
      AllBuiltin p.free ∧ p.free.length = 2 ∧
      (({ stats := some {} } : Session).atDepth 6).start p = some c ∧
      (c.evaluations {}).countP (fun c' ↦ (c'.executes {}).any Value.lacksContinuation) = 2 ∧
      (({ stats := some {} } : Session).atDepth 6).run p = (r, s) ∧ r.error = none ∧
      r.allocated = some 8 ∧ s.stats.map
        (fun st ↦ (st.applyHits, st.applyMisses, st.applyUncached, st.closureMisses)) =
          some (1, 2, 3, 2) :=
    ⟨_, _, _, _, _, by cbv, by decide +kernel, by cbv, by cbv, by cbv, by cbv, by cbv, by cbv,
      by cbv⟩
  have terminates : (({ stats := some {} } : Session).atDepth 6).Terminates p := by
    rw [Session.Terminates, run, noError]
    simp
  obtain ⟨c', st, starts', stats, applications, -, closures, -, -, environments, made, numbers⟩ :=
    counters_account compiled builtins (s := ({ stats := some {} } : Session).atDepth 6) rfl rfl
      terminates
  cases starts.symm.trans starts'
  rw [run] at stats numbers
  rw [stats, Option.map_some, Option.some.injEq, Prod.mk.injEq, Prod.mk.injEq, Prod.mk.injEq]
    at counters
  obtain ⟨hits, misses, uncached, closed⟩ := counters
  rw [hits, misses, uncached] at applications
  rw [closed] at closures
  have number : environments = 2 := by
    have total := Option.some.inj (allocated.symm.trans numbers)
    rw [free, closed, show ((({ stats := some {} } : Session).atDepth 6).plan) = {} from rfl,
      stages] at total
    omega
  rw [number] at made
  exact ⟨p, last, c, compiled, builtins, terminates, starts, applications.symm, closures, made,
    stages⟩

end BitCalculus
