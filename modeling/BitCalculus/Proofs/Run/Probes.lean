import Mathlib
import BitCalculus.Proofs.Run.Courses
import BitCalculus.Proofs.Run.Once

/-!
# Probes under memoization

Probing leaves the streams alone, so an application that probes is remembered, and what it reports
is not reported again when its result is found. Plain evaluation reports it each time. A sequential
run therefore reports the plain sequence without some blocks of it, one for each result that is
found. All that such a block holds was reported before the result was remembered: along a run this
is an invariant of the remembered results.
-/

namespace BitCalculus

/-! ### What plain evaluation reports -/

namespace Plain

/-- What the application of a datum reports: a closure what its body does, a probe its argument. -/
def applyProbes (probes : Expr → List Datum → Streams → List Datum) (function argument : Datum)
    (s : Streams) : List Datum :=
  match function with
  | .closure captured body => probes body (argument :: captured) s
  | .writer _ => []
  | .reader _ => []
  | .probe => [argument]

/-- What is reported after a first part: nothing unless it came to a datum. -/
def probesAfter (first : Outcome Datum × Streams) (next : Datum → Streams → List Datum) :
    List Datum :=
  match first with
  | (.value d, s) => next d s
  | (.fault _, _) => []
  | (.outOfDepth, _) => []

/-- The data that probes report while an expression is evaluated to the given depth, in order. -/
def probes : (depth : Nat) → Expr → List Datum → Streams → List Datum
  | 0, _, _, _ => []
  | depth + 1, e, env, s =>
    match e with
    | .slot _ _ => []
    | .lambda _ _ _ _ _ => []
    | .apply _ function argument _ _ =>
      probes depth function env s ++
        probesAfter (eval depth function env s) fun f s ↦
          probes depth argument env s ++
            probesAfter (eval depth argument env s) fun a s ↦ applyProbes (probes depth) f a s

/-- The data that plain evaluation of a program reports. -/
def runProbes (depth : Nat) (p : Program) (s : Streams) : List Datum :=
  match p.root with
  | none => []
  | some root => probes depth root (builtinData p.free) s

section Laws

variable {n : Nat} {env : List Datum} {s s₁ s₂ s' : Streams}

theorem probes_apply {id size : Nat} {function argument : Expr} {reads : List Int} {f a : Datum}
    (hf : eval n function env s = (.value f, s₁)) (ha : eval n argument env s₁ = (.value a, s₂)) :
    probes (n + 1) (.apply id function argument reads size) env s =
      probes n function env s ++ (probes n argument env s₁ ++ applyProbes (probes n) f a s₂) := by
  rw [probes, hf, probesAfter, ha, probesAfter]

/-- What a quiet application reports does not depend on the streams, if that is so for bodies. -/
private theorem applyProbes_congr
    (h : ∀ {e env s s' d}, eval n e env s = (.value d, s') → s'.calls = s.calls →
      ∀ t, probes n e env t = probes n e env s)
    {f a d : Datum} (hv : apply (eval n) f a s = (.value d, s')) (hc : s'.calls = s.calls)
    (t : Streams) : applyProbes (probes n) f a t = applyProbes (probes n) f a s := by
  cases f with
  | closure captured body => exact h hv hc t
  | writer bit => rfl
  | reader held => rfl
  | probe => rfl

/-- What a quiet evaluation reports does not depend on the streams. -/
theorem probes_quiet {e : Expr} {d : Datum} (h : eval n e env s = (.value d, s'))
    (hc : s'.calls = s.calls) (t : Streams) : probes n e env t = probes n e env s := by
  induction n generalizing e env s d s' t with
  | zero => rfl
  | succ n ih =>
    cases e with
    | slot id index => rfl
    | lambda id captured body reads size => rfl
    | apply id function argument reads size =>
      obtain ⟨f, s₁, a, s₂, ⟨hf, hc₁⟩, ⟨ha, hc₂⟩, hv, hc₃⟩ := quiet_parts h hc
      rw [probes_apply hf ha, probes_apply (eval_quiet hf hc₁ t) (eval_quiet ha hc₂ t),
        ih hf hc₁ t, ih ha hc₂ t, applyProbes_congr ih hv hc₃ t]

theorem applyProbes_quiet {f a d : Datum} (hv : apply (eval n) f a s = (.value d, s'))
    (hc : s'.calls = s.calls) (t : Streams) :
    applyProbes (probes n) f a t = applyProbes (probes n) f a s :=
  applyProbes_congr (fun h hc t ↦ probes_quiet h hc t) hv hc t

end Laws

end Plain

/-! ### Leaving out blocks -/

section Abridges

variable {α : Type}

/-- One list is another one without some blocks. Which blocks may be left out depends on what comes
before them: on `before` and what was kept since. -/
inductive Abridges (hidden : List α → List α → Prop) : List α → List α → List α → Prop
  | nil (before : List α) : Abridges hidden before [] []
  | keep {before full kept : List α} (x : α) (h : Abridges hidden (before ++ [x]) full kept) :
    Abridges hidden before (x :: full) (x :: kept)
  | hide {before block full kept : List α} (hb : hidden before block)
    (h : Abridges hidden before full kept) : Abridges hidden before (block ++ full) kept

variable {hidden : List α → List α → Prop} {before full kept full' kept' : List α}

theorem Abridges.append (h : Abridges hidden before full kept)
    (h' : Abridges hidden (before ++ kept) full' kept') :
    Abridges hidden before (full ++ full') (kept ++ kept') := by
  induction h with
  | nil before => rwa [List.append_nil] at h'
  | keep x _ ih =>
    refine .keep x (ih ?_)
    rwa [List.append_assoc, List.singleton_append]
  | hide hb _ ih =>
    rw [List.append_assoc]
    exact .hide hb (ih h')

theorem Abridges.sublist (h : Abridges hidden before full kept) : kept.Sublist full := by
  induction h with
  | nil before => exact .slnil
  | keep x _ ih => exact ih.cons_cons x
  | hide hb _ ih => exact ih.trans (List.sublist_append_right _ _)

/-- If blocks hold only what came before, nothing is left out altogether. -/
theorem Abridges.subset (h : Abridges hidden before full kept)
    (old : ∀ before block, hidden before block → block ⊆ before) : full ⊆ before ++ kept := by
  induction h with
  | nil before => exact List.nil_subset _
  | keep x _ ih =>
    rw [List.append_assoc, List.singleton_append] at ih
    exact List.cons_subset.mpr ⟨by simp, ih⟩
  | hide hb _ ih =>
    exact List.append_subset.mpr ⟨List.Subset.trans (old _ _ hb) (List.subset_append_left _ _), ih⟩

end Abridges

/-! ### What a run reports -/

/-- The datum that an event reports. -/
def Event.probed? : Event → Option Datum
  | .probed value => some value.erase
  | _ => none

namespace World

/-- The data that were reported so far, in order. -/
def probed (w : World) : List Datum :=
  w.journal.toList.filterMap Event.probed?

/-- Everything in the journal of one state is in that of the other, which may go on. -/
def Precedes (w w' : World) : Prop :=
  w.journal.toList <+: w'.journal.toList

theorem Precedes.probed {w w' : World} (h : w.Precedes w') : w.probed <+: w'.probed :=
  h.filterMap _

theorem Precedes.trans {w w₁ w₂ : World} (h : w.Precedes w₁) (h' : w₁.Precedes w₂) :
    w.Precedes w₂ :=
  List.IsPrefix.trans h h'

theorem precedes_note (w : World) (event : Event) : w.Precedes (w.note event) := by
  simp [Precedes, note]

theorem precedes_write (w : World) (bit : Bool) : w.Precedes (w.write bit) := by
  simp [Precedes, write]

theorem precedes_read (w : World) : w.Precedes w.read.2 := by
  simp [Precedes, read]

theorem probed_write (w : World) (bit : Bool) : (w.write bit).probed = w.probed := by
  simp [probed, write, Event.probed?]

theorem probed_read (w : World) : w.read.2.probed = w.probed := by
  simp [probed, read, Event.probed?]

theorem probed_note (w : World) (v : Value) :
    (w.note (.probed v)).probed = w.probed ++ [v.erase] := by
  simp [probed, note, Event.probed?]

end World

namespace Eval

/-- When executing `f` on `a` comes to a datum, all that it reports was reported by then. -/
def Exhausted (f a : Value) (w : World) : Prop :=
  ∀ n s d s', Plain.apply (Plain.eval n) f.erase a.erase s = (.value d, s') →
    Plain.applyProbes (Plain.probes n) f.erase a.erase s ⊆ w.probed

/-- While `c` is evaluated, the result `r` of applying `f` to `a` was remembered in the state `w`,
when all that the application reports had been reported. -/
structure Covers (plan : Plan) (c : Call) (f a r : Value) (w : World) : Prop where
  stores : ∃ c', Reaches plan c c' ∧ c'.Stores plan f a r w
  exhausted : Exhausted f a w

/-- Every remembered result is covered by a state that precedes this one. -/
def AllCovered (plan : Plan) (c : Call) (w : World) : Prop :=
  ∀ (key : Nat × Nat) (r : Value), w.cache.applications[key]? = some r →
    ∃ f a w₀, Covers plan c f a r w₀ ∧ key = (f.id, a.id) ∧ w₀.Precedes w

/-- During `c`, with `before` reported, a call applies a function to an argument, finds a remembered
result and reports nothing, where plain execution reports the block. The result had been remembered
in a state in which the whole block was reported already. -/
def Hides (plan : Plan) (c : Call) (before block : List Datum) : Prop :=
  ∃ c' f a r w w₀, Reaches plan c c' ∧ c'.parts plan = some (.value (f, a), w) ∧
    w.cache.lookup f.value a.value = some r ∧ w.probed = before ∧
    (∃ n s d s', Plain.apply (Plain.eval n) f.value.erase a.value.erase s = (.value d, s') ∧
      block = Plain.applyProbes (Plain.probes n) f.value.erase a.value.erase s) ∧
    Covers plan c f.value a.value r w₀ ∧ w₀.Precedes w ∧ block ⊆ w₀.probed

theorem Hides.subset {plan : Plan} {c : Call} {before block : List Datum}
    (h : Hides plan c before block) : block ⊆ before := by
  obtain ⟨-, -, -, -, w, w₀, -, -, -, rfl, -, -, precedes, reported⟩ := h
  exact List.Subset.trans reported precedes.probed.subset

/-- Between two states the given data are reported, without blocks that are hidden. -/
def Reports (plan : Plan) (c : Call) (w w' : World) (full : List Datum) : Prop :=
  ∃ kept, w'.probed = w.probed ++ kept ∧ Abridges (Hides plan c) w.probed full kept

section Reports

variable {plan : Plan} {c : Call} {w w₁ w₂ : World} {full full' : List Datum}

theorem reports_nil (h : w₁.probed = w.probed) : Reports plan c w w₁ [] :=
  ⟨[], by rw [h, List.append_nil], .nil _⟩

theorem Reports.trans (h : Reports plan c w w₁ full) (h' : Reports plan c w₁ w₂ full') :
    Reports plan c w w₂ (full ++ full') := by
  obtain ⟨kept, he, abridges⟩ := h
  obtain ⟨kept', he', abridges'⟩ := h'
  rw [he] at abridges'
  exact ⟨kept ++ kept', by rw [he', he, List.append_assoc], abridges.append abridges'⟩

theorem Reports.of_probed (h : Reports plan c w w₁ full) (he : w₂.probed = w₁.probed) :
    Reports plan c w w₂ full := by
  obtain ⟨kept, he', abridges⟩ := h
  exact ⟨kept, he.trans he', abridges⟩

/-- What is to be reported between two states was reported in the end. -/
theorem Reports.subset (h : Reports plan c w w₁ full) : full ⊆ w₁.probed := by
  obtain ⟨kept, he, abridges⟩ := h
  rw [he]
  exact abridges.subset fun _ _ ↦ Hides.subset

theorem AllCovered.of_precedes (h : AllCovered plan c w) (precedes : w.Precedes w₁)
    (he : w₁.cache.applications = w.cache.applications) : AllCovered plan c w₁ := by
  intro key r hk
  rw [he] at hk
  obtain ⟨f, a, w₀, covers, hkey, before⟩ := h key r hk
  exact ⟨f, a, w₀, covers, hkey, before.trans precedes⟩

end Reports

/-! ### Calls -/

section Calls

variable {F : NodeFamily} {plan : Plan} {R R' : Registry F} {c c' : Call}

/-- A remembered result belongs to the very function and argument for which it is found. -/
theorem Spans.covers (h : Spans plan R R' c) {w : World} (covered : AllCovered plan c w)
    {f a : Answer} (joins : Joins plan c f a) {r : Value}
    (hl : w.cache.lookup f.value a.value = some r) :
    ∃ w₀, Covers plan c f.value a.value r w₀ ∧ w₀.Precedes w := by
  obtain ⟨f', a', w₀, covers, key, precedes⟩ := covered _ r hl
  obtain ⟨c₀, hr, n, w₁, -, hp, -⟩ := covers.stores
  have joined : Joins plan c ⟨f', true⟩ ⟨a', true⟩ := ⟨c₀, w₁, hr, hp⟩
  obtain ⟨idF, idA⟩ := Prod.mk.inj key
  have sameF : f.value = f' := h.id_inj joins.occurs.1 joined.occurs.1 idF
  have sameA : a.value = a' := h.id_inj joins.occurs.2 joined.occurs.2 idA
  exact ⟨w₀, sameF ▸ sameA ▸ covers, precedes⟩

/-- If all remembered results are covered when a call begins, they are in the state in which it
ends, and in between it reports what plain evaluation reports, without hidden blocks. -/
def ReportsAll (plan : Plan) (c c' : Call) (w' : World) : Prop :=
  AllCovered plan c c'.w → AllCovered plan c w' ∧
    ∀ m, Plain.Returns m c'.e c'.env.data c'.w.streams →
      Reports plan c c'.w w' (Plain.probes m c'.e c'.env.data c'.w.streams)

/-- Executing a value reports what plain execution reports, if the evaluation of bodies does. -/
theorem reports_execution {n busy : Nat} {f a : Value} {w w' : World} {calls : List Call}
    {r : Answer} (hx : Execution plan n busy f a w calls r w')
    (body : ∀ c' ∈ calls, ∀ r w, c'.result plan = (.value r, w) → ReportsAll plan c c' w)
    (covered : AllCovered plan c w) :
    AllCovered plan c w' ∧ ∀ m, Plain.ApplyReturns m f.erase a.erase w.streams →
      Reports plan c w w' (Plain.applyProbes (Plain.probes m) f.erase a.erase w.streams) := by
  cases hx with
  | closure h =>
    obtain ⟨covered', reports⟩ := body _ List.mem_cons_self _ _ h covered
    refine ⟨covered', fun m returns ↦ ?_⟩
    rw [Value.erase_closure] at returns ⊢
    exact reports m returns
  | writer i bit a w =>
    exact ⟨covered.of_precedes (w.precedes_write bit) rfl, fun m _ ↦
      reports_nil (w.probed_write bit)⟩
  | pick i zero one atEnd a w =>
    refine ⟨covered.of_precedes w.precedes_read rfl, fun m _ ↦ ?_⟩
    rw [Value.erase_reader]
    exact reports_nil w.probed_read
  | hold i h a w =>
    refine ⟨covered, fun m _ ↦ ?_⟩
    rw [Value.erase_reader]
    exact reports_nil rfl
  | probe i a w =>
    exact ⟨covered.of_precedes (w.precedes_note _) rfl, fun m _ ↦
      ⟨[a.erase], w.probed_note a, .keep _ (.nil _)⟩⟩

theorem probed_settle (f a r : Answer) (w : World) : (settle f a r w).2.probed = w.probed := by
  rw [settle]
  split <;> rfl

/-- The end of an executed application keeps remembered results covered: if it remembers one more,
all that the application reports was reported by then. -/
theorem allCovered_settle {n : Nat} (hr : Reaches plan c c') (hn : c'.depth = n + 1)
    {f a r : Answer} {w w' : World} (hp : c'.parts plan = some (.value (f, a), w))
    (hl : w.cache.lookup f.value a.value = none)
    (hv : applyValue (eval plan n) c'.busy f.value a.value w = (.value r, w'))
    (exhausted : r.isPure = true → Exhausted f.value a.value w')
    (covered : AllCovered plan c w') : AllCovered plan c (settle f a r w').2 := by
  rw [settle]
  split
  · next isPure =>
    simp only [Bool.and_eq_true] at isPure
    obtain ⟨⟨pureF, pureA⟩, pureR⟩ := isPure
    obtain ⟨f, _⟩ := f
    obtain ⟨a, _⟩ := a
    obtain ⟨r, _⟩ := r
    cases pureF
    cases pureA
    cases pureR
    intro key v hk
    rcases Cache.store_entry hk with ⟨rfl, rfl⟩ | hk
    · exact ⟨f, a, w', ⟨⟨c', hr, n, w, hn, hp, hl, hv⟩, exhausted rfl⟩, rfl, List.prefix_rfl⟩
    · exact covered key v hk
  · exact covered

/-- The answer to a call of a run agrees with its plain evaluation. -/
theorem Spans.agrees (h : Spans plan R R' c) (hr : Reaches plan c c') {r : Answer} {w' : World}
    (hv : c'.result plan = (.value r, w')) :
    Agrees c'.e c'.env.data c'.w.streams r w'.streams := by
  obtain ⟨R₁, R₂, -, -, -, -, done⟩ := h c' hr
  have outcome := done.outcome
  rw [hv] at outcome
  exact outcome.2

/-- What executing the answers to the parts of a call comes to agrees with plain execution. -/
theorem Spans.applyAgrees (h : Spans plan R R' c) (hr : Reaches plan c c') {n : Nat}
    {f a r : Answer} {w w' : World} (hp : c'.parts plan = some (.value (f, a), w))
    (hv : applyValue (eval plan n) c'.busy f.value a.value w = (.value r, w')) :
    ApplyAgrees f.value a.value w.streams r w'.streams := by
  obtain ⟨R₁, R₂, -, -, -, ready, -⟩ := h c' hr
  obtain ⟨-, -, -, -, -, R₃, -, -, sound, heldF, heldA, -⟩ := ready.parts hp
  obtain ⟨R₄, -, -, -, meets, -⟩ :=
    settles_applyValue (settlesAt plan n) c'.busy heldF heldA sound
  rw [hv] at meets
  exact meets.2

/-- If a pure execution reports what plain execution reports, then all that this application will
ever report was reported. -/
theorem exhausted_of_reports {f a : Value} {r : Answer} {w w' : World}
    (agrees : ApplyAgrees f a w.streams r w'.streams) (isPure : r.isPure = true)
    (reports : ∀ m, Plain.ApplyReturns m f.erase a.erase w.streams →
      Reports plan c w w' (Plain.applyProbes (Plain.probes m) f.erase a.erase w.streams)) :
    Exhausted f a w' := by
  intro n s d s' hv
  obtain ⟨k, hk⟩ := agrees.plain
  -- A pure application leaves any streams as they are, so it reports the same on those of the run.
  obtain ⟨-, rfl⟩ := Plain.apply_agree hv (Plain.apply_eval_quiet hk (agrees.isPure.mp isPure) s)
  rw [← Plain.applyProbes_quiet hv rfl w.streams]
  exact (reports n ⟨d, _, Plain.apply_eval_quiet hv rfl w.streams⟩).subset

/-- The parts of an application report what plain evaluation reports for them. -/
theorem Spans.reports_parts (h : Spans plan R R' c) {n busy id size : Nat} {reads : List Int}
    {function argument : Expr} {env : Env} {w w₁ w₂ : World} {f a : Answer}
    (reachedF : Reaches plan c ⟨n, busy, function, env, w⟩)
    (reachedA : Reaches plan c ⟨n, busy, argument, env, w₁⟩)
    (hf : Call.result plan ⟨n, busy, function, env, w⟩ = (.value f, w₁))
    (ha : Call.result plan ⟨n, busy, argument, env, w₁⟩ = (.value a, w₂))
    (ofF : ReportsAll plan c ⟨n, busy, function, env, w⟩ w₁)
    (ofA : ReportsAll plan c ⟨n, busy, argument, env, w₁⟩ w₂) (covered : AllCovered plan c w) :
    AllCovered plan c w₂ ∧
      ∀ m, Plain.Returns m (.apply id function argument reads size) env.data w.streams →
        ∃ k full, Plain.ApplyReturns k f.value.erase a.value.erase w₂.streams ∧
          Reports plan c w w₂ full ∧
          Plain.probes m (.apply id function argument reads size) env.data w.streams =
            full ++ Plain.applyProbes (Plain.probes k) f.value.erase a.value.erase w₂.streams := by
  obtain ⟨coveredF, reportsF⟩ := ofF covered
  obtain ⟨coveredA, reportsA⟩ := ofA coveredF
  refine ⟨coveredA, fun m returns ↦ ?_⟩
  obtain ⟨d, s, returns⟩ := returns
  cases m with
  | zero => cases returns
  | succ k =>
    obtain ⟨f', s₁, a', s₂, hf', ha', hv'⟩ := Plain.eval_apply_eq_value.mp returns
    obtain ⟨kf, plainF⟩ := (h.agrees reachedF hf).plain
    obtain ⟨ka, plainA⟩ := (h.agrees reachedA ha).plain
    obtain ⟨rfl, rfl⟩ := Plain.eval_agree hf' plainF
    obtain ⟨rfl, rfl⟩ := Plain.eval_agree ha' plainA
    refine ⟨k, _, ⟨d, s, hv'⟩, (reportsF k ⟨_, _, hf'⟩).trans (reportsA k ⟨_, _, ha'⟩), ?_⟩
    rw [Plain.probes_apply hf' ha', List.append_assoc]

/-- In a sequential run every call that comes to an answer reports what plain evaluation reports,
without hidden blocks. -/
theorem Spans.reportsAll (h : Spans plan R R' c) (sequential : plan.strategy = .sequential)
    (hr : Reaches plan c c') {r : Answer} {w : World} (hv : c'.result plan = (.value r, w)) :
    ReportsAll plan c c' w := by
  refine answer_induction sequential (P := fun c' _ w ↦ ReportsAll plan c c' w)
    (fun c' calls r w hr asks course ih covered ↦ ?_) hr hv
  have reached : ∀ d ∈ calls, Reaches plan c d :=
    fun d hm ↦ hr.trans (.step (asks ▸ hm) (.refl d))
  cases course with
  | slot hg =>
    refine ⟨covered, fun m _ ↦ ?_⟩
    cases m <;> exact reports_nil rfl
  | lambda hg =>
    refine ⟨covered.of_precedes List.prefix_rfl (World.applications_close _ _ _), fun m _ ↦ ?_⟩
    cases m <;> exact reports_nil rfl
  | @found n busy id size function argument reads env w w₁ w₂ f a r hf ha hl =>
    rw [List.forall_mem_cons, List.forall_mem_cons] at ih reached
    have hp := parts_of_results sequential id size reads hf ha
    obtain ⟨coveredA, parts⟩ := h.reports_parts reached.1 reached.2.1 hf ha (ih.1 _ _ hf)
      (ih.2.1 _ _ ha) covered
    obtain ⟨w₀, covers, precedes⟩ := h.covers coveredA ⟨_, _, hr, hp⟩ hl
    refine ⟨coveredA, fun m returns ↦ ?_⟩
    obtain ⟨k, full, ⟨d, s, plain⟩, reports, he⟩ := parts m returns
    have hides : Hides plan c _ _ := ⟨_, _, _, _, _, _, hr, hp, hl, rfl,
      ⟨k, _, d, s, plain, rfl⟩, covers, precedes, covers.exhausted k _ d s plain⟩
    rw [he]
    refine reports.trans ⟨[], (List.append_nil _).symm, ?_⟩
    simpa using Abridges.hide hides (.nil _)
  | @executed n busy id size function argument reads env w w₁ w₂ w₃ f a r calls hf ha hl hx =>
    rw [List.forall_mem_cons, List.forall_mem_cons] at ih reached
    have hp := parts_of_results sequential id size reads hf ha
    have hv := hx.applyValue_eq
    obtain ⟨coveredA, parts⟩ := h.reports_parts reached.1 reached.2.1 hf ha (ih.1 _ _ hf)
      (ih.2.1 _ _ ha) covered
    obtain ⟨coveredX, reportsX⟩ := reports_execution hx ih.2.2 coveredA
    refine ⟨allCovered_settle hr rfl hp hl hv (fun isPure ↦
      exhausted_of_reports (h.applyAgrees hr hp hv) isPure reportsX) coveredX, fun m returns ↦ ?_⟩
    obtain ⟨k, full, plain, reports, he⟩ := parts m returns
    rw [he]
    exact (reports.trans (reportsX k plain)).of_probed (probed_settle _ _ _ _)

end Calls

end Eval

/-! ### Runs -/

namespace Session

variable {s : Session} {p : Program} {c : Eval.Call}

/-- The probes of a run, without numbers. -/
theorem probes_run (h : s.start p = some c) :
    (s.run p).1.probes.map Value.erase = (c.result s.plan).2.probed := by
  rw [RunResult.probes, (journal_run h).1, List.map_filterMap, World.probed]
  congr 1
  funext event
  cases event <;> rfl

theorem probed_start (h : s.start p = some c) : c.w.probed = [] := by
  unfold start at h
  split at h
  · cases h
    rfl
  · cases h

end Session

open Eval (AllCovered Hides)

/-- Every sequential run of a compiled program that ends reports, apart from numbers, what plain
evaluation of the program on the same streams reports, without some blocks. A block is left out
where the result of an application is found; it is what plain execution of this application reports,
and all of it was reported before the result was remembered. So the run reports a subsequence, and
nothing that is reported by plain evaluation is left out altogether. -/
theorem probes_never_hidden {source text : Bytes} {lastId last : Nat} {p : Program}
    (compiled : Program.compile source text lastId = .ok (p, last)) (builtins : AllBuiltin p.free)
    {s : Session} (sequential : s.plan.strategy = .sequential) (terminates : s.Terminates p) :
    (∃ m, Plain.Terminates m p s.streams) ∧ ∃ c, s.start p = some c ∧
      ∀ m, Plain.Terminates m p s.streams →
        Abridges (Hides s.plan c) [] (Plain.runProbes m p s.streams)
            ((s.run p).1.probes.map Value.erase) ∧
          ((s.run p).1.probes.map Value.erase).Sublist (Plain.runProbes m p s.streams) ∧
          Plain.runProbes m p s.streams ⊆ (s.run p).1.probes.map Value.erase := by
  obtain ⟨F, inRange, closed⟩ := Program.closedIn_of_compile compiled builtins
  refine ⟨(closed.terminates_iff inRange s).mp ⟨s.depth, terminates⟩, ?_⟩
  obtain ⟨c, starts, -, rooted, data, streams, -⟩ := closed.start s
  obtain ⟨R, R', spans⟩ := closed.spans starts
  obtain ⟨r, w, answers⟩ := closed.exists_answer inRange starts terminates
  have begins : AllCovered s.plan c c.w := by
    intro key v hk
    rw [Session.applications_start starts] at hk
    simp at hk
  obtain ⟨-, reports⟩ := spans.reportsAll sequential (.refl c) answers begins
  refine ⟨c, starts, fun m ends ↦ ?_⟩
  obtain ⟨d, t, plain⟩ := closed.plain_value inRange ends
  rw [Plain.run, rooted] at plain
  rw [data, streams] at reports
  obtain ⟨kept, he, abridges⟩ := reports m ⟨d, t, plain⟩
  rw [Session.probed_start starts] at he abridges
  rw [Session.probes_run starts, answers, he, Plain.runProbes, rooted]
  exact ⟨abridges, abridges.sublist, abridges.subset fun _ _ ↦ Hides.subset⟩

/-- A function that probes its argument is applied to itself twice. Plain evaluation reports two
data, the run reports one of them, and the block that it leaves out is hidden. -/
theorem probes_never_hidden_repeated :
    ∃ p last c, Program.compile (lit "t")
        (lit "(\\f (\\x \\y x) (f f) (f f)) (\\x __builtin_debug x)") 0 = .ok (p, last) ∧
      AllBuiltin p.free ∧ (({} : Session).atDepth 8).Terminates p ∧
      (({} : Session).atDepth 8).start p = some c ∧
      Plain.Terminates 8 p ({} : Session).streams ∧
      (Plain.runProbes 8 p ({} : Session).streams).length = 2 ∧
      ((({} : Session).atDepth 8).run p).1.probes.length = 1 ∧
      Abridges (Hides {} c) [] (Plain.runProbes 8 p ({} : Session).streams)
        (((({} : Session).atDepth 8).run p).1.probes.map Value.erase) := by
  obtain ⟨p, last, compiled, builtins, noError, d, t, plain, full, kept⟩ : ∃ p last,
      Program.compile (lit "t")
        (lit "(\\f (\\x \\y x) (f f) (f f)) (\\x __builtin_debug x)") 0 = .ok (p, last) ∧
      AllBuiltin p.free ∧ ((({} : Session).atDepth 8).run p).1.error = none ∧
      ∃ d t, Plain.run 8 p ({} : Session).streams = (.value d, t) ∧
      (Plain.runProbes 8 p ({} : Session).streams).length = 2 ∧
      ((({} : Session).atDepth 8).run p).1.probes.length = 1 :=
    ⟨_, _, by cbv, by decide +kernel, by cbv, _, _, by cbv, by cbv, by cbv⟩
  have terminates : (({} : Session).atDepth 8).Terminates p := by
    rw [Session.Terminates, noError]
    simp
  have ends := Plain.terminates_of_value plain
  obtain ⟨-, c, starts, reports⟩ :=
    probes_never_hidden compiled builtins (s := ({} : Session).atDepth 8) rfl terminates
  exact ⟨p, last, c, compiled, builtins, terminates, starts, ends, full, kept, (reports 8 ends).1⟩

end BitCalculus
