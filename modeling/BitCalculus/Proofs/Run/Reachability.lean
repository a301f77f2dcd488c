import Mathlib
import BitCalculus.Proofs.Run.Transcripts

/-!
# What streams can be reached from

A value knows whether a stream can be reached from it: a writer or a reader always, a closure by the
mark of its environment, which was set once when the environment was made and is shared by all
closures over it. Whatever a cache is asked for and in every run, the mark is exact: a stream is
marked as reachable exactly if captured environments lead to a writer or a reader.
-/

namespace BitCalculus

/-! ### Captured values -/

namespace Value

/-- The value `w` stands in the captured environment of a closure. -/
inductive Captures : Value → Value → Prop
  | intro {id : Nat} {env : Base} {body : Expr} {w : Value} (h : w ∈ env.values) :
    Captures (.closure id env body) w

/-- The value works on a stream itself: it is a writer or a reader. -/
inductive OnStream : Value → Prop
  | writer (id : Nat) (bit : Bool) : OnStream (.writer id bit)
  | reader (id : Nat) (held : List Value) : OnStream (.reader id held)

/-- A value that works on a stream is the value itself or is reached from it through captured
environments. -/
def ReachesStream (v : Value) : Prop :=
  ∃ w, Relation.ReflTransGen Captures v w ∧ w.OnStream

/-- What works on a stream reaches it. -/
theorem OnStream.reachesStream {v : Value} (h : v.OnStream) : v.ReachesStream :=
  ⟨v, .refl, h⟩

/-- A closure reaches a stream only through what it captures. -/
theorem reachesStream_closure {id : Nat} {env : Base} {body : Expr} :
    (closure id env body).ReachesStream ↔ ∃ w ∈ env.values, w.ReachesStream := by
  constructor
  · rintro ⟨u, path, onStream⟩
    rcases path.cases_head with rfl | ⟨w, ⟨hw⟩, path⟩
    · cases onStream
    · exact ⟨w, hw, u, path, onStream⟩
  · rintro ⟨w, hw, u, path, onStream⟩
    exact ⟨u, .head ⟨hw⟩ path, onStream⟩

/-- A probe captures nothing. -/
theorem not_reachesStream_probe (id : Nat) : ¬ (probe id).ReachesStream := by
  rintro ⟨u, path, onStream⟩
  rcases path.cases_head with rfl | ⟨w, captures, -⟩
  · cases onStream
  · cases captures

end Value

/-! ### Exact marks -/

/-- What the item says of streams is right: a value says that a stream can be reached from it exactly
if one is, an environment exactly if one is from one of its values. -/
def Item.Exact : Item → Prop
  | number _ => True
  | value v => v.effectful = true ↔ v.ReachesStream
  | base b => b.effectful = true ↔ ∃ v ∈ b.values, v.ReachesStream

section Exact

variable {t : Transcript} {c : Cache}

/-- An environment is right if its values are, since its mark was made from theirs. -/
theorem Transcript.Supports.exact_base {b : Base} (h : t.Supports (.base b))
    (values : ∀ v ∈ b.values, Item.Exact (.value v)) : Item.Exact (.base b) := by
  rw [Item.Exact, h.1, List.any_eq_true]
  exact exists_congr fun v ↦ and_congr_right (values v)

/-- A value that was given out is right: by induction on the nesting of closures. -/
theorem Served.exact_value (h : Served t c) {v : Value} (hv : .value v ∈ t.items) :
    Item.Exact (.value v) := by
  induction v using Value.inside_induction with
  | closure id env body ih =>
    have made := h.supports (h.supports hv)
    rw [Item.Exact, Value.reachesStream_closure]
    exact made.exact_base fun w hw ↦ ih w hw (made.2 w hw)
  | writer id bit => exact iff_of_true rfl (Value.OnStream.writer id bit).reachesStream
  | reader id held => exact iff_of_true rfl (Value.OnStream.reader id held).reachesStream
  | probe id => exact iff_of_false Bool.false_ne_true (Value.not_reachesStream_probe id)

/-- All items that were given out are right. -/
theorem Served.exact (h : Served t c) {x : Item} (hx : x ∈ t.items) : x.Exact := by
  cases x with
  | number id => trivial
  | value v => exact h.exact_value hx
  | base b =>
    have made := h.supports hx
    exact made.exact_base fun v hv ↦ h.exact_value (made.2 v hv)

/-- Whoever asks for the environment of some values, first or later, is told about these values. -/
theorem Served.exact_environment (h : Served t c) {values : List Value} {b : Base}
    (ha : (.environment values, some (.base b)) ∈ t) :
    b.effectful = true ↔ ∃ v ∈ values, v.ReachesStream := by
  obtain ⟨b', hb, rfl⟩ := h.environment ha
  cases hb
  exact h.exact (Transcript.mem_items.mpr ⟨_, ha⟩)

end Exact

open Eval (Moment Occurs OccursBase Reaches)

/-- Whatever a cache was asked for, each value and environment that it gave out is right about
streams, and so is the environment given to each of those who asked for the same values. In every
run, of any program and under any plan, the cache has served such requests at every moment; all
values and environments that occur are right, and the closure of an abstraction is right about the
values in the slots that it names, whether its environment was made for it or before. -/
theorem reachability_exact :
    (∀ t c, Served t c → (∀ x ∈ t.items, x.Exact) ∧
        ∀ values b, (.environment values, some (.base b)) ∈ t →
          (b.effectful = true ↔ ∃ v ∈ values, v.ReachesStream)) ∧
      ∀ (s : Session) (p : Program) (c : Eval.Call), s.start p = some c →
        (∀ w, Moment s.plan c w → ∃ t, Served t w.cache) ∧
        (∀ v, Occurs s.plan c v → Item.Exact (.value v)) ∧
        (∀ b, OccursBase s.plan c b → Item.Exact (.base b)) ∧
        ∀ c' id captured body reads size values a, Reaches s.plan c c' →
          c'.e = .lambda id captured body reads size → c'.env.getAll captured = .ok values →
          (c'.result s.plan).1 = .value a →
          (a.value.effectful = true ↔ ∃ v ∈ values, v.ReachesStream) := by
  constructor
  · intro t c served
    exact ⟨fun x ↦ served.exact, fun values b ↦ served.exact_environment⟩
  · intro s p c starts
    obtain ⟨t, served, recorded⟩ := s.recorded_start starts
    refine ⟨fun w hw ↦ ?_, fun v hv ↦ ?_, fun b hb ↦ ?_, ?_⟩
    · obtain ⟨t', -, served'⟩ := recorded.moment hw
      exact ⟨t', served'⟩
    · exact served.exact (recorded.occurs served hv)
    · exact served.exact (recorded.occursBase served hb)
    · intro c' i captured body reads size values a hr he hg ha
      obtain ⟨j, env, body', hc, rfl⟩ := recorded.captures hr he hg ha
      have occurs := Occurs.answer hr ha
      have exact := served.exact (recorded.occurs served occurs)
      rwa [Item.Exact, hc, Value.reachesStream_closure, ← hc] at exact

/-- The environment of a probe and of a closure over a writer is asked for twice, and both are told
that a stream can be reached from one of them. In the runs, a function is closed over a writer, from
which a stream can be reached, and over a probe, from which none can. -/
theorem reachability_exact_nested :
    (∃ (t : Transcript) (c : Cache) (f : Value) (b : Base), Served t c ∧
        t[4]? = some (.environment [.probe 2, f], some (.base b)) ∧
        t[5]? = some (.environment [.probe 2, f], some (.base b)) ∧ b.effectful = true ∧
        ∃ v ∈ [.probe 2, f], v.ReachesStream) ∧
      (∃ p last c c' a,
        Program.compile (lit "t") (lit "(\\f \\x f x) __builtin_p1") 0 = .ok (p, last) ∧
        (({} : Session).atDepth 4).start p = some c ∧ c' ∈ c.asks {} ∧
        c'.env.getAll [0] = .ok [.writer 1 true] ∧ (c'.result {}).1 = .value a ∧
        a.value.effectful = true ∧ ∃ v ∈ [Value.writer 1 true], v.ReachesStream) ∧
      ∃ p last c a,
        Program.compile (lit "t") (lit "(\\f \\x f x) __builtin_debug") 0 = .ok (p, last) ∧
        (({} : Session).atDepth 4).start p = some c ∧ (c.result {}).1 = .value a ∧
        ¬ a.value.ReachesStream := by
  obtain ⟨caches, runs⟩ := reachability_exact
  refine ⟨?_, ?_, ?_⟩
  · obtain ⟨c₁, c₂, c₃, c₄, c₅, c₆, e, f, b, h₁, h₂, h₃, h₄, h₅, h₆, mark⟩ :
        ∃ c₁ c₂ c₃ c₄ c₅ c₆ e f b,
          Cache.answer {} (.builtin .writeOne) = (some (.value (.writer 1 true)), c₁) ∧
          c₁.answer (.builtin .debug) = (some (.value (.probe 2)), c₂) ∧
          c₂.answer (.environment [.writer 1 true]) = (some (.base e), c₃) ∧
          c₃.answer (.closure e (.slot 1 1)) = (some (.value f), c₄) ∧
          c₄.answer (.environment [.probe 2, f]) = (some (.base b), c₅) ∧
          c₅.answer (.environment [.probe 2, f]) = (some (.base b), c₆) ∧ b.effectful = true :=
      ⟨_, _, _, _, _, _, _, _, _, by cbv, by cbv, by cbv, by cbv, by cbv, by cbv, by cbv⟩
    have served := Served.new.ask (by simp [Request.operands]) h₁
    have served := served.ask (by simp [Request.operands]) h₂
    have served := served.ask (by simp [Request.operands, Transcript.items]) h₃
    have served := served.ask (by simp [Request.operands, Transcript.items]) h₄
    have served := served.ask (by simp [Request.operands, Transcript.items]) h₅
    have served := served.ask (by simp [Request.operands, Transcript.items]) h₆
    refine ⟨_, _, f, b, served, rfl, rfl, mark, ?_⟩
    exact ((caches _ _ served).2 [.probe 2, f] b (by simp)).mp mark
  · obtain ⟨p, last, c, c', a, before, id, body, reads, size, compiled, starts, asks, he, hg, ha,
        mark⟩ : ∃ p last c c' a before id body reads size,
          Program.compile (lit "t") (lit "(\\f \\x f x) __builtin_p1") 0 = .ok (p, last) ∧
          (({} : Session).atDepth 4).start p = some c ∧ c.asks {} = before ++ [c'] ∧
          c'.e = .lambda id [0] body reads size ∧ c'.env.getAll [0] = .ok [.writer 1 true] ∧
          (c'.result {}).1 = .value a ∧ a.value.effectful = true :=
      ⟨_, _, _, _, _, [_, _], _, _, _, _, by cbv, by cbv, by cbv, by cbv, by cbv, by cbv, by cbv⟩
    have asked : c' ∈ c.asks {} := by simp [asks]
    obtain ⟨-, -, -, abstractions⟩ := runs _ p c starts
    exact ⟨p, last, c, c', a, compiled, starts, asked, hg, ha, mark,
      (abstractions c' id [0] body reads size _ a (.step asked (.refl c')) he hg ha).mp mark⟩
  · obtain ⟨p, last, c, a, compiled, starts, ha, mark⟩ : ∃ p last c a,
          Program.compile (lit "t") (lit "(\\f \\x f x) __builtin_debug") 0 = .ok (p, last) ∧
          (({} : Session).atDepth 4).start p = some c ∧ (c.result {}).1 = .value a ∧
          a.value.effectful = false :=
      ⟨_, _, _, _, by cbv, by cbv, by cbv, by cbv⟩
    obtain ⟨-, values, -⟩ := runs _ p c starts
    have exact := values a.value (.answer (.refl c) ha)
    refine ⟨p, last, c, a, compiled, starts, ha, fun reaches ↦ ?_⟩
    rw [exact.mpr reaches] at mark
    cases mark

end BitCalculus
