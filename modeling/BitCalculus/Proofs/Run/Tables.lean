import BitCalculus.Run.Cache
import BitCalculus.Proofs.Graph.Nodes

/-!
# The tables of a cache

A cache files every environment under the numbers of its values and every closure under the numbers
of its environment and its body. What an operation does to the tables is said here once; from it
follows that they list exactly what was made.
-/

namespace BitCalculus

/-! ### Filing -/

/-- The table lists exactly the given objects, each under its key. -/
def Indexes {κ β : Type} [BEq κ] [Hashable κ] (table : Std.HashMap κ β) (made : β → Prop)
    (key : β → Option κ) : Prop :=
  ∀ (k : κ) (b : β), table[k]? = some b ↔ made b ∧ key b = some k

namespace Indexes

variable {κ β : Type} [BEq κ] [Hashable κ] {table : Std.HashMap κ β} {made : β → Prop}
variable {key : β → Option κ}

theorem empty (key : β → Option κ) : Indexes {} (fun _ ↦ False) key := by
  simp [Indexes]

/-- An object without a key is not filed. -/
theorem skip (h : Indexes table made key) {b : β} (hk : key b = none) :
    Indexes table (fun x ↦ made x ∨ x = b) key := by
  intro k x
  rw [h, or_and_right, or_iff_left]
  rintro ⟨rfl, hk'⟩
  rw [hk] at hk'
  cases hk'

theorem congr (h : Indexes table made key) {made' : β → Prop} (iff : ∀ b, made' b ↔ made b) :
    Indexes table made' key := by
  intro k b
  rw [h, iff]

/-- An object that was made before needs no filing. -/
theorem again (h : Indexes table made key) {b : β} (hb : made b) :
    Indexes table (fun x ↦ made x ∨ x = b) key := by
  refine h.congr fun x ↦ or_iff_left_of_imp ?_
  rintro rfl
  exact hb

/-- Objects with one key are one object. -/
theorem unique (h : Indexes table made key) {b b' : β} {k : κ} (hb : made b) (hb' : made b')
    (hk : key b = some k) (hk' : key b' = some k) : b = b' := by
  have found := (h k b).mpr ⟨hb, hk⟩
  rw [(h k b').mpr ⟨hb', hk'⟩] at found
  exact (Option.some.inj found).symm

/-- Filing a new object under a key without an entry. -/
theorem insert [LawfulBEq κ] [LawfulHashable κ] (h : Indexes table made key) {k : κ} {b : β}
    (hk : key b = some k) (absent : table[k]? = none) :
    Indexes (table.insert k b) (fun x ↦ made x ∨ x = b) key := by
  intro k' x
  rw [Std.HashMap.getElem?_insert]
  by_cases heq : k = k'
  · subst heq
    have old : ¬ (made x ∧ key x = some k) := by
      rw [← h, absent]
      simp
    rw [if_pos (beq_self_eq_true k), Option.some.injEq]
    constructor
    · rintro rfl
      exact ⟨.inr rfl, hk⟩
    · rintro ⟨hx | rfl, hk'⟩
      · exact absurd ⟨hx, hk'⟩ old
      · rfl
  · rw [if_neg (by simpa using heq), h]
    constructor
    · rintro ⟨hx, hk'⟩
      exact ⟨.inl hx, hk'⟩
    · rintro ⟨hx | rfl, hk'⟩
      · exact ⟨hx, hk'⟩
      · exact absurd (Option.some.inj (hk.symm.trans hk')) heq

end Indexes

/-- Where numbers identify values, lists of values are equal if their numbers are. -/
theorem Value.unique_list {made : Value → Prop}
    (unique : ∀ v w, made v → made w → v.id = w.id → v = w) {vs ws : List Value}
    (hv : ∀ v ∈ vs, made v) (hw : ∀ w ∈ ws, made w) (h : vs.map Value.id = ws.map Value.id) :
    vs = ws := by
  induction vs generalizing ws with
  | nil => exact (List.map_eq_nil_iff.mp h.symm).symm
  | cons v vs ih =>
    cases ws with
    | nil => simp at h
    | cons w ws =>
      rw [List.forall_mem_cons] at hv hw
      rw [List.map_cons, List.map_cons, List.cons.injEq] at h
      rw [unique v w hv.1 hw.1 h.1, ih hv.2 hw.2 h.2]

/-- The numbers under which a closure is filed; other values are not filed. -/
def Value.closureKey? : Value → Option (Nat × Nat)
  | .closure _ env body => some (env.id, body.id)
  | _ => none

theorem Value.closureKey?_eq_some {v : Value} {key : Nat × Nat} (h : v.closureKey? = some key) :
    ∃ id env body, v = .closure id env body ∧ key = (env.id, body.id) := by
  cases v with
  | closure id env body => exact ⟨id, env, body, rfl, (Option.some.inj h).symm⟩
  | writer id bit => cases h
  | reader id held => cases h
  | probe id => cases h

namespace Cache

/-- The tables of the cache list exactly the environments and the closures that were made. -/
structure Filed (values : Value → Prop) (bases : Base → Prop) (c : Cache) : Prop where
  environments : Indexes c.environments bases fun b ↦ some (environmentKey b.values)
  closures : Indexes c.closures values Value.closureKey?

/-! ### What operations do -/

/-- An environment is found under the numbers of its values, or made and filed there. -/
theorem environment_cases (c : Cache) (values : List Value) :
    (∃ b, c.environments[environmentKey values]? = some b ∧ c.environment values = (b, c)) ∨
      (c.environments[environmentKey values]? = none ∧
        ∃ b, b = .mk (c.lastId + 1) values (values.any Value.effectful) ∧
          c.environment values = (b,
            { c with
              lastId := c.lastId + 1
              environments := c.environments.insert (environmentKey values) b })) := by
  cases hs : c.environments[environmentKey values]? with
  | some b => exact .inl ⟨b, rfl, by rw [environment, hs]⟩
  | none => exact .inr ⟨rfl, _, rfl, by rw [environment, hs]⟩

/-- A closure is found under the numbers of environment and body, or made and filed there. -/
theorem closure_cases (c : Cache) (env : Base) (body : Expr) :
    (∃ v, c.closures[(env.id, body.id)]? = some v ∧ c.closure env body = (v, true, c)) ∨
      (c.closures[(env.id, body.id)]? = none ∧
        ∃ v, v = .closure (c.lastId + 1) env body ∧
          c.closure env body = (v, false,
            { c with
              lastId := c.lastId + 1
              closures := c.closures.insert (env.id, body.id) v })) := by
  cases hs : c.closures[(env.id, body.id)]? with
  | some v => exact .inl ⟨v, rfl, by rw [closure, hs]⟩
  | none => exact .inr ⟨rfl, _, rfl, by rw [closure, hs]⟩

/-- A result is stored unless one was stored before. -/
theorem store_cases (c : Cache) (function argument result : Value) :
    (∃ v, c.applications[(function.id, argument.id)]? = some v ∧
        c.store function argument result = (v, c)) ∨
      (c.applications[(function.id, argument.id)]? = none ∧
        c.store function argument result = (result,
          { c with
            applications := c.applications.insert (function.id, argument.id) result })) := by
  cases hs : c.applications[(function.id, argument.id)]? with
  | some v => exact .inl ⟨v, rfl, by rw [store, hs]⟩
  | none => exact .inr ⟨rfl, by rw [store, hs]⟩

theorem lastId_store (c : Cache) (f a r : Value) : (c.store f a r).2.lastId = c.lastId := by
  rcases c.store_cases f a r with ⟨v, -, he⟩ | ⟨-, he⟩ <;> rw [he]

section Filed

variable {values : Value → Prop} {bases : Base → Prop} {c : Cache}

theorem filed_empty : ({} : Cache).Filed (fun _ ↦ False) fun _ ↦ False :=
  ⟨.empty _, .empty _⟩

theorem Filed.congr (h : c.Filed values bases) {values' : Value → Prop} {bases' : Base → Prop}
    (hv : ∀ v, values' v ↔ values v) (hb : ∀ b, bases' b ↔ bases b) : c.Filed values' bases' :=
  ⟨h.environments.congr hb, h.closures.congr hv⟩

/-- A value that is no closure is not filed. -/
theorem Filed.next (h : c.Filed values bases) {v : Value} (hv : v.closureKey? = none) :
    c.next.2.Filed (fun w ↦ values w ∨ w = v) bases :=
  ⟨h.environments, h.closures.skip hv⟩

/-- The environment of given values is filed from now on, under the numbers of these values. -/
theorem Filed.environment (h : c.Filed values bases) (vs : List Value) :
    (c.environment vs).2.Filed values (fun b ↦ bases b ∨ b = (c.environment vs).1) ∧
      (c.environment vs).1.values.map Value.id = vs.map Value.id := by
  rcases c.environment_cases vs with ⟨b, hs, he⟩ | ⟨hs, b, rfl, he⟩
  · obtain ⟨hb, hk⟩ := (h.environments _ b).mp hs
    rw [he]
    exact ⟨⟨h.environments.again hb, h.closures⟩, Key.pack_inj.mp (Option.some.inj hk)⟩
  · rw [he]
    exact ⟨⟨h.environments.insert rfl hs, h.closures⟩, rfl⟩

/-- The closure of a body is filed from now on, under the numbers of environment and body. -/
theorem Filed.closure (h : c.Filed values bases) (env : Base) (body : Expr) :
    (c.closure env body).2.2.Filed (fun v ↦ values v ∨ v = (c.closure env body).1) bases ∧
      (c.closure env body).1.closureKey? = some (env.id, body.id) := by
  rcases c.closure_cases env body with ⟨v, hs, he⟩ | ⟨hs, v, rfl, he⟩
  · obtain ⟨hv, hk⟩ := (h.closures _ v).mp hs
    rw [he]
    exact ⟨⟨h.environments, h.closures.again hv⟩, hk⟩
  · rw [he]
    exact ⟨⟨h.environments, h.closures.insert rfl hs⟩, rfl⟩

/-- Results are not filed. -/
theorem Filed.store (h : c.Filed values bases) (f a r : Value) :
    (c.store f a r).2.Filed values bases := by
  rcases c.store_cases f a r with ⟨v, -, he⟩ | ⟨-, he⟩
  · rw [he]
    exact h
  · rw [he]
    exact ⟨h.environments, h.closures⟩

end Filed

end Cache

end BitCalculus
