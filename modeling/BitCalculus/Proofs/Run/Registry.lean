import BitCalculus.Proofs.Run.Plain
import BitCalculus.Proofs.Run.Tables

/-!
# Registries

A registry lists the values and environments that a run has made, each under its number. It serves
proofs only: a cache stores keys made of numbers, and the registry says what the numbers stand for.
A cache is sound for a registry if its tables list exactly what is registered and a remembered
result is what executing the application comes to without a stream call. The operations of a cache
keep it sound, possibly for a larger registry.
-/

namespace BitCalculus

/-! ### Values without numbers -/

mutual

/-- A value without the numbers in it. -/
def Value.erase : Value → Datum
  | .closure _ env body => .closure (Base.erase env) body
  | .writer _ bit => .writer bit
  | .reader _ held => .reader (Value.eraseAll held)
  | .probe _ => .probe

/-- The values of an environment without the numbers in them. -/
def Base.erase : Base → List Datum
  | .mk _ values _ => Value.eraseAll values

/-- Several values without the numbers in them. -/
def Value.eraseAll : List Value → List Datum
  | [] => []
  | v :: vs => Value.erase v :: Value.eraseAll vs

end

namespace Value

theorem eraseAll_eq_map (vs : List Value) : eraseAll vs = vs.map erase := by
  induction vs with
  | nil => rfl
  | cons v vs ih => rw [eraseAll, List.map_cons, ih]

theorem erase_closure (id : Nat) (env : Base) (body : Expr) :
    (closure id env body).erase = .closure (env.values.map erase) body := by
  cases env
  rw [erase, Base.erase, eraseAll_eq_map]
  rfl

theorem erase_reader (id : Nat) (held : List Value) :
    (reader id held).erase = .reader (held.map erase) := by
  rw [erase, eraseAll_eq_map]

/-- What holds of a value whenever it holds of the values inside holds of all values. -/
@[elab_as_elim]
theorem inside_induction {P : Value → Prop}
    (closure : ∀ id env body, (∀ v ∈ env.values, P v) → P (.closure id env body))
    (writer : ∀ id bit, P (.writer id bit))
    (reader : ∀ id held, (∀ v ∈ held, P v) → P (.reader id held))
    (probe : ∀ id, P (.probe id)) : (v : Value) → P v
  | .closure id (.mk j values effectful) body =>
    closure id (.mk j values effectful) body fun v (hv : v ∈ values) ↦
      have : sizeOf v < sizeOf values := List.sizeOf_lt_of_mem hv
      inside_induction closure writer reader probe v
  | .writer id bit => writer id bit
  | .reader id held =>
    reader id held fun v hv ↦
      have : sizeOf v < sizeOf held := List.sizeOf_lt_of_mem hv
      inside_induction closure writer reader probe v
  | .probe id => probe id
termination_by v => sizeOf v

end Value

namespace Env

/-- The data in the slots of an environment. -/
def data : Env → List Datum
  | base values => values.values.map Value.erase
  | overlay captured argument => argument.erase :: captured.values.map Value.erase

private theorem elementAt_map_eq_ok {α β : Type} (f : α → β) (values : List α) (i : Int) (b : β) :
    elementAt (values.map f) i = .ok b ↔ ∃ a, elementAt values i = .ok a ∧ f a = b := by
  rw [elementAt_map]
  cases elementAt values i <;> simp [Except.map]

/-- A slot holds the datum of the value that it holds. -/
theorem elementAt_data (env : Env) (i : Int) (d : Datum) :
    elementAt env.data i = .ok d ↔ ∃ v, env.get i = .ok v ∧ v.erase = d := by
  cases env with
  | base values => exact elementAt_map_eq_ok _ _ _ _
  | overlay captured argument =>
    rw [get, data]
    by_cases hi : i = 0
    · subst hi
      simp [elementAt]
    · rw [if_neg hi, ← elementAt_map_eq_ok, elementAt, elementAt]
      by_cases hp : 0 ≤ i
      · have hs : i.toNat = (i - 1).toNat + 1 := by omega
        rw [if_pos hp, if_pos (by omega), hs, List.getElem?_cons_succ]
        cases (captured.values.map Value.erase)[(i - 1).toNat]? <;> simp
      · rw [if_neg hp, if_neg (by omega)]
        simp

/-- Looking up several slots collects their values. -/
theorem getAll_eq_collect (env : Env) (slots : List Int) :
    env.getAll slots = collect env.get slots := by
  induction slots with
  | nil => rfl
  | cons slot slots ih =>
    rw [getAll, collect, ih]
    cases env.get slot with
    | error fault => rfl
    | ok value => cases collect env.get slots <;> rfl

end Env

/-! ### Registries -/

/-- The values and environments of a run by their numbers, up to the last number given out. What a
registered value is made of is registered too, bodies belong to the family, and environments know
whether they are effectful. -/
structure Registry (F : NodeFamily) where
  lastId : Nat
  value : Nat → Option Value
  base : Nat → Option Base
  value_le {i : Nat} {v : Value} : value i = some v → i ≤ lastId
  base_le {i : Nat} {b : Base} : base i = some b → i ≤ lastId
  value_id {i : Nat} {v : Value} : value i = some v → v.id = i
  base_id {i : Nat} {b : Base} : base i = some b → b.id = i
  closure {i j : Nat} {env : Base} {body : Expr} : value i = some (.closure j env body) →
    base env.id = some env ∧ F.admits (env.values.length + 1) body
  held {i j : Nat} {held : List Value} : value i = some (.reader j held) →
    ∀ v ∈ held, value v.id = some v
  values {i : Nat} {b : Base} : base i = some b → ∀ v ∈ b.values, value v.id = some v
  effectful {i : Nat} {b : Base} : base i = some b → b.effectful = b.values.any Value.effectful

namespace Registry

variable {F : NodeFamily}

/-- The registry in which nothing was made yet. -/
def empty : Registry F where
  lastId := 0
  value _ := none
  base _ := none
  value_le h := by cases h
  base_le h := by cases h
  value_id h := by cases h
  base_id h := by cases h
  closure h := by cases h
  held h := by cases h
  values h := by cases h
  effectful h := by cases h

/-- The value is registered under its number. -/
def Holds (R : Registry F) (v : Value) : Prop :=
  R.value v.id = some v

/-- The environment is registered under its number. -/
def HoldsBase (R : Registry F) (b : Base) : Prop :=
  R.base b.id = some b

/-- All that an environment is made of is registered. -/
def HoldsEnv (R : Registry F) : Env → Prop
  | .base b => R.HoldsBase b
  | .overlay b v => R.HoldsBase b ∧ R.Holds v

/-- What a value is made of is registered. -/
def Supports (R : Registry F) : Value → Prop
  | .closure _ env body => R.HoldsBase env ∧ F.admits (env.values.length + 1) body
  | .reader _ held => ∀ v ∈ held, R.Holds v
  | _ => True

/-- A registry grows by what gets numbers after the last one. -/
structure Grows (R R' : Registry F) : Prop where
  lastId : R.lastId ≤ R'.lastId
  value : ∀ i ≤ R.lastId, R'.value i = R.value i
  base : ∀ i ≤ R.lastId, R'.base i = R.base i

instance : LE (Registry F) := ⟨Grows⟩

theorem le_refl (R : Registry F) : R ≤ R :=
  ⟨Nat.le_refl _, fun _ _ ↦ rfl, fun _ _ ↦ rfl⟩

theorem le_trans {R R' R'' : Registry F} (h : R ≤ R') (h' : R' ≤ R'') : R ≤ R'' where
  lastId := Nat.le_trans h.lastId h'.lastId
  value i hi := (h'.value i (Nat.le_trans hi h.lastId)).trans (h.value i hi)
  base i hi := (h'.base i (Nat.le_trans hi h.lastId)).trans (h.base i hi)

section Laws

variable {R R' : Registry F} {v w : Value} {b : Base} {env : Env}

theorem Holds.mono (h : R.Holds v) (le : R ≤ R') : R'.Holds v :=
  (le.value _ (R.value_le h)).trans h

theorem HoldsBase.mono (h : R.HoldsBase b) (le : R ≤ R') : R'.HoldsBase b :=
  (le.base _ (R.base_le h)).trans h

/-- A value whose number was given out before was registered before. -/
theorem Holds.earlier (h : R'.Holds v) (le : R ≤ R') (hid : v.id ≤ R.lastId) : R.Holds v :=
  (le.value _ hid).symm.trans h

/-- An environment whose number was given out before was registered before. -/
theorem HoldsBase.earlier (h : R'.HoldsBase b) (le : R ≤ R') (hid : b.id ≤ R.lastId) :
    R.HoldsBase b :=
  (le.base _ hid).symm.trans h

theorem HoldsEnv.mono (h : R.HoldsEnv env) (le : R ≤ R') : R'.HoldsEnv env := by
  cases env with
  | base b => exact HoldsBase.mono h le
  | overlay b v => exact ⟨h.1.mono le, h.2.mono le⟩

/-- A number stands for one value. -/
theorem Holds.unique (hv : R.Holds v) (hw : R.Holds w) (h : v.id = w.id) : v = w := by
  rw [Holds, h, hw] at hv
  exact (Option.some.inj hv).symm

/-- A number stands for one environment. -/
theorem HoldsBase.unique {c : Base} (hb : R.HoldsBase b) (hc : R.HoldsBase c) (h : b.id = c.id) :
    b = c := by
  rw [HoldsBase, h, hc] at hb
  exact (Option.some.inj hb).symm

/-- What is found in a registered environment is registered. -/
theorem HoldsEnv.get {i : Int} (h : R.HoldsEnv env) (hv : env.get i = .ok v) : R.Holds v := by
  cases env with
  | base b => exact R.values h v (mem_of_elementAt hv)
  | overlay b a =>
    rw [Env.get] at hv
    split at hv
    · cases hv
      exact h.2
    · exact R.values h.1 v (mem_of_elementAt hv)

/-- The bodies inside a registered value belong to the family. -/
theorem Holds.admitted (h : R.Holds v) : v.erase.Admitted F := by
  induction v using Value.inside_induction with
  | closure id env body ih =>
    obtain ⟨hb, ha⟩ := R.closure h
    rw [Value.erase_closure]
    refine .closure (by rwa [List.length_map]) fun d hd ↦ ?_
    obtain ⟨v, hv, rfl⟩ := List.mem_map.mp hd
    exact ih v hv (R.values hb v hv)
  | writer id bit => exact .writer bit
  | reader id held ih =>
    rw [Value.erase_reader]
    refine .reader fun d hd ↦ ?_
    obtain ⟨v, hv, rfl⟩ := List.mem_map.mp hd
    exact ih v hv (R.held h v hv)
  | probe id => exact .probe

/-- A registered value knows whether a stream can be reached from it. -/
theorem Holds.effectful (h : R.Holds v) : v.effectful = v.erase.effectful := by
  induction v using Value.inside_induction with
  | closure id env body ih =>
    obtain ⟨hb, -⟩ := R.closure h
    rw [Value.erase_closure, Datum.effectful, Datum.anyEffectful_eq, List.any_map,
      Value.effectful, R.effectful hb]
    rw [Bool.eq_iff_iff, List.any_eq_true, List.any_eq_true]
    refine exists_congr fun v ↦ and_congr_right fun hv ↦ ?_
    rw [Function.comp_apply, ih v hv (R.values hb v hv)]
  | writer id bit => rfl
  | reader id held ih => rfl
  | probe id => rfl

/-- The data of a registered environment are admitted. -/
theorem HoldsEnv.admitted (h : R.HoldsEnv env) : ∀ d ∈ env.data, d.Admitted F := by
  intro d hd
  cases env with
  | base b =>
    obtain ⟨v, hv, rfl⟩ := List.mem_map.mp hd
    exact Holds.admitted (R.values h v hv)
  | overlay b a =>
    rcases List.mem_cons.mp hd with rfl | hd
    · exact h.2.admitted
    · obtain ⟨v, hv, rfl⟩ := List.mem_map.mp hd
      exact Holds.admitted (R.values h.1 v hv)

/-- The values in the given slots of a registered environment. -/
theorem HoldsEnv.getAll {slots : List Int} {values : List Value} (h : R.HoldsEnv env)
    (hv : env.getAll slots = .ok values) :
    (∀ v ∈ values, R.Holds v) ∧
      collect (elementAt env.data) slots = .ok (values.map Value.erase) := by
  rw [Env.getAll_eq_collect, collect_eq_ok] at hv
  constructor
  · intro v hm
    have hg : Except.ok v ∈ slots.map env.get := hv ▸ List.mem_map_of_mem hm
    obtain ⟨i, -, hi⟩ := List.mem_map.mp hg
    exact h.get hi
  · rw [collect_eq_ok, List.map_map]
    apply List.ext_getElem?
    intro k
    have hk := congrArg (·[k]?) hv
    simp only [List.getElem?_map] at hk ⊢
    cases hs : slots[k]? with
    | none =>
      rw [hs] at hk
      cases hn : values[k]? with
      | none => rfl
      | some v => simp [hn] at hk
    | some slot =>
      rw [hs] at hk
      cases hn : values[k]? with
      | none => simp [hn] at hk
      | some v =>
        rw [hn, Option.map_some, Option.map_some, Option.some.injEq] at hk
        rw [Option.map_some, Option.map_some, (env.elementAt_data slot v.erase).mpr ⟨v, hk, rfl⟩]
        rfl

end Laws

/-- Registers a value under the next number. -/
def addValue (R : Registry F) (v : Value) (hid : v.id = R.lastId + 1) (parts : R.Supports v) :
    Registry F where
  lastId := R.lastId + 1
  value i := if i = R.lastId + 1 then some v else R.value i
  base := R.base
  value_le {i w} h := by
    split at h
    · next hi => exact Nat.le_of_eq hi
    · exact Nat.le_succ_of_le (R.value_le h)
  base_le h := Nat.le_succ_of_le (R.base_le h)
  value_id {i w} h := by
    split at h
    · next hi =>
      cases h
      exact hid.trans hi.symm
    · exact R.value_id h
  base_id := R.base_id
  closure {i j env body} h := by
    split at h
    · cases h
      exact parts
    · exact R.closure h
  held {i j held} h w hw := by
    have hold : R.value w.id = some w := by
      split at h
      · cases h
        exact parts w hw
      · exact R.held h w hw
    have hle := R.value_le hold
    rw [if_neg (by omega)]
    exact hold
  values {i b} h w hw := by
    have hle := R.value_le (R.values h w hw)
    rw [if_neg (by omega)]
    exact R.values h w hw
  effectful := R.effectful

theorem le_addValue (R : Registry F) (v : Value) (hid : v.id = R.lastId + 1)
    (parts : R.Supports v) : R ≤ R.addValue v hid parts where
  lastId := Nat.le_succ _
  value i hi := if_neg (by omega)
  base _ _ := rfl

theorem holds_addValue {R : Registry F} {v : Value} (hid : v.id = R.lastId + 1)
    (parts : R.Supports v) (w : Value) :
    (R.addValue v hid parts).Holds w ↔ R.Holds w ∨ w = v := by
  constructor
  · intro h
    change (if w.id = R.lastId + 1 then some v else R.value w.id) = some w at h
    split at h
    · exact .inr (Option.some.inj h).symm
    · exact .inl h
  · rintro (h | rfl)
    · exact h.mono (R.le_addValue v hid parts)
    · exact if_pos hid

/-- Registers an environment under the next number. -/
def addBase (R : Registry F) (b : Base) (hid : b.id = R.lastId + 1)
    (values : ∀ v ∈ b.values, R.Holds v)
    (effectful : b.effectful = b.values.any Value.effectful) : Registry F where
  lastId := R.lastId + 1
  value := R.value
  base i := if i = R.lastId + 1 then some b else R.base i
  value_le h := Nat.le_succ_of_le (R.value_le h)
  base_le {i c} h := by
    split at h
    · next hi => exact Nat.le_of_eq hi
    · exact Nat.le_succ_of_le (R.base_le h)
  value_id := R.value_id
  base_id {i c} h := by
    split at h
    · next hi =>
      cases h
      exact hid.trans hi.symm
    · exact R.base_id h
  closure {i j env body} h := by
    obtain ⟨hb, ha⟩ := R.closure h
    have hle := R.base_le hb
    rw [if_neg (by omega)]
    exact ⟨hb, ha⟩
  held := R.held
  values {i c} h := by
    split at h
    · cases h
      exact values
    · exact R.values h
  effectful {i c} h := by
    split at h
    · cases h
      exact effectful
    · exact R.effectful h

theorem le_addBase (R : Registry F) (b : Base) (hid : b.id = R.lastId + 1)
    (values : ∀ v ∈ b.values, R.Holds v) (effectful : b.effectful = b.values.any Value.effectful) :
    R ≤ R.addBase b hid values effectful where
  lastId := Nat.le_succ _
  value _ _ := rfl
  base i hi := if_neg (by omega)

theorem holdsBase_addBase {R : Registry F} {b : Base} (hid : b.id = R.lastId + 1)
    (values : ∀ v ∈ b.values, R.Holds v) (effectful : b.effectful = b.values.any Value.effectful)
    (b' : Base) :
    (R.addBase b hid values effectful).HoldsBase b' ↔ R.HoldsBase b' ∨ b' = b := by
  constructor
  · intro h
    change (if b'.id = R.lastId + 1 then some b else R.base b'.id) = some b' at h
    split at h
    · exact .inr (Option.some.inj h).symm
    · exact .inl h
  · rintro (h | rfl)
    · exact h.mono (R.le_addBase b hid values effectful)
    · exact if_pos hid

end Registry

/-! ### Sound caches -/

namespace Cache

/-- The tables of the cache list exactly what is registered, and a remembered result is what
executing the application comes to without a stream call. -/
structure Sound {F : NodeFamily} (R : Registry F) (c : Cache) : Prop
    extends Filed R.Holds R.HoldsBase c where
  lastId : c.lastId = R.lastId
  applications : ∀ (key : Nat × Nat) (r : Value), c.applications[key]? = some r →
    R.Holds r ∧ ∃ f a, R.Holds f ∧ R.Holds a ∧ key = (f.id, a.id) ∧
      Plain.Quiet f.erase a.erase r.erase

section Laws

variable {F : NodeFamily} {R : Registry F} {c : Cache}

/-- A cache without entries is sound while nothing is registered. -/
theorem sound_empty : ({} : Cache).Sound (Registry.empty (F := F)) where
  toFiled := filed_empty.congr (by simp [Registry.Holds, Registry.empty])
    (by simp [Registry.HoldsBase, Registry.empty])
  lastId := rfl
  applications := by simp

/-- Remembered results stay what they are when the registry grows. -/
theorem Sound.grow {R' : Registry F} {c' : Cache} (h : c.Sound R) (le : R ≤ R')
    (filed : c'.Filed R'.Holds R'.HoldsBase) (hl : c'.lastId = R'.lastId)
    (ha : c'.applications = c.applications) : c'.Sound R' where
  toFiled := filed
  lastId := hl
  applications key r hk := by
    rw [ha] at hk
    obtain ⟨hr, f, a, hf, ha, he, hq⟩ := h.applications key r hk
    exact ⟨hr.mono le, f, a, hf.mono le, ha.mono le, he, hq⟩

/-- Giving the next number to a value that is no closure. -/
theorem Sound.next_value (h : c.Sound R) {v : Value} (hid : v.id = c.lastId + 1)
    (parts : R.Supports v) (hv : v.closureKey? = none) :
    ∃ R', R ≤ R' ∧ R'.Holds v ∧ c.next.2.Sound R' := by
  rw [h.lastId] at hid
  have le := R.le_addValue v hid parts
  have filed := (h.toFiled.next hv).congr (Registry.holds_addValue hid parts) fun b ↦ Iff.rfl
  exact ⟨_, le, (Registry.holds_addValue hid parts v).mpr (.inr rfl),
    h.grow le filed (congrArg (· + 1) h.lastId) rfl⟩

/-- The environment of registered values is registered and holds just these values. -/
theorem sound_environment (h : c.Sound R) {values : List Value} (hv : ∀ v ∈ values, R.Holds v) :
    ∃ R', R ≤ R' ∧ (c.environment values).2.Sound R' ∧
      R'.HoldsBase (c.environment values).1 ∧ (c.environment values).1.values = values := by
  have filed := h.toFiled.environment values
  rcases c.environment_cases values with ⟨b, hs, he⟩ | ⟨-, b, hb, he⟩
  · rw [he] at filed ⊢
    obtain ⟨hb, -⟩ := (h.environments _ b).mp hs
    exact ⟨R, R.le_refl, h, hb,
      Value.unique_list (fun _ _ ↦ Registry.Holds.unique) (R.values hb) hv filed.2⟩
  · rw [he] at filed ⊢
    subst hb
    have hid : Base.id (.mk (c.lastId + 1) values (values.any Value.effectful)) = R.lastId + 1 :=
      congrArg (· + 1) h.lastId
    have le := R.le_addBase _ hid hv rfl
    have iff := Registry.holdsBase_addBase hid hv rfl
    exact ⟨_, le, h.grow le (filed.1.congr (fun _ ↦ Iff.rfl) iff) hid rfl,
      (iff _).mpr (.inr rfl), rfl⟩

/-- The closure of a body of the family over a registered environment is registered. -/
theorem sound_closure (h : c.Sound R) {env : Base} {body : Expr} (henv : R.HoldsBase env)
    (hbody : F.admits (env.values.length + 1) body) :
    ∃ R', R ≤ R' ∧ (c.closure env body).2.2.Sound R' ∧ R'.Holds (c.closure env body).1 ∧
      ∃ id, (c.closure env body).1 = .closure id env body := by
  have filed := h.toFiled.closure env body
  rcases c.closure_cases env body with ⟨v, hs, he⟩ | ⟨-, v, hv, he⟩
  · rw [he] at filed ⊢
    obtain ⟨hv, hk⟩ := (h.closures _ v).mp hs
    obtain ⟨id, env', body', rfl, ids⟩ := Value.closureKey?_eq_some hk
    obtain ⟨henv', hbody'⟩ := R.closure hv
    cases henv.unique henv' (Prod.mk.inj ids).1
    cases F.id_inj hbody hbody' (Prod.mk.inj ids).2
    exact ⟨R, R.le_refl, h, hv, id, rfl⟩
  · rw [he] at filed ⊢
    subst hv
    have hid : Value.id (.closure (c.lastId + 1) env body) = R.lastId + 1 :=
      congrArg (· + 1) h.lastId
    have parts : R.Supports (.closure (c.lastId + 1) env body) := ⟨henv, hbody⟩
    have le := R.le_addValue _ hid parts
    have iff := Registry.holds_addValue hid parts
    exact ⟨_, le, h.grow le (filed.1.congr iff fun _ ↦ Iff.rfl) hid rfl,
      (iff _).mpr (.inr rfl), _, rfl⟩

/-- A remembered result is what executing the application comes to without a stream call. -/
theorem Sound.lookup (h : c.Sound R) {f a r : Value} (hf : R.Holds f) (ha : R.Holds a)
    (hl : c.lookup f a = some r) : R.Holds r ∧ Plain.Quiet f.erase a.erase r.erase := by
  obtain ⟨hr, f', a', hf', ha', hk, hq⟩ := h.applications _ r hl
  rw [hf.unique hf' (Prod.mk.inj hk).1, ha.unique ha' (Prod.mk.inj hk).2]
  exact ⟨hr, hq⟩

/-- Remembering the result of a quiet application gives a result with the same datum. -/
theorem sound_store (h : c.Sound R) {f a r : Value} (hf : R.Holds f) (ha : R.Holds a)
    (hr : R.Holds r) (hq : Plain.Quiet f.erase a.erase r.erase) (s : Streams) :
    (c.store f a r).2.Sound R ∧ R.Holds (c.store f a r).1 ∧
      (c.store f a r).1.erase = r.erase := by
  cases hs : c.applications[(f.id, a.id)]? with
  | some r' =>
    obtain ⟨hr', hq'⟩ := h.lookup hf ha hs
    rw [store, hs]
    exact ⟨h, hr', hq'.unique hq s⟩
  | none =>
    rw [store, hs]
    refine ⟨⟨⟨h.environments, h.closures⟩, h.lastId, ?_⟩, hr, rfl⟩
    intro key v hk
    rcases insert_cases hk with ⟨rfl, rfl⟩ | hk
    · exact ⟨hr, f, a, hf, ha, rfl, hq⟩
    · exact h.applications key v hk

end Laws

end Cache

end BitCalculus
