import Mathlib
import BitCalculus.Proofs.Graph.Sharing

/-!
# One pass lays out all scopes

The free names of a tree can be computed before any slot is given: they are the first free
occurrences of each name, from left to right. Under an abstraction the parameter is slot 0 and the
other free names of the body follow in this order, and what the abstraction captures is where the
enclosing scope has these names. Interning finds the free names and the slots in one pass, while the
scopes are still growing, and comes to the same.
-/

namespace BitCalculus

/-! ### First occurrences -/

/-- The first token of each text, in order. -/
def firstOfEach : List Token → List Token
  | [] => []
  | t :: ts => t :: (firstOfEach ts).filter fun t' ↦ t'.text ≠ t.text

section FirstOfEach

variable (ts : List Token)

theorem sublist_firstOfEach : (firstOfEach ts).Sublist ts := by
  induction ts with
  | nil => exact .slnil
  | cons t ts ih => exact (List.filter_sublist.trans ih).cons_cons t

theorem nodup_firstOfEach : ((firstOfEach ts).map Token.text).Nodup := by
  induction ts with
  | nil => exact List.nodup_nil
  | cons t ts ih =>
    rw [firstOfEach, List.map_cons, List.nodup_cons]
    constructor
    · simp
    · exact ih.sublist (List.filter_sublist.map _)

theorem mem_map_firstOfEach {name : Bytes} :
    name ∈ (firstOfEach ts).map Token.text ↔ name ∈ ts.map Token.text := by
  induction ts with
  | nil => rfl
  | cons t ts ih =>
    rw [firstOfEach, List.map_cons, List.map_cons, List.mem_cons, List.mem_cons, ← ih]
    by_cases h : name = t.text
    · simp [h]
    · simp only [h, false_or, List.mem_map, List.mem_filter, decide_eq_true_eq]
      constructor
      · rintro ⟨t', ⟨hm, -⟩, he⟩
        exact ⟨t', hm, he⟩
      · rintro ⟨t', hm, he⟩
        exact ⟨t', ⟨hm, he ▸ h⟩, he⟩

/-- Each token that is kept is the first one of its text. -/
theorem find?_of_mem_firstOfEach {token : Token} (h : token ∈ firstOfEach ts) :
    ts.find? (fun t ↦ t.text == token.text) = some token := by
  induction ts with
  | nil => cases h
  | cons t ts ih =>
    rw [firstOfEach, List.mem_cons, List.mem_filter, decide_eq_true_eq] at h
    rcases h with rfl | ⟨hm, hne⟩
    · simp
    · rw [List.find?_cons_of_neg (by simpa using Ne.symm hne), ih hm]

/-- Leaving out texts and leaving out repetitions commute. -/
theorem firstOfEach_filter (p : Bytes → Bool) :
    firstOfEach (ts.filter fun t ↦ p t.text) = (firstOfEach ts).filter fun t ↦ p t.text := by
  induction ts with
  | nil => rfl
  | cons t ts ih =>
    by_cases h : p t.text
    · simp only [List.filter_cons, h, if_true, firstOfEach, ih, List.filter_filter, Bool.and_comm]
    · simp only [List.filter_cons, h, firstOfEach, List.filter_filter, Bool.false_eq_true, if_false]
      rw [ih]
      refine List.filter_congr fun t' _ ↦ ?_
      by_cases he : t'.text = t.text
      · simp [he, h]
      · simp [he]

/-- A list of different texts has no repetitions to leave out. -/
theorem firstOfEach_of_nodup {ts : List Token} (h : (ts.map Token.text).Nodup) :
    firstOfEach ts = ts := by
  induction ts with
  | nil => rfl
  | cons t ts ih =>
    rw [List.map_cons, List.nodup_cons] at h
    rw [firstOfEach, ih h.2, List.filter_eq_self.mpr]
    intro t' hm
    simp only [decide_eq_true_eq]
    intro he
    exact h.1 (he ▸ List.mem_map_of_mem hm)

end FirstOfEach

namespace Scope

/-- The scope that resolving one name leaves. -/
theorem resolve_snd (s : Scope) (token : Token) :
    (s.resolve token).2 = if token.text ∈ s.map Token.text then s else s ++ [token] := by
  unfold resolve
  split
  · next slot hs =>
    obtain ⟨hlt, ht, -⟩ := List.findIdx?_eq_some_iff_getElem.mp hs
    rw [if_pos]
    exact eq_of_beq ht ▸ List.mem_map_of_mem (List.getElem_mem hlt)
  · next hs =>
    rw [if_neg]
    intro hm
    obtain ⟨t, ht, he⟩ := List.mem_map.mp hm
    simpa [he] using List.findIdx?_eq_none_iff.mp hs t ht

theorem resolveAll_append (s : Scope) (ts us : List Token) :
    (s.resolveAll (ts ++ us)).2 = ((s.resolveAll ts).2.resolveAll us).2 := by
  induction ts generalizing s with
  | nil => rfl
  | cons t ts ih => exact ih _

/-- The scope that resolving names leaves: behind the names that were there stand the first
occurrences of those that were not. -/
theorem resolveAll_snd (s : Scope) (ts : List Token) :
    (s.resolveAll ts).2 = s ++ (firstOfEach ts).filter fun t ↦ t.text ∉ s.map Token.text := by
  induction ts generalizing s with
  | nil => simp [resolveAll, firstOfEach]
  | cons t ts ih =>
    have step : (s.resolveAll (t :: ts)).2 = ((s.resolve t).2.resolveAll ts).2 := rfl
    rw [step, ih, resolve_snd, firstOfEach]
    by_cases h : t.text ∈ s.map Token.text
    · rw [if_pos h, List.filter_cons_of_neg (by simpa using h), List.filter_filter]
      congr 1
      refine List.filter_congr fun t' _ ↦ ?_
      by_cases he : t'.text = t.text
      · simp [he, h]
      · simp [he]
    · rw [if_neg h, List.filter_cons_of_pos (by simpa using h), List.filter_filter,
        List.append_assoc, List.singleton_append]
      simp [not_or, Bool.and_comm]

/-- Repetitions make no difference to the scope that is left. -/
theorem resolveAll_firstOfEach (s : Scope) (ts : List Token) :
    (s.resolveAll (firstOfEach ts)).2 = (s.resolveAll ts).2 := by
  rw [resolveAll_snd, resolveAll_snd, firstOfEach_of_nodup (nodup_firstOfEach ts)]

end Scope

namespace Tree

/-! ### Free names first -/

/-- The occurrences of names outside of all abstractions over them, from left to right. -/
def freeOccurrences : Tree → List Token
  | .name token => [token]
  | .lambda _ parameter body => body.freeOccurrences.filter fun t ↦ t.text ≠ parameter.text
  | .apply function argument => function.freeOccurrences ++ argument.freeOccurrences

/-- The free names of a tree, each as the token of its first free occurrence. -/
def freeVariables (t : Tree) : List Token :=
  firstOfEach t.freeOccurrences

theorem map_freeOccurrences (t : Tree) : t.freeOccurrences.map Token.text = t.freeNames := by
  induction t with
  | name token => rfl
  | lambda start parameter body ih =>
    rw [freeOccurrences, freeNames, ← ih, List.filter_map]
    rfl
  | apply function argument ihf ihx => rw [freeOccurrences, freeNames, List.map_append, ihf, ihx]

theorem freeVariables_lambda (start parameter : Token) (body : Tree) :
    freeVariables (.lambda start parameter body) =
      body.freeVariables.filter fun t ↦ t.text ≠ parameter.text :=
  firstOfEach_filter body.freeOccurrences fun name ↦ name ≠ parameter.text

/-- The free occurrences of a body, resolved behind the parameter. -/
theorem resolveAll_parameter (start parameter : Token) (body : Tree) :
    (Scope.resolveAll [parameter] body.freeOccurrences).2 =
      parameter :: freeVariables (.lambda start parameter body) := by
  rw [Scope.resolveAll_snd, freeVariables_lambda]
  simp [freeVariables]

/-- A tree leaves to its scope what resolving its free occurrences leaves. -/
theorem shapeIn_snd (t : Tree) (s : Scope) :
    (t.shapeIn s).2 = (s.resolveAll t.freeOccurrences).2 := by
  induction t generalizing s with
  | name token => rfl
  | lambda start parameter body ih =>
    have outer : ((Tree.lambda start parameter body).shapeIn s).2 =
        (s.resolveAll (body.shapeIn [parameter]).2.tail).2 := rfl
    rw [outer, ih, resolveAll_parameter start, List.tail_cons, freeVariables,
      Scope.resolveAll_firstOfEach]
  | apply function argument ihf ihx =>
    have outer : ((Tree.apply function argument).shapeIn s).2 =
        (argument.shapeIn (function.shapeIn s).2).2 := rfl
    rw [outer, ihx, ihf, freeOccurrences, Scope.resolveAll_append]

/-- The scope of a whole tree is its free names. -/
theorem shapeIn_nil_snd (t : Tree) : (t.shapeIn []).2 = t.freeVariables := by
  rw [shapeIn_snd, Scope.resolveAll_snd]
  simp [freeVariables]

/-- The scope of a body is the parameter and the other free names of the body. -/
theorem shapeIn_parameter_snd (start parameter : Token) (body : Tree) :
    (body.shapeIn [parameter]).2 =
      parameter :: freeVariables (.lambda start parameter body) := by
  rw [shapeIn_snd, resolveAll_parameter]

/-! ### Slots second -/

/-- The shape of a tree in a scope whose names are known: a name stands for its slot, and an
abstraction captures, one after another, the slots of the free names of its body other than the
parameter. In the scope of the body the parameter is in front of these names. -/
def LaidOut (names : List Bytes) : Tree → Shape → Prop
  | .name token, .slot index => ∃ slot : Nat, index = slot ∧ names[slot]? = some token.text
  | .lambda _ parameter body, .lambda captured inner =>
    let others := (body.freeVariables.map Token.text).filter (· ≠ parameter.text)
    captured.length = others.length ∧ captured.Nodup ∧
      (∀ (i : Nat) (name : Bytes), others[i]? = some name →
        ∃ slot : Nat, captured[i]? = some (slot : Int) ∧ names[slot]? = some name) ∧
      LaidOut (parameter.text :: others) body inner
  | .apply function argument, .apply f x => LaidOut names function f ∧ LaidOut names argument x
  | _, _ => False

/-- The names that an abstraction captures. -/
theorem map_freeVariables_lambda (start parameter : Token) (body : Tree) :
    (freeVariables (.lambda start parameter body)).map Token.text =
      (body.freeVariables.map Token.text).filter (· ≠ parameter.text) := by
  rw [freeVariables_lambda, List.filter_map]
  rfl

theorem nodup_captured (parameter : Bytes) (body : Tree) :
    (parameter :: (body.freeVariables.map Token.text).filter (· ≠ parameter)).Nodup := by
  rw [List.nodup_cons]
  exact ⟨by simp, (nodup_firstOfEach body.freeOccurrences).filter _⟩

/-- The slots of captured names in a scope that has grown further. -/
theorem slot_of_captured {s final : Scope} {tokens : List Token}
    (grows : (s.resolveAll tokens).2 <+: final) {i : Nat} {name : Bytes}
    (hi : (tokens.map Token.text)[i]? = some name) :
    ∃ slot : Nat, ((s.resolveAll tokens).1.map Int.ofNat)[i]? = some (slot : Int) ∧
      (final.map Token.text)[slot]? = some name := by
  rw [List.getElem?_map, Option.map_eq_some_iff] at hi
  obtain ⟨token, ht, rfl⟩ := hi
  obtain ⟨slot, hs, hn⟩ := s.exists_slot_resolveAll ht
  refine ⟨slot, by simp [hs], ?_⟩
  rw [List.getElem?_map]
  exact Scope.nameAt?_mono grows hn

/-- Different names have different slots. -/
theorem nodup_slots (s : Scope) {tokens : List Token} (h : (tokens.map Token.text).Nodup) :
    ((s.resolveAll tokens).1.map Int.ofNat).Nodup := by
  have named : ((s.resolveAll tokens).1.map (s.resolveAll tokens).2.nameAt?).Nodup := by
    rw [Scope.map_nameAt?_resolveAll]
    simpa [Function.comp_def] using h.map (Option.some_injective _)
  exact (named.of_map _).map fun _ _ ↦ Int.ofNat.inj

/-- The shape of a tree is laid out in every scope that its own scope grows to. -/
theorem laidOut_shapeIn {s final : Scope} {t : Tree} (grows : (t.shapeIn s).2 <+: final) :
    t.LaidOut (final.map Token.text) (t.shapeIn s).1 := by
  induction t generalizing s final with
  | name token =>
    refine ⟨(s.resolve token).1, rfl, ?_⟩
    rw [List.getElem?_map]
    exact Scope.nameAt?_mono grows (s.nameAt?_resolve token)
  | lambda start parameter body ih =>
    have inner := ih (List.prefix_refl (body.shapeIn [parameter]).2)
    have scope := shapeIn_parameter_snd start parameter body
    have names := map_freeVariables_lambda start parameter body
    have tail : (body.shapeIn [parameter]).2.tail =
        freeVariables (.lambda start parameter body) := by
      rw [scope, List.tail_cons]
    have grows : (s.resolveAll (freeVariables (.lambda start parameter body))).2 <+: final := by
      rw [← tail]
      exact grows
    rw [scope, List.map_cons, names] at inner
    rw [shapeIn, tail]
    refine ⟨?_, ?_, ?_, inner⟩
    · rw [List.length_map, Scope.length_resolveAll, ← names, List.length_map]
    · exact nodup_slots s (nodup_firstOfEach _)
    · rw [← names]
      exact fun i name hi ↦ slot_of_captured grows hi
  | apply function argument ihf ihx =>
    exact ⟨ihf ((argument.grows_shapeIn _).trans grows), ihx grows⟩

/-- A list with different names has each of them in one slot. -/
private theorem slot_unique {names : List Bytes} (different : names.Nodup) {i j : Nat}
    {name : Bytes} (hi : names[i]? = some name) (hj : names[j]? = some name) : i = j :=
  (List.getElem?_inj (List.getElem?_eq_some_iff.mp hi).1 different).mp (hi.trans hj.symm)

/-- In a scope with different names a tree is laid out in one way only. -/
theorem LaidOut.unique {names : List Bytes} {t : Tree} {shape shape' : Shape}
    (h : t.LaidOut names shape) (h' : t.LaidOut names shape') (different : names.Nodup) :
    shape = shape' := by
  induction t generalizing names shape shape' with
  | name token =>
    cases shape <;> cases shape' <;> try contradiction
    obtain ⟨slot, rfl, hs⟩ := h
    obtain ⟨slot', rfl, hs'⟩ := h'
    rw [slot_unique different hs hs']
  | lambda start parameter body ih =>
    cases shape <;> cases shape' <;> try contradiction
    obtain ⟨length, -, slots, inner⟩ := h
    obtain ⟨length', -, slots', inner'⟩ := h'
    rw [ih inner inner' (nodup_captured parameter.text body)]
    congr 1
    apply List.ext_getElem?
    intro i
    cases hi : ((body.freeVariables.map Token.text).filter (· ≠ parameter.text))[i]? with
    | none =>
      rw [List.getElem?_eq_none_iff] at hi
      rw [List.getElem?_eq_none_iff.mpr (length ▸ hi), List.getElem?_eq_none_iff.mpr (length' ▸ hi)]
    | some name =>
      obtain ⟨slot, hc, hs⟩ := slots i name hi
      obtain ⟨slot', hc', hs'⟩ := slots' i name hi
      rw [hc, hc', slot_unique different hs hs']
  | apply function argument ihf ihx =>
    cases shape <;> cases shape' <;> try contradiction
    rw [ihf h.1 h'.1 different, ihx h.2 h'.2 different]

end Tree

/-- Interning a tree, in whatever graph, lists each free name of the tree once, as the token of its
first free occurrence and in the order of these occurrences; and the node that it gives is the
expression whose slots are laid out over the free names, which are computed first: there is one such
expression, under each abstraction the parameter is slot 0 and the other free names of the body
follow, and the abstraction captures as many different slots as there are such names, each the slot
of its name in the enclosing scope. -/
theorem interning_lays_out_scopes {range : Key.SlotRange} {a a' : Arena} (built : a.Built range.Has)
    {t : Tree} (fits : t.FitsIn range) {e : Expr} {free : Scope}
    (interned : a.intern t = (e, free, a')) :
    ((free.map Token.text).Nodup ∧ (∀ name, name ∈ free.map Token.text ↔ name ∈ t.freeNames) ∧
      free.Sublist t.freeOccurrences ∧
      ∀ token ∈ free, t.freeOccurrences.find? (fun u ↦ u.text == token.text) = some token) ∧
    ∀ shape, t.LaidOut (free.map Token.text) shape ↔ shape = e.shape := by
  have scope := a.scope_internIn [] t
  rw [show a.internIn [] t = _ from interned, Tree.shapeIn_nil_snd] at scope
  have hf : free = t.freeVariables := scope
  obtain ⟨-, -, shape⟩ :=
    Arena.shape_internIn built (fun i hi ↦ fits.has (by simpa using hi)) interned
  have laidOut : t.LaidOut (free.map Token.text) e.shape := by
    rw [shape, hf, ← t.shapeIn_nil_snd]
    exact Tree.laidOut_shapeIn (List.prefix_refl _)
  have different : (free.map Token.text).Nodup := hf ▸ nodup_firstOfEach _
  refine ⟨⟨different, fun name ↦ ?_, ?_, ?_⟩, fun shape' ↦ ⟨fun h ↦ ?_, fun h ↦ h ▸ laidOut⟩⟩
  · rw [hf, ← t.map_freeOccurrences]
    exact mem_map_firstOfEach _
  · exact hf ▸ sublist_firstOfEach _
  · exact hf ▸ fun token ↦ find?_of_mem_firstOfEach _
  · exact h.unique laidOut different

/-- The inner parameter hides a free name whose first free occurrence comes after it, so this name
is the second one of the outer scope although its text is met first. -/
theorem interning_lays_out_scopes_hidden :
    ∃ t e free a, parseText (lit "t") (lit "\\x (\\y x z y) (y z)") = .ok t ∧
      Arena.intern {} t = (e, free, a) ∧
      free.map (fun u ↦ (u.text, u.location.column)) = [(lit "z", 10), (lit "y", 16)] ∧
      e.shape = .lambda [0, 1] (.apply
        (.lambda [0, 1] (.apply (.apply (.slot 1) (.slot 2)) (.slot 0)))
        (.apply (.slot 2) (.slot 1))) ∧
      (∀ token ∈ free, t.freeOccurrences.find? (fun u ↦ u.text == token.text) = some token) ∧
      t.LaidOut [lit "z", lit "y"] e.shape := by
  obtain ⟨t, e, free, a, parsed, interned, names, shape⟩ : ∃ t e free a,
      parseText (lit "t") (lit "\\x (\\y x z y) (y z)") = .ok t ∧
      Arena.intern {} t = (e, free, a) ∧
      free.map (fun u ↦ (u.text, u.location.column)) = [(lit "z", 10), (lit "y", 16)] ∧
      e.shape = .lambda [0, 1] (.apply
        (.lambda [0, 1] (.apply (.apply (.slot 1) (.slot 2)) (.slot 0)))
        (.apply (.slot 2) (.slot 1))) :=
    ⟨_, _, _, _, by cbv, by cbv, by decide +kernel, by decide +kernel⟩
  have built : Arena.Built Key.SlotRange.natural.Has {} := .empty 0
  obtain ⟨⟨-, -, -, first⟩, laidOut⟩ := interning_lays_out_scopes built trivial interned
  have texts : free.map Token.text = [lit "z", lit "y"] := by
    simpa [Function.comp_def] using congrArg (List.map Prod.fst) names
  exact ⟨t, e, free, a, parsed, interned, names, shape, first, texts ▸ (laidOut e.shape).mpr rfl⟩

end BitCalculus
