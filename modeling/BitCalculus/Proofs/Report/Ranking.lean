import Mathlib
import BitCalculus.Report.Stats

/-!
# The ranking of bodies

Bodies rank by how often they were applied, and by number where that is the same. No two bodies have
the same rank, so there is one ranking of all bodies that were applied, and the hottest ones stand
at its beginning. It follows from the counts alone, in whatever order the bodies were applied, and
an ordered set in which the bodies are collected one by one lists them in the same way.
-/

namespace BitCalculus

namespace Stats

/-! ### Counts -/

/-- Statistics in which applications of the given bodies were counted one after another. -/
def ofHistory (ids : List Nat) : Stats :=
  ids.foldl countBody {}

theorem getElem?_countBody (s : Stats) (id k : Nat) :
    (s.countBody id).bodies[k]? =
      if id = k then some (s.bodyCount k + 1) else s.bodies[k]? := by
  by_cases h : id = k
  · subst h
    simp [countBody, bodyCount, Std.HashMap.getD_eq_getD_getElem?]
  · simp [countBody, Std.HashMap.getElem?_alter, h]

/-- A body is listed with the number of its applications, if there were any. -/
theorem getElem?_ofHistory (ids : List Nat) (k : Nat) :
    (ofHistory ids).bodies[k]? = if k ∈ ids then some (ids.count k) else none := by
  induction ids using List.reverseRecOn with
  | nil => simp [ofHistory]
  | append_singleton ids id ih =>
    have last : ofHistory (ids ++ [id]) = (ofHistory ids).countBody id := by
      simp [ofHistory]
    have before : (ofHistory ids).bodyCount k = ids.count k := by
      rw [bodyCount, Std.HashMap.getD_eq_getD_getElem?, ih]
      split
      · rfl
      · next absent => rw [List.count_eq_zero_of_not_mem absent, Option.getD_none]
    rw [last, getElem?_countBody, before, ih]
    by_cases h : id = k
    · simp [h]
    · simp [h, Ne.symm h]

theorem bodyCount_ofHistory (ids : List Nat) (k : Nat) :
    (ofHistory ids).bodyCount k = ids.count k := by
  rw [bodyCount, Std.HashMap.getD_eq_getD_getElem?, getElem?_ofHistory]
  split
  · rfl
  · next absent => rw [List.count_eq_zero_of_not_mem absent, Option.getD_none]

/-! ### Ranks -/

/-- Whether an entry, a body with its count, stands before another one in the ranking. -/
def Precedes (a b : Nat × Nat) : Prop :=
  b.2 < a.2 ∨ a.2 = b.2 ∧ a.1 < b.1

instance (a b : Nat × Nat) : Decidable (Precedes a b) :=
  inferInstanceAs (Decidable (_ ∨ _))

instance : Std.Irrefl Precedes :=
  ⟨fun a h ↦ by unfold Precedes at h; omega⟩

theorem Precedes.trans {a b c : Nat × Nat} (h : Precedes a b) (h' : Precedes b c) :
    Precedes a c := by
  unfold Precedes at *
  omega

theorem Precedes.asymm {a b : Nat × Nat} (h : Precedes a b) : ¬ Precedes b a := by
  unfold Precedes at *
  omega

/-- Two entries of which none stands before the other are the same. -/
theorem eq_or_precedes (a b : Nat × Nat) : a = b ∨ Precedes a b ∨ Precedes b a := by
  rw [Prod.ext_iff]
  unfold Precedes
  omega

/-- There is one way to put entries in order. -/
theorem eq_of_precedes {l₁ l₂ : List (Nat × Nat)} (h₁ : l₁.Pairwise Precedes)
    (h₂ : l₂.Pairwise Precedes) (same : ∀ x, x ∈ l₁ ↔ x ∈ l₂) : l₁ = l₂ :=
  ((List.perm_ext_iff_of_nodup h₁.nodup h₂.nodup).mpr same).eq_of_pairwise
    (fun _ _ _ _ before after ↦ absurd after before.asymm) h₁ h₂

theorem mem_ranking (s : Stats) (id n : Nat) : (id, n) ∈ s.ranking ↔ s.bodies[id]? = some n := by
  rw [ranking, (List.mergeSort_perm _ _).mem_iff, Std.HashMap.mem_toList_iff_getElem?_eq_some]

/-- In the ranking every entry stands before the later ones: no body is listed twice, so entries
that compare as equal are the same. -/
theorem pairwise_ranking (s : Stats) : s.ranking.Pairwise Precedes := by
  have sorted : s.ranking.Pairwise fun a b ↦ ranksBefore a b = true := by
    apply List.pairwise_mergeSort
    · intro a b c
      simp only [ranksBefore, Bool.or_eq_true, Bool.and_eq_true, decide_eq_true_eq, beq_iff_eq]
      omega
    · intro a b
      simp only [ranksBefore, Bool.or_eq_true, Bool.and_eq_true, decide_eq_true_eq, beq_iff_eq]
      omega
  have different : s.ranking.Pairwise fun a b ↦ a.1 ≠ b.1 := by
    have keys : (s.ranking.map Prod.fst).Nodup := by
      refine ((List.mergeSort_perm _ _).map _).nodup_iff.mpr ?_
      rw [Std.HashMap.map_fst_toList_eq_keys]
      exact Std.HashMap.nodup_keys
    exact List.pairwise_map.mp keys
  refine (sorted.and different).imp fun {a b} h ↦ ?_
  simp only [ranksBefore, Bool.or_eq_true, Bool.and_eq_true, decide_eq_true_eq, beq_iff_eq] at h
  unfold Precedes
  omega

/-- The ranking follows from the counts, not from the order in which they came about. -/
theorem ranking_congr {s t : Stats} (same : ∀ id : Nat, s.bodies[id]? = t.bodies[id]?) :
    s.ranking = t.ranking := by
  refine eq_of_precedes s.pairwise_ranking t.pairwise_ranking fun x ↦ ?_
  rw [← Prod.mk.eta (p := x), mem_ranking, mem_ranking, same]

/-- Whether a body ranks before another one: it was applied more often, or equally often and has the
smaller number. -/
def Outranks (s : Stats) (a b : Nat) : Prop :=
  s.bodyCount b < s.bodyCount a ∨ s.bodyCount a = s.bodyCount b ∧ a < b

/-- All bodies that were applied, most often applied first. -/
def rankedBodies (s : Stats) : List Nat :=
  s.ranking.map Prod.fst

theorem mem_rankedBodies (s : Stats) (id : Nat) : id ∈ s.rankedBodies ↔ id ∈ s.bodies := by
  rw [rankedBodies, List.mem_map, Std.HashMap.mem_iff_isSome_getElem?, Option.isSome_iff_exists]
  constructor
  · rintro ⟨⟨id', n⟩, entry, rfl⟩
    exact ⟨n, (s.mem_ranking id' n).mp entry⟩
  · rintro ⟨n, listed⟩
    exact ⟨(id, n), (s.mem_ranking id n).mpr listed, rfl⟩

theorem pairwise_rankedBodies (s : Stats) : s.rankedBodies.Pairwise s.Outranks := by
  have count : ∀ entry ∈ s.ranking, s.bodyCount entry.1 = entry.2 := by
    rintro ⟨id, n⟩ entry
    rw [bodyCount, Std.HashMap.getD_eq_getD_getElem?, (s.mem_ranking id n).mp entry,
      Option.getD_some]
  refine List.pairwise_map.mpr (s.pairwise_ranking.imp_of_mem fun ha hb before ↦ ?_)
  rw [Outranks, count _ ha, count _ hb]
  exact before

theorem nodup_rankedBodies (s : Stats) : s.rankedBodies.Nodup :=
  s.pairwise_rankedBodies.imp fun h he ↦ by
    subst he
    unfold Outranks at h
    omega

/-! ### Collecting in an ordered set -/

/-- A set of entries that is kept in an order. An entry that is put into it replaces the entry of
which the order cannot tell it apart, and all other entries stay. -/
structure OrderedSet {α : Type} (before : α → α → Prop) (σ : Type) where
  empty : σ
  put : σ → α → σ
  entries : σ → List α
  entries_empty : entries empty = []
  ordered (set : σ) : (entries set).Pairwise before
  mem_put (set : σ) (new x : α) :
    x ∈ entries (put set new) ↔ x = new ∨ x ∈ entries set ∧ (before x new ∨ before new x)

/-- Entries of bodies do not replace each other, so all that were put into an ordered set are in
it. -/
theorem OrderedSet.mem_collect {σ : Type} (set : OrderedSet Precedes σ) (l : List (Nat × Nat))
    (x : Nat × Nat) : x ∈ set.entries (l.foldl set.put set.empty) ↔ x ∈ l := by
  induction l using List.reverseRecOn with
  | nil => simp [set.entries_empty]
  | append_singleton l new ih =>
    rw [List.foldl_concat, set.mem_put, ih, List.mem_append, List.mem_singleton]
    have := eq_or_precedes x new
    tauto

/-- Collecting the bodies of some statistics one by one, in whatever order, gives their ranking. -/
theorem OrderedSet.entries_collect {σ : Type} (set : OrderedSet Precedes σ) {s : Stats}
    {l : List (Nat × Nat)} (all : l.Perm s.bodies.toList) :
    set.entries (l.foldl set.put set.empty) = s.ranking := by
  refine eq_of_precedes (set.ordered _) s.pairwise_ranking fun x ↦ ?_
  rw [set.mem_collect, all.mem_iff, ranking, (List.mergeSort_perm _ _).mem_iff]

/-- An ordered list with one more entry, which takes the place of an equal one. -/
def place (new : Nat × Nat) : List (Nat × Nat) → List (Nat × Nat)
  | [] => [new]
  | x :: l =>
    if Precedes new x then new :: x :: l
    else if Precedes x new then x :: place new l
    else new :: l

theorem mem_place (new x : Nat × Nat) (l : List (Nat × Nat)) :
    x ∈ place new l ↔ x = new ∨ x ∈ l := by
  induction l with
  | nil => simp [place]
  | cons y l ih =>
    rw [place]
    split
    · simp
    · split
      · rw [List.mem_cons, ih, List.mem_cons]
        exact or_left_comm
      · have same : new = y := by
          have := eq_or_precedes new y
          tauto
        simp [same]

theorem pairwise_place (new : Nat × Nat) {l : List (Nat × Nat)} (h : l.Pairwise Precedes) :
    (place new l).Pairwise Precedes := by
  induction l with
  | nil => simp [place]
  | cons y l ih =>
    obtain ⟨first, rest⟩ := List.pairwise_cons.mp h
    rw [place]
    split
    · next front =>
      refine List.pairwise_cons.mpr ⟨fun x hx ↦ ?_, h⟩
      rcases List.mem_cons.mp hx with rfl | hx
      · exact front
      · exact front.trans (first x hx)
    · split
      · next behind =>
        refine List.pairwise_cons.mpr ⟨fun x hx ↦ ?_, ih rest⟩
        rcases (mem_place new x l).mp hx with rfl | hx
        · exact behind
        · exact first x hx
      · next notFront notBehind =>
        have same : new = y := by
          have := eq_or_precedes new y
          tauto
        exact same ▸ h

/-- Ordered lists are ordered sets. -/
def OrderedSet.ofLists : OrderedSet Precedes { l : List (Nat × Nat) // l.Pairwise Precedes } where
  empty := ⟨[], List.Pairwise.nil⟩
  put set new := ⟨place new set.1, pairwise_place new set.2⟩
  entries set := set.1
  entries_empty := rfl
  ordered set := set.2
  mem_put set new x := by
    have := eq_or_precedes x new
    rw [mem_place]
    tauto

/-- The ranking of a history is its bodies with their counts in order. -/
theorem ranking_ofHistory {ids : List Nat} {l : List (Nat × Nat)} (ordered : l.Pairwise Precedes)
    (all : l.Perm (ids.dedup.map fun id ↦ (id, ids.count id))) : (ofHistory ids).ranking = l := by
  refine eq_of_precedes (ofHistory ids).pairwise_ranking ordered fun (id, n) ↦ ?_
  rw [mem_ranking, getElem?_ofHistory, all.mem_iff, List.mem_map]
  by_cases h : id ∈ ids
  · simp [h]
  · simp [h]

/-! ### The hottest bodies -/

theorem hottest_eq (s : Stats) {n : Int} (low : 0 ≤ n) (high : n ≤ rankingCeiling) :
    s.hottest n = .ok (s.rankedBodies.take n.toNat) := by
  rw [hottest, if_neg (by omega), List.map_take]
  rfl

/-- What a list of the `n` hottest bodies of a history is. -/
structure ListsHottest (ids : List Nat) (n : Nat) (top : List Nat) : Prop where
  nodup : top.Nodup
  counted : ∀ id ∈ top, id ∈ ids
  length : top.length = min n ids.dedup.length
  ranked : top.Pairwise (ofHistory ids).Outranks
  omitted : ∀ id ∈ ids, id ∉ top → ∀ listed ∈ top, (ofHistory ids).Outranks listed id

theorem mem_rankedBodies_ofHistory (ids : List Nat) (id : Nat) :
    id ∈ (ofHistory ids).rankedBodies ↔ id ∈ ids := by
  rw [mem_rankedBodies, Std.HashMap.mem_iff_isSome_getElem?, getElem?_ofHistory]
  by_cases h : id ∈ ids <;> simp [h]

theorem listsHottest_take (ids : List Nat) (n : Nat) :
    ListsHottest ids n ((ofHistory ids).rankedBodies.take n) := by
  have mem := mem_rankedBodies_ofHistory ids
  have ranked := (ofHistory ids).pairwise_rankedBodies
  have nodup := (ofHistory ids).nodup_rankedBodies
  constructor
  · exact nodup.sublist (List.take_sublist _ _)
  · exact fun id h ↦ (mem id).mp (List.mem_of_mem_take h)
  · have same : (ofHistory ids).rankedBodies.Perm ids.dedup := by
      refine (List.perm_ext_iff_of_nodup nodup (List.nodup_dedup ids)).mpr fun id ↦ ?_
      rw [mem, List.mem_dedup]
    rw [List.length_take, same.length_eq]
  · exact ranked.take
  · intro id h absent listed hl
    -- An omitted body stands behind the cut.
    rw [← List.take_append_drop n (ofHistory ids).rankedBodies, List.pairwise_append] at ranked
    have whole := (mem id).mpr h
    rw [← List.take_append_drop n (ofHistory ids).rankedBodies, List.mem_append] at whole
    exact ranked.2.2 listed hl id (whole.resolve_left absent)

end Stats

open Stats

/-- Whatever bodies were applied, in whatever order: the number kept for a body is the number of its
applications. Asking for the hottest `n` bodies, where `n` is not negative and not above the
ceiling, lists as many of the applied bodies as there are, `n` at most, each once, by descending
count and ascending number, and every body that is left out ranks behind all that are listed. The
list depends only on how often each body was applied; asking for more bodies extends it; and an
ordered set in which the bodies are collected gives the same list. Above the ceiling nothing is
listed. -/
theorem hottest_ranks (ids : List Nat) (n : Int) :
    (∀ id, (ofHistory ids).bodyCount id = ids.count id) ∧
      (0 ≤ n ∧ n ≤ rankingCeiling → ∃ top,
        (ofHistory ids).hottest n = .ok top ∧ ListsHottest ids n.toNat top ∧
        (∀ m, n ≤ m ∧ m ≤ rankingCeiling →
          ∃ longer, (ofHistory ids).hottest m = .ok longer ∧ top <+: longer) ∧
        ∀ (σ : Type) (set : OrderedSet Precedes σ) (l : List (Nat × Nat)),
          l.Perm (ofHistory ids).bodies.toList →
            ((set.entries (l.foldl set.put set.empty)).take n.toNat).map Prod.fst = top) ∧
      (∀ ids' : List Nat, (∀ id, ids'.count id = ids.count id) →
        (ofHistory ids').hottest n = (ofHistory ids).hottest n) ∧
      (rankingCeiling < n → (ofHistory ids).hottest n = .error .impossibleCount) := by
  refine ⟨bodyCount_ofHistory ids, ?_, ?_, ?_⟩
  · rintro ⟨low, high⟩
    refine ⟨_, hottest_eq _ low high, listsHottest_take ids n.toNat, ?_, ?_⟩
    · rintro m ⟨le, highM⟩
      exact ⟨_, hottest_eq _ (by omega) highM, List.take_prefix_take_left (by omega)⟩
    · intro σ set l all
      rw [set.entries_collect all, List.map_take]
      rfl
  · intro ids' same
    have ranking : (ofHistory ids').ranking = (ofHistory ids).ranking := by
      refine ranking_congr fun id ↦ ?_
      have mem : id ∈ ids' ↔ id ∈ ids := by
        rw [← List.count_pos_iff, ← List.count_pos_iff, same]
      rw [getElem?_ofHistory, getElem?_ofHistory, same]
      simp only [mem]
    rw [hottest, hottest, ranking]
  · intro high
    rw [hottest, if_pos (.inr high)]

/-- Body 7 was applied three times, the bodies 9 and 5 once each. -/
theorem hottest_ranks_tie :
    ListsHottest [7, 9, 7, 5, 7] 2 [7, 5] ∧
      (∃ longer, (ofHistory [7, 9, 7, 5, 7]).hottest 3 = .ok longer ∧ [7, 5] <+: longer) ∧
      (ofHistory [5, 7, 7, 7, 9]).hottest 2 = .ok [7, 5] := by
  obtain ⟨-, lists, same, -⟩ := hottest_ranks [7, 9, 7, 5, 7] 2
  obtain ⟨top, hot, hottest, longer, collected⟩ := lists ⟨by decide, by decide⟩
  have ranking : (ofHistory [7, 9, 7, 5, 7]).ranking = [(7, 3), (5, 1), (9, 1)] :=
    ranking_ofHistory (by decide) (by decide)
  obtain rfl : [7, 5] = top := by
    rw [← collected _ .ofLists _ (List.Perm.refl _), OrderedSet.entries_collect _ (.refl _),
      ranking]
    rfl
  refine ⟨hottest, longer 3 ⟨by decide, by decide⟩, ?_⟩
  have perm : [5, 7, 7, 7, 9].Perm [7, 9, 7, 5, 7] := by decide
  rw [same [5, 7, 7, 7, 9] fun id ↦ perm.count_eq id, hot]

/-- One body was applied, so it is all that there is to list of the 2^62 hottest ones, but nothing
is listed. -/
theorem hottest_refuses_large_count :
    (ofHistory [7]).hottest 0x4000000000000000 = .error .impossibleCount ∧
      ListsHottest [7] 0x4000000000000000 [7] := by
  have ranking : (ofHistory [7]).ranking = [(7, 1)] := ranking_ofHistory (by decide) (by decide)
  have all := listsHottest_take [7] 0x4000000000000000
  rw [rankedBodies, ranking, List.take_of_length_le (by decide)] at all
  exact ⟨by rw [hottest, if_pos (.inr (by decide))], all⟩

end BitCalculus
