import Mathlib.Data.List.Forall2
import HopRouting.PropertySet.Basic

/-!
# Layers of property sets

Where property sets are merged one after the other, each key has the value that the last set with a
value for the key gives it.

**Lists.**  `Prevails`: the last item of a list that gives a value gives this one.  In a list in
increasing order it is the greatest item that gives a value (`prevails_iff_of_pairwise`).

**Sets.**  `getElem?_layered_iff`: what merged sets give a key is what prevails.
`getElem?_layered_flatten`: blocks of sets can be merged first.
-/

namespace HopRouting

/-- The last item of a list that gives a value gives this one. -/
inductive Prevails {α β : Type} (gives : α → β → Prop) (value : β) : List α → Prop
  | here {item : α} {rest : List α}
      (given : gives item value)
      (silent : ∀ later ∈ rest, ∀ other, ¬ gives later other) :
      Prevails gives value (item :: rest)
  | later {item : α} {rest : List α}
      (prevails : Prevails gives value rest) :
      Prevails gives value (item :: rest)

section Prevails

variable {α β : Type} {gives : α → β → Prop} {value : β}

theorem prevails_cons_iff
    {item : α} {rest : List α} :
    Prevails gives value (item :: rest) ↔
      Prevails gives value rest ∨
        (∀ later ∈ rest, ∀ other, ¬ gives later other) ∧ gives item value := by
  constructor
  · rintro (⟨hgiven, hsilent⟩ | ⟨hlater⟩)
    · exact Or.inr ⟨hsilent, hgiven⟩
    · exact Or.inl hlater
  · rintro (hlater | ⟨hsilent, hgiven⟩)
    · exact .later hlater
    · exact .here hgiven hsilent

/-- Nothing gives a value behind the item that prevails. -/
theorem prevails_iff_append
    {items : List α} :
    Prevails gives value items ↔
      ∃ earlier item later, items = earlier ++ item :: later ∧ gives item value ∧
        ∀ item ∈ later, ∀ other, ¬ gives item other := by
  induction items with
  | nil =>
      simp only [List.nil_eq, List.append_eq_nil_iff, reduceCtorEq, and_false, false_and,
        exists_false, iff_false]
      rintro ⟨⟩
  | cons first rest ih =>
      rw [prevails_cons_iff, ih]
      constructor
      · rintro (⟨earlier, item, later, rfl, hgiven, hsilent⟩ | ⟨hsilent, hgiven⟩)
        · exact ⟨first :: earlier, item, later, rfl, hgiven, hsilent⟩
        · exact ⟨[], first, rest, rfl, hgiven, hsilent⟩
      · rintro ⟨earlier, item, later, hsplit, hgiven, hsilent⟩
        cases earlier with
        | nil =>
            cases hsplit
            exact Or.inr ⟨hsilent, hgiven⟩
        | cons _ earlier =>
            cases hsplit
            exact Or.inl ⟨earlier, item, later, rfl, hgiven, hsilent⟩

/-- If an item gives a value, a value prevails. -/
theorem exists_prevails_iff
    {items : List α} :
    (∃ value, Prevails gives value items) ↔ ∃ item ∈ items, ∃ value, gives item value := by
  induction items with
  | nil =>
      simp only [List.not_mem_nil, false_and, exists_false, iff_false]
      rintro ⟨value, ⟨⟩⟩
  | cons first rest ih =>
      simp only [prevails_cons_iff, exists_or, exists_and_left, ih, List.exists_mem_cons_iff]
      by_cases hlater : ∃ item ∈ rest, ∃ value, gives item value
      · simp only [hlater, true_or, or_true]
      · have hsilent : ∀ item ∈ rest, ∀ other, ¬ gives item other := by
          intro item hmem other hgiven
          exact hlater ⟨item, hmem, other, hgiven⟩
        simp only [hlater, false_or, or_false]
        exact and_iff_right hsilent

/-- Items that are left out give no value. -/
theorem prevails_filter_iff
    {kept : α → Bool} {items : List α} :
    Prevails gives value (items.filter kept) ↔
      Prevails (fun item value => kept item = true ∧ gives item value) value items := by
  induction items with
  | nil =>
      exact iff_of_false (by rintro ⟨⟩) (by rintro ⟨⟩)
  | cons first rest ih =>
      rw [prevails_cons_iff, ← ih]
      by_cases hkept : kept first = true
      · rw [List.filter_cons_of_pos hkept, prevails_cons_iff]
        simp only [List.mem_filter, hkept, true_and, and_imp, not_and]
        refine or_congr_right (and_congr_left fun _ => ?_)
        exact forall_congr' fun item => forall_congr' fun _ => forall_comm
      · rw [List.filter_cons_of_neg hkept]
        simp only [hkept, Bool.false_eq_true, false_and, and_false, or_false]

/-- In a list in increasing order, the last item that gives a value is the greatest one. -/
theorem prevails_iff_of_pairwise
    {lt : α → α → Prop}
    (hasymm : ∀ item other, lt item other → ¬ lt other item)
    {items : List α}
    (hsorted : items.Pairwise lt) :
    Prevails gives value items ↔
      ∃ item ∈ items, gives item value ∧
        ∀ later ∈ items, lt item later → ∀ other, ¬ gives later other := by
  induction items with
  | nil =>
      simp only [List.not_mem_nil, false_and, exists_false, iff_false]
      rintro ⟨⟩
  | cons first rest ih =>
      obtain ⟨hfirst, hrest⟩ := List.pairwise_cons.mp hsorted
      rw [prevails_cons_iff, ih hrest]
      constructor
      · rintro (⟨item, hmem, hgiven, hsilent⟩ | ⟨hsilent, hgiven⟩)
        · refine ⟨item, List.mem_cons_of_mem _ hmem, hgiven, ?_⟩
          intro later hlater hlt
          rcases List.mem_cons.mp hlater with rfl | hlater
          · exact absurd hlt (hasymm later item (hfirst item hmem))
          · exact hsilent later hlater hlt
        · refine ⟨first, List.mem_cons_self, hgiven, ?_⟩
          intro later hlater hlt
          rcases List.mem_cons.mp hlater with rfl | hlater
          · exact absurd hlt (hasymm later later hlt)
          · exact hsilent later hlater
      · rintro ⟨item, hmem, hgiven, hsilent⟩
        rcases List.mem_cons.mp hmem with rfl | hmem
        · refine Or.inr ⟨?_, hgiven⟩
          intro later hlater
          exact hsilent later (List.mem_cons_of_mem _ hlater) (hfirst later hlater)
        · refine Or.inl ⟨item, hmem, hgiven, ?_⟩
          intro later hlater
          exact hsilent later (List.mem_cons_of_mem _ hlater)

end Prevails

namespace PropertySet

/-- Property sets merged one after the other, where later ones override earlier ones. -/
def layered (sets : List PropertySet) : PropertySet :=
  sets.foldl merge ∅

theorem getElem?_merge
    (properties overriding : PropertySet)
    (key : String) :
    (properties.merge overriding)[key]? = overriding[key]?.or properties[key]? :=
  Std.ExtTreeMap.getElem?_union

theorem empty_merge
    (properties : PropertySet) :
    merge ∅ properties = properties := by
  apply Std.ExtTreeMap.ext_getElem?
  intro key
  rw [getElem?_merge, Std.ExtTreeMap.getElem?_empty, Option.or_none]

theorem getElem?_layered_cons
    (first : PropertySet)
    (rest : List PropertySet)
    (key : String) :
    (layered (first :: rest))[key]? = (layered rest)[key]?.or first[key]? := by
  have hfold : ∀ (sets : List PropertySet) (start : PropertySet),
      (sets.foldl merge start)[key]? = (layered sets)[key]?.or start[key]? := by
    intro sets
    unfold layered
    induction sets with
    | nil =>
        intro start
        rw [List.foldl_nil, List.foldl_nil, Std.ExtTreeMap.getElem?_empty, Option.none_or]
    | cons set others ih =>
        intro start
        rw [List.foldl_cons, List.foldl_cons, ih, ih (merge ∅ set), getElem?_merge, empty_merge,
          Option.or_assoc]
  rw [layered, List.foldl_cons, hfold rest, empty_merge]

theorem getElem?_layered_append
    (front back : List PropertySet)
    (key : String) :
    (layered (front ++ back))[key]? = (layered back)[key]?.or (layered front)[key]? := by
  induction front with
  | nil =>
      rw [List.nil_append, layered, layered, List.foldl_nil, Std.ExtTreeMap.getElem?_empty,
        Option.or_none]
  | cons set rest ih =>
      rw [List.cons_append, getElem?_layered_cons, getElem?_layered_cons, ih, Option.or_assoc]

/-- Blocks of sets can be merged before they are merged with each other. -/
theorem getElem?_layered_flatten
    (blocks : List (List PropertySet))
    (key : String) :
    (layered blocks.flatten)[key]? = (layered (blocks.map layered))[key]? := by
  induction blocks with
  | nil =>
      rfl
  | cons block rest ih =>
      rw [List.flatten_cons, List.map_cons, getElem?_layered_append, getElem?_layered_cons, ih]

/-- Each key has the value that the last of the sets with a value for the key gives it. -/
theorem getElem?_layered_iff
    {α : Type} {items : List α} {sets : List PropertySet} {key : String}
    {gives : α → String → Prop}
    (hgives :
      List.Forall₂ (fun item set => ∀ value, gives item value ↔ set[key]? = some value)
        items sets)
    (value : String) :
    (layered sets)[key]? = some value ↔ Prevails gives value items := by
  have hboth :
      (∀ value, (layered sets)[key]? = some value ↔ Prevails gives value items) ∧
        ((layered sets)[key]? = none ↔ ∀ item ∈ items, ∀ other, ¬ gives item other) := by
    induction hgives with
    | nil =>
        refine ⟨?_, by simp [layered]⟩
        intro value
        simp only [layered, List.foldl_nil, Std.ExtTreeMap.getElem?_empty, reduceCtorEq, false_iff]
        rintro ⟨⟩
    | @cons item set rest others hfirst _ ih =>
        obtain ⟨hsome, hnone⟩ := ih
        constructor
        · intro value
          rw [getElem?_layered_cons, Option.or_eq_some_iff, hsome, hnone, prevails_cons_iff, hfirst]
        · rw [getElem?_layered_cons, Option.or_eq_none_iff, hnone, List.forall_mem_cons, and_comm,
            Option.eq_none_iff_forall_ne_some]
          simp only [hfirst, ne_eq]
  exact hboth.1 value

end PropertySet

end HopRouting
