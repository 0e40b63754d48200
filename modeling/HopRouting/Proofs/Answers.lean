import Mathlib.Data.List.Forall2

/-!
# Answers that may fail

What a sequence of steps answers that may fail, and what a list of them does.
-/

namespace HopRouting

theorem bind_eq_ok_iff
    {ε α β : Type} {first : Except ε α} {next : α → Except ε β} {result : β} :
    (first >>= next) = .ok result ↔ ∃ value, first = .ok value ∧ next value = .ok result := by
  cases first with
  | error cause => simp [bind, Except.bind]
  | ok value => simp [bind, Except.bind]

theorem toOption_eq_some_iff
    {ε α : Type} {answer : Except ε α} {value : α} :
    answer.toOption = some value ↔ answer = .ok value := by
  cases answer with
  | error cause => simp [Except.toOption]
  | ok held => simp [Except.toOption]

theorem forall₂_of_mapM_eq_some
    {α β : Type} {f : α → Option β} {items : List α} {results : List β}
    (hmap : items.mapM f = some results) :
    List.Forall₂ (fun item result => f item = some result) items results := by
  induction items generalizing results with
  | nil =>
      cases hmap
      exact .nil
  | cons item rest ih =>
      rw [List.mapM_cons] at hmap
      obtain ⟨result, hresult, hrest⟩ := Option.bind_eq_some_iff.mp hmap
      obtain ⟨others, hothers, heq⟩ := Option.bind_eq_some_iff.mp hrest
      cases heq
      exact .cons hresult (ih hothers)

theorem exists_of_forall₂
    {α β : Type} {R : α → β → Prop} {items : List α} {results : List β} {item : α}
    (hall : List.Forall₂ R items results)
    (hmem : item ∈ items) :
    ∃ result ∈ results, R item result := by
  induction hall with
  | nil =>
      cases hmem
  | cons hfirst _ ih =>
      rcases List.mem_cons.mp hmem with rfl | hmem
      · exact ⟨_, List.mem_cons_self, hfirst⟩
      · obtain ⟨result, hresult, hrelated⟩ := ih hmem
        exact ⟨result, List.mem_cons_of_mem _ hresult, hrelated⟩

theorem mapM_eq_ok_iff
    {ε α β : Type} {f : α → Except ε β} {items : List α} {results : List β} :
    items.mapM f = .ok results ↔
      List.Forall₂ (fun item result => f item = .ok result) items results := by
  induction items generalizing results with
  | nil =>
      rw [List.forall₂_nil_left_iff, eq_comm]
      exact ⟨Except.ok.inj, congrArg Except.ok⟩
  | cons item rest ih =>
      rw [List.mapM_cons, List.forall₂_cons_left_iff, bind_eq_ok_iff]
      constructor
      · rintro ⟨result, hresult, hrest⟩
        obtain ⟨others, hothers, heq⟩ := bind_eq_ok_iff.mp hrest
        exact ⟨result, others, hresult, ih.mp hothers, (Except.ok.inj heq).symm⟩
      · rintro ⟨result, others, hresult, hothers, rfl⟩
        exact ⟨result, hresult, bind_eq_ok_iff.mpr ⟨others, ih.mpr hothers, rfl⟩⟩

/-- A list of steps succeeds if each of them does. -/
theorem exists_mapM_eq_ok_iff
    {ε α β : Type} {f : α → Except ε β} {items : List α} :
    (∃ results, items.mapM f = .ok results) ↔ ∀ item ∈ items, ∃ result, f item = .ok result := by
  simp only [mapM_eq_ok_iff]
  induction items with
  | nil =>
      simp
  | cons item rest ih =>
      rw [List.forall_mem_cons, ← ih]
      simp only [List.forall₂_cons_left_iff]
      constructor
      · rintro ⟨results, result, others, hresult, hothers, -⟩
        exact ⟨⟨result, hresult⟩, others, hothers⟩
      · rintro ⟨⟨result, hresult⟩, others, hothers⟩
        exact ⟨result :: others, result, others, hresult, hothers, rfl⟩

theorem exists_of_mem_mapM_eq_ok
    {ε α β : Type} {f : α → Except ε β} {items : List α} {results : List β} {result : β}
    (hmap : items.mapM f = .ok results)
    (hmem : result ∈ results) :
    ∃ item ∈ items, f item = .ok result := by
  induction items generalizing results with
  | nil =>
      cases hmap
      cases hmem
  | cons item rest ih =>
      rw [List.mapM_cons] at hmap
      obtain ⟨first, hfirst, hrest⟩ := bind_eq_ok_iff.mp hmap
      obtain ⟨others, hothers, heq⟩ := bind_eq_ok_iff.mp hrest
      cases heq
      rcases List.mem_cons.mp hmem with rfl | hmem
      · exact ⟨item, List.mem_cons_self, hfirst⟩
      · obtain ⟨other, hother, hresult⟩ := ih hothers hmem
        exact ⟨other, List.mem_cons_of_mem _ hother, hresult⟩

theorem mapM_congr
    {ε α β : Type} {f g : α → Except ε β} {items : List α}
    (hsame : ∀ item ∈ items, f item = g item) :
    items.mapM f = items.mapM g := by
  induction items with
  | nil =>
      rfl
  | cons item rest ih =>
      rw [List.mapM_cons, List.mapM_cons, hsame item List.mem_cons_self,
        ih fun other hother => hsame other (List.mem_cons_of_mem _ hother)]

end HopRouting
