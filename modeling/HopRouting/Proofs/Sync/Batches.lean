import HopRouting.Proofs.Sync.Effects
import HopRouting.Proofs.Sync.Scans

/-!
# Batches of a directory

What a working copy tells between two polls is a batch that forgets all files that are gone and then
takes in all files that are new or different.

**Results.**  If no two files of a scan name the same entry, then after the batch the graph holds,
for every file of the second scan, what it held if the file stayed as it was, and else what the file
declares (`held_process_changes_of_distinct`).

So, by `held_process_changes_iff`, if the graph held what the files of the first scan declare,
then after the batch it holds what those of the second scan declare, provided that

* no two files of a scan name the same entry,
* a file that is the same in both still declares the same, and
* every file of the second scan that names an entry declares an element for it.

A file that is gone may well name the same entry as one that is new, because forgetting comes first.
-/

namespace HopRouting

namespace Workshop

variable {workshop : Workshop} {graph : Graph} {entry : Graph.Entry} {element : Element}

theorem entryOf?_of_skipped
    {path : Path} {reason : SkipReason}
    (hrole : workshop.settings.roleOf path = .skipped reason) :
    workshop.entryOf? path = none := by
  rw [entryOf?, hrole]
  rfl

theorem entryOf?_of_ignored
    {path : Path}
    (hrole : workshop.settings.roleOf path = .ignored) :
    workshop.entryOf? path = none := by
  rw [entryOf?, hrole]
  rfl

section Single

theorem held_remove_iff
    (hbuiltin : workshop.registry.IsBuiltin)
    (graph : Graph)
    (path : Path) :
    (workshop.perform graph (.remove path)).2.held entry = some element ↔
      graph.held entry = some element ∧ workshop.entryOf? path ≠ some entry := by
  have heffect := perform_effect hbuiltin graph (.remove path)
  generalize (workshop.perform graph (.remove path)).1 = outcome at heffect
  generalize (workshop.perform graph (.remove path)).2 = next at heffect ⊢
  cases heffect with
  | skipped hrole =>
      have hnone : workshop.entryOf? path = none := entryOf?_of_skipped hrole
      simp [hnone]
  | ignored hrole =>
      have hnone : workshop.entryOf? path = none := entryOf?_of_ignored hrole
      simp [hnone]
  | @removed _ named _ _ hnamed _ hcleared =>
      rw [hcleared, hnamed, Function.update_apply]
      by_cases hsame : entry = named
      · simp [hsame]
      · simp [hsame, Ne.symm hsame]
  | @rejected _ named hnamed habsent =>
      rw [hnamed]
      constructor
      · intro hheld
        refine ⟨hheld, ?_⟩
        rintro ⟨rfl⟩
        rw [habsent] at hheld
        cases hheld
      · exact And.left

theorem held_add_iff
    (hbuiltin : workshop.registry.IsBuiltin)
    (graph : Graph)
    {path : Path}
    (hdeclares :
      ∀ entry, workshop.entryOf? path = some entry →
        ∃ element, workshop.Declares path entry element) :
    (workshop.perform graph (.add path)).2.held entry = some element ↔
      workshop.Declares path entry element ∨
        graph.held entry = some element ∧ workshop.entryOf? path ≠ some entry := by
  have hunnamed :
      workshop.entryOf? path = none →
        (graph.held entry = some element ↔
          workshop.Declares path entry element ∨
            graph.held entry = some element ∧ workshop.entryOf? path ≠ some entry) := by
    intro hnone
    rw [hnone]
    constructor
    · intro hheld
      exact Or.inr ⟨hheld, Option.some_ne_none entry |>.symm⟩
    · rintro (hdeclared | ⟨hheld, -⟩)
      · cases hnone.symm.trans hdeclared.entryOf?_eq
      · exact hheld
  have heffect := perform_effect hbuiltin graph (.add path)
  generalize (workshop.perform graph (.add path)).1 = outcome at heffect
  generalize (workshop.perform graph (.add path)).2 = next at heffect ⊢
  cases heffect with
  | skipped hrole =>
      exact hunnamed (entryOf?_of_skipped hrole)
  | ignored hrole =>
      exact hunnamed (entryOf?_of_ignored hrole)
  | @failed _ named hnamed hundeclared =>
      obtain ⟨element, hdeclared⟩ := hdeclares named hnamed
      exact absurd hdeclared (hundeclared element)
  | @added _ named built _ hdeclared hwritten =>
      rw [hwritten, hdeclared.entryOf?_eq, Function.update_apply]
      by_cases hsame : entry = named
      · subst hsame
        simp only [if_true, Option.some.injEq, ne_eq, not_true, and_false, or_false]
        constructor
        · rintro rfl
          exact hdeclared
        · intro hother
          exact (hdeclared.unique hother).2
      · simp only [hsame, if_false, Option.some.injEq, Ne.symm hsame, ne_eq, not_false_eq_true,
          and_true]
        constructor
        · exact Or.inr
        · rintro (hother | hheld)
          · exact absurd (hdeclared.unique hother).1.symm hsame
          · exact hheld

end Single

section Several

theorem performAll_append
    (workshop : Workshop)
    (graph : Graph)
    (first second : List Operation) :
    (workshop.performAll graph (first ++ second)).2 =
      (workshop.performAll (workshop.performAll graph first).2 second).2 := by
  induction first generalizing graph with
  | nil => rfl
  | cons operation rest ih => exact ih (workshop.perform graph operation).2

/-- Batches that follow each other are one batch. -/
theorem process_append
    (workshop : Workshop)
    (graph : Graph)
    (first second : List Change) :
    (workshop.process graph (first ++ second)).2 =
      (workshop.process (workshop.process graph first).2 second).2 := by
  simp only [process, List.flatMap_append, performAll_append]

/-- Forgetting files leaves what none of them names. -/
theorem held_removeAll_iff
    (hbuiltin : workshop.registry.IsBuiltin)
    (graph : Graph)
    (files : List Location) :
    (workshop.performAll graph (files.map fun names => .remove (.ofNames names))).2.held entry =
        some element ↔
      graph.held entry = some element ∧
        ∀ names ∈ files, workshop.entryOf? (.ofNames names) ≠ some entry := by
  induction files generalizing graph with
  | nil =>
      simp [performAll]
  | cons names rest ih =>
      rw [List.forall_mem_cons, ← and_assoc, ← held_remove_iff hbuiltin graph (.ofNames names)]
      exact ih _

/-- Taking in files that declare different entries puts what they declare in place of what was
there. -/
theorem held_addAll_iff
    (hbuiltin : workshop.registry.IsBuiltin)
    (graph : Graph)
    {files : List Location}
    (hdeclares :
      ∀ names ∈ files, ∀ entry, workshop.entryOf? (.ofNames names) = some entry →
        ∃ element, workshop.Declares (.ofNames names) entry element)
    (hdistinct :
      ∀ names ∈ files, ∀ other ∈ files, ∀ entry,
        workshop.entryOf? (.ofNames names) = some entry →
          workshop.entryOf? (.ofNames other) = some entry → names = other) :
    (workshop.performAll graph (files.map fun names => .add (.ofNames names))).2.held entry =
        some element ↔
      (∃ names ∈ files, workshop.Declares (.ofNames names) entry element) ∨
        graph.held entry = some element ∧
          ∀ names ∈ files, workshop.entryOf? (.ofNames names) ≠ some entry := by
  induction files generalizing graph with
  | nil =>
      simp [performAll]
  | cons names rest ih =>
      have hrest :=
        ih (workshop.perform graph (.add (.ofNames names))).2
          (fun other hother => hdeclares other (List.mem_cons_of_mem _ hother))
          (fun other hother another hanother =>
            hdistinct other (List.mem_cons_of_mem _ hother) another
              (List.mem_cons_of_mem _ hanother))
      simp only [List.mem_cons, exists_eq_or_imp, forall_eq_or_imp]
      refine hrest.trans ?_
      rw [held_add_iff hbuiltin graph (hdeclares names List.mem_cons_self)]
      constructor
      · rintro (hlater | ⟨hdeclared | ⟨hheld, hown⟩, hothers⟩)
        · exact Or.inl (Or.inr hlater)
        · exact Or.inl (Or.inl hdeclared)
        · exact Or.inr ⟨hheld, hown, hothers⟩
      · rintro ((hdeclared | hlater) | ⟨hheld, hown, hothers⟩)
        · by_cases hagain : ∃ other ∈ rest, workshop.entryOf? (.ofNames other) = some entry
          · obtain ⟨other, hother, hentry⟩ := hagain
            have hsame :=
              hdistinct names List.mem_cons_self other (List.mem_cons_of_mem _ hother) entry
                hdeclared.entryOf?_eq hentry
            exact Or.inl ⟨other, hother, hsame ▸ hdeclared⟩
          · refine Or.inr ⟨Or.inl hdeclared, ?_⟩
            intro other hother hentry
            exact hagain ⟨other, hother, hentry⟩
        · exact Or.inl hlater
        · exact Or.inr ⟨Or.inr ⟨hheld, hown⟩, hothers⟩

end Several

section Batches

/-- No two files of a scan name the same entry of the graph. -/
def Distinct (workshop : Workshop) (scan : Scan) : Prop :=
  ∀ names ∈ scan, ∀ other ∈ scan, ∀ entry,
    workshop.entryOf? (.ofNames names) = some entry →
      workshop.entryOf? (.ofNames other) = some entry → names = other

/-- Every file of a scan that names an entry declares an element for it, and no two files name the
same entry. -/
structure DocumentedIn (workshop : Workshop) (scan : Scan) : Prop where
  declares :
    ∀ names ∈ scan, ∀ entry, workshop.entryOf? (.ofNames names) = some entry →
      ∃ element, workshop.Declares (.ofNames names) entry element
  distinct : workshop.Distinct scan

/-- After the batch that leads from one scan to another, a file of the latter has what it had in the
graph if it stayed as it was, and else what it declares. -/
theorem held_process_changes_of_distinct
    (hbuiltin : workshop.registry.IsBuiltin)
    {before after : Scan}
    (hnamed :
      ∀ entry element, graph.held entry = some element →
        ∃ names ∈ before, workshop.entryOf? (.ofNames names) = some entry)
    (hbefore : workshop.Distinct before)
    (hafter : workshop.DocumentedIn after) :
    (workshop.process graph (before.changes after)).2.held entry = some element ↔
      ∃ names ∈ after, workshop.entryOf? (.ofNames names) = some entry ∧
        (before[names]? = after[names]? ∧ graph.held entry = some element ∨
          before[names]? ≠ after[names]? ∧
            workshop.Declares (.ofNames names) entry element) := by
  have htouched : ∀ names ∈ before.touched after, names ∈ after := by
    intro names hnames
    obtain ⟨content, hcontent, -⟩ := (before.mem_touched_iff after).mp hnames
    exact Scan.mem_iff_exists.mpr ⟨content, hcontent⟩
  have hprocess :
      (workshop.process graph (before.changes after)).2.held entry = some element ↔
        (∃ names ∈ before.touched after, workshop.Declares (.ofNames names) entry element) ∨
          (graph.held entry = some element ∧
            ∀ names ∈ before.gone after, workshop.entryOf? (.ofNames names) ≠ some entry) ∧
          ∀ names ∈ before.touched after, workshop.entryOf? (.ofNames names) ≠ some entry := by
    simp only [process, before.operations_changes after, performAll_append]
    rw [held_addAll_iff hbuiltin _
        (fun names hnames => hafter.declares names (htouched names hnames))
        (fun names hnames other hother =>
          hafter.distinct names (htouched names hnames) other (htouched other hother)),
      held_removeAll_iff hbuiltin]
  rw [hprocess]
  constructor
  · rintro (⟨names, hnames, hdeclared⟩ | ⟨⟨hheld, hgone⟩, hsame⟩)
    · obtain ⟨content, hcontent, hdifferent⟩ := (before.mem_touched_iff after).mp hnames
      refine ⟨names, htouched names hnames, hdeclared.entryOf?_eq, Or.inr ⟨?_, hdeclared⟩⟩
      rwa [hcontent]
    · obtain ⟨names, hnames, hentry⟩ := hnamed entry element hheld
      have hstays : names ∈ after := by
        by_contra habsent
        refine hgone names ((before.mem_gone_iff after).mpr ⟨hnames, ?_⟩) hentry
        exact Std.ExtTreeMap.getElem?_eq_none habsent
      obtain ⟨content, hcontent⟩ := Scan.mem_iff_exists.mp hstays
      refine ⟨names, hstays, hentry, Or.inl ⟨?_, hheld⟩⟩
      by_contra hdifferent
      rw [hcontent] at hdifferent
      exact hsame names ((before.mem_touched_iff after).mpr ⟨content, hcontent, hdifferent⟩) hentry
  · rintro ⟨names, hnames, hentry, ⟨hsame, hheld⟩ | ⟨hdifferent, hdeclared⟩⟩
    · obtain ⟨content, hcontent⟩ := Scan.mem_iff_exists.mp hnames
      have hstayed : names ∈ before := Scan.mem_iff_exists.mpr ⟨content, hsame.trans hcontent⟩
      refine Or.inr ⟨⟨hheld, ?_⟩, ?_⟩
      · intro other hother hothernamed
        obtain ⟨hpast, hgone⟩ := (before.mem_gone_iff after).mp hother
        have heq := hbefore names hstayed other hpast entry hentry hothernamed
        rw [← heq, hcontent] at hgone
        cases hgone
      · intro other hother hothernamed
        have heq :=
          hafter.distinct names hnames other (htouched other hother) entry hentry hothernamed
        obtain ⟨found, hfound, hchanged⟩ := (before.mem_touched_iff after).mp hother
        rw [← heq, hsame] at hchanged
        rw [← heq] at hfound
        exact hchanged hfound
    · obtain ⟨content, hcontent⟩ := Scan.mem_iff_exists.mp hnames
      rw [hcontent] at hdifferent
      exact Or.inl
        ⟨names, (before.mem_touched_iff after).mpr ⟨content, hcontent, hdifferent⟩, hdeclared⟩

/-- After the batch that leads from one scan to another the graph holds what the files of the latter
declare. -/
theorem held_process_changes_iff
    (hbuiltin : workshop.registry.IsBuiltin)
    {before after : Scan}
    (declared : Location → Graph.Entry → Element → Prop)
    (hgraph :
      ∀ entry element, graph.held entry = some element ↔
        ∃ names ∈ before, declared names entry element)
    (hentry :
      ∀ names ∈ before, ∀ entry element, declared names entry element →
        workshop.entryOf? (.ofNames names) = some entry)
    (hkept :
      ∀ names content, before[names]? = some content → after[names]? = some content →
        ∀ entry element, declared names entry element ↔
          workshop.Declares (.ofNames names) entry element)
    (hbefore : workshop.Distinct before)
    (hafter : workshop.DocumentedIn after) :
    (workshop.process graph (before.changes after)).2.held entry = some element ↔
      ∃ names ∈ after, workshop.Declares (.ofNames names) entry element := by
  have hnamed :
      ∀ entry element, graph.held entry = some element →
        ∃ names ∈ before, workshop.entryOf? (.ofNames names) = some entry := by
    intro entry element hheld
    obtain ⟨names, hnames, hdeclared⟩ := (hgraph entry element).mp hheld
    exact ⟨names, hnames, hentry names hnames entry element hdeclared⟩
  rw [held_process_changes_of_distinct hbuiltin hnamed hbefore hafter]
  refine exists_congr fun names => and_congr_right fun hnames => ?_
  obtain ⟨content, hcontent⟩ := Scan.mem_iff_exists.mp hnames
  constructor
  · rintro ⟨hown, ⟨hsame, hheld⟩ | ⟨-, hdeclared⟩⟩
    · obtain ⟨other, hother, hdeclared⟩ := (hgraph entry element).mp hheld
      have hstayed : names ∈ before := Scan.mem_iff_exists.mpr ⟨content, hsame.trans hcontent⟩
      have heq :=
        hbefore names hstayed other hother entry hown
          (hentry other hother entry element hdeclared)
      rw [← heq] at hdeclared
      exact (hkept names content (hsame.trans hcontent) hcontent entry element).mp hdeclared
    · exact hdeclared
  · intro hdeclared
    refine ⟨hdeclared.entryOf?_eq, ?_⟩
    by_cases hsame : before[names]? = after[names]?
    · have hstayed : names ∈ before := Scan.mem_iff_exists.mpr ⟨content, hsame.trans hcontent⟩
      refine Or.inl ⟨hsame, (hgraph entry element).mpr ⟨names, hstayed, ?_⟩⟩
      exact (hkept names content (hsame.trans hcontent) hcontent entry element).mpr hdeclared
    · exact Or.inr ⟨hsame, hdeclared⟩

end Batches

end Workshop

end HopRouting
