import Mathlib.Tactic.SplitIfs
import HopRouting.Path
import HopRouting.Proofs.Text.Parts

/-!
# Names in paths

An ordinary name is one that a directory can hold an entry under: it is not empty, has no slash, and
is neither `.` nor `..`.  The named components of a path are ordinary, and neither the stem of a
name nor its text can be empty if the name is not.
-/

namespace HopRouting

namespace Name

/-- A directory can hold an entry under the name. -/
structure Ordinary (name : Name) : Prop where
  ne_nil : name ≠ []
  ne_dot : name ≠ [dot]
  ne_up : name ≠ [dot, dot]
  no_slash : slash ∉ name

instance (name : Name) : Decidable name.Ordinary :=
  decidable_of_iff (name ≠ [] ∧ name ≠ [dot] ∧ name ≠ [dot, dot] ∧ slash ∉ name)
    ⟨fun ⟨hnil, hdot, hup, hslash⟩ => ⟨hnil, hdot, hup, hslash⟩,
      fun hname => ⟨hname.ne_nil, hname.ne_dot, hname.ne_up, hname.no_slash⟩⟩

theorem stem_ne_nil
    {name : Name}
    (hne : name ≠ []) :
    name.stem ≠ [] := by
  unfold stem parts
  split
  · exact hne
  · exact hne
  · next hlong _ =>
    rw [Ne, List.reverse_eq_nil_iff]
    exact hlong

theorem bytes_of_text?
    {name : Name} {text : String}
    (htext : name.text? = some text) :
    Text.bytes text = name := by
  unfold Name.text? Text.text? String.fromUTF8? at htext
  split at htext
  · cases htext
    simp [Text.bytes, String.fromUTF8]
  · cases htext

theorem text_ne_empty
    {name : Name} {text : String}
    (htext : name.text? = some text)
    (hne : name ≠ []) :
    text ≠ "" := by
  rintro rfl
  exact hne (bytes_of_text? htext).symm

end Name

namespace Component

theorem ofSegment?_eq_name
    {segment : List UInt8} {n : Name}
    (hsegment : ofSegment? segment = some (name n)) :
    segment = n ∧ n ≠ [] ∧ n ≠ [Name.dot] ∧ n ≠ [Name.dot, Name.dot] := by
  unfold ofSegment? at hsegment
  split at hsegment
  · cases hsegment
  · next hkept =>
    split at hsegment
    · cases hsegment
    · next hup =>
      cases hsegment
      rw [not_or] at hkept
      exact ⟨rfl, hkept.1, hkept.2, hup⟩

theorem ofSegment?_of_ordinary
    {n : Name}
    (hn : n.Ordinary) :
    ofSegment? n = some (name n) := by
  simp [ofSegment?, hn.ne_nil, hn.ne_dot, hn.ne_up]

end Component

namespace Path

theorem exists_segment_of_mem_components
    {path : Path} {n : Name}
    (hmem : Component.name n ∈ path.components) :
    ∃ segment ∈ path.segments, Component.ofSegment? segment = some (.name n) := by
  unfold components at hmem
  cases hsegments : path.segments with
  | nil =>
      simp [hsegments] at hmem
  | cons first rest =>
      simp only [hsegments, List.mem_append, Option.mem_toList, List.mem_filterMap] at hmem
      rcases hmem with hfirst | ⟨segment, hsegment, hname⟩
      · refine ⟨first, List.mem_cons_self, ?_⟩
        unfold firstComponent? at hfirst
        split_ifs at hfirst
        · cases hfirst
        · cases hfirst
        · exact hfirst
      · exact ⟨segment, List.mem_cons_of_mem _ hsegment, hname⟩

theorem ordinary_of_mem_components
    {path : Path} {n : Name}
    (hmem : Component.name n ∈ path.components) :
    n.Ordinary := by
  obtain ⟨segment, hsegment, hname⟩ := exists_segment_of_mem_components hmem
  obtain ⟨rfl, hnil, hdot, hup⟩ := Component.ofSegment?_eq_name hname
  exact ⟨hnil, hdot, hup, Text.not_mem_of_mem_splitOn hsegment⟩

theorem ordinary_of_fileName?
    {path : Path} {n : Name}
    (hname : path.fileName? = some n) :
    n.Ordinary := by
  unfold fileName? at hname
  obtain ⟨component, hlast, hcomponent⟩ := Option.bind_eq_some_iff.mp hname
  cases component with
  | name last =>
      cases hcomponent
      exact ordinary_of_mem_components (List.mem_of_getLast? hlast)
  | root => cases hcomponent
  | here => cases hcomponent
  | up => cases hcomponent

end Path

end HopRouting
