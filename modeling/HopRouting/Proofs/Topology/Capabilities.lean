import HopRouting.Proofs.Text.Parts
import HopRouting.Proofs.Topology.Executors

/-!
# Capabilities written down

A list of capabilities is read from a text in two steps: the text falls into items at its commas,
and an item into two platforms at its first colon.  Blanks around items and platforms are dropped,
and so are empty items, but nothing of this shows in what is read.

**Legible capabilities.**  `Capability.Legible` says which capabilities can be read at all.  What is
read from a text is legible (`legible_of_mem_parseList`), and just the lists of legible capabilities
are read back from their own text (`parseList_renderList_iff`).

**Result.**  `Executor.ofBlock_config_ofCapabilities`: an executor that is declared by a class and
by capabilities that were read somewhere is read back from its declaration as it is.
-/

namespace HopRouting

namespace Capability

/-- The capability can be read: each platform is a text that could be an item of a list, and the
source ends where the first colon stands. -/
structure Legible (capability : Capability) : Prop where
  source : Text.IsItem capability.source
  destination : Text.IsItem capability.destination
  no_colon : ':' ∉ capability.source.toList

theorem toList_render
    (capability : Capability) :
    capability.render.toList =
      capability.source.toList ++ ':' :: capability.destination.toList := by
  simp [render]

/-- A capability is read from what stands before and after the first colon. -/
theorem parse_eq_ok_iff
    {text : String} {capability : Capability} :
    parse text = .ok capability ↔
      ∃ before after,
        text.toList = before ++ ':' :: after ∧ ':' ∉ before ∧
          Text.trim before = capability.source.toList ∧
          Text.trim after = capability.destination.toList ∧
          capability.source ≠ "" ∧ capability.destination ≠ "" := by
  unfold parse
  constructor
  · intro hread
    split at hread
    · cases hread
    · next before after hsplit =>
      obtain ⟨htext, hcolon⟩ := Text.splitFirst?_eq_some_iff.mp hsplit
      split at hread
      · cases hread
      · cases hread
      · next hsource hdestination =>
        cases hread
        refine ⟨before, after, htext, hcolon, String.toList_ofList.symm, String.toList_ofList.symm,
          ?_, ?_⟩
        · exact fun hempty => hsource (String.ofList_eq_empty_iff.mp hempty)
        · exact fun hempty => hdestination (String.ofList_eq_empty_iff.mp hempty)
  · rintro ⟨before, after, htext, hcolon, hsource, hdestination, hsource_ne, hdestination_ne⟩
    rw [Text.splitFirst?_eq_some_iff.mpr ⟨htext, hcolon⟩]
    dsimp only
    rw [hsource, hdestination]
    split
    · next hnil => exact absurd (String.toList_eq_nil_iff.mp hnil) hsource_ne
    · next hnil _ => exact absurd (String.toList_eq_nil_iff.mp hnil) hdestination_ne
    · rw [String.ofList_toList, String.ofList_toList]

namespace Legible

variable {capability : Capability} (hlegible : capability.Legible)

include hlegible

theorem parse_render :
    parse capability.render = .ok capability :=
  parse_eq_ok_iff.mpr
    ⟨_, _, capability.toList_render, hlegible.no_colon, hlegible.source.trimmed.trim_eq,
      hlegible.destination.trimmed.trim_eq, hlegible.source.ne_empty, hlegible.destination.ne_empty⟩

/-- A legible capability in writing is an item of a list itself. -/
theorem isItem_render :
    Text.IsItem capability.render :=
  hlegible.source.append hlegible.destination (by decide)

end Legible

/-- What is read from a text without a comma is legible. -/
theorem legible_of_parse
    {text : String} {capability : Capability}
    (hread : parse text = .ok capability)
    (hcomma : ',' ∉ text.toList) :
    capability.Legible := by
  obtain ⟨before, after, htext, hcolon, hsource, hdestination, hsource_ne, hdestination_ne⟩ :=
    parse_eq_ok_iff.mp hread
  rw [htext, List.mem_append, List.mem_cons, not_or, not_or] at hcomma
  obtain ⟨hbefore, -, hafter⟩ := hcomma
  refine ⟨.of_trim hsource hsource_ne hbefore, .of_trim hdestination hdestination_ne hafter, ?_⟩
  rw [← hsource]
  exact fun hmem => hcolon (Text.mem_of_mem_trim hmem)

section Lists

variable {capabilities : List Capability}

theorem legible_of_mem_parseList
    {text : String}
    (hread : parseList text = .ok capabilities)
    {capability : Capability}
    (hmem : capability ∈ capabilities) :
    capability.Legible := by
  obtain ⟨item, hitem, hparse⟩ := exists_of_mem_mapM_eq_ok hread hmem
  exact legible_of_parse hparse (Text.isItem_of_mem_commaItems hitem).no_comma

/-- Legible capabilities are read back from their text, in their order. -/
theorem parseList_renderList
    (hlegible : ∀ capability ∈ capabilities, capability.Legible) :
    parseList (renderList capabilities) = .ok capabilities := by
  have hitems : ∀ item ∈ capabilities.map render, Text.IsItem item := by
    intro item hitem
    obtain ⟨capability, hmem, rfl⟩ := List.mem_map.mp hitem
    exact (hlegible capability hmem).isItem_render
  rw [parseList, renderList, Text.commaItems_intercalate hitems, mapM_eq_ok_iff,
    List.forall₂_map_left_iff, List.forall₂_same]
  intro capability hmem
  exact (hlegible capability hmem).parse_render

theorem parseList_renderList_iff :
    parseList (renderList capabilities) = .ok capabilities ↔
      ∀ capability ∈ capabilities, capability.Legible := by
  constructor
  · intro hread capability hmem
    exact legible_of_mem_parseList hread hmem
  · exact parseList_renderList

end Lists

end Capability

namespace Executor

open Capability

/-- A declaration is read back exactly if it has a class and its capabilities are legible. -/
theorem ofBlock_config_ofCapabilities_iff
    {className : String} {capabilities : List Capability} :
    ofBlock (ofCapabilities className capabilities).config =
        .ok (ofCapabilities className capabilities) ↔
      className ≠ "" ∧ ∀ capability ∈ capabilities, capability.Legible := by
  obtain ⟨hclass, htext⟩ :=
    PropertySet.getElem?_ofList_declaration className (renderList capabilities)
  rw [ofBlock_eq_ok_iff, ← parseList_renderList_iff]
  constructor
  · rintro ⟨-, hrequire, hread⟩
    rw [ofCapabilities, htext] at hread
    exact ⟨(PropertySet.require_eq_ok_iff.mp hrequire).2, hread⟩
  · rintro ⟨hne, hread⟩
    exact ⟨rfl, PropertySet.require_eq_ok_iff.mpr ⟨hclass, hne⟩, htext ▸ hread⟩

/-- Capabilities that were read from a text are read back one by one, and with a class they declare
an executor that is read back as it is: its class, its capabilities in their order, and its whole
configuration. -/
theorem ofBlock_config_ofCapabilities
    {text : String} {capabilities : List Capability}
    (hread : parseList text = .ok capabilities)
    {className : String}
    (hclass : className ≠ "") :
    (∀ capability ∈ capabilities, Capability.parse capability.render = .ok capability) ∧
      ofBlock (ofCapabilities className capabilities).config =
        .ok (ofCapabilities className capabilities) := by
  have hlegible : ∀ capability ∈ capabilities, capability.Legible :=
    fun capability hmem => legible_of_mem_parseList hread hmem
  refine ⟨?_, ofBlock_config_ofCapabilities_iff.mpr ⟨hclass, hlegible⟩⟩
  intro capability hmem
  exact (hlegible capability hmem).parse_render

/-- A colon and a blank inside of platforms, and a wildcard. -/
def liftCapabilities : List Capability :=
  [⟨"hdfs", "adl:gen2"⟩, ⟨"cold store", Key.any⟩]

theorem ofBlock_config_ofCapabilities_lift :
    parseList " hdfs : adl:gen2 ,, cold store:*\t" = .ok liftCapabilities ∧
      "lift" ≠ "" ∧
      Capability.parse "hdfs:adl:gen2" = .ok ⟨"hdfs", "adl:gen2"⟩ ∧
      ofBlock (ofCapabilities "lift" liftCapabilities).config =
        .ok (ofCapabilities "lift" liftCapabilities) := by
  have hread : parseList " hdfs : adl:gen2 ,, cold store:*\t" = .ok liftCapabilities := by
    decide +kernel
  have hclass : "lift" ≠ "" := by decide
  obtain ⟨heach, hback⟩ := ofBlock_config_ofCapabilities hread hclass
  exact ⟨hread, hclass, heach _ List.mem_cons_self, hback⟩

end Executor

end HopRouting
