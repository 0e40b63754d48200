import Mathlib.Data.List.Perm.Subperm
import Mathlib.Data.List.Sort
import Mathlib.Data.List.TakeWhile
import Std.Data.String.ToNat
import HopRouting.Proofs.PropertySet.Blocks
import HopRouting.Proofs.Text.Numerals
import HopRouting.Proofs.Topology.Builders

/-!
# The executors of an edge

The executors of an edge are declared in blocks below one scope.  What the keys below the scope
begin with, up to the first dot, are the names of the blocks; each of them is read as a number, and
each number is taken for its plain numeral again, which names the block that is used
(`executors_eq_ok_iff`).

**Plain numerals.**  If the blocks are named by the plain numerals of increasing numbers, there is
one executor for each block, in the order of the numbers (`buildEdge_of_blocks`).

**Other names.**  A number has other spellings, and a key may have no dot.  What becomes of such
blocks is told apart, with the spellings of block numbers.
-/

namespace HopRouting

namespace Executor

/-- The executor is the one that the block declares, with the whole block as its configuration. -/
structure DeclaredBy (executor : Executor) (block : PropertySet) : Prop where
  config_eq : executor.config = block
  className : block.require Key.executorClass = .ok executor.className
  capabilities :
    Capability.parseList (block.valueOr Key.executorCapabilities "") = .ok executor.capabilities

theorem ofBlock_eq_ok_iff
    {block : PropertySet} {executor : Executor} :
    ofBlock block = .ok executor ↔ executor.DeclaredBy block := by
  simp only [ofBlock, bind_eq_ok_iff]
  constructor
  · rintro ⟨className, hclass, capabilities, hcapabilities, hexecutor⟩
    cases hexecutor
    exact ⟨rfl, hclass, hcapabilities⟩
  · rintro ⟨rfl, hclass, hcapabilities⟩
    exact ⟨_, hclass, _, hcapabilities, rfl⟩

end Executor

/-- The block has a class, and its list of capabilities can be read. -/
structure PropertySet.DeclaresExecutor (block : PropertySet) : Prop where
  className : ∃ className, block[Key.executorClass]? = some className ∧ className ≠ ""
  capabilities :
    ∃ capabilities,
      Capability.parseList (block.valueOr Key.executorCapabilities "") = .ok capabilities

theorem PropertySet.DeclaresExecutor.exists_ofBlock
    {block : PropertySet}
    (hblock : block.DeclaresExecutor) :
    ∃ executor, Executor.ofBlock block = .ok executor := by
  obtain ⟨⟨className, hclass⟩, capabilities, hcapabilities⟩ := hblock
  refine ⟨⟨className, block, capabilities⟩, Executor.ofBlock_eq_ok_iff.mpr ?_⟩
  exact ⟨rfl, require_eq_ok_iff.mpr hclass, hcapabilities⟩

/-- A block that declares an executor is not empty. -/
theorem PropertySet.DeclaresExecutor.exists_mem
    {block : PropertySet}
    (hblock : block.DeclaresExecutor) :
    ∃ key, key ∈ block := by
  obtain ⟨className, hclass, -⟩ := hblock.className
  exact ⟨Key.executorClass, mem_iff_exists_getElem?.mpr ⟨className, hclass⟩⟩

/-- What a declaration says that lists no more than a class and capabilities. -/
theorem PropertySet.getElem?_ofList_declaration
    (className capabilities : String) :
    (.ofList [(Key.executorClass, className), (Key.executorCapabilities, capabilities)] :
        PropertySet)[Key.executorClass]? = some className ∧
      valueOr (.ofList [(Key.executorClass, className), (Key.executorCapabilities, capabilities)])
        Key.executorCapabilities "" = capabilities := by
  have hkeys :
      ([(Key.executorClass, className), (Key.executorCapabilities, capabilities)].map
        Prod.fst).Nodup := by
    change [Key.executorClass, Key.executorCapabilities].Nodup
    decide
  refine ⟨getElem?_ofList_of_mem hkeys List.mem_cons_self, ?_⟩
  rw [valueOr, getElem?_ofList_of_mem hkeys (List.mem_cons_of_mem _ List.mem_cons_self)]
  rfl

/-- An item is in a list of which duplicates are erased once at most. -/
theorem nodup_eraseDups
    {α : Type} [DecidableEq α]
    (items : List α) :
    items.eraseDups.Nodup := by
  induction hlength : items.length using Nat.strongRecOn generalizing items with
  | ind length ih =>
      cases items with
      | nil => exact List.nodup_nil
      | cons first rest =>
          rw [List.eraseDups_cons, List.nodup_cons, List.mem_eraseDups]
          refine ⟨by simp, ih _ ?_ _ rfl⟩
          rw [← hlength]
          exact Nat.lt_succ_of_le (List.length_filter_le _ _)

theorem forall₂_eq_map_iff
    {α β γ : Type} {f : α → γ} {g : β → γ} {items : List α} {others : List β} :
    List.Forall₂ (fun item other => g other = f item) items others ↔
      others.map g = items.map f := by
  rw [eq_comm, ← List.forall₂_eq_eq_eq, List.forall₂_map_left_iff, List.forall₂_map_right_iff]
  simp only [eq_comm]

/-- What is a list of images up to order is the list of images in another order. -/
theorem exists_map_eq_of_perm_map
    {α β : Type} {f : α → β} {items : List α} {images : List β}
    (hperm : images.Perm (items.map f)) :
    ∃ ordered : List α, ordered.Perm items ∧ ordered.map f = images := by
  have himages : List.Forall₂ (fun image item => f item = image) (items.map f) items :=
    forall₂_eq_map_iff.mpr (List.map_id _).symm
  obtain ⟨ordered, hordered, hsame⟩ := List.perm_comp_forall₂ hperm himages
  refine ⟨ordered, hsame, ?_⟩
  rw [forall₂_eq_map_iff.mp hordered, List.map_id']

namespace EdgeBuilder

/-- The names of the blocks below the scope of executors, in the order of their keys. -/
def blockNames (properties : PropertySet) : List String :=
  ((properties.block Key.edgeExecutors).keys.map blockName).eraseDups

/-- The block below the scope of executors that has the name. -/
def namedBlock (properties : PropertySet) (name : String) : PropertySet :=
  (properties.block Key.edgeExecutors).block name

variable {properties : PropertySet}

theorem nodup_blockNames
    (properties : PropertySet) :
    (blockNames properties).Nodup :=
  nodup_eraseDups _

theorem mem_blockNames_iff
    {name : String} :
    name ∈ blockNames properties ↔
      ∃ key ∈ properties.block Key.edgeExecutors, blockName key = name := by
  simp only [blockNames, List.mem_eraseDups, List.mem_map, Std.ExtTreeMap.mem_keys]

theorem blockName_keyUnder
    {name : String}
    (hdot : '.' ∉ name.toList)
    (rest : String) :
    blockName (PropertySet.keyUnder name rest) = name := by
  rw [blockName, PropertySet.takeWhile_keyUnder hdot, String.ofList_toList]

theorem dot_not_mem_blockName
    (key : String) :
    '.' ∉ (blockName key).toList := by
  rw [blockName, String.toList_ofList]
  intro hdot
  simpa using List.mem_takeWhile_imp hdot

theorem blockNumber_eq_ok_iff
    {name : String} {number : Nat} :
    blockNumber name = .ok number ↔ Text.word? name = some number := by
  unfold blockNumber
  cases Text.word? name with
  | none => simp
  | some held => simp

/-- Every name of a block is read as a number, and for each number, in increasing order, the block
is read that has its plain numeral as its name. -/
theorem executors_eq_ok_iff
    {executors : List Executor} :
    EdgeBuilder.executors properties = .ok executors ↔
      ∃ numbers,
        List.Forall₂ (fun name number => Text.word? name = some number)
          (blockNames properties) numbers ∧
        List.Forall₂ (fun number executor =>
            executor.DeclaredBy (namedBlock properties number.repr))
          (numbers.mergeSort (· ≤ ·)) executors := by
  simp only [EdgeBuilder.executors, bind_eq_ok_iff, mapM_eq_ok_iff, blockNumber_eq_ok_iff,
    Executor.ofBlock_eq_ok_iff]
  rfl

/-- Below the scope of executors the set has the entries of the blocks, each under the plain numeral
of its number, and no others. -/
def HasBlocks (properties : PropertySet) (blocks : List (Nat × PropertySet)) : Prop :=
  ∀ key value,
    properties[PropertySet.keyUnder Key.edgeExecutors key]? = some value ↔
      ∃ block ∈ blocks, ∃ rest,
        key = PropertySet.keyUnder block.1.repr rest ∧ block.2[rest]? = some value

/-- The set, with the blocks written below the scope of executors, each under its name. -/
def withBlocks (properties : PropertySet) (blocks : List (String × PropertySet)) : PropertySet :=
  properties.merge ((PropertySet.ofBlocks blocks).under Key.edgeExecutors)

theorem getElem?_withBlocks_of_not_below
    {key : String}
    (hkey : PropertySet.keyBelow? Key.edgeExecutors key = none)
    (blocks : List (String × PropertySet)) :
    (withBlocks properties blocks)[key]? = properties[key]? := by
  rw [withBlocks, PropertySet.getElem?_merge, PropertySet.getElem?_under, hkey, Option.bind_none,
    Option.none_or]

/-- Where nothing else stands below the scope, the blocks that are written are found there. -/
theorem block_withBlocks
    (hfree : ∀ key, properties[PropertySet.keyUnder Key.edgeExecutors key]? = none)
    (blocks : List (String × PropertySet)) :
    (withBlocks properties blocks).block Key.edgeExecutors = .ofBlocks blocks := by
  apply Std.ExtTreeMap.ext_getElem?
  intro key
  rw [PropertySet.getElem?_block, withBlocks, PropertySet.getElem?_merge, hfree, Option.or_none,
    PropertySet.getElem?_under_keyUnder]

/-- The blocks under the plain numerals of their numbers. -/
def numbered (blocks : List (Nat × PropertySet)) : List (String × PropertySet) :=
  blocks.map fun block => (block.1.repr, block.2)

theorem map_fst_numbered
    (blocks : List (Nat × PropertySet)) :
    (numbered blocks).map Prod.fst = (blocks.map Prod.fst).map Nat.repr := by
  rw [numbered, List.map_map, List.map_map]
  rfl

theorem nodup_numbered
    {blocks : List (Nat × PropertySet)}
    (hnumbers : (blocks.map Prod.fst).Nodup) :
    ((numbered blocks).map Prod.fst).Nodup := by
  rw [map_fst_numbered]
  exact hnumbers.map fun _ _ => Nat.repr_injective

theorem dot_not_mem_numbered
    (blocks : List (Nat × PropertySet)) :
    ∀ block ∈ numbered blocks, '.' ∉ block.1.toList := by
  intro named hnamed
  obtain ⟨block, -, rfl⟩ := List.mem_map.mp hnamed
  exact Text.dot_not_mem_repr block.1

theorem hasBlocks_iff_block_eq
    {blocks : List (Nat × PropertySet)}
    (hnumbers : (blocks.map Prod.fst).Nodup) :
    HasBlocks properties blocks ↔
      properties.block Key.edgeExecutors = .ofBlocks (numbered blocks) := by
  have hnumbered :
      ∀ key value,
        (PropertySet.ofBlocks (numbered blocks))[key]? = some value ↔
          ∃ block ∈ blocks, ∃ rest,
            key = PropertySet.keyUnder block.1.repr rest ∧ block.2[rest]? = some value := by
    intro key value
    rw [PropertySet.getElem?_ofBlocks_eq_some_iff (nodup_numbered hnumbers)
      (dot_not_mem_numbered blocks)]
    simp only [numbered, List.mem_map, exists_exists_and_eq_and]
  simp only [HasBlocks, ← hnumbered, ← PropertySet.getElem?_block]
  constructor
  · intro hsame
    exact Std.ExtTreeMap.ext_getElem? fun key => Option.ext (hsame key)
  · intro hsame key value
    rw [hsame]

section Blocks

variable {blocks : List (String × PropertySet)}
  (hblocks : properties.block Key.edgeExecutors = .ofBlocks blocks)
  (hnames : (blocks.map Prod.fst).Nodup) (hdots : ∀ block ∈ blocks, '.' ∉ block.1.toList)

include hblocks hnames hdots

/-- Each of the blocks is found under its name. -/
theorem namedBlock_eq
    {block : String × PropertySet}
    (hmem : block ∈ blocks) :
    namedBlock properties block.1 = block.2 := by
  apply Std.ExtTreeMap.ext_getElem?
  intro rest
  apply Option.ext
  intro value
  rw [namedBlock, PropertySet.getElem?_block, hblocks,
    PropertySet.getElem?_ofBlocks_eq_some_iff hnames hdots]
  constructor
  · rintro ⟨other, hother, more, hsame, hvalue⟩
    obtain ⟨hname, rfl⟩ :=
      PropertySet.keyUnder_inj_of_no_dot (hdots block hmem) (hdots other hother) hsame
    rwa [List.inj_on_of_nodup_map hnames hmem hother hname]
  · intro hvalue
    exact ⟨block, hmem, rest, rfl, hvalue⟩

/-- The names of the blocks are those that they stand under, if no block is empty. -/
theorem blockNames_perm
    (hfilled : ∀ block ∈ blocks, ∃ key, key ∈ block.2) :
    (blockNames properties).Perm (blocks.map Prod.fst) := by
  rw [List.perm_ext_iff_of_nodup (nodup_blockNames properties) hnames]
  intro name
  simp only [mem_blockNames_iff, hblocks, PropertySet.mem_iff_exists_getElem?,
    PropertySet.getElem?_ofBlocks_eq_some_iff hnames hdots, List.mem_map]
  constructor
  · rintro ⟨key, ⟨value, block, hmem, rest, rfl, -⟩, rfl⟩
    exact ⟨block, hmem, (blockName_keyUnder (hdots block hmem) rest).symm⟩
  · rintro ⟨block, hmem, rfl⟩
    obtain ⟨key, hkey⟩ := hfilled block hmem
    obtain ⟨value, hvalue⟩ := PropertySet.mem_iff_exists_getElem?.mp hkey
    exact ⟨_, ⟨value, block, hmem, key, rfl, hvalue⟩, blockName_keyUnder (hdots block hmem) key⟩

end Blocks

/-- Blocks that declare executors, named by the plain numerals of increasing words, are read in the
order of their numbers. -/
theorem HasBlocks.exists_executors
    {blocks : List (Nat × PropertySet)}
    (hblocks : HasBlocks properties blocks)
    (hnumbers : blocks.Pairwise fun block later => block.1 < later.1)
    (hwords : ∀ block ∈ blocks, block.1 < Text.wordBound)
    (hdeclared : ∀ block ∈ blocks, block.2.DeclaresExecutor) :
    ∃ executors,
      EdgeBuilder.executors properties = .ok executors ∧
        List.Forall₂ (fun block executor => executor.DeclaredBy block.2) blocks executors := by
  have hincreasing : (blocks.map Prod.fst).Pairwise (· < ·) := List.pairwise_map.mpr hnumbers
  have hdistinct : (blocks.map Prod.fst).Nodup := hincreasing.imp Nat.ne_of_lt
  have hnumbered := (hasBlocks_iff_block_eq hdistinct).mp hblocks
  have hdots := dot_not_mem_numbered blocks
  have hfilled : ∀ block ∈ numbered blocks, ∃ key, key ∈ block.2 := by
    intro named hnamed
    obtain ⟨block, hblock, rfl⟩ := List.mem_map.mp hnamed
    exact (hdeclared block hblock).exists_mem
  obtain ⟨numbers, hperm, hnames⟩ :=
    exists_map_eq_of_perm_map
      (map_fst_numbered blocks ▸
        blockNames_perm hnumbered (nodup_numbered hdistinct) hdots hfilled)
  have hsorted : numbers.mergeSort (· ≤ ·) = blocks.map Prod.fst :=
    List.Perm.eq_of_pairwise' (List.pairwise_mergeSort' (· ≤ ·) numbers)
      (hincreasing.imp Nat.le_of_lt) ((List.mergeSort_perm numbers _).trans hperm)
  have hread :
      List.Forall₂ (fun name number => Text.word? name = some number)
        (blockNames properties) numbers := by
    rw [← hnames, List.forall₂_map_left_iff, List.forall₂_same]
    intro number hnumber
    obtain ⟨block, hblock, rfl⟩ := List.mem_map.mp (hperm.subset hnumber)
    exact Text.word?_repr (hwords block hblock)
  obtain ⟨executors, hexecutors⟩ := exists_mapM_eq_ok_iff.mpr fun block hblock =>
    (hdeclared block hblock).exists_ofBlock
  have heach := mapM_eq_ok_iff.mp hexecutors
  simp only [Executor.ofBlock_eq_ok_iff] at heach
  refine ⟨executors, executors_eq_ok_iff.mpr ⟨numbers, hread, ?_⟩, heach⟩
  rw [hsorted, List.forall₂_map_left_iff]
  have hboth := (List.forall₂_and_left _ _).mpr ⟨fun block hblock => hblock, heach⟩
  refine hboth.imp ?_
  rintro block executor ⟨hblock, hexecutor⟩
  rwa [namedBlock_eq hnumbered (nodup_numbered hdistinct) hdots (List.mem_map_of_mem hblock)]

end EdgeBuilder

/-- The set declares all of an edge but its executors: what is needed is there and not empty, the
catalog has the template, and the edge is said to be active or not, if anything is said. -/
structure PropertySet.DeclaresEdge (properties : PropertySet) (catalog : Catalog) : Prop where
  source : ∃ source, properties[Key.edgeSource]? = some source ∧ source ≠ ""
  destination :
    ∃ destination, properties[Key.edgeDestination]? = some destination ∧ destination ≠ ""
  name : ∃ name, properties[Key.edgeName]? = some name ∧ name ≠ ""
  template :
    ∃ uri, properties[Key.edgeTemplate]? = some uri ∧ uri ≠ "" ∧
      ∃ template, catalog uri = .ok template
  active :
    properties[Key.edgeActive]? = none ∨
      ∃ value active, properties[Key.edgeActive]? = some value ∧
        PropertySet.flagValue? value = some active

/-- Blocks of executors leave the other parts of an edge as they are declared. -/
theorem PropertySet.DeclaresEdge.withBlocks
    {properties : PropertySet} {catalog : Catalog}
    (hdeclares : properties.DeclaresEdge catalog)
    (blocks : List (String × PropertySet)) :
    (EdgeBuilder.withBlocks properties blocks).DeclaresEdge catalog := by
  have hkept :
      ∀ key, PropertySet.keyBelow? Key.edgeExecutors key = none →
        (EdgeBuilder.withBlocks properties blocks)[key]? = properties[key]? :=
    fun key hkey => EdgeBuilder.getElem?_withBlocks_of_not_below hkey blocks
  constructor
  · rw [hkept Key.edgeSource (by decide)]
    exact hdeclares.source
  · rw [hkept Key.edgeDestination (by decide)]
    exact hdeclares.destination
  · rw [hkept Key.edgeName (by decide)]
    exact hdeclares.name
  · rw [hkept Key.edgeTemplate (by decide)]
    exact hdeclares.template
  · rw [hkept Key.edgeActive (by decide)]
    exact hdeclares.active

/-- With executors that can be read, such a set is built into an edge that has them. -/
theorem PropertySet.DeclaresEdge.exists_build_base
    {properties : PropertySet} {catalog : Catalog}
    (hdeclares : properties.DeclaresEdge catalog)
    {executors : List Executor}
    (hexecutors : EdgeBuilder.executors properties = .ok executors)
    (hnonempty : executors ≠ []) :
    ∃ edge,
      EdgeBuilder.base.build properties catalog = .ok edge ∧ edge.DeclaredBy properties ∧
        edge.executors = executors := by
  obtain ⟨⟨source, hsource⟩, ⟨destination, hdestination⟩, ⟨name, hname⟩,
    ⟨uri, huri, hfilled, template, htemplate⟩, hactive⟩ := hdeclares
  obtain ⟨active, hflag⟩ : ∃ active, properties.flag Key.edgeActive true = .ok active := by
    unfold PropertySet.flag
    rcases hactive with hnone | ⟨value, active, hvalue, hflag⟩
    · exact ⟨true, by rw [hnone]⟩
    · exact ⟨active, by simp only [hvalue, hflag]⟩
  let edge : Edge :=
    { id := Edge.idOf source destination name, source, destination, name, className := baseClass,
      templateUri := uri, executors, active, properties }
  have hdeclared : edge.DeclaredBy properties :=
    { properties_eq := rfl
      source := require_eq_ok_iff.mpr hsource
      destination := require_eq_ok_iff.mpr hdestination
      name := require_eq_ok_iff.mpr hname
      id := rfl
      template := require_eq_ok_iff.mpr ⟨huri, hfilled⟩
      executors_ne_nil := hnonempty
      class_ne_empty := EdgeBuilder.class_ne_empty_of_executors hexecutors }
  refine ⟨edge, EdgeBuilder.build_base_eq_ok_iff.mpr ?_, hdeclared, rfl⟩
  exact ⟨hdeclared, rfl, ⟨template, htemplate⟩, hexecutors, hflag⟩

namespace Registry

variable {registry : Registry} {properties : PropertySet} {catalog : Catalog}

/-- From a set that declares an edge, with executors in blocks that are named by the plain numerals
of increasing words, the base builder makes an edge with just the executors of the blocks, each with
its whole block, in the order of the numbers. -/
theorem buildEdge_of_blocks
    (hbuilder : registry.edgeBuilder properties = .ok EdgeBuilder.base)
    (hdeclares : properties.DeclaresEdge catalog)
    {blocks : List (Nat × PropertySet)}
    (hnonempty : blocks ≠ [])
    (hnumbers : blocks.Pairwise fun block later => block.1 < later.1)
    (hwords : ∀ block ∈ blocks, block.1 < Text.wordBound)
    (hexecutors : ∀ block ∈ blocks, block.2.DeclaresExecutor)
    (hblocks : EdgeBuilder.HasBlocks properties blocks) :
    ∃ edge,
      registry.buildEdge properties catalog = .ok edge ∧ edge.DeclaredBy properties ∧
        List.Forall₂ (fun block executor => executor.DeclaredBy block.2) blocks
          edge.executors := by
  obtain ⟨executors, hread, heach⟩ := hblocks.exists_executors hnumbers hwords hexecutors
  have hsome : executors ≠ [] := by
    rintro rfl
    exact hnonempty (List.forall₂_nil_right_iff.mp heach)
  obtain ⟨edge, hbuild, hdeclared, rfl⟩ := hdeclares.exists_build_base hread hsome
  exact ⟨edge, bind_eq_ok_iff.mpr ⟨EdgeBuilder.base, hbuilder, hbuild⟩, hdeclared, heach⟩

section TwoExecutors

/-- What is declared, beside its executors, of an edge with two of them.  The block of the second
comes first in the order of the keys. -/
def hoistParts : PropertySet :=
  .ofList [(Key.edgeSource, "quay"), (Key.edgeDestination, "yard"), (Key.edgeName, "hoist"),
    (Key.edgeTemplate, "FS:///hoist.template")]

/-- The block of an executor with that class and those capabilities. -/
def hoistBlock (className capabilities : String) : PropertySet :=
  .ofList [(Key.executorClass, className), (Key.executorCapabilities, capabilities)]

def hoistBlocks : List (Nat × PropertySet) :=
  [(2, hoistBlock "crane" "hdfs:adl"), (10, hoistBlock "lift" "*:adl, hdfs:*")]

def hoist : PropertySet :=
  EdgeBuilder.withBlocks hoistParts (EdgeBuilder.numbered hoistBlocks)

/-- The template of the edge is the only one. -/
def hoistCatalog : Catalog :=
  TemplateShelf.catalog (.add ∅ (.ofProperties "FS:///hoist.template" ∅))

theorem catalog_hoist :
    hoistCatalog "FS:///hoist.template" = .ok (.ofProperties "FS:///hoist.template" ∅) := by
  have huri : (Template.ofProperties "FS:///hoist.template" ∅).uri = "FS:///hoist.template" := rfl
  rw [hoistCatalog, TemplateShelf.catalog, TemplateShelf.add, huri,
    Std.ExtTreeMap.getElem?_insert_self]

theorem getElem?_hoistParts_of_mem
    {key value : String}
    (hentry :
      (key, value) ∈
        [(Key.edgeSource, "quay"), (Key.edgeDestination, "yard"), (Key.edgeName, "hoist"),
          (Key.edgeTemplate, "FS:///hoist.template")]) :
    hoistParts[key]? = some value :=
  PropertySet.getElem?_ofList_of_mem (by decide) hentry

theorem declaresEdge_hoistParts : hoistParts.DeclaresEdge hoistCatalog where
  source := ⟨"quay", getElem?_hoistParts_of_mem (by simp), by decide⟩
  destination := ⟨"yard", getElem?_hoistParts_of_mem (by simp), by decide⟩
  name := ⟨"hoist", getElem?_hoistParts_of_mem (by simp), by decide⟩
  template :=
    ⟨"FS:///hoist.template", getElem?_hoistParts_of_mem (by simp), by decide,
      .ofProperties "FS:///hoist.template" ∅, catalog_hoist⟩
  active := Or.inl (PropertySet.getElem?_ofList_of_not_mem (by decide))

theorem getElem?_hoistBlock
    (className capabilities : String) :
    (hoistBlock className capabilities)[Key.executorClass]? = some className ∧
      (hoistBlock className capabilities).valueOr Key.executorCapabilities "" = capabilities :=
  PropertySet.getElem?_ofList_declaration className capabilities

theorem declaresExecutor_hoistBlock
    {className text : String} {capabilities : List Capability}
    (hfilled : className ≠ "")
    (hcapabilities : Capability.parseList text = .ok capabilities) :
    (hoistBlock className text).DeclaresExecutor := by
  obtain ⟨hclass, htext⟩ := getElem?_hoistBlock className text
  exact ⟨⟨className, hclass, hfilled⟩, capabilities, by rw [htext, hcapabilities]⟩

theorem declaresExecutor_hoistBlocks :
    ∀ block ∈ hoistBlocks, block.2.DeclaresExecutor := by
  intro block hblock
  rcases List.mem_pair.mp hblock with rfl | rfl
  · exact declaresExecutor_hoistBlock (by decide)
      (show Capability.parseList _ = .ok [⟨"hdfs", "adl"⟩] by decide +kernel)
  · exact declaresExecutor_hoistBlock (by decide)
      (show Capability.parseList _ = .ok [⟨"*", "adl"⟩, ⟨"hdfs", "*"⟩] by decide +kernel)

theorem declaresEdge_hoist : hoist.DeclaresEdge hoistCatalog :=
  declaresEdge_hoistParts.withBlocks _

/-- Nothing else stands where the executors are. -/
theorem getElem?_hoistParts_keyUnder
    (key : String) :
    hoistParts[PropertySet.keyUnder Key.edgeExecutors key]? = none :=
  PropertySet.getElem?_ofList_keyUnder (by decide) key

theorem hasBlocks_hoist : EdgeBuilder.HasBlocks hoist hoistBlocks :=
  (EdgeBuilder.hasBlocks_iff_block_eq (by decide)).mpr
    (EdgeBuilder.block_withBlocks getElem?_hoistParts_keyUnder _)

/-- Whatever blocks are written, the base builder makes the edge. -/
theorem edgeBuilder_withBlocks_hoistParts
    (blocks : List (String × PropertySet)) :
    builtin.edgeBuilder (EdgeBuilder.withBlocks hoistParts blocks) = .ok EdgeBuilder.base := by
  apply isBuiltin_builtin.edgeBuilder_of_no_class
  rw [EdgeBuilder.getElem?_withBlocks_of_not_below (by decide)]
  exact PropertySet.getElem?_ofList_of_not_mem (by decide)

/-- The executors are told in the order of their numbers, which is not that of their keys. -/
theorem buildEdge_of_blocks_hoist :
    "10" < "2" ∧
      hoist.DeclaresEdge hoistCatalog ∧
      EdgeBuilder.HasBlocks hoist hoistBlocks ∧
      ∃ edge,
        builtin.buildEdge hoist hoistCatalog = .ok edge ∧
          edge.executors.map Executor.config = hoistBlocks.map Prod.snd := by
  obtain ⟨edge, hbuild, -, hexecutors⟩ :=
    buildEdge_of_blocks (edgeBuilder_withBlocks_hoistParts _) declaresEdge_hoist (by decide)
      (by decide) (by decide) declaresExecutor_hoistBlocks hasBlocks_hoist
  refine ⟨by decide, declaresEdge_hoist, hasBlocks_hoist, edge, hbuild, ?_⟩
  exact forall₂_eq_map_iff.mp (hexecutors.imp fun _ _ hexecutor => hexecutor.config_eq)

end TwoExecutors

end Registry

end HopRouting
