import HopRouting.Proofs.Topology.Executors

/-!
# Spellings of block numbers

A word can be spelled with a plus sign or with zeros in front, but the block that is read for it is
always that of its plain numeral.  Where another spelling names a block of its own, this block is
passed over, and the one with the plain numeral is read once more in its place.

**Conservation.**  `Conserves` says that each name of a block gives one executor with just this
block, and that the blocks put back under their names are all that stands below the scope.

**Results.**  This is so exactly if every key below the scope has a dot, and the blocks are those of
the plain numerals, whatever their order; plain numerals alone are enough, and they are needed where
no two blocks are the same (`conserves_iff`).  Two spellings of one number are accepted
(`not_conserves`).
-/

namespace HopRouting

theorem filterMap_eq_of_forall₂
    {α β : Type} {f : α → Option β} {items : List α} {results : List β}
    (hresults : List.Forall₂ (fun item result => f item = some result) items results) :
    items.filterMap f = results := by
  induction hresults with
  | nil => rfl
  | cons hfirst _ ih => rw [List.filterMap_cons_some hfirst, ih]

namespace EdgeBuilder

variable {properties : PropertySet}

/-- Each name of a block below the scope of executors gives one executor, whose configuration is
just this block, and there are no other executors; put back under their names, the configurations
are all that stands below the scope. -/
def Conserves (properties : PropertySet) (executors : List Executor) : Prop :=
  ∃ names : List String,
    names.Nodup ∧
      (∀ name,
        name ∈ names ↔ ∃ key ∈ properties.block Key.edgeExecutors, blockName key = name) ∧
      List.Forall₂ (fun name executor => executor.config = namedBlock properties name) names
        executors ∧
      .ofBlocks (names.zip (executors.map Executor.config)) = properties.block Key.edgeExecutors

/-- Every key below the scope of executors has a dot behind the name of its block. -/
def Dotted (properties : PropertySet) : Prop :=
  ∀ key ∈ properties.block Key.edgeExecutors, '.' ∈ key.toList

/-- Every key below the scope of executors begins with a plain numeral and a dot. -/
def PlainlyNumbered (properties : PropertySet) : Prop :=
  ∀ key ∈ properties.block Key.edgeExecutors, ∃ (number : Nat) (rest : String),
    key = PropertySet.keyUnder number.repr rest

section Names

theorem exists_keyUnder_of_dot
    {key : String}
    (hdot : '.' ∈ key.toList) :
    ∃ rest, key = PropertySet.keyUnder (blockName key) rest := by
  obtain ⟨front, back, hkey, hfront⟩ := List.eq_append_cons_of_mem hdot
  have hwhole : key = PropertySet.keyUnder (String.ofList front) (String.ofList back) := by
    rw [← String.toList_inj, PropertySet.toList_keyUnder, String.toList_ofList,
      String.toList_ofList, hkey]
  have hname : blockName key = String.ofList front := by
    rw [hwhole, blockName_keyUnder (by rwa [String.toList_ofList])]
  refine ⟨String.ofList back, ?_⟩
  rw [hname]
  exact hwhole

theorem PlainlyNumbered.dotted
    (hplain : PlainlyNumbered properties) :
    Dotted properties := by
  intro key hkey
  obtain ⟨number, rest, rfl⟩ := hplain key hkey
  rw [PropertySet.toList_keyUnder]
  exact List.mem_append_right _ List.mem_cons_self

theorem PlainlyNumbered.exists_number
    (hplain : PlainlyNumbered properties)
    {name : String}
    (hname : name ∈ blockNames properties) :
    ∃ number : Nat, name = number.repr := by
  obtain ⟨key, hkey, rfl⟩ := mem_blockNames_iff.mp hname
  obtain ⟨number, rest, rfl⟩ := hplain key hkey
  exact ⟨number, blockName_keyUnder (Text.dot_not_mem_repr number) rest⟩

theorem plainlyNumbered_of_names
    (hdotted : Dotted properties)
    (hnames : ∀ name ∈ blockNames properties, ∃ number : Nat, name = number.repr) :
    PlainlyNumbered properties := by
  intro key hkey
  obtain ⟨rest, hrest⟩ := exists_keyUnder_of_dot (hdotted key hkey)
  obtain ⟨number, hnumber⟩ := hnames _ (mem_blockNames_iff.mpr ⟨key, hkey, rfl⟩)
  exact ⟨number, rest, hnumber ▸ hrest⟩

theorem HasBlocks.plainlyNumbered
    {blocks : List (Nat × PropertySet)}
    (hblocks : HasBlocks properties blocks) :
    PlainlyNumbered properties := by
  intro key hkey
  obtain ⟨value, hvalue⟩ := PropertySet.mem_iff_exists_getElem?.mp hkey
  rw [PropertySet.getElem?_block, hblocks] at hvalue
  obtain ⟨block, -, rest, hrest, -⟩ := hvalue
  exact ⟨block.1, rest, hrest⟩

/-- A block that an executor was read from has a name below the scope. -/
theorem mem_blockNames_of_declaredBy
    {name : String} {executor : Executor}
    (hdot : '.' ∉ name.toList)
    (hexecutor : executor.DeclaredBy (namedBlock properties name)) :
    name ∈ blockNames properties := by
  have hclass := (PropertySet.require_eq_ok_iff.mp hexecutor.className).1
  rw [namedBlock, PropertySet.getElem?_block] at hclass
  exact mem_blockNames_iff.mpr
    ⟨_, PropertySet.mem_iff_exists_getElem?.mpr ⟨_, hclass⟩, blockName_keyUnder hdot _⟩

end Names

section PuttingBack

/-- The blocks put back under their names are all that stands below the scope, unless a key has no
dot. -/
theorem ofBlocks_namedBlock_eq_iff
    {names : List String}
    (hnodup : names.Nodup)
    (hnames :
      ∀ name, name ∈ names ↔ ∃ key ∈ properties.block Key.edgeExecutors, blockName key = name) :
    .ofBlocks (names.map fun name => (name, namedBlock properties name)) =
        properties.block Key.edgeExecutors ↔
      Dotted properties := by
  have hscopes :
      ((names.map fun name => (name, namedBlock properties name)).map Prod.fst).Nodup := by
    rw [List.map_map]
    exact (List.map_id' names).symm ▸ hnodup
  have hdots :
      ∀ block ∈ names.map fun name => (name, namedBlock properties name),
        '.' ∉ block.1.toList := by
    intro block hblock
    obtain ⟨name, hname, rfl⟩ := List.mem_map.mp hblock
    obtain ⟨key, -, rfl⟩ := (hnames name).mp hname
    exact dot_not_mem_blockName key
  have hback :
      ∀ key value,
        (PropertySet.ofBlocks (names.map fun name => (name, namedBlock properties name)))[key]? =
            some value ↔
          ∃ name ∈ names, ∃ rest, key = PropertySet.keyUnder name rest ∧
            (properties.block Key.edgeExecutors)[PropertySet.keyUnder name rest]? = some value := by
    intro key value
    rw [PropertySet.getElem?_ofBlocks_eq_some_iff hscopes hdots]
    simp only [List.mem_map, exists_exists_and_eq_and, namedBlock, PropertySet.getElem?_block]
  constructor
  · intro hsame key hkey
    obtain ⟨value, hvalue⟩ := PropertySet.mem_iff_exists_getElem?.mp hkey
    rw [← hsame, hback] at hvalue
    obtain ⟨name, -, rest, rfl, -⟩ := hvalue
    rw [PropertySet.toList_keyUnder]
    exact List.mem_append_right _ List.mem_cons_self
  · intro hdotted
    apply Std.ExtTreeMap.ext_getElem?
    intro key
    apply Option.ext
    intro value
    rw [hback]
    constructor
    · rintro ⟨name, -, rest, rfl, hvalue⟩
      exact hvalue
    · intro hvalue
      have hkey := PropertySet.mem_iff_exists_getElem?.mpr ⟨value, hvalue⟩
      obtain ⟨rest, hrest⟩ := exists_keyUnder_of_dot (hdotted key hkey)
      exact ⟨_, (hnames _).mpr ⟨key, hkey, rfl⟩, rest, hrest, hrest ▸ hvalue⟩

end PuttingBack

/-- The plain numerals of the numbers that the names of the blocks spell. -/
def numerals (properties : PropertySet) : List String :=
  ((blockNames properties).filterMap Text.word?).map Nat.repr

section Conservation

variable {executors : List Executor} (hread : EdgeBuilder.executors properties = .ok executors)

include hread

/-- Every name spells a number, and in the order of these the executors are those of their plain
numerals. -/
theorem exists_numbers :
    ∃ numbers,
      List.Forall₂ (fun name number => Text.word? name = some number) (blockNames properties)
          numbers ∧
        numerals properties = numbers.map Nat.repr ∧
        List.Forall₂ (fun number executor =>
            executor.DeclaredBy (namedBlock properties number.repr))
          (numbers.mergeSort (· ≤ ·)) executors := by
  obtain ⟨numbers, hnumbers, hexecutors⟩ := executors_eq_ok_iff.mp hread
  exact ⟨numbers, hnumbers, congrArg (List.map Nat.repr) (filterMap_eq_of_forall₂ hnumbers),
    hexecutors⟩

theorem length_numerals :
    (numerals properties).length = (blockNames properties).length := by
  obtain ⟨numbers, hnumbers, hnumerals, -⟩ := exists_numbers hread
  rw [hnumerals, List.length_map, hnumbers.length_eq]

/-- Names that are plain numerals are the plain numerals of what they spell. -/
theorem numerals_eq_of_plain
    (hplain : PlainlyNumbered properties) :
    numerals properties = blockNames properties := by
  obtain ⟨numbers, hnumbers, hnumerals, -⟩ := exists_numbers hread
  have hboth := (List.forall₂_and_left _ _).mpr ⟨fun name hname => hname, hnumbers⟩
  have hsame : numbers.map Nat.repr = (blockNames properties).map id := by
    apply forall₂_eq_map_iff.mp
    refine hboth.imp ?_
    rintro name number ⟨hname, hnumber⟩
    obtain ⟨other, rfl⟩ := hplain.exists_number hname
    rw [Text.eq_of_word?_repr hnumber, id]
  rw [hnumerals, hsame, List.map_id]

/-- In another order, the executors are those of the plain numerals. -/
theorem exists_perm_numerals :
    ∃ names : List String,
      names.Perm (numerals properties) ∧
        List.Forall₂ (fun name executor => executor.DeclaredBy (namedBlock properties name)) names
          executors := by
  obtain ⟨numbers, -, hnumerals, hexecutors⟩ := exists_numbers hread
  refine ⟨(numbers.mergeSort (· ≤ ·)).map Nat.repr, ?_, List.forall₂_map_left_iff.mpr hexecutors⟩
  rw [hnumerals]
  exact (List.mergeSort_perm numbers _).map Nat.repr

/-- Every plain numeral names a block itself, because an executor was read from there. -/
theorem mem_blockNames_of_mem_numerals
    {name : String}
    (hname : name ∈ numerals properties) :
    name ∈ blockNames properties := by
  obtain ⟨names, hperm, hexecutors⟩ := exists_perm_numerals hread
  obtain ⟨executor, -, hexecutor⟩ := exists_of_forall₂ hexecutors (hperm.symm.subset hname)
  obtain ⟨number, -, rfl⟩ := List.mem_map.mp hname
  exact mem_blockNames_of_declaredBy (Text.dot_not_mem_repr number) hexecutor

/-- Conservation is a matter of the blocks that the names and the plain numerals tell. -/
theorem conserves_iff_perm :
    Conserves properties executors ↔
      Dotted properties ∧
        ((blockNames properties).map (namedBlock properties)).Perm
          ((numerals properties).map (namedBlock properties)) := by
  obtain ⟨ordered, hordered, hexecutors⟩ := exists_perm_numerals hread
  have hconfigs : executors.map Executor.config = ordered.map (namedBlock properties) :=
    forall₂_eq_map_iff.mp (hexecutors.imp fun _ _ hexecutor => hexecutor.config_eq)
  have hconfigured :
      (executors.map Executor.config).Perm ((numerals properties).map (namedBlock properties)) := by
    rw [hconfigs]
    exact hordered.map _
  have hpairs :
      ∀ names : List String,
        names.zip (names.map (namedBlock properties)) =
          names.map fun name => (name, namedBlock properties name) := by
    intro names
    rw [List.map_prod_left_eq_zip]
  constructor
  · rintro ⟨names, hnodup, hnames, heach, hback⟩
    have hsame : executors.map Executor.config = names.map (namedBlock properties) :=
      forall₂_eq_map_iff.mp heach
    have hperm : (blockNames properties).Perm names := by
      rw [List.perm_ext_iff_of_nodup (nodup_blockNames properties) hnodup]
      intro name
      rw [mem_blockNames_iff, hnames]
    rw [hsame, hpairs, ofBlocks_namedBlock_eq_iff hnodup hnames] at hback
    refine ⟨hback, (hperm.map _).trans ?_⟩
    rwa [← hsame]
  · rintro ⟨hdotted, hperm⟩
    obtain ⟨names, hsame, hconfig⟩ := exists_map_eq_of_perm_map (hconfigured.trans hperm.symm)
    have hnodup : names.Nodup := hsame.nodup_iff.mpr (nodup_blockNames properties)
    have hnames :
        ∀ name, name ∈ names ↔
          ∃ key ∈ properties.block Key.edgeExecutors, blockName key = name := by
      intro name
      rw [hsame.mem_iff, mem_blockNames_iff]
    refine ⟨names, hnodup, hnames, forall₂_eq_map_iff.mpr hconfig.symm, ?_⟩
    rw [← hconfig, hpairs, ofBlocks_namedBlock_eq_iff hnodup hnames]
    exact hdotted

/-- Plain numerals are enough. -/
theorem conserves_of_plain
    (hplain : PlainlyNumbered properties) :
    Conserves properties executors := by
  rw [conserves_iff_perm hread, numerals_eq_of_plain hread hplain]
  exact ⟨hplain.dotted, .refl _⟩

/-- Plain numerals are needed if no two names have the same block. -/
theorem plain_of_conserves
    (hdistinct :
      ∀ name ∈ blockNames properties, ∀ other ∈ blockNames properties,
        namedBlock properties name = namedBlock properties other → name = other)
    (hconserves : Conserves properties executors) :
    PlainlyNumbered properties := by
  obtain ⟨hdotted, hperm⟩ := (conserves_iff_perm hread).mp hconserves
  have hblocks : ((blockNames properties).map (namedBlock properties)).Nodup :=
    (nodup_blockNames properties).map_on hdistinct
  have hnumerals : (numerals properties).Nodup := (hperm.nodup_iff.mp hblocks).of_map _
  have hsubset : numerals properties ⊆ blockNames properties :=
    fun name hname => mem_blockNames_of_mem_numerals hread hname
  have hsame : (numerals properties).Perm (blockNames properties) :=
    (hnumerals.subperm hsubset).perm_of_length_le (length_numerals hread).ge
  apply plainlyNumbered_of_names hdotted
  intro name hname
  obtain ⟨number, -, rfl⟩ := List.mem_map.mp (hsame.symm.subset hname)
  exact ⟨number, rfl⟩

end Conservation

end EdgeBuilder

namespace Registry

open EdgeBuilder

variable {registry : Registry} {properties : PropertySet} {catalog : Catalog} {edge : Edge}

/-- An edge that a builder of the library makes has as many executors as there are names of blocks.
Nothing is lost and nothing is used twice exactly if every key below the scope has a dot and, up to
order, the blocks are those of the plain numerals; plain numerals are enough, and they are needed if
no two blocks are the same. -/
theorem conserves_iff
    (hbuiltin : registry.IsBuiltin)
    (hbuild : registry.buildEdge properties catalog = .ok edge) :
    edge.executors.length = (blockNames properties).length ∧
      (Conserves properties edge.executors ↔
        Dotted properties ∧
          ((blockNames properties).map (namedBlock properties)).Perm
            ((numerals properties).map (namedBlock properties))) ∧
      (PlainlyNumbered properties → Conserves properties edge.executors) ∧
      ((∀ name ∈ blockNames properties, ∀ other ∈ blockNames properties,
          namedBlock properties name = namedBlock properties other → name = other) →
        Conserves properties edge.executors → PlainlyNumbered properties) := by
  obtain ⟨-, -, -, hread, -⟩ := build_base_eq_ok_iff.mp (hbuiltin.build_base_of_buildEdge hbuild)
  obtain ⟨names, hperm, hexecutors⟩ := exists_perm_numerals hread
  have hlength : edge.executors.length = (blockNames properties).length := by
    rw [← hexecutors.length_eq, hperm.length_eq, length_numerals hread]
  exact ⟨hlength, conserves_iff_perm hread, conserves_of_plain hread, plain_of_conserves hread⟩

theorem conserves_iff_hoist :
    PlainlyNumbered hoist ∧
      ∃ edge, builtin.buildEdge hoist hoistCatalog = .ok edge ∧ Conserves hoist edge.executors := by
  have hplain : PlainlyNumbered hoist := hasBlocks_hoist.plainlyNumbered
  obtain ⟨executors, hread, heach⟩ :=
    hasBlocks_hoist.exists_executors (by decide) (by decide) declaresExecutor_hoistBlocks
  have hsome : executors ≠ [] := by
    rintro rfl
    cases heach
  obtain ⟨edge, hbase, -, -⟩ := declaresEdge_hoist.exists_build_base hread hsome
  have hbuild : builtin.buildEdge hoist hoistCatalog = .ok edge :=
    bind_eq_ok_iff.mpr ⟨EdgeBuilder.base, edgeBuilder_withBlocks_hoistParts _, hbase⟩
  exact ⟨hplain, edge, hbuild, (conserves_iff isBuiltin_builtin hbuild).2.2.1 hplain⟩

section TwoSpellings

/-- Two blocks with different executors, whose names spell the same number. -/
def hoistSpellings : List (String × PropertySet) :=
  [("1", hoistBlock "crane" "hdfs:adl"), ("01", hoistBlock "lift" "hdfs:adl")]

def hoistTwice : PropertySet :=
  withBlocks hoistParts hoistSpellings

theorem block_hoistTwice :
    hoistTwice.block Key.edgeExecutors = .ofBlocks hoistSpellings :=
  block_withBlocks getElem?_hoistParts_keyUnder hoistSpellings

theorem nodup_hoistSpellings : (hoistSpellings.map Prod.fst).Nodup := by
  decide

theorem dot_not_mem_hoistSpellings : ∀ block ∈ hoistSpellings, '.' ∉ block.1.toList := by
  decide

theorem blockNames_hoistTwice : (blockNames hoistTwice).Perm ["1", "01"] := by
  refine blockNames_perm block_hoistTwice nodup_hoistSpellings dot_not_mem_hoistSpellings ?_
  intro block hblock
  refine ⟨Key.executorClass, PropertySet.mem_iff_exists_getElem?.mpr ?_⟩
  rcases List.mem_pair.mp hblock with rfl | rfl
  · exact ⟨"crane", (getElem?_hoistBlock _ _).1⟩
  · exact ⟨"lift", (getElem?_hoistBlock _ _).1⟩

theorem namedBlock_hoistTwice
    {block : String × PropertySet}
    (hblock : block ∈ hoistSpellings) :
    namedBlock hoistTwice block.1 = block.2 :=
  namedBlock_eq block_hoistTwice nodup_hoistSpellings dot_not_mem_hoistSpellings hblock

def crane : Executor :=
  ⟨"crane", hoistBlock "crane" "hdfs:adl", [⟨"hdfs", "adl"⟩]⟩

/-- The crane is used twice, and the lift is lost. -/
theorem executors_hoistTwice :
    EdgeBuilder.executors hoistTwice = .ok [crane, crane] := by
  have hcrane : crane.DeclaredBy (namedBlock hoistTwice (Nat.repr 1)) := by
    obtain ⟨hclass, htext⟩ := getElem?_hoistBlock "crane" "hdfs:adl"
    rw [show Nat.repr 1 = "1" from rfl, namedBlock_hoistTwice List.mem_cons_self]
    refine ⟨rfl, PropertySet.require_eq_ok_iff.mpr ⟨hclass, by decide⟩, ?_⟩
    rw [htext]
    decide +kernel
  have hone :
      List.Forall₂ (fun name number => Text.word? name = some number) (blockNames hoistTwice)
        [1, 1] := by
    have hnumbers : [1, 1] = (blockNames hoistTwice).map fun _ => 1 := by
      rw [List.map_const', blockNames_hoistTwice.length_eq]
      rfl
    rw [hnumbers, List.forall₂_map_right_iff, List.forall₂_same]
    intro name hname
    rcases List.mem_pair.mp (blockNames_hoistTwice.subset hname) with rfl | rfl
    · decide
    · decide
  have hsorted : [1, 1].mergeSort (· ≤ ·) = [1, 1] := List.mergeSort_of_pairwise (by decide)
  refine executors_eq_ok_iff.mpr ⟨[1, 1], hone, ?_⟩
  rw [hsorted]
  exact .cons hcrane (.cons hcrane .nil)

/-- A number that is spelled in two ways is accepted, and one of its blocks is lost. -/
theorem not_conserves :
    ¬ ∀ (properties : PropertySet) (catalog : Catalog) (edge : Edge),
        builtin.buildEdge properties catalog = .ok edge → Conserves properties edge.executors := by
  intro hconserves
  have hdeclares : hoistTwice.DeclaresEdge hoistCatalog :=
    declaresEdge_hoistParts.withBlocks hoistSpellings
  obtain ⟨edge, hbase, -, hexecutors⟩ :=
    hdeclares.exists_build_base executors_hoistTwice (List.cons_ne_nil _ _)
  have hbuild : builtin.buildEdge hoistTwice hoistCatalog = .ok edge :=
    bind_eq_ok_iff.mpr ⟨EdgeBuilder.base, edgeBuilder_withBlocks_hoistParts _, hbase⟩
  obtain ⟨names, -, hnames, heach, -⟩ := hconserves hoistTwice hoistCatalog edge hbuild
  rw [hexecutors] at heach
  have hlift : "01" ∈ names := by
    rw [hnames, ← mem_blockNames_iff, blockNames_hoistTwice.mem_iff]
    exact List.mem_cons_of_mem _ List.mem_cons_self
  have hblock : ("01", hoistBlock "lift" "hdfs:adl") ∈ hoistSpellings :=
    List.mem_cons_of_mem _ List.mem_cons_self
  obtain ⟨executor, hmem, hconfig⟩ := exists_of_forall₂ heach hlift
  rw [namedBlock_hoistTwice hblock] at hconfig
  have hsame : crane.config = hoistBlock "lift" "hdfs:adl" := by
    rcases List.mem_pair.mp hmem with rfl | rfl
    · exact hconfig
    · exact hconfig
  have hclass : some "crane" = some "lift" := by
    rw [← (getElem?_hoistBlock "crane" "hdfs:adl").1, ← (getElem?_hoistBlock "lift" "hdfs:adl").1,
      ← hsame]
    rfl
  exact absurd hclass (by decide)

end TwoSpellings

end Registry

end HopRouting
