import HopRouting.Proofs.PropertySet.Layers
import HopRouting.Proofs.Sync.Scans

/-!
# Blocks of property sets

The block of a scope holds what the set says below the scope (`getElem?_block`).  The other way
round, `under` puts a set below a scope, and `ofBlocks` puts together sets that stand below scopes
of their own.

**Results.**  Blocks of blocks are blocks of longer scopes, and blocks of merged sets are merged
blocks, whatever the scopes are (`block_algebra`).  If the scopes are different names without a dot,
the entries put together are those of the sets, each under its scope, and no others
(`getElem?_ofBlocks_eq_some_iff`).
-/

namespace HopRouting

namespace PropertySet

theorem mem_iff_exists_getElem?
    {properties : PropertySet} {key : String} :
    key ∈ properties ↔ ∃ value, properties[key]? = some value := by
  rw [Std.ExtTreeMap.mem_iff_isSome_getElem?, Option.isSome_iff_exists]

section Listed

variable {entries : List (String × String)} {key : String}

theorem getElem?_ofList_of_mem
    (hkeys : (entries.map Prod.fst).Nodup)
    {value : String}
    (hentry : (key, value) ∈ entries) :
    (.ofList entries : PropertySet)[key]? = some value := by
  refine (getElem?_ofList_eq_some_iff ?_).mpr hentry
  refine (List.pairwise_map.mp hkeys).imp ?_
  intro entry other hne hsame
  exact hne (Std.LawfulEqOrd.compare_eq_iff_eq.mp hsame)

theorem getElem?_ofList_of_not_mem
    (hkey : key ∉ entries.map Prod.fst) :
    (.ofList entries : PropertySet)[key]? = none := by
  apply Std.ExtTreeMap.getElem?_ofList_of_contains_eq_false
  rwa [Bool.eq_false_iff, ne_eq, List.contains_iff_mem]

end Listed

section Scopes

/-- The key below the scope that ends so. -/
def keyUnder (scope rest : String) : String :=
  scope ++ "." ++ rest

theorem toList_keyUnder
    (scope rest : String) :
    (keyUnder scope rest).toList = scope.toList ++ '.' :: rest.toList := by
  simp [keyUnder]

theorem keyBelow?_eq_some_iff
    {scope key rest : String} :
    keyBelow? scope key = some rest ↔ key = keyUnder scope rest := by
  unfold keyBelow?
  rw [Option.map_eq_some_iff, ← String.toList_inj, toList_keyUnder]
  constructor
  · rintro ⟨tail, htail, rfl⟩
    rw [← List.isPrefixOf?_eq_some_iff_append_eq.mp htail, String.toList_ofList, List.append_assoc,
      List.singleton_append]
  · intro hkey
    refine ⟨rest.toList, ?_, String.ofList_toList⟩
    rw [List.isPrefixOf?_eq_some_iff_append_eq, hkey, List.append_assoc, List.singleton_append]

theorem keyUnder_inj
    {scope rest other : String} :
    keyUnder scope rest = keyUnder scope other ↔ rest = other := by
  constructor
  · intro hsame
    have hrest := keyBelow?_eq_some_iff.mpr hsame
    rw [keyBelow?_eq_some_iff.mpr rfl] at hrest
    exact Option.some.inj hrest
  · rintro rfl
    rfl

/-- A scope without a dot ends where the first dot of the key stands. -/
theorem takeWhile_keyUnder
    {scope : String}
    (hdot : '.' ∉ scope.toList)
    (rest : String) :
    (keyUnder scope rest).toList.takeWhile (· ≠ '.') = scope.toList := by
  have hscope : ∀ c ∈ scope.toList, decide (c ≠ '.') = true := by
    rintro c hc
    rw [decide_eq_true_eq]
    rintro rfl
    exact hdot hc
  rw [toList_keyUnder, List.takeWhile_append_of_pos hscope, List.takeWhile_cons_of_neg (by simp),
    List.append_nil]

theorem keyUnder_inj_of_no_dot
    {scope other rest more : String}
    (hscope : '.' ∉ scope.toList)
    (hother : '.' ∉ other.toList)
    (hsame : keyUnder scope rest = keyUnder other more) :
    scope = other ∧ rest = more := by
  have hscopes : scope = other := by
    rw [← String.toList_inj, ← takeWhile_keyUnder hscope rest, hsame,
      takeWhile_keyUnder hother more]
  subst hscopes
  exact ⟨rfl, keyUnder_inj.mp hsame⟩

end Scopes

section Blocks

theorem distinct_filterMap_keyBelow?
    (properties : PropertySet)
    (scope : String) :
    (properties.toList.filterMap fun (key, value) => (keyBelow? scope key).map (·, value)).Pairwise
      fun entry other => ¬ compare entry.1 other.1 = .eq := by
  rw [List.pairwise_filterMap]
  refine properties.distinct_keys_toList.imp ?_
  intro entry other hdistinct below hbelow otherBelow hotherBelow hsame
  obtain ⟨rest, hrest, rfl⟩ := Option.map_eq_some_iff.mp hbelow
  obtain ⟨more, hmore, rfl⟩ := Option.map_eq_some_iff.mp hotherBelow
  apply hdistinct
  rw [Std.LawfulEqOrd.compare_eq_iff_eq] at hsame ⊢
  rw [keyBelow?_eq_some_iff.mp hrest, keyBelow?_eq_some_iff.mp hmore, keyUnder_inj]
  exact hsame

/-- The block of a scope says of a key what the set says of it below the scope. -/
theorem getElem?_block
    (properties : PropertySet)
    (scope key : String) :
    (properties.block scope)[key]? = properties[keyUnder scope key]? := by
  apply Option.ext
  intro value
  rw [block, getElem?_ofList_eq_some_iff (distinct_filterMap_keyBelow? properties scope),
    ← Std.ExtTreeMap.mem_toList_iff_getElem?_eq_some, List.mem_filterMap]
  constructor
  · rintro ⟨⟨whole, held⟩, hheld, hbelow⟩
    obtain ⟨rest, hrest, hentry⟩ := Option.map_eq_some_iff.mp hbelow
    cases hentry
    rwa [← keyBelow?_eq_some_iff.mp hrest]
  · intro hheld
    refine ⟨_, hheld, ?_⟩
    dsimp only
    rw [keyBelow?_eq_some_iff.mpr rfl, Option.map_some]

theorem keyUnder_keyUnder
    (scope inner rest : String) :
    keyUnder (keyUnder scope inner) rest = keyUnder scope (keyUnder inner rest) := by
  simp only [keyUnder, String.append_assoc]

/-- A block of a block stands below the scopes one after the other. -/
theorem block_block
    (properties : PropertySet)
    (scope inner : String) :
    (properties.block scope).block inner = properties.block (keyUnder scope inner) := by
  apply Std.ExtTreeMap.ext_getElem?
  intro key
  rw [getElem?_block, getElem?_block, getElem?_block, keyUnder_keyUnder]

/-- Sets can be merged block by block. -/
theorem block_merge
    (properties overriding : PropertySet)
    (scope : String) :
    (properties.merge overriding).block scope =
      (properties.block scope).merge (overriding.block scope) := by
  apply Std.ExtTreeMap.ext_getElem?
  intro key
  rw [getElem?_block, getElem?_merge, getElem?_merge, getElem?_block, getElem?_block]

/-- What the blocks of a set are: their entries are those whose keys begin with the scope and a dot,
scopes can be followed one after the other, and blocks can be cut out before or after sets are
merged, where the entries of the overriding set win either way. -/
theorem block_algebra
    (properties overriding : PropertySet)
    (scope inner : String) :
    (∀ key value : String,
      (properties.block scope)[key]? = some value ↔
        properties[scope ++ "." ++ key]? = some value) ∧
    (properties.block scope).block inner = properties.block (scope ++ "." ++ inner) ∧
    (properties.merge overriding).block scope =
      (properties.block scope).merge (overriding.block scope) ∧
    ∀ key : String,
      ((properties.merge overriding).block scope)[key]? =
        (overriding.block scope)[key]?.or (properties.block scope)[key]? := by
  refine ⟨?_, properties.block_block scope inner, properties.block_merge overriding scope, ?_⟩
  · intro key value
    rw [getElem?_block, keyUnder]
  · intro key
    rw [block_merge, getElem?_merge]

/-- Where no key is below the scope, nothing is found there. -/
theorem getElem?_ofList_keyUnder
    {entries : List (String × String)} {scope : String}
    (hkeys : ∀ entry ∈ entries, keyBelow? scope entry.1 = none)
    (rest : String) :
    (.ofList entries : PropertySet)[keyUnder scope rest]? = none := by
  apply getElem?_ofList_of_not_mem
  intro hmem
  obtain ⟨entry, hentry, hkey⟩ := List.mem_map.mp hmem
  cases (keyBelow?_eq_some_iff.mpr hkey).symm.trans (hkeys entry hentry)

/-- The entries of a set, below a scope. -/
def under (properties : PropertySet) (scope : String) : PropertySet :=
  .ofList (properties.toList.map fun (key, value) => (keyUnder scope key, value))

/-- Put below a scope, a set says of a key what it says of the rest of the key. -/
theorem getElem?_under
    (properties : PropertySet)
    (scope key : String) :
    (properties.under scope)[key]? = (keyBelow? scope key).bind fun rest => properties[rest]? := by
  have hdistinct :
      (properties.toList.map fun (key, value) => (keyUnder scope key, value)).Pairwise
        fun entry other => ¬ compare entry.1 other.1 = .eq := by
    rw [List.pairwise_map]
    refine properties.distinct_keys_toList.imp ?_
    intro entry other hdistinct hsame
    apply hdistinct
    rw [Std.LawfulEqOrd.compare_eq_iff_eq] at hsame ⊢
    exact keyUnder_inj.mp hsame
  apply Option.ext
  intro value
  rw [under, getElem?_ofList_eq_some_iff hdistinct, List.mem_map, Option.bind_eq_some_iff]
  simp only [keyBelow?_eq_some_iff, ← Std.ExtTreeMap.mem_toList_iff_getElem?_eq_some]
  constructor
  · rintro ⟨⟨rest, held⟩, hheld, hentry⟩
    cases hentry
    exact ⟨rest, rfl, hheld⟩
  · rintro ⟨rest, rfl, hheld⟩
    exact ⟨(rest, value), hheld, rfl⟩

theorem getElem?_under_keyUnder
    (properties : PropertySet)
    (scope rest : String) :
    (properties.under scope)[keyUnder scope rest]? = properties[rest]? := by
  rw [getElem?_under, keyBelow?_eq_some_iff.mpr rfl, Option.bind_some]

end Blocks

section Joined

/-- Sets put together, each below its scope. -/
def ofBlocks (blocks : List (String × PropertySet)) : PropertySet :=
  layered (blocks.map fun (scope, block) => block.under scope)

/-- What is put together are the entries of the sets below their scopes, if these are different and
have no dots. -/
theorem getElem?_ofBlocks_eq_some_iff
    {blocks : List (String × PropertySet)}
    (hscopes : (blocks.map Prod.fst).Nodup)
    (hdots : ∀ block ∈ blocks, '.' ∉ block.1.toList)
    {key value : String} :
    (ofBlocks blocks)[key]? = some value ↔
      ∃ block ∈ blocks, ∃ rest, key = keyUnder block.1 rest ∧ block.2[rest]? = some value := by
  induction blocks generalizing value with
  | nil =>
      simp [ofBlocks, layered]
  | cons first others ih =>
      rw [List.map_cons, List.nodup_cons] at hscopes
      rw [List.forall_mem_cons] at hdots
      rw [ofBlocks, List.map_cons, getElem?_layered_cons, Option.or_eq_some_iff, ← ofBlocks,
        ih hscopes.2 hdots.2, getElem?_under, Option.bind_eq_some_iff, List.exists_mem_cons_iff]
      simp only [keyBelow?_eq_some_iff]
      have hapart :
          (∃ rest, key = keyUnder first.1 rest ∧ first.2[rest]? = some value) →
            (ofBlocks others)[key]? = none := by
        rintro ⟨rest, rfl, -⟩
        rw [Option.eq_none_iff_forall_ne_some]
        intro held hheld
        obtain ⟨block, hblock, more, hsame, -⟩ := (ih hscopes.2 hdots.2).mp hheld
        obtain ⟨hscope, -⟩ := keyUnder_inj_of_no_dot hdots.1 (hdots.2 block hblock) hsame
        exact hscopes.1 (hscope ▸ List.mem_map_of_mem hblock)
      constructor
      · rintro (hlater | ⟨-, hfirst⟩)
        · exact Or.inr hlater
        · exact Or.inl hfirst
      · rintro (hfirst | hlater)
        · exact Or.inr ⟨hapart hfirst, hfirst⟩
        · exact Or.inl hlater

end Joined

end PropertySet

end HopRouting
