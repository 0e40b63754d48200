import Mathlib.Data.List.TakeWhile
import HopRouting.Proofs.Files.Descents
import HopRouting.Proofs.Text.Bytes
import HopRouting.Template.Catalog

/-!
# Template URIs

A directory of templates answers a URI from one file, whose path is spelled by the URI.  Whatever
the spelling, that file lies below the directory.

**Texts and bytes.**  A URI is taken apart at the slashes among its characters, a path at those
among its bytes.  No other character has the byte of a slash, so both give the same parts
(`Path.segments_ofText`).

**Refused URIs.**  `Catalog.Refused` says which URIs are told to be unsupported, in terms of the
text behind the scheme, where slashes in front do not matter.  What is left of any other URI is a
relative path that means names only (`Catalog.exists_filePath?_of_not_refused`).

**Answers.**  `Catalog.AnswersFrom`: a URI that is not refused is answered from one file, with the
template that it declares or with the reason why there is none.

**Result.**  `Catalog.ofDirectory_confined`: a URI is refused, whatever the files; or it is answered
from one path, which is that of the directory and then only goes down.
-/

namespace HopRouting

theorem splitOn_append_of_not_mem
    {β : Type} [BEq β] [LawfulBEq β] {sep : β} {front : List β}
    (hfront : sep ∉ front)
    (back : List β) :
    (front ++ back).splitOn sep = (back.splitOn sep).modifyHead (front ++ ·) := by
  induction front with
  | nil =>
      exact (congrFun List.modifyHead_id (back.splitOn sep)).symm
  | cons item front ih =>
      rw [List.mem_cons, not_or] at hfront
      have hitem : (item == sep) = false := beq_eq_false_iff_ne.mpr (Ne.symm hfront.1)
      rw [List.cons_append, List.splitOn_cons_eq_if_modifyHead, hitem, ih hfront.2]
      cases back.splitOn sep <;> rfl

/-- If just the separator is written as the other one, what is written falls into what the parts are
written as. -/
theorem splitOn_flatMap
    {α β : Type} [BEq α] [LawfulBEq α] [BEq β] [LawfulBEq β] {write : α → List β} {sep : α}
    {mark : β}
    (hsep : write sep = [mark])
    (hother : ∀ item, item ≠ sep → mark ∉ write item)
    (items : List α) :
    (items.flatMap write).splitOn mark = (items.splitOn sep).map (·.flatMap write) := by
  induction items with
  | nil =>
      rw [List.flatMap_nil, List.splitOn_nil, List.splitOn_nil]
      rfl
  | cons item items ih =>
      rw [List.flatMap_cons, List.splitOn_cons_eq_if_modifyHead]
      by_cases hitem : item = sep
      · rw [hitem, hsep, List.singleton_append, List.splitOn_cons_eq_if_modifyHead,
          beq_self_eq_true, beq_self_eq_true, if_pos rfl, if_pos rfl, ih]
        rfl
      · rw [splitOn_append_of_not_mem (hother item hitem), ih, beq_eq_false_iff_ne.mpr hitem,
          if_neg Bool.false_ne_true]
        cases items.splitOn sep with
        | nil => rfl
        | cons first others => simp

theorem slash_not_mem_utf8EncodeChar
    {letter : Char}
    (hletter : letter ≠ '/') :
    Name.slash ∉ String.utf8EncodeChar letter :=
  mt (Text.byteOf_mem_utf8EncodeChar_iff '/' (by decide)).mp hletter

theorem filter_splitOn_dropWhile
    {α : Type} [DecidableEq α] (sep : α)
    (items : List α) :
    ((items.dropWhile (· = sep)).splitOn sep).filter (· ≠ []) =
      (items.splitOn sep).filter (· ≠ []) := by
  induction items with
  | nil => rfl
  | cons item items ih =>
      by_cases hitem : item = sep
      · rw [List.dropWhile_cons_of_pos (by simpa using hitem), ih,
          List.splitOn_cons_eq_if_modifyHead, hitem, beq_self_eq_true, if_pos rfl,
          List.filter_cons_of_neg (by simp)]
      · rw [List.dropWhile_cons_of_neg (by simpa using hitem)]

theorem dots_mem_splitOn_dropWhile_iff
    (letters : List Char) :
    ['.', '.'] ∈ (letters.dropWhile (· = '/')).splitOn '/' ↔ ['.', '.'] ∈ letters.splitOn '/' := by
  have hkept :
      ∀ parts : List (List Char), ['.', '.'] ∈ parts ↔ ['.', '.'] ∈ parts.filter (· ≠ []) := by
    intro parts
    simp [List.mem_filter]
  rw [hkept, filter_splitOn_dropWhile, ← hkept]

/-- The names between the slashes of a text; empty parts and `.` name nothing. -/
def namesBetween (letters : List Char) : List Name :=
  ((letters.splitOn '/').filter (· ≠ [])).filterMap fun part =>
    if part = ['.'] then none else some (.ofText (String.ofList part))

namespace Path

/-- The segments of a text are what stands between the slashes of the text. -/
theorem segments_ofText
    (letters : List Char) :
    (ofText (String.ofList letters)).segments =
      (letters.splitOn '/').map fun part => Text.bytes (String.ofList part) := by
  simp only [segments, ofText, Text.bytes_ofList]
  exact splitOn_flatMap (by decide) (fun letter hletter => slash_not_mem_utf8EncodeChar hletter) _

/-- Without a part `..`, a text means names only. -/
theorem filterMap_segments_ofText
    {letters : List Char}
    (hup : ['.', '.'] ∉ letters.splitOn '/') :
    (ofText (String.ofList letters)).segments.filterMap Component.ofSegment? =
      (namesBetween letters).map Component.name := by
  rw [segments_ofText, List.filterMap_map, namesBetween, List.filterMap_filter, List.map_filterMap]
  apply List.filterMap_congr
  intro part hpart
  have hnil : Text.bytes (String.ofList part) = [] ↔ part = [] := Text.bytes_ofList_inj part []
  have hdot : Text.bytes (String.ofList part) = [Name.dot] ↔ part = ['.'] :=
    Text.bytes_ofList_inj part ['.']
  have hdots : Text.bytes (String.ofList part) ≠ [Name.dot, Name.dot] := by
    intro hdots
    exact hup ((Text.bytes_ofList_inj part ['.', '.']).mp hdots ▸ hpart)
  simp only [Function.comp_apply, Component.ofSegment?, hnil, hdot, hdots, if_false]
  by_cases hempty : part = []
  · simp [hempty]
  · by_cases hhere : part = ['.']
    · simp [hhere]
    · simp [hempty, hhere, Name.ofText]

theorem isAbsolute_ofText
    {letter : Char}
    (hletter : letter ≠ '/')
    (letters : List Char) :
    (ofText (String.ofList (letter :: letters))).isAbsolute = false := by
  rw [Bool.eq_false_iff]
  intro habsolute
  have hhead : (Text.bytes (String.ofList (letter :: letters))).head? = some Name.slash :=
    of_decide_eq_true habsolute
  rw [Text.bytes_ofList, List.flatMap_cons,
    List.head?_append_of_ne_nil _ String.utf8EncodeChar_ne_nil] at hhead
  exact slash_not_mem_utf8EncodeChar hletter (List.mem_of_head? hhead)

/-- A relative path whose segments mean names only goes down, by these names. -/
theorem descends_of_segments
    {path : Path} {names : List Name}
    (hrelative : path.isAbsolute = false)
    (hnames : path.segments.filterMap Component.ofSegment? = names.map Component.name) :
    path.Descends ∧ path.components.filterMap Component.name? = names := by
  have hmeaning : path.meaning = names.map Component.name := by
    rw [meaning_eq, hrelative, hnames]
    rfl
  have hdescends := descends_of_meaning_eq hmeaning
  refine ⟨hdescends, ?_⟩
  exact List.map_injective_iff.mpr (fun _ _ => Component.name.inj)
    (hdescends.meaning_eq.symm.trans hmeaning)

/-- The path begins with the directory, and then only goes down, by the names. -/
def GoesDown (directory path : Path) (names : List Name) : Prop :=
  ∃ below, path.components = directory.components ++ below ∧
    (∀ component ∈ below, component = .here ∨ ∃ name, component = .name name) ∧
    below.filterMap Component.name? = names

theorem goesDown_join
    (directory : Path)
    {path : Path} {names : List Name}
    (hrelative : path.isAbsolute = false)
    (hnames : path.segments.filterMap Component.ofSegment? = names.map Component.name) :
    directory.GoesDown (directory.join path) names := by
  by_cases hdirectory : directory.bytes = []
  · obtain ⟨⟨hroot, hup⟩, hkept⟩ := descends_of_segments hrelative hnames
    have hempty : directory.components = [] := by
      simp [components, segments, hdirectory, firstComponent?]
    refine ⟨path.components, ?_, ?_, hkept⟩
    · rw [join_of_bytes_eq_nil directory hrelative hdirectory, hempty, List.nil_append]
    · intro component hcomponent
      cases component with
      | root => exact absurd hcomponent hroot
      | here => exact Or.inl rfl
      | up => exact absurd hcomponent hup
      | name name => exact Or.inr ⟨name, rfl⟩
  · refine ⟨names.map Component.name, ?_, ?_, ?_⟩
    · rw [components_join_of_relative hdirectory hrelative, hnames]
    · intro component hcomponent
      obtain ⟨name, -, rfl⟩ := List.mem_map.mp hcomponent
      exact Or.inr ⟨name, rfl⟩
    · rw [List.filterMap_map]
      exact List.filterMap_some

end Path

namespace Catalog

/-- There are only slashes, or there is a part `..`. -/
def Strays (rest : List Char) : Prop :=
  (∀ letter ∈ rest, letter = '/') ∨ ['.', '.'] ∈ rest.splitOn '/'

/-- The URI has another scheme, or what follows the scheme strays. -/
def Refused (uri : String) : Prop :=
  ∀ rest, uri.toList = fileScheme.toList ++ rest → Strays rest

section FilePath

variable {uri : String} {rest : List Char}

/-- Slashes in front do not matter. -/
theorem strays_iff :
    Strays rest ↔
      rest.dropWhile (· = '/') = [] ∨ ['.', '.'] ∈ (rest.dropWhile (· = '/')).splitOn '/' := by
  have hslashes : (∀ letter ∈ rest, letter = '/') ↔ rest.dropWhile (· = '/') = [] := by
    simp [List.dropWhile_eq_nil_iff]
  exact or_congr hslashes (dots_mem_splitOn_dropWhile_iff rest).symm

theorem isPrefixOf?_eq_some_iff :
    fileScheme.toList.isPrefixOf? uri.toList = some rest ↔
      uri.toList = fileScheme.toList ++ rest := by
  rw [List.isPrefixOf?_eq_some_iff_append_eq, eq_comm]

theorem filePath?_of_strays
    (huri : uri.toList = fileScheme.toList ++ rest)
    (hstrays : Strays rest) :
    filePath? uri = none := by
  rw [filePath?, isPrefixOf?_eq_some_iff.mpr huri, Option.bind_some]
  exact if_pos (strays_iff.mp hstrays)

theorem filePath?_of_not_strays
    (huri : uri.toList = fileScheme.toList ++ rest)
    (hleads : ¬ Strays rest) :
    filePath? uri = some (String.ofList (rest.dropWhile (· = '/'))) := by
  rw [filePath?, isPrefixOf?_eq_some_iff.mpr huri, Option.bind_some]
  exact if_neg (mt strays_iff.mpr hleads)

theorem filePath?_eq_none_iff :
    filePath? uri = none ↔ Refused uri := by
  constructor
  · intro hnone rest hrest
    by_contra hleads
    rw [filePath?_of_not_strays hrest hleads] at hnone
    cases hnone
  · intro hrefused
    cases hscheme : fileScheme.toList.isPrefixOf? uri.toList with
    | none =>
        rw [filePath?, hscheme, Option.bind_none]
    | some rest =>
        have hrest := isPrefixOf?_eq_some_iff.mp hscheme
        exact filePath?_of_strays hrest (hrefused rest hrest)

instance : Decidable (Refused uri) :=
  decidable_of_iff _ filePath?_eq_none_iff

theorem ofDirectory_of_refused
    (hrefused : Refused uri)
    (tree : FileTree)
    (root : Path) :
    ofDirectory tree root uri = .error (.unsupportedUri uri) := by
  rw [ofDirectory, filePath?_eq_none_iff.mpr hrefused]

/-- What an answered URI says behind its scheme is a path of names, but for slashes in front. -/
theorem exists_filePath?_of_not_refused
    (haccepted : ¬ Refused uri) :
    ∃ rest relative,
      uri.toList = fileScheme.toList ++ rest ∧
      filePath? uri = some relative ∧
      (Path.ofText relative).bytes ≠ [] ∧
      (Path.ofText relative).isAbsolute = false ∧
      (Path.ofText relative).segments.filterMap Component.ofSegment? =
        (namesBetween rest).map Component.name := by
  obtain ⟨rest, hrest, hleads⟩ :
      ∃ rest, uri.toList = fileScheme.toList ++ rest ∧ ¬ Strays rest := by
    simpa [Refused] using haccepted
  obtain ⟨hkept, hdots⟩ := not_or.mp (mt strays_iff.mpr hleads)
  refine ⟨rest, _, hrest, filePath?_of_not_strays hrest hleads, ?_, ?_, ?_⟩
  · intro hempty
    exact hkept ((Text.bytes_ofList_inj _ []).mp hempty)
  · obtain ⟨first, others, hsplit⟩ := List.exists_cons_of_ne_nil hkept
    have hfirst : first ≠ '/' := by
      have hnot := List.head?_dropWhile_not (· = '/') rest
      simpa [hsplit] using hnot
    rw [hsplit]
    exact Path.isAbsolute_ofText hfirst others
  · rw [Path.filterMap_segments_ofText hdots, namesBetween, filter_splitOn_dropWhile]
    rfl

/-- The URI is answered from the file at the path, and from nothing else.  A file that denotes
properties gives the template that they declare, a file that is not there is told to be missing, and
any other failure is told with its cause. -/
structure AnswersFrom (root : Path) (uri : String) (path : Path) : Prop where
  same :
    ∀ tree other : FileTree, tree.readText path = other.readText path →
      ofDirectory tree root uri = ofDirectory other root uri
  found :
    ∀ (tree : FileTree) (template : Template), ofDirectory tree root uri = .ok template ↔
      ∃ text properties, tree.readText path = .ok text ∧
        PropertySet.ofText path text = .ok properties ∧ template = .ofProperties uri properties
  missing :
    ∀ tree : FileTree, ofDirectory tree root uri = .error (.notFound uri) ↔
      tree.readText path = .error .notFound
  unreadable :
    ∀ (tree : FileTree) (cause : FileError), tree.readText path = .error cause →
      cause ≠ .notFound → ofDirectory tree root uri = .error (.invalid uri cause.message)
  malformed :
    ∀ (tree : FileTree) (text : String) (cause : PropertyFileError),
      tree.readText path = .ok text → PropertySet.ofText path text = .error cause →
        ofDirectory tree root uri = .error (.invalid uri cause.message)
  supported :
    ∀ tree : FileTree, ofDirectory tree root uri ≠ .error (.unsupportedUri uri)

section Answers

variable {relative : String} (hpath : filePath? uri = some relative)
variable {tree : FileTree} {root : Path}

include hpath

theorem ofDirectory_of_missing
    (hmissing : tree.readText (root.join (.ofText relative)) = .error .notFound) :
    ofDirectory tree root uri = .error (.notFound uri) := by
  simp only [ofDirectory, hpath, hmissing]

theorem ofDirectory_of_unreadable
    {cause : FileError}
    (hread : tree.readText (root.join (.ofText relative)) = .error cause)
    (hother : cause ≠ .notFound) :
    ofDirectory tree root uri = .error (.invalid uri cause.message) := by
  simp only [ofDirectory, hpath, hread]

theorem ofDirectory_of_malformed
    {text : String} {cause : PropertyFileError}
    (hread : tree.readText (root.join (.ofText relative)) = .ok text)
    (hfault : PropertySet.ofText (root.join (.ofText relative)) text = .error cause) :
    ofDirectory tree root uri = .error (.invalid uri cause.message) := by
  simp only [ofDirectory, hpath, hread, hfault]

theorem ofDirectory_of_denotes
    {text : String} {properties : PropertySet}
    (hread : tree.readText (root.join (.ofText relative)) = .ok text)
    (hproperties : PropertySet.ofText (root.join (.ofText relative)) text = .ok properties) :
    ofDirectory tree root uri = .ok (.ofProperties uri properties) := by
  simp only [ofDirectory, hpath, hread, hproperties]

/-- Reading the file and reading its text can fail or not, and the answer tells which. -/
theorem ofDirectory_cases
    (tree : FileTree)
    (root : Path) :
    (tree.readText (root.join (.ofText relative)) = .error .notFound ∧
        ofDirectory tree root uri = .error (.notFound uri)) ∨
      (tree.readText (root.join (.ofText relative)) ≠ .error .notFound ∧
        ∃ reason, ofDirectory tree root uri = .error (.invalid uri reason)) ∨
      ∃ text properties,
        tree.readText (root.join (.ofText relative)) = .ok text ∧
          PropertySet.ofText (root.join (.ofText relative)) text = .ok properties ∧
          ofDirectory tree root uri = .ok (.ofProperties uri properties) := by
  cases hread : tree.readText (root.join (.ofText relative)) with
  | error cause =>
      by_cases hmissing : cause = .notFound
      · rw [hmissing] at hread ⊢
        exact Or.inl ⟨rfl, ofDirectory_of_missing hpath hread⟩
      · refine Or.inr (Or.inl ⟨?_, _, ofDirectory_of_unreadable hpath hread hmissing⟩)
        exact fun hsame => hmissing (Except.error.inj hsame)
  | ok text =>
      cases hproperties : PropertySet.ofText (root.join (.ofText relative)) text with
      | error cause =>
          exact Or.inr (Or.inl ⟨by simp, _, ofDirectory_of_malformed hpath hread hproperties⟩)
      | ok properties =>
          exact Or.inr (Or.inr
            ⟨text, properties, rfl, hproperties, ofDirectory_of_denotes hpath hread hproperties⟩)

theorem answersFrom_of_filePath?
    (root : Path) :
    AnswersFrom root uri (root.join (.ofText relative)) where
  same := by
    intro tree other hsame
    simp only [ofDirectory, hpath, hsame]
  found := by
    intro tree template
    constructor
    · intro hfound
      rcases ofDirectory_cases hpath tree root with
        ⟨-, hanswer⟩ | ⟨-, reason, hanswer⟩ | ⟨text, properties, hread, hproperties, hanswer⟩
      · cases hanswer.symm.trans hfound
      · cases hanswer.symm.trans hfound
      · cases hanswer.symm.trans hfound
        exact ⟨text, properties, hread, hproperties, rfl⟩
    · rintro ⟨text, properties, hread, hproperties, rfl⟩
      exact ofDirectory_of_denotes hpath hread hproperties
  missing := by
    intro tree
    constructor
    · intro hmissing
      rcases ofDirectory_cases hpath tree root with
        ⟨hread, -⟩ | ⟨-, reason, hanswer⟩ | ⟨text, properties, -, -, hanswer⟩
      · exact hread
      · cases hanswer.symm.trans hmissing
      · cases hanswer.symm.trans hmissing
    · exact ofDirectory_of_missing hpath
  unreadable := by
    intro tree cause hread hother
    exact ofDirectory_of_unreadable hpath hread hother
  malformed := by
    intro tree text cause hread hfault
    exact ofDirectory_of_malformed hpath hread hfault
  supported := by
    intro tree hrefused
    rcases ofDirectory_cases hpath tree root with
      ⟨-, hanswer⟩ | ⟨-, reason, hanswer⟩ | ⟨text, properties, -, -, hanswer⟩
    · cases hanswer.symm.trans hrefused
    · cases hanswer.symm.trans hrefused
    · cases hanswer.symm.trans hrefused

end Answers

end FilePath

/-- A directory of templates refuses a URI, whatever the files, if it has another scheme, if only
slashes follow, or if there is a part `..` among what follows.  Any other URI is answered from one
path.  This begins with the path of the directory and then goes down by the names that the URI
tells, so it leads to the place that these names tell if no link lies below the directory. -/
theorem ofDirectory_confined
    (root : Path)
    (uri : String) :
    (Refused uri ∧ ∀ tree, ofDirectory tree root uri = .error (.unsupportedUri uri)) ∨
    (¬ Refused uri ∧ ∃ rest path,
      uri.toList = fileScheme.toList ++ rest ∧
      AnswersFrom root uri path ∧
      root.GoesDown path (namesBetween rest) ∧
      ∀ (tree : FileTree) (location final : Location),
        tree.locate (root.join ⟨[Name.dot]⟩) = .ok location → tree.Plain location →
        tree.locate path = .ok final → final = location ++ namesBetween rest) := by
  by_cases hrefused : Refused uri
  · exact Or.inl ⟨hrefused, fun tree => ofDirectory_of_refused hrefused tree root⟩
  · obtain ⟨rest, relative, huri, hpath, hsome, hrelative, hnames⟩ :=
      exists_filePath?_of_not_refused hrefused
    refine Or.inr ⟨hrefused, rest, _, huri, answersFrom_of_filePath? hpath root,
      Path.goesDown_join root hrelative hnames, ?_⟩
    intro tree location final hroot hplain hfinal
    obtain ⟨hdescends, hkept⟩ := Path.descends_of_segments hrelative hnames
    rw [FileTree.locate_join_of_descends hroot hplain hsome hdescends hfinal, hkept]

example :
    Refused "file:///copy/flow.conf" ∧ Refused "FS:////" ∧ Refused "FS://copy/../flow.conf" := by
  decide +kernel

example : ¬ Refused "FS:///./copy//..flow/conf.." := by
  decide +kernel

example :
    let tree := (FileTree.empty (.ofText "lib")).insert [.ofText "lib", .ofText "copy.template"]
      (.file (Text.bytes "template.input.format=avro"))
    (ofDirectory tree (.ofText ".") "FS:///./copy.template").isOk = true ∧
      (ofDirectory tree (.ofText ".") "FS:///flow.template").isOk = false := by
  decide +kernel

end Catalog

end HopRouting
