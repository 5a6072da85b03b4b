import LayerComposition.Proofs.Discovery

/-! # Relocation

Directories that hold the same tree have the same characters, wherever they are. Of the place
itself three things can show. A pattern without a star may be a piece of the path of the place, a
catalog may be named through a directory above the place, and the path may be too long for the
system.
-/

namespace LayerComposition

namespace FileSystem

open LayerComposition.Path

variable {files here there : FileSystem} {first second directory rest name : String}
  {tree other : FileNode} {location below : List String}

theorem isFile_eq_false_of_long (long : maxPathSize ≤ directory.utf8ByteSize) :
    files.isFile directory = false := by
  rw [← Bool.not_eq_true, isFile_iff]
  rintro ⟨content, found⟩
  exact absurd (size_lt_of_node_eq_ok found) (Nat.not_lt.2 long)

theorem mem_names_iff_isSome_find? (found : files.node directory = .ok tree) :
    name ∈ files.names directory ↔ (tree.find? [name]).isSome = true := by
  cases tree with
  | file content => simp [names, found, FileNode.find?]
  | directory entries =>
      rw [names, found, List.mem_mergeSort, ← Entries.isSome_lookup, FileNode.find?_singleton]

theorem names_eq_of_alike (isTree : here.root.IsTree) (isTree' : there.root.IsTree)
    (found : here.node first = .ok tree) (found' : there.node second = .ok other)
    (alike : tree.Alike other) : here.names first = there.names second := by
  have mem_iff (name : String) : name ∈ here.names first ↔ name ∈ there.names second := by
    have same := congrArg Option.isSome (alike [name])
    rw [FileNode.shows, FileNode.shows, Option.isSome_map, Option.isSome_map] at same
    rw [mem_names_iff_isSome_find? found, mem_names_iff_isSome_find? found', same]
  have sorted : (here.names first).Pairwise (· < ·) := pairwise_names isTree
  have sorted' : (there.names second).Pairwise (· < ·) := pairwise_names isTree'
  have perm : (here.names first).Perm (there.names second) :=
    (List.perm_ext_iff_of_nodup (sorted.imp Std.ne_of_lt) (sorted'.imp Std.ne_of_lt)).2 mem_iff
  exact perm.eq_of_pairwise (fun _ _ _ _ lt gt => absurd gt (String.lt_asymm lt)) sorted sorted'

/-- Whether a file is found from below a directory is a matter of the tree in the directory. -/
theorem Leads.isFile_join_iff (leads : files.Leads directory (location ++ below))
    (stands : files.root.find? location = some tree) (relative : isAbsolute rest = false)
    (inside : staysInside below.length (pieces rest) = true) :
    files.isFile (Path.join directory rest) = true ↔
      '\x00' ∉ rest.toList ∧ (Path.join directory rest).utf8ByteSize < maxPathSize ∧
        ∃ there content, (⟨tree, []⟩ : FileSystem).follow below (pieces rest) = .ok there ∧
          tree.shows there = some (some content) := by
  simp only [isFile_iff, leads.node_join relative, follow_within stands inside]
  cases (⟨tree, []⟩ : FileSystem).follow below (pieces rest) with
  | error error => simp [Except.map]
  | ok there =>
      simp [Except.map, FileNode.shows_eq_file_iff, FileNode.find?_append, stands]

end FileSystem

namespace Manifest

open LayerComposition.Path

variable {manifest : Manifest} {directory name pattern : String}

/-- A pattern with a star at neither end, which has to be a piece of a path. -/
def isBare (pattern : String) : Bool :=
  pattern.toList.head? != some '*' && pattern.toList.getLast? != some '*'

/-- Whether everything in a directory is excluded by a piece of the path of the directory. -/
def excludesPlace (manifest : Manifest) (directory : String) : Bool :=
  manifest.excludes.any fun pattern => isBare pattern && (above directory).contains pattern

/-- What ends behind the last separator does not reach in front of it. -/
theorem suffix_append_cons_iff {α : Type} {separator : α} {ending front rest : List α}
    (absent : separator ∉ ending) : ending <:+ front ++ separator :: rest ↔ ending <:+ rest := by
  constructor
  · intro suffix
    rcases List.suffix_or_suffix_of_suffix suffix (List.suffix_append front (separator :: rest))
      with within | within
    · rcases List.suffix_cons_iff.1 within with rfl | within
      · exact absurd List.mem_cons_self absent
      · exact within
    · exact absurd (within.subset List.mem_cons_self) absent
  · intro suffix
    exact suffix.trans ((List.suffix_cons separator rest).trans (List.suffix_append front _))

/-- Apart from pieces of the path above it, an entry is matched by its name alone. -/
theorem matchesPattern_join (filled : directory ≠ "") (isName : IsName name)
    (slashless : '/' ∉ pattern.toList) :
    matchesPattern (join directory name) pattern =
      (matchesPattern name pattern || (isBare pattern && (above directory).contains pattern)) := by
  have pieces_eq := pieces_join_of_isName filled isName
  unfold matchesPattern isBare
  split
  · next ending chars =>
      obtain ⟨stem, joined, -⟩ := exists_stem filled
      have absent : '/' ∉ ending := fun mem => slashless (by simp [chars, mem])
      rw [joined name isName.relative, Bool.eq_iff_iff]
      simp [List.isSuffixOf_iff_suffix, suffix_append_cons_iff absent, chars]
  · next notStar =>
      rw [pieces_eq, isName.pieces_eq]
      split
      · next star => simp [star]
      · next noStar =>
          have bare : pattern.toList.head? ≠ some '*' := fun star => by
            obtain ⟨ending, chars⟩ := List.head?_eq_some_iff.1 star
            exact notStar ending chars
          rw [Bool.eq_iff_iff]
          simp [noStar, bare, or_comm]

theorem isExcluded_join (filled : directory ≠ "") (isName : IsName name)
    (slashless : ∀ pattern ∈ manifest.excludes, '/' ∉ pattern.toList) :
    manifest.isExcluded (join directory name) =
      (manifest.isExcluded name || manifest.excludesPlace directory) := by
  rw [Bool.eq_iff_iff, Bool.or_eq_true, isExcluded, isExcluded, excludesPlace, List.any_eq_true,
    List.any_eq_true, List.any_eq_true, ← exists_or]
  refine exists_congr fun pattern => ?_
  rw [← and_or_left, ← Bool.or_eq_true]
  refine and_congr_right fun mem => ?_
  rw [matchesPattern_join filled isName (slashless pattern mem)]

/-- What makes a name that of a character, as far as it is seen from the tree around it. -/
structure FindsIn (manifest : Manifest) (tree : FileNode) (name : String) : Prop where
  isDirectory : tree.shows [name] = some none
  noZero : '\x00' ∉ manifest.files.catalog.toList
  hasCatalog : ∃ location content,
    (⟨tree, []⟩ : FileSystem).follow [name] (pieces manifest.files.catalog) = .ok location ∧
      tree.shows location = some (some content)

/-- The path under which the catalog of a character is looked for. -/
def catalogPath (manifest : Manifest) (directory name : String) : String :=
  join (join directory name) manifest.files.catalog

/-- Patterns without a slash, and a catalog that is never looked for outside of the directory in
    which the characters are. -/
structure Portable (manifest : Manifest) : Prop where
  slashless : ∀ pattern ∈ manifest.excludes, '/' ∉ pattern.toList
  relative : isAbsolute manifest.files.catalog = false
  inside : staysInside 1 (pieces manifest.files.catalog) = true

theorem portable_standard : standard.Portable := ⟨by decide, by decide, by decide⟩

theorem isCharacter_join_iff {files : FileSystem} {location : List String}
    {entries : List (String × FileNode)} (portable : manifest.Portable)
    (leads : files.Leads directory location)
    (stands : files.root.find? location = some (.directory entries)) (isName : IsName name) :
    manifest.isCharacter files (join directory name) = true ↔
      manifest.isExcluded name = false ∧ manifest.excludesPlace directory = false ∧
        (manifest.catalogPath directory name).utf8ByteSize < FileSystem.maxPathSize ∧
        manifest.FindsIn (.directory entries) name := by
  have excluded := isExcluded_join leads.filled isName portable.slashless
  have isFile := (leads.join isName stands).isFile_join_iff stands portable.relative portable.inside
  have isDirectory : files.isDirectory (join directory name) = true ↔
      (join directory name).utf8ByteSize < FileSystem.maxPathSize ∧
        (FileNode.directory entries).shows [name] = some none := by
    simp [FileSystem.isDirectory_iff, leads.node_join_of_isName isName stands,
      FileNode.shows_eq_directory_iff, FileNode.find?_singleton]
  have longer : (join directory name).utf8ByteSize + manifest.files.catalog.utf8ByteSize ≤
      (manifest.catalogPath directory name).utf8ByteSize :=
    size_add_size_le_join _ _ portable.relative
  rw [isCharacter, Bool.and_eq_true, Bool.and_eq_true, isDirectory, isFile, excluded]
  simp only [Bool.not_eq_true', Bool.or_eq_false_iff]
  constructor
  · rintro ⟨⟨⟨-, isDirectory⟩, named, placed⟩, noZero, short, hasCatalog⟩
    exact ⟨named, placed, short, isDirectory, noZero, hasCatalog⟩
  · rintro ⟨named, placed, short, isDirectory, noZero, hasCatalog⟩
    exact ⟨⟨⟨by omega, isDirectory⟩, named, placed⟩, noZero, short, hasCatalog⟩

theorem FindsIn.of_alike {first second : FileNode} (finds : manifest.FindsIn first name)
    (alike : first.Alike second) : manifest.FindsIn second name := by
  obtain ⟨isDirectory, noZero, location, content, arrives, isFile⟩ := finds
  refine ⟨(alike _).symm.trans isDirectory, noZero, location, content, ?_,
    (alike _).symm.trans isFile⟩
  rw [← FileSystem.follow_eq_of_alike alike, arrives]

/-- Two places that the patterns and the limit on the size of paths do not tell apart. -/
structure SamePlace (manifest : Manifest) (names : List String) (first second : String) : Prop where
  excludesPlace_eq : manifest.excludesPlace first = manifest.excludesPlace second
  short_iff : ∀ name ∈ names,
    (manifest.catalogPath first name).utf8ByteSize < FileSystem.maxPathSize ↔
      (manifest.catalogPath second name).utf8ByteSize < FileSystem.maxPathSize

/-- Directories with the same tree have the same characters, in whatever places they are, as long
    as neither the patterns nor the size of paths tell the places apart. -/
theorem names_scan_eq_of_alike {here there : FileSystem} {first second : String}
    {tree other : FileNode} (portable : manifest.Portable)
    (isTree : here.root.IsTree) (isTree' : there.root.IsTree)
    (found : here.node first = .ok tree) (found' : there.node second = .ok other)
    (alike : tree.Alike other) (same : manifest.SamePlace (here.names first) first second) :
    (manifest.scan here first).map (·.name) = (manifest.scan there second).map (·.name) := by
  have names_eq := FileSystem.names_eq_of_alike isTree isTree' found found' alike
  rw [names_scan, names_scan, ← names_eq]
  refine List.filter_congr fun name mem => ?_
  obtain ⟨inner, entries, found_entries, listed⟩ := FileSystem.mem_names_iff.1 mem
  obtain ⟨inner', entries', found_entries', listed'⟩ := FileSystem.mem_names_iff.1 (names_eq ▸ mem)
  obtain rfl : tree = .directory entries := Except.ok.inj (found.symm.trans found_entries)
  obtain rfl : other = .directory entries' := Except.ok.inj (found'.symm.trans found_entries')
  obtain ⟨location, leads, stands⟩ := FileSystem.exists_leads found
  obtain ⟨location', leads', stands'⟩ := FileSystem.exists_leads found'
  have isName := (FileNode.isTree_directory_iff.1 (isTree.find? stands)).2.1 _ listed
  have findsIn_iff : manifest.FindsIn (.directory entries) name ↔
      manifest.FindsIn (.directory entries') name :=
    ⟨fun finds => finds.of_alike alike, fun finds => finds.of_alike alike.symm⟩
  rw [Bool.eq_iff_iff, isCharacter_join_iff portable leads stands isName,
    isCharacter_join_iff portable leads' stands' isName, same.excludesPlace_eq,
    same.short_iff name mem, findsIn_iff]

/-! ## What shows of a place -/

def cast : FileNode :=
  .directory [("hero", .directory [("layers.txt", .file .empty)])]

/-- One tree at three places, two of which have a catalog above it. -/
def lots : FileSystem :=
  ⟨.directory [
      ("cast", cast),
      ("wip", .directory [("cast", cast), ("layers.txt", .file .empty)]),
      ("bare", .directory [("cast", cast)]),
      ("layers.txt", .file .empty)], []⟩

/-- Drafts are passed over, and the catalog is the one above the directory of characters. -/
def drafts : Manifest :=
  ⟨"characters", none, ⟨"../../layers.txt", "compositions.txt", "default.txt"⟩, ["wip"]⟩

theorem isTree_lots : lots.root.IsTree := by
  simp only [lots, cast, FileNode.isTree_directory_iff, List.forall_mem_cons, List.not_mem_nil,
    false_implies, implies_true, FileNode.IsTree.file, and_true]
  decide

theorem names_scan_eq_of_alike_lots :
    (standard.scan lots "cast").map (·.name) = (standard.scan lots "bare/cast").map (·.name) := by
  have names : lots.names "cast" = ["hero"] := List.mergeSort_singleton _
  have same : standard.SamePlace (lots.names "cast") "cast" "bare/cast" := by
    refine ⟨by decide, ?_⟩
    rw [names]
    decide
  exact names_scan_eq_of_alike portable_standard isTree_lots isTree_lots rfl rfl (fun _ => rfl) same

theorem names_scan_of_node_eq {files : FileSystem} {inner : FileNode}
    (found : files.node directory = .ok (.directory [(name, inner)])) :
    (manifest.scan files directory).map (·.name) =
      if manifest.isCharacter files (join directory name) then [name] else [] := by
  have names : files.names directory = [name] := by
    rw [FileSystem.names, found]
    exact List.mergeSort_singleton _
  rw [names_scan, names]
  cases isCharacter : manifest.isCharacter files (join directory name) <;> simp [isCharacter]

/-- A path that stays where it is any number of times before it goes on. -/
def detour : (count : Nat) → (path : String) → String
  | 0, path => path
  | count + 1, path => join "." (detour count path)

theorem isAbsolute_detour {path : String} (relative : isAbsolute path = false) (count : Nat) :
    isAbsolute (detour count path) = false := by
  induction count with
  | zero => exact relative
  | succ count ih => rw [detour, isAbsolute_join (by decide) ih]; decide

theorem size_detour {path : String} (relative : isAbsolute path = false) (count : Nat) :
    (detour count path).utf8ByteSize = 2 * count + path.utf8ByteSize := by
  induction count with
  | zero => simp [detour]
  | succ count ih =>
      have stays : join "." (detour count path) = "./" ++ detour count path := by
        rw [join, isAbsolute_detour relative]
        rfl
      have step : "./".utf8ByteSize = 2 := by decide
      rw [detour, stays, String.utf8ByteSize_append, ih, step]
      omega

theorem node_detour {files : FileSystem} {entries : List (String × FileNode)} {inner : FileNode}
    {path : String} (stands : files.root.find? files.workingDirectory = some (.directory entries))
    (relative : isAbsolute path = false) (count : Nat)
    (short : 2 * count + path.utf8ByteSize < FileSystem.maxPathSize)
    (found : files.node path = .ok inner) :
    files.node (detour count path) = .ok inner := by
  have leads : files.Leads "." files.workingDirectory := by
    have above_eq : above "." = ["."] := by decide
    refine ⟨by decide, by decide, ?_⟩
    rw [above_eq]
    exact FileSystem.follow_cons stands
  induction count with
  | zero => exact found
  | succ count ih =>
      have relative' := isAbsolute_detour relative count
      obtain ⟨location, located, stands⟩ := FileSystem.node_eq_ok_iff.1 (ih (by omega))
      obtain ⟨noZero, -, -, arrives⟩ := FileSystem.locate_eq_ok_iff.1 located
      rw [FileSystem.start, relative'] at arrives
      have size := size_detour relative (count + 1)
      rw [detour] at size ⊢
      exact (leads.node_join relative').2 ⟨noZero, size ▸ short, location, arrives, stands⟩

theorem isFile_catalogPath_detour :
    lots.isFile (standard.catalogPath (detour 2043 "cast") "hero") = false := by
  apply FileSystem.isFile_eq_false_of_long
  have size := size_detour (show isAbsolute "cast" = false by decide) 2043
  have named := size_add_size_le_join (detour 2043 "cast") "hero" (by decide)
  have longer := size_add_size_le_join (join (detour 2043 "cast") "hero") "layers.txt" (by decide)
  have sizes : "cast".utf8ByteSize = 4 ∧ "hero".utf8ByteSize = 4 ∧
    "layers.txt".utf8ByteSize = 10 := by decide
  rw [catalogPath, FileSystem.maxPathSize]
  simp only [standard, SourceNames.standard]
  omega

/-- The same tree is at all these places, but not the same characters: a piece of the path may be a
    pattern, the catalog may not be above the place, and its path may be too long. -/
theorem names_scan_lots :
    (lots.root.IsTree ∧ (∀ pattern ∈ drafts.excludes, '/' ∉ pattern.toList) ∧
      isAbsolute drafts.files.catalog = false) ∧
    (lots.node "cast" = .ok cast ∧ lots.node "wip/cast" = .ok cast ∧
      lots.node "bare/cast" = .ok cast ∧ lots.node (detour 2043 "cast") = .ok cast) ∧
    ((drafts.scan lots "cast").map (·.name) = ["hero"] ∧
      (drafts.scan lots "wip/cast").map (·.name) = [] ∧
      (drafts.scan lots "bare/cast").map (·.name) = []) ∧
    (standard.scan lots "cast").map (·.name) = ["hero"] ∧
      (standard.scan lots (detour 2043 "cast")).map (·.name) = [] := by
  have far : lots.node (detour 2043 "cast") = .ok cast :=
    node_detour rfl (by decide) 2043 (by decide) rfl
  refine ⟨⟨isTree_lots, by decide, by decide⟩, ⟨rfl, rfl, rfl, far⟩, ⟨?_, ?_, ?_⟩, ?_, ?_⟩
  · rw [names_scan_of_node_eq (show lots.node "cast" = .ok cast from rfl)]
    rfl
  · rw [names_scan_of_node_eq (show lots.node "wip/cast" = .ok cast from rfl)]
    rfl
  · rw [names_scan_of_node_eq (show lots.node "bare/cast" = .ok cast from rfl)]
    rfl
  · rw [names_scan_of_node_eq (show lots.node "cast" = .ok cast from rfl)]
    rfl
  · have isFile := isFile_catalogPath_detour
    rw [catalogPath] at isFile
    rw [names_scan_of_node_eq far, isCharacter, isFile, Bool.and_false]
    rfl

end Manifest

end LayerComposition
