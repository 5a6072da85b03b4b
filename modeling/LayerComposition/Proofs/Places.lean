import LayerComposition.FileSystem
import LayerComposition.Entries

/-! # Places in a tree

A path that is joined from two is followed to where the first one leads, and from there along the
second. So the path of an entry leads to the entry, as long as the system takes a path of its
length, and a path that does not climb out of a directory sees nothing but the tree below it.
-/

namespace LayerComposition

namespace Path

/-- The pieces of a directory's path that stand in front of an entry in the path of the entry. -/
def above (directory : String) : List String :=
  (pieces (join directory "")).dropLast

/-- A name that an entry of a directory can have. -/
structure IsName (name : String) : Prop where
  notIdle : isIdle name = false
  notParent : name ≠ ".."
  noSlash : '/' ∉ name.toList
  noZero : '\x00' ∉ name.toList
  short : name.utf8ByteSize ≤ FileSystem.maxNameSize

instance (name : String) : Decidable (IsName name) :=
  decidable_of_iff (isIdle name = false ∧ name ≠ ".." ∧ '/' ∉ name.toList ∧ '\x00' ∉ name.toList ∧
      name.utf8ByteSize ≤ FileSystem.maxNameSize)
    ⟨fun ⟨notIdle, notParent, noSlash, noZero, short⟩ =>
        ⟨notIdle, notParent, noSlash, noZero, short⟩,
      fun ⟨notIdle, notParent, noSlash, noZero, short⟩ =>
        ⟨notIdle, notParent, noSlash, noZero, short⟩⟩

/-- Whether pieces never lead out of the directory in which they are followed, from a place so many
    levels below it. -/
def staysInside : (depth : Nat) → (pieces : List String) → Bool
  | _, [] => true
  | depth, piece :: rest =>
      if isIdle piece then staysInside depth rest
      else if piece = ".." then 0 < depth && staysInside (depth - 1) rest
      else staysInside (depth + 1) rest

variable {directory rest name : String}

/-- One slash stands between a directory and what is joined to it. -/
theorem exists_stem (filled : directory ≠ "") :
    ∃ stem : List Char, (∀ rest, isAbsolute rest = false →
        (join directory rest).toList = stem ++ '/' :: rest.toList) ∧
      (directory.toList = stem ∨ directory.toList = stem ++ ['/']) := by
  have notEmpty : directory.isEmpty = false := by simpa [String.isEmpty_iff] using filled
  by_cases closed : directory.toList.getLast? = some '/'
  · obtain ⟨stem, chars⟩ := List.getLast?_eq_some_iff.1 closed
    refine ⟨stem, fun rest relative => ?_, .inr chars⟩
    simp [join, relative, notEmpty, chars]
  · refine ⟨directory.toList, fun rest relative => ?_, .inl rfl⟩
    simp [join, relative, notEmpty, closed]

theorem pieces_join (filled : directory ≠ "") (relative : isAbsolute rest = false) :
    pieces (join directory rest) = above directory ++ pieces rest := by
  obtain ⟨stem, joined, _⟩ := exists_stem filled
  have empty : isAbsolute "" = false := by decide
  rw [above, pieces, pieces, pieces, joined rest relative, joined "" empty,
    List.splitOn_append_cons_self, List.splitOn_append_cons_self]
  simp

/-- The path of a directory itself may end in a slash, behind which there is an empty piece. -/
theorem pieces_eq_above (filled : directory ≠ "") :
    pieces directory = above directory ∨ pieces directory = above directory ++ [""] := by
  obtain ⟨stem, joined, chars⟩ := exists_stem filled
  have empty : isAbsolute "" = false := by decide
  rw [above, pieces, pieces, joined "" empty, List.splitOn_append_cons_self]
  rcases chars with chars | chars
  · exact .inl (by simp [chars])
  · exact .inr (by simp [chars, List.splitOn_append_cons_self])

theorem isAbsolute_join (filled : directory ≠ "") (relative : isAbsolute rest = false) :
    isAbsolute (join directory rest) = isAbsolute directory := by
  obtain ⟨stem, joined, chars⟩ := exists_stem filled
  rw [isAbsolute, isAbsolute, joined rest relative]
  cases stem with
  | nil =>
      have nonempty : directory.toList ≠ [] := by simpa using filled
      rcases chars with chars | chars
      · exact absurd chars nonempty
      · simp [chars]
  | cons c others => rcases chars with chars | chars <;> simp [chars]

theorem zero_mem_join (filled : directory ≠ "") (relative : isAbsolute rest = false) :
    '\x00' ∈ (join directory rest).toList ↔ '\x00' ∈ directory.toList ∨ '\x00' ∈ rest.toList := by
  obtain ⟨stem, joined, chars⟩ := exists_stem filled
  rw [joined rest relative]
  rcases chars with chars | chars <;> simp [chars]

theorem join_ne_empty (filled : directory ≠ "") (relative : isAbsolute rest = false) :
    join directory rest ≠ "" := by
  obtain ⟨stem, joined, _⟩ := exists_stem filled
  intro empty
  have chars := joined rest relative
  simp [empty] at chars

namespace IsName

theorem relative (isName : IsName name) : isAbsolute name = false := by
  cases chars : name.toList with
  | nil => simp [isAbsolute, chars]
  | cons c others =>
      have differs : c ≠ '/' := fun same => isName.noSlash (by simp [chars, same])
      simp [isAbsolute, chars, differs]

theorem pieces_eq (isName : IsName name) : pieces name = [name] := by
  simp [pieces, List.splitOn_eq_singleton isName.noSlash]

end IsName

theorem pieces_join_of_isName (filled : directory ≠ "") (isName : IsName name) :
    pieces (join directory name) = above directory ++ [name] := by
  rw [pieces_join filled isName.relative, isName.pieces_eq]

theorem above_join (filled : directory ≠ "") (isName : IsName name) :
    above (join directory name) = above directory ++ [name] := by
  have whole := pieces_join_of_isName filled isName
  rcases pieces_eq_above (join_ne_empty filled isName.relative) with same | same
  · exact same.symm.trans whole
  · have last : name = "" := by simpa using congrArg List.getLast? (whole.symm.trans same)
    exact absurd isName.notIdle (by simp [isIdle, last])

theorem size_add_size_le_join (directory rest : String) (relative : isAbsolute rest = false) :
    directory.utf8ByteSize + rest.utf8ByteSize ≤ (join directory rest).utf8ByteSize := by
  simp only [join, relative, Bool.false_or]
  split
  · next empty => simp [String.isEmpty_iff.1 empty]
  · split
    · simp [String.utf8ByteSize_append]
    · simp only [String.utf8ByteSize_append]
      omega

end Path

namespace FileNode

/-- What a node is by itself: the bytes of a file, nothing for a directory. -/
def content? : FileNode → Option ByteArray
  | file content => some content
  | directory _ => none

/-- Directories hold each name once, and only names that the system knows. -/
inductive IsTree : FileNode → Prop where
  | file (content : ByteArray) : IsTree (file content)
  | directory (entries : List (String × FileNode)) (distinct : (entries.map Prod.fst).Nodup)
      (names : ∀ entry ∈ entries, Path.IsName entry.1) (trees : ∀ entry ∈ entries, IsTree entry.2) :
      IsTree (directory entries)

theorem isTree_directory_iff {entries : List (String × FileNode)} :
    (directory entries).IsTree ↔ (entries.map Prod.fst).Nodup ∧
      (∀ entry ∈ entries, Path.IsName entry.1) ∧ ∀ entry ∈ entries, entry.2.IsTree := by
  constructor
  · intro isTree
    cases isTree with
    | directory entries distinct names trees => exact ⟨distinct, names, trees⟩
  · rintro ⟨distinct, names, trees⟩
    exact .directory entries distinct names trees

/-- What a location shows: a file with its bytes, or that there is a directory. -/
def shows (tree : FileNode) (location : List String) : Option (Option ByteArray) :=
  (tree.find? location).map content?

theorem shows_eq_file_iff {tree : FileNode} {location : List String} {content : ByteArray} :
    tree.shows location = some (some content) ↔ tree.find? location = some (file content) := by
  rcases found : tree.find? location with _ | _ | entries <;> simp [shows, found, content?]

theorem shows_eq_directory_iff {tree : FileNode} {location : List String} :
    tree.shows location = some none ↔
      ∃ entries, tree.find? location = some (directory entries) := by
  rcases found : tree.find? location with _ | _ | entries <;> simp [shows, found, content?]

/-- Two trees are alike if every location shows the same in both. The order in which directories
    keep their entries is nothing that shows. -/
def Alike (first second : FileNode) : Prop :=
  ∀ location, first.shows location = second.shows location

theorem Alike.symm {first second : FileNode} (alike : first.Alike second) : second.Alike first :=
  fun location => (alike location).symm

theorem Alike.cases {first second : FileNode} (alike : first.Alike second)
    (location : List String) :
    (first.find? location = none ∧ second.find? location = none) ∨
    (∃ content, first.find? location = some (file content) ∧
      second.find? location = some (file content)) ∨
    (∃ entries others, first.find? location = some (directory entries) ∧
      second.find? location = some (directory others)) := by
  have same := alike location
  rcases found : first.find? location with _ | _ | entries <;>
    rcases found' : second.find? location with _ | _ | others <;>
      simp_all [shows, content?]

theorem find?_append (tree : FileNode) (first second : List String) :
    tree.find? (first ++ second) = (tree.find? first).bind fun inner => inner.find? second := by
  induction first generalizing tree with
  | nil => simp [find?]
  | cons name rest ih =>
      cases tree with
      | file content => simp [find?]
      | directory entries => simp only [List.cons_append, find?, ih, Option.bind_assoc]

theorem find?_singleton (entries : List (String × FileNode)) (name : String) :
    (directory entries).find? [name] = entries.lookup name := by
  cases listed : entries.lookup name <;> simp [find?, listed]

theorem IsTree.find? {tree inner : FileNode} {location : List String} (isTree : tree.IsTree)
    (found : tree.find? location = some inner) : inner.IsTree := by
  induction location generalizing tree with
  | nil => exact Option.some.inj found ▸ isTree
  | cons name rest ih =>
      cases isTree with
      | file content => contradiction
      | directory entries distinct names trees =>
          obtain ⟨entry, listed, below⟩ := Option.bind_eq_some_iff.1 found
          exact ih (trees _ (Entries.mem_of_lookup listed)) below

end FileNode

namespace FileSystem

open LayerComposition.Path

/-- Where the pieces of a path are followed from. -/
def start (files : FileSystem) (path : String) : List String :=
  if isAbsolute path then [] else files.workingDirectory

/-- The path of a directory leads to a location, whatever is joined to the path. -/
structure Leads (files : FileSystem) (directory : String) (location : List String) : Prop where
  filled : directory ≠ ""
  noZero : '\x00' ∉ directory.toList
  along : files.follow (files.start directory) (above directory) = .ok location

variable {files : FileSystem} {here location : List String} {directory rest name path : String}
  {entries : List (String × FileNode)} {tree inner : FileNode}

theorem follow_append (first second : List String) :
    files.follow here (first ++ second) =
      (files.follow here first).bind fun there => files.follow there second := by
  induction first generalizing here with
  | nil => rfl
  | cons piece rest ih =>
      simp only [List.cons_append, follow]
      split
      · rfl
      · rfl
      · split
        · exact ih
        · split
          · exact ih
          · split
            · rfl
            · exact ih

theorem follow_cons {piece : String} {pieces : List String}
    (stands : files.root.find? here = some (.directory entries)) :
    files.follow here (piece :: pieces) =
      if isIdle piece = true then files.follow here pieces
      else if piece = ".." then files.follow here.dropLast pieces
      else if piece.utf8ByteSize > maxNameSize then .error .nameTooLong
      else files.follow (here ++ [piece]) pieces := by
  simp only [follow, stands]

/-- An idle piece leads from a directory to itself. -/
theorem follow_idle {piece : String} {there : List String} (idle : isIdle piece = true)
    (arrives : files.follow here [piece] = .ok there) : there = here := by
  simp only [follow, idle, if_true] at arrives
  split at arrives
  · contradiction
  · contradiction
  · exact (Except.ok.inj arrives).symm

theorem follow_name (isName : IsName name)
    (stands : files.root.find? here = some (.directory entries)) :
    files.follow here [name] = .ok (here ++ [name]) := by
  rw [follow_cons stands]
  simp [follow, isName.notIdle, isName.notParent, Nat.not_lt.2 isName.short]

theorem locate_eq_ok_iff :
    files.locate path = .ok location ↔
      '\x00' ∉ path.toList ∧ path ≠ "" ∧ path.utf8ByteSize < maxPathSize ∧
        files.follow (files.start path) (pieces path) = .ok location := by
  simp only [locate, List.contains_iff_mem, String.isEmpty_iff, start, ge_iff_le]
  split
  · next zero => simp [zero]
  · next noZero =>
      split
      · next empty => simp [empty]
      · next filled =>
          split
          · next long => simp [Nat.not_lt.2 long]
          · next short => simp [noZero, filled, Nat.lt_of_not_le short]

theorem node_eq_ok_iff :
    files.node path = .ok inner ↔
      ∃ location, files.locate path = .ok location ∧ files.root.find? location = some inner := by
  unfold node
  cases files.locate path with
  | error error => simp [bind, Except.bind]
  | ok location =>
      cases found : files.root.find? location <;>
        simp [bind, Except.bind, pure, Except.pure, throw, throwThe, MonadExceptOf.throw, found]

/-- Only a path of a size that the system takes leads anywhere. -/
theorem size_lt_of_node_eq_ok (found : files.node path = .ok inner) :
    path.utf8ByteSize < maxPathSize := by
  obtain ⟨location, located, -⟩ := node_eq_ok_iff.1 found
  exact (locate_eq_ok_iff.1 located).2.2.1

theorem leads_of_locate (located : files.locate directory = .ok location) :
    files.Leads directory location := by
  obtain ⟨noZero, filled, -, arrives⟩ := locate_eq_ok_iff.1 located
  refine ⟨filled, noZero, ?_⟩
  rcases pieces_eq_above filled with same | same
  · exact same ▸ arrives
  · rw [same, follow_append] at arrives
    cases reached : files.follow (files.start directory) (above directory) with
    | error error => simp [reached, Except.bind] at arrives
    | ok there =>
        rw [reached] at arrives
        rw [follow_idle (by decide) arrives]

theorem exists_leads (found : files.node directory = .ok (.directory entries)) :
    ∃ location, files.Leads directory location ∧
      files.root.find? location = some (.directory entries) := by
  obtain ⟨location, located, stands⟩ := node_eq_ok_iff.1 found
  exact ⟨location, leads_of_locate located, stands⟩

namespace Leads

/-- A path joined to that of a directory is followed from where the directory is. -/
theorem node_join (leads : files.Leads directory location) (relative : isAbsolute rest = false) :
    files.node (join directory rest) = .ok inner ↔
      '\x00' ∉ rest.toList ∧ (join directory rest).utf8ByteSize < maxPathSize ∧
        ∃ there, files.follow location (pieces rest) = .ok there ∧
          files.root.find? there = some inner := by
  have start_eq : files.start (join directory rest) = files.start directory := by
    rw [start, start, isAbsolute_join leads.filled relative]
  have follow_eq : files.follow (files.start directory) (pieces (join directory rest)) =
      files.follow location (pieces rest) := by
    rw [pieces_join leads.filled relative, follow_append, leads.along]
    rfl
  simp only [node_eq_ok_iff, locate_eq_ok_iff, zero_mem_join leads.filled relative, leads.noZero,
    false_or, start_eq, follow_eq, ne_eq, join_ne_empty leads.filled relative,
    not_false_eq_true, true_and, and_assoc, exists_and_left]

theorem join (leads : files.Leads directory location) (isName : IsName name)
    (stands : files.root.find? location = some (.directory entries)) :
    files.Leads (Path.join directory name) (location ++ [name]) := by
  refine ⟨join_ne_empty leads.filled isName.relative, ?_, ?_⟩
  · rw [zero_mem_join leads.filled isName.relative]
    exact not_or_intro leads.noZero isName.noZero
  · rw [start, isAbsolute_join leads.filled isName.relative, above_join leads.filled isName,
      follow_append, ← start, leads.along]
    exact follow_name isName stands

/-- An entry is found by its path unless the path is longer than the system takes. -/
theorem node_join_of_isName (leads : files.Leads directory location) (isName : IsName name)
    (stands : files.root.find? location = some (.directory entries)) :
    files.node (Path.join directory name) = .ok inner ↔
      (Path.join directory name).utf8ByteSize < maxPathSize ∧
        entries.lookup name = some inner := by
  have below : files.root.find? (location ++ [name]) = entries.lookup name := by
    rw [FileNode.find?_append, stands, Option.bind_some, FileNode.find?_singleton]
  rw [leads.node_join isName.relative, isName.pieces_eq, follow_name isName stands]
  simp [isName.noZero, below]

end Leads

/-- Pieces that do not lead out of a directory are followed as if there was nothing but the tree
    below it. -/
theorem follow_within {below pieces : List String} (stands : files.root.find? location = some tree)
    (inside : staysInside below.length pieces = true) :
    files.follow (location ++ below) pieces =
      ((⟨tree, []⟩ : FileSystem).follow below pieces).map (location ++ ·) := by
  induction pieces generalizing below with
  | nil => rfl
  | cons piece rest ih =>
      have seen : files.root.find? (location ++ below) = tree.find? below := by
        rw [FileNode.find?_append, stands]
        rfl
      cases found : tree.find? below with
      | none => simp [follow, seen, found, Except.map]
      | some inner =>
          cases inner with
          | file content => simp [follow, seen, found, Except.map]
          | directory entries =>
              rw [staysInside] at inside
              rw [follow_cons (seen.trans found), follow_cons found]
              by_cases idle : isIdle piece = true
              · rw [if_pos idle] at inside
                rw [if_pos idle, if_pos idle]
                exact ih inside
              rw [if_neg idle] at inside
              rw [if_neg idle, if_neg idle]
              by_cases parent : piece = ".."
              · -- One level up is still inside, since the location is not that of the tree itself.
                rw [if_pos parent, Bool.and_eq_true, decide_eq_true_eq] at inside
                have filled : below ≠ [] := List.ne_nil_of_length_pos inside.1
                rw [if_pos parent, if_pos parent, List.dropLast_append_of_ne_nil filled]
                exact ih (by rw [List.length_dropLast]; exact inside.2)
              rw [if_neg parent] at inside
              rw [if_neg parent, if_neg parent]
              split
              · rfl
              · rw [List.append_assoc]
                exact ih (by rw [List.length_append]; exact inside)

/-- The same pieces lead to the same location in trees that are alike. -/
theorem follow_eq_of_alike {first second : FileNode} {pieces : List String}
    (alike : first.Alike second) :
    (⟨first, location⟩ : FileSystem).follow here pieces =
      (⟨second, location⟩ : FileSystem).follow here pieces := by
  induction pieces generalizing here with
  | nil => rfl
  | cons piece rest ih =>
      simp only [follow, ih]
      rcases alike.cases here with ⟨none, none'⟩ | ⟨content, file, file'⟩ |
        ⟨entries, entries', directory, directory'⟩
      · rw [none, none']
      · rw [file, file']
      · rw [directory, directory']

end FileSystem

end LayerComposition
