import LayerComposition.Proofs.Discovery

/-! # Writing a file

A file that is written shows at its location, and nothing else shows anything new, except that the
directory of a new file lists it. So paths are followed as before, and all that they lead to is as
before unless they lead to the file.
-/

namespace LayerComposition

namespace FileNode

variable {tree node : FileNode} {entries : List (String × FileNode)} {name : String}
  {parent location : List String} {content : ByteArray}

theorem lookup_putEntry (name other : String) (node : FileNode)
    (entries : List (String × FileNode)) :
    (putEntry name node entries).lookup other =
      if other = name then some node else entries.lookup other := by
  induction entries with
  | nil => simp [putEntry, Entries.lookup_cons]
  | cons entry rest ih =>
      by_cases first : entry.1 = name
      · by_cases same : other = name <;> simp [putEntry, Entries.lookup_cons, first, same]
      · by_cases same : other = entry.1
        · simp [putEntry, Entries.lookup_cons, first, same]
        · simp [putEntry, Entries.lookup_cons, first, same, ih]

theorem map_fst_putEntry (name : String) (node : FileNode) (entries : List (String × FileNode)) :
    (putEntry name node entries).map Prod.fst =
      if (entries.lookup name).isSome then entries.map Prod.fst
      else entries.map Prod.fst ++ [name] := by
  induction entries with
  | nil => simp [putEntry]
  | cons entry rest ih =>
      by_cases first : entry.1 = name
      · simp [putEntry, Entries.lookup_cons, first]
      · simp only [putEntry, first, if_false, List.map_cons, ih, Entries.lookup_cons,
          Ne.symm first]
        split <;> rfl

theorem putEntry_eq_self (listed : entries.lookup name = some node) :
    putEntry name node entries = entries := by
  induction entries with
  | nil => simp at listed
  | cons entry rest ih =>
      rw [Entries.lookup_cons] at listed
      by_cases first : entry.1 = name
      · rw [if_pos first.symm] at listed
        simp [putEntry, first.symm, ← Option.some.inj listed]
      · rw [if_neg (Ne.symm first)] at listed
        simp [putEntry, first, ih listed]

/-- Putting a node where it is changes nothing. -/
theorem put_eq_self (found : tree.find? location = some node) : put node location tree = tree := by
  induction location generalizing tree with
  | nil => simpa [find?, put] using found.symm
  | cons name rest ih =>
      cases tree with
      | file content => simp [find?] at found
      | directory entries =>
          obtain ⟨inner, listed, below⟩ := Option.bind_eq_some_iff.1 found
          simp [put, listed, ih below, putEntry_eq_self listed]

/-- The names in a directory as they are kept, none if there is no directory. -/
def listing (tree : FileNode) (location : List String) : List String :=
  match tree.find? location with
  | some (directory entries) => entries.map Prod.fst
  | _ => []

theorem shows_nil (entries : List (String × FileNode)) : (directory entries).shows [] = some none := by
  simp [shows, find?, content?]

theorem shows_cons (entries : List (String × FileNode)) (name : String) (rest : List String) :
    (directory entries).shows (name :: rest) =
      (entries.lookup name).bind fun inner => inner.shows rest := by
  cases listed : entries.lookup name <;> simp [shows, find?, listed]

theorem listing_nil (entries : List (String × FileNode)) :
    (directory entries).listing [] = entries.map Prod.fst := by
  simp [listing, find?]

theorem listing_cons (entries : List (String × FileNode)) (name : String) (rest : List String) :
    (directory entries).listing (name :: rest) =
      ((entries.lookup name).map fun inner => inner.listing rest).getD [] := by
  cases listed : entries.lookup name <;> simp [listing, find?, listed]

theorem shows_file_cons (content : ByteArray) (name : String) (rest : List String) :
    (file content).shows (name :: rest) = none := by
  simp [shows, find?]

theorem listing_file (content : ByteArray) (location : List String) :
    (file content).listing location = [] := by
  cases location <;> simp [listing, find?]

/-- A tree differs from another by a file that it shows, and by the name of the file in the listing
    of its directory if the other one shows nothing there. -/
structure Gains (before after : FileNode) (parent : List String) (name : String)
    (content : ByteArray) : Prop where
  stands : before.shows parent = some none
  free : before.shows (parent ++ [name]) ≠ some none
  shows : ∀ location, after.shows location =
    if location = parent ++ [name] then some (some content) else before.shows location
  listing : ∀ location, after.listing location = before.listing location ∨
    location = parent ∧ after.listing location = before.listing location ++ [name]

theorem gains_putEntry (free : (directory entries).shows [name] ≠ some none) :
    (directory entries).Gains (directory (putEntry name (file content) entries)) [] name content := by
  refine ⟨shows_nil entries, free, fun location => ?_, fun location => ?_⟩
  · cases location with
    | nil => simp [shows_nil]
    | cons other rest =>
        rw [shows_cons, shows_cons, lookup_putEntry]
        by_cases same : other = name
        · subst same
          cases rest with
          | nil => simp [FileNode.shows, find?, content?]
          | cons next more =>
              rw [shows_cons] at free
              rcases listed : entries.lookup other with _ | ⟨_⟩ | ⟨others⟩
              · simp [shows_file_cons]
              · simp [shows_file_cons]
              · simp [listed, shows_nil] at free
        · simp [same]
  · cases location with
    | nil =>
        rw [listing_nil, listing_nil, map_fst_putEntry]
        split <;> simp
    | cons other rest =>
        refine .inl ?_
        rw [listing_cons, listing_cons, lookup_putEntry]
        by_cases same : other = name
        · subst same
          rw [shows_cons] at free
          rcases listed : entries.lookup other with _ | ⟨_⟩ | ⟨others⟩
          · simp [listing_file]
          · simp [listing_file]
          · simp [listed, shows_nil] at free
        · simp [same]

theorem gains_put (stands : tree.shows parent = some none)
    (free : tree.shows (parent ++ [name]) ≠ some none) :
    tree.Gains (put (file content) (parent ++ [name]) tree) parent name content := by
  induction parent generalizing tree with
  | nil =>
      cases tree with
      | file content => simp [FileNode.shows, find?, content?] at stands
      | directory entries => simpa [put] using gains_putEntry free
  | cons step rest ih =>
      cases tree with
      | file content => simp [shows_file_cons] at stands
      | directory entries =>
          rw [shows_cons] at stands
          obtain ⟨inner, listed, below⟩ := Option.bind_eq_some_iff.1 stands
          rw [List.cons_append, shows_cons, listed, Option.bind_some] at free
          have gains := ih below free
          simp only [List.cons_append, put, listed, Option.getD_some]
          refine ⟨?_, ?_, fun location => ?_, fun location => ?_⟩
          · simpa [shows_cons, listed] using below
          · simpa [shows_cons, listed] using free
          · cases location with
            | nil => simp [shows_nil]
            | cons other more =>
                rw [shows_cons, shows_cons, lookup_putEntry]
                by_cases same : other = step
                · simp [same, listed, gains.shows more]
                · simp [same]
          · cases location with
            | nil => simp [listing_nil, map_fst_putEntry, listed]
            | cons other more =>
                rw [listing_cons, listing_cons, lookup_putEntry]
                by_cases same : other = step
                · simpa [same, listed] using gains.listing more
                · simp [same]

end FileNode

namespace FileSystem

open LayerComposition.Path

variable {files written : FileSystem} {here there location parent : List String}
  {directory path name text : String} {content : ByteArray}

/-- A path goes on only where a directory is. -/
theorem shows_of_follow {piece : String} {pieces : List String}
    (arrives : files.follow here (piece :: pieces) = .ok there) :
    files.root.shows here = some none := by
  cases found : files.root.find? here with
  | none => simp [follow, found] at arrives
  | some inner =>
      cases inner with
      | file content => simp [follow, found] at arrives
      | directory entries => exact FileNode.shows_eq_directory_iff.2 ⟨entries, found⟩

/-- What is joined to a path by its name is an entry of a directory. -/
theorem exists_parent_of_locate (isName : IsName name)
    (located : files.locate (join directory name) = .ok location) :
    ∃ parent, location = parent ++ [name] ∧ files.root.shows parent = some none := by
  obtain ⟨-, -, -, arrives⟩ := locate_eq_ok_iff.1 located
  obtain ⟨front, pieces_eq⟩ : ∃ front, pieces (join directory name) = front ++ [name] := by
    by_cases empty : directory = ""
    · exact ⟨[], by simp [empty, join, isName.pieces_eq]⟩
    · exact ⟨above directory, pieces_join_of_isName empty isName⟩
  rw [pieces_eq, follow_append] at arrives
  cases reached : files.follow (files.start (join directory name)) front with
  | error error => simp [reached, Except.bind] at arrives
  | ok parent =>
      simp only [reached, Except.bind] at arrives
      have stands := shows_of_follow arrives
      obtain ⟨entries, found⟩ := FileNode.shows_eq_directory_iff.1 stands
      rw [follow_name isName found] at arrives
      exact ⟨parent, (Except.ok.inj arrives).symm, stands⟩

theorem isDirectory_iff_shows : files.isDirectory path = true ↔
    ∃ location, files.locate path = .ok location ∧ files.root.shows location = some none := by
  simp only [isDirectory_iff, node_eq_ok_iff, FileNode.shows_eq_directory_iff]
  exact ⟨fun ⟨entries, location, located, found⟩ => ⟨location, located, entries, found⟩,
    fun ⟨location, located, entries, found⟩ => ⟨entries, location, located, found⟩⟩

theorem isFile_iff_shows : files.isFile path = true ↔ ∃ location content,
    files.locate path = .ok location ∧ files.root.shows location = some (some content) := by
  simp only [isFile_iff, node_eq_ok_iff, FileNode.shows_eq_file_iff]
  exact ⟨fun ⟨content, location, located, found⟩ => ⟨location, content, located, found⟩,
    fun ⟨location, content, located, found⟩ => ⟨content, location, located, found⟩⟩

/-- The names in a directory are its listing, sorted. -/
theorem names_of_locate (located : files.locate path = .ok location) :
    files.names path = (files.root.listing location).mergeSort fun a b => decide (a ≤ b) := by
  unfold names node FileNode.listing
  rw [located]
  rcases found : files.root.find? location with _ | ⟨_⟩ | ⟨entries⟩ <;>
    simp [bind, Except.bind, pure, Except.pure, throw, throwThe, MonadExceptOf.throw, found]

theorem names_of_locate_eq_error {error : FileError} (lost : files.locate path = .error error) :
    files.names path = [] := by
  simp [names, node, lost, bind, Except.bind]

theorem filter_mergeSort_concat {names : List String} {keeps : String → Bool}
    (drops : keeps name = false) :
    ((names ++ [name]).mergeSort fun a b => decide (a ≤ b)).filter keeps =
      (names.mergeSort fun a b => decide (a ≤ b)).filter keeps := by
  have sorted (names : List String) :
      ((names.mergeSort fun a b => decide (a ≤ b)).filter keeps).Pairwise (· ≤ ·) := by
    refine List.Pairwise.filter _ ((List.pairwise_mergeSort ?_ ?_ _).imp of_decide_eq_true)
    · intro first second third
      simpa using String.le_trans
    · intro first second
      simpa using String.le_total first second
  have perm : (((names ++ [name]).mergeSort fun a b => decide (a ≤ b)).filter keeps).Perm
      ((names.mergeSort fun a b => decide (a ≤ b)).filter keeps) := by
    refine ((List.mergeSort_perm _ _).filter keeps).trans ?_
    rw [List.filter_append, List.filter_cons_of_neg (by simp [drops]), List.filter_nil,
      List.append_nil]
    exact ((List.mergeSort_perm names _).filter keeps).symm
  exact perm.eq_of_pairwise (fun _ _ _ _ => String.le_antisymm) (sorted _) (sorted _)

/-- What a text is written as is read as that text. -/
theorem readText_of_find? (located : files.locate path = .ok location)
    (found : files.root.find? location = some (.file text.toUTF8)) :
    files.readText path = .ok text := by
  have decoded : String.fromUTF8? text.toByteArray = some text := dif_pos text.isValidUTF8
  simp [readText, node, located, found, decoded, bind, Except.bind, pure, Except.pure]

/-- What writing a file leaves: it shows where it was written, and all else is as it was. -/
structure Writes (files written : FileSystem) (parent : List String) (name : String)
    (content : ByteArray) : Prop where
  workingDirectory_eq : written.workingDirectory = files.workingDirectory
  gains : files.root.Gains written.root parent name content

theorem exists_writes (isName : IsName name)
    (wrote : files.writeText (join directory name) text = .ok written) :
    ∃ parent, files.locate (join directory name) = .ok (parent ++ [name]) ∧
      files.Writes written parent name text.toUTF8 := by
  cases located : files.locate (join directory name) with
  | error error => simp [writeText, located, bind, Except.bind] at wrote
  | ok location =>
      obtain ⟨parent, rfl, stands⟩ := exists_parent_of_locate isName located
      refine ⟨parent, rfl, ?_⟩
      simp only [writeText, located, bind, Except.bind] at wrote
      split at wrote
      · contradiction
      · next free =>
          obtain rfl := Except.ok.inj wrote
          refine ⟨rfl, FileNode.gains_put stands fun shown => ?_⟩
          obtain ⟨entries, found⟩ := FileNode.shows_eq_directory_iff.1 shown
          exact free entries found

/-- Writing to a file what it holds changes nothing. -/
theorem writeText_eq_self (located : files.locate path = .ok location)
    (shown : files.root.shows location = some (some text.toUTF8)) :
    files.writeText path text = .ok files := by
  have found := FileNode.shows_eq_file_iff.1 shown
  simp only [writeText, located, found, FileNode.put_eq_self found, bind, Except.bind, pure,
    Except.pure]

namespace Writes

theorem shows_self (writes : files.Writes written parent name content) :
    written.root.shows (parent ++ [name]) = some (some content) := by
  rw [writes.gains.shows, if_pos rfl]

theorem readText_eq (writes : files.Writes written parent name text.toUTF8)
    (located : written.locate path = .ok (parent ++ [name])) : written.readText path = .ok text :=
  readText_of_find? located (FileNode.shows_eq_file_iff.1 writes.shows_self)

theorem has_eq (writes : files.Writes written parent name content)
    (located : written.locate path = .ok (parent ++ [name])) : written.has path = true := by
  have found := FileNode.shows_eq_file_iff.1 writes.shows_self
  simp [has, node, located, found, bind, Except.bind, pure, Except.pure, Except.isOk, Except.toBool]

theorem shows_directory_iff (writes : files.Writes written parent name content)
    (location : List String) :
    written.root.shows location = some none ↔ files.root.shows location = some none := by
  rw [writes.gains.shows]
  split
  · next same => simp [same, writes.gains.free]
  · rfl

theorem follow_eq_ok_iff (writes : files.Writes written parent name content)
    {pieces : List String} :
    written.follow here pieces = .ok there ↔ files.follow here pieces = .ok there := by
  induction pieces generalizing here with
  | nil => simp [follow]
  | cons piece rest ih =>
      have stands_iff := writes.shows_directory_iff here
      by_cases stands : files.root.shows here = some none
      · obtain ⟨entries, found⟩ := FileNode.shows_eq_directory_iff.1 stands
        obtain ⟨entries', found'⟩ := FileNode.shows_eq_directory_iff.1 (stands_iff.2 stands)
        rw [follow_cons found, follow_cons found']
        split
        · exact ih
        · split
          · exact ih
          · split
            · rfl
            · exact ih
      · constructor
        · intro arrives
          exact absurd (stands_iff.1 (shows_of_follow arrives)) stands
        · intro arrives
          exact absurd (shows_of_follow arrives) stands

theorem locate_eq_ok_iff (writes : files.Writes written parent name content) :
    written.locate path = .ok location ↔ files.locate path = .ok location := by
  simp only [FileSystem.locate_eq_ok_iff, writes.follow_eq_ok_iff, start, writes.workingDirectory_eq]

theorem isDirectory_eq (writes : files.Writes written parent name content) (path : String) :
    written.isDirectory path = files.isDirectory path := by
  rw [Bool.eq_iff_iff, isDirectory_iff_shows, isDirectory_iff_shows]
  simp only [writes.locate_eq_ok_iff, writes.shows_directory_iff]

/-- A path leads to a file exactly if it did, unless it leads to a new one. -/
theorem isFile_eq (writes : files.Writes written parent name content)
    (old : files.locate path = .ok (parent ++ [name]) →
      files.root.shows (parent ++ [name]) ≠ none) :
    written.isFile path = files.isFile path := by
  rw [Bool.eq_iff_iff, isFile_iff_shows, isFile_iff_shows]
  simp only [writes.locate_eq_ok_iff, writes.gains.shows, exists_and_left]
  refine exists_congr fun location => and_congr_right fun located => ?_
  split
  · next same =>
      subst same
      have directory := writes.gains.free
      rcases shown : files.root.shows (parent ++ [name]) with _ | _ | content
      · exact absurd shown (old located)
      · exact absurd shown directory
      · simp
  · rfl

/-- What has the name of the file in its directory is no directory. -/
theorem isDirectory_join (writes : files.Writes written parent name content) (isName : IsName name)
    (located : files.locate directory = .ok parent) :
    files.isDirectory (join directory name) = false := by
  obtain ⟨entries, found⟩ := FileNode.shows_eq_directory_iff.1 writes.gains.stands
  have leads := leads_of_locate located
  rw [← Bool.not_eq_true, isDirectory_iff]
  rintro ⟨others, reached⟩
  have listed := ((leads.node_join_of_isName isName found).1 reached).2
  refine writes.gains.free (FileNode.shows_eq_directory_iff.2 ⟨others, ?_⟩)
  rw [FileNode.find?_append, found, Option.bind_some, FileNode.find?_singleton, listed]

/-- The names in a directory are those that were there, but for the name of the file. -/
theorem filter_names (writes : files.Writes written parent name content) {keeps : String → Bool}
    (drops : files.locate path = .ok parent → keeps name = false) :
    (written.names path).filter keeps = (files.names path).filter keeps := by
  cases located : files.locate path with
  | error error =>
      cases located' : written.locate path with
      | error error' => rw [names_of_locate_eq_error located, names_of_locate_eq_error located']
      | ok location =>
          have located' := writes.locate_eq_ok_iff.1 located'
          simp [located] at located'
  | ok location =>
      rw [names_of_locate located, names_of_locate (writes.locate_eq_ok_iff.2 located)]
      rcases writes.gains.listing location with same | ⟨rfl, longer⟩
      · rw [same]
      · rw [longer, filter_mergeSort_concat (drops located)]

end Writes

end FileSystem

end LayerComposition
