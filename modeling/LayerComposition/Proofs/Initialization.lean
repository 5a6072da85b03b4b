import LayerComposition.Command
import LayerComposition.Proofs.ManifestText
import LayerComposition.Proofs.Writing

/-! # Setting up a project

Setting up writes the manifest that is in effect, with a default character filled in, or changes
nothing at all. The manifest that was written finds the same characters as the one that was in
effect before, so that setting up once more writes the same manifest again. Nothing is asked of the
encoding but that it reads back what it has written.
-/

namespace LayerComposition

open FileSystem (Writes)

namespace Manifest

/-- The names of the characters that a manifest finds. -/
def found (files : FileSystem) (root : String) (manifest : Manifest) : List String :=
  (manifest.scan files (Path.join root manifest.characters)).map (·.name)

/-- A manifest with the first character that it finds for a default, unless it has a default. -/
def withDefault (files : FileSystem) (root : String) (manifest : Manifest) : Manifest :=
  { manifest with
    defaultCharacter := manifest.defaultCharacter.or (manifest.found files root).head? }

variable {files written : FileSystem} {root : String} {manifest : Manifest}
  {parent : List String} {content : ByteArray}

theorem isName_fileName : Path.IsName fileName := by decide

theorem isName_standardCatalog : Path.IsName SourceNames.standard.catalog := by decide

/-- The standard catalog has another name than a manifest, so what a manifest takes for a catalog may
    be the manifest itself only if it is there. -/
theorem shows_of_catalog [Codec] (effective : inEffect files root = .ok manifest)
    (located : files.locate (pathIn root) = .ok (parent ++ [fileName])) {directory : String}
    (catalog : files.locate (Path.join directory manifest.files.catalog) =
      .ok (parent ++ [fileName])) :
    files.root.shows (parent ++ [fileName]) ≠ none := by
  unfold inEffect at effective
  split at effective
  · next there =>
      intro absent
      have missing : files.root.find? (parent ++ [fileName]) = none := by
        simpa [FileNode.shows] using absent
      simp [FileSystem.has, FileSystem.node, located, missing, Except.isOk, Except.toBool, bind,
        Except.bind, throw, throwThe, MonadExceptOf.throw] at there
  · obtain rfl := Except.ok.inj effective
    obtain ⟨front, same, -⟩ := FileSystem.exists_parent_of_locate isName_standardCatalog catalog
    have names := congrArg List.getLast? same
    simp only [List.getLast?_concat, Option.some.injEq] at names
    exact absurd names (by decide)

/-- A manifest finds the same characters after it was written. -/
theorem scan_eq_of_writes (writes : Writes files written parent fileName content)
    (old : ∀ directory, files.locate (Path.join directory manifest.files.catalog) =
      .ok (parent ++ [fileName]) → files.root.shows (parent ++ [fileName]) ≠ none)
    (root : String) : manifest.scan written root = manifest.scan files root := by
  have isCharacter_eq (path : String) :
      manifest.isCharacter written path = manifest.isCharacter files path := by
    rw [isCharacter, isCharacter, writes.isDirectory_eq, writes.isFile_eq (old path)]
  have names_eq : ((written.names root).filter fun name =>
        manifest.isCharacter files (Path.join root name)) =
      (files.names root).filter fun name => manifest.isCharacter files (Path.join root name) := by
    refine writes.filter_names fun located => ?_
    simp [isCharacter, writes.isDirectory_join isName_fileName located]
  simp only [scan, List.filter_map, Function.comp_def, isCharacter_eq, names_eq]

/-- A default that was filled in stays, if the files still hold the same characters. -/
theorem withDefault_withDefault (same : manifest.found written root = manifest.found files root) :
    (manifest.withDefault files root).withDefault written root =
      manifest.withDefault files root := by
  have found_eq : (manifest.withDefault files root).found written root =
      manifest.found files root := same
  rw [withDefault, found_eq]
  simp only [withDefault, Option.or_assoc, Option.or_self]

/-- The manifest that was written is the one that is loaded then. -/
theorem load_of_writes [Codec] [LawfulCodec] {text : String}
    (writes : Writes files written parent fileName text.toUTF8)
    (encoded : Codec.encode manifest = .ok text)
    (located : files.locate (pathIn root) = .ok (parent ++ [fileName])) :
    load written (pathIn root) = .ok manifest := by
  have located := writes.locate_eq_ok_iff.2 located
  exact load_eq_ok_iff.2 ⟨text, writes.readText_eq located, LawfulCodec.decode_encode encoded⟩

end Manifest

namespace Environment

open Manifest (Codec pathIn inEffect)

section

variable [Manifest.Codec] {environment : Environment} {path text : String} {force : Bool}
  {manifest : Manifest} {written : FileSystem}

/-- Setting up fails and leaves the files as they are, or writes the manifest that is in effect with
    its default. -/
theorem init_cases (environment : Environment) (path : String) (force : Bool) :
    (∃ failure, (environment.init path force).1.result = .error failure ∧
      (environment.init path force).2 = environment.files) ∨
    ∃ manifest text, inEffect environment.files path = .ok manifest ∧
      (environment.files.has (pathIn path) = true → force = true) ∧
      Codec.encode (manifest.withDefault environment.files path) = .ok text ∧
      environment.files.writeText (pathIn path) text = .ok (environment.init path force).2 ∧
      (environment.init path force).1.result = .ok () := by
  simp only [init, Project.discover_eq_map]
  split
  · exact .inl ⟨_, rfl, rfl⟩
  · next allowed =>
      cases effective : inEffect environment.files path with
      | error failure => exact .inl ⟨failure, rfl, rfl⟩
      | ok manifest =>
          simp only [Except.map]
          split
          · exact .inl ⟨_, rfl, rfl⟩
          · next text encoded =>
              split
              · exact .inl ⟨_, rfl, rfl⟩
              · next wrote =>
                  exact .inr ⟨manifest, text, rfl, by simpa using allowed, encoded, wrote, rfl⟩

/-- Setting up succeeds if the manifest in effect may be written and can be. -/
theorem init_of_writeText (allowed : environment.files.has (pathIn path) = true → force = true)
    (effective : inEffect environment.files path = .ok manifest)
    (encoded : Codec.encode (manifest.withDefault environment.files path) = .ok text)
    (wrote : environment.files.writeText (pathIn path) text = .ok written) :
    ∃ transcript, environment.init path force = (transcript, written) ∧
      transcript.result = .ok () := by
  have encoded : Codec.encode (initialManifest ⟨path, manifest, environment.files.has (pathIn path),
      manifest.scan environment.files (Path.join path manifest.characters)⟩) = .ok text := encoded
  simp only [init, Project.discover_eq_map, effective, Except.map, encoded, wrote]
  split
  · next blocked =>
      rw [Bool.and_eq_true] at blocked
      simp [allowed blocked.1] at blocked
  · exact ⟨_, rfl, rfl⟩

/-- Setting up succeeds exactly if there is nothing that may not be overwritten, the manifest in
    effect can be read, and it can be encoded with its default and written. -/
theorem result_init_eq_ok_iff : (environment.init path force).1.result = .ok () ↔
    (environment.files.has (pathIn path) = true → force = true) ∧
      ∃ manifest text written, inEffect environment.files path = .ok manifest ∧
        Codec.encode (manifest.withDefault environment.files path) = .ok text ∧
        environment.files.writeText (pathIn path) text = .ok written := by
  constructor
  · intro succeeded
    rcases environment.init_cases path force with
      ⟨failure, failed, -⟩ | ⟨manifest, text, effective, allowed, encoded, wrote, -⟩
    · rw [failed] at succeeded
      contradiction
    · exact ⟨allowed, manifest, text, _, effective, encoded, wrote⟩
  · rintro ⟨allowed, manifest, text, written, effective, encoded, wrote⟩
    obtain ⟨transcript, init_eq, succeeded⟩ := init_of_writeText allowed effective encoded wrote
    rw [init_eq, succeeded]

/-- What a project is after it was set up: its manifest is the one that was in effect with its
    default, nothing else has changed, and setting it up once more changes nothing at all. -/
structure IsSetUp (environment : Environment) (path : String) (after : FileSystem) : Prop where
  others : ∃ place, environment.files.locate (pathIn path) = .ok place ∧
    after.workingDirectory = environment.files.workingDirectory ∧
    ∀ location, location ≠ place →
      after.root.shows location = environment.files.root.shows location
  loads : ∃ manifest, inEffect environment.files path = .ok manifest ∧
    Manifest.load after (pathIn path) = .ok (manifest.withDefault environment.files path)
  again : ∃ transcript,
    ({ environment with files := after } : Environment).init path true = (transcript, after) ∧
      transcript.result = .ok ()

variable [Manifest.LawfulCodec]

theorem isSetUp_of_writeText (effective : inEffect environment.files path = .ok manifest)
    (encoded : Codec.encode (manifest.withDefault environment.files path) = .ok text)
    (wrote : environment.files.writeText (pathIn path) text = .ok written) :
    environment.IsSetUp path written := by
  obtain ⟨parent, located, writes⟩ := FileSystem.exists_writes Manifest.isName_fileName wrote
  have located' := writes.locate_eq_ok_iff.2 located
  have loaded := Manifest.load_of_writes writes encoded located
  have there : written.has (pathIn path) = true := writes.has_eq located'
  have effective' : inEffect written path = .ok (manifest.withDefault environment.files path) := by
    rw [inEffect, if_pos there, loaded]
  have scan_eq := Manifest.scan_eq_of_writes writes
    (fun directory => Manifest.shows_of_catalog effective located)
    (Path.join path manifest.characters)
  have found_eq : manifest.found written path = manifest.found environment.files path := by
    rw [Manifest.found, scan_eq, Manifest.found]
  constructor
  case others =>
    refine ⟨_, located, writes.workingDirectory_eq, fun location elsewhere => ?_⟩
    rw [writes.gains.shows, if_neg elsewhere]
  case loads => exact ⟨manifest, effective, loaded⟩
  case again =>
    refine init_of_writeText (fun _ => rfl) effective' ?_
      (FileSystem.writeText_eq_self located' writes.shows_self)
    rw [Manifest.withDefault_withDefault found_eq]
    exact encoded

/-- Whatever encoding manifests have, as long as it reads back what it has written: setting up a
    project never overwrites a manifest unless it is forced to, changes nothing where it fails, sets
    up the project where it succeeds, and succeeds where the manifest may and can be written. -/
theorem init_safe (environment : Environment) (path : String) (force : Bool) :
    (environment.files.has (pathIn path) = true → force = false →
      ∃ failure, (environment.init path force).1.result = .error failure) ∧
    (∀ failure, (environment.init path force).1.result = .error failure →
      (environment.init path force).2 = environment.files) ∧
    ((environment.init path force).1.result = .ok () →
      environment.IsSetUp path (environment.init path force).2) ∧
    ((environment.init path force).1.result = .ok () ↔
      (environment.files.has (pathIn path) = true → force = true) ∧
        ∃ manifest text written, inEffect environment.files path = .ok manifest ∧
          Codec.encode (manifest.withDefault environment.files path) = .ok text ∧
          environment.files.writeText (pathIn path) text = .ok written) := by
  rcases environment.init_cases path force with
    ⟨failure, failed, unchanged⟩ | ⟨manifest, text, effective, allowed, encoded, wrote, succeeded⟩
  · refine ⟨fun _ _ => ⟨failure, failed⟩, fun _ _ => unchanged, fun succeeded => ?_,
      result_init_eq_ok_iff⟩
    simp [failed] at succeeded
  · refine ⟨fun there unforced => ?_, fun failure failed => ?_, fun _ => ?_,
      result_init_eq_ok_iff⟩
    · simp [allowed there] at unforced
    · simp [succeeded] at failed
    · exact isSetUp_of_writeText effective encoded wrote

end

/-- A theatre with a cast of one, whose manifest only says where the cast is. -/
def theatre : Environment :=
  ⟨⟨.directory [("compo.yaml", .file "characters: cast\n".toUTF8),
      ("cast", .directory [("villain", .directory [("layers.txt", .file .empty)])])], []⟩, ⟨false⟩⟩

theorem inEffect_theatre : inEffect theatre.files "." = .ok ⟨"cast", none, .standard, []⟩ := by
  have text : theatre.files.readText (pathIn ".") = .ok "characters: cast\n" :=
    FileSystem.readText_of_find? rfl rfl
  exact Manifest.inEffect_eq_ok_iff.2
    (.written rfl text (Manifest.decode_eq_ok_of_toOption (by decide +kernel)))

theorem init_safe_theatre :
    (theatre.init "." true).1.result = .ok () ∧ theatre.IsSetUp "." (theatre.init "." true).2 := by
  obtain ⟨written, wrote⟩ : ∃ written, theatre.files.writeText (pathIn ".")
      ((⟨"cast", none, .standard, []⟩ : Manifest).withDefault theatre.files ".").write =
        .ok written := ⟨_, rfl⟩
  obtain ⟨-, -, setsUp, succeeds_iff⟩ := theatre.init_safe "." true
  have succeeded := succeeds_iff.2 ⟨fun _ => rfl, _, _, written, inEffect_theatre, rfl, wrote⟩
  exact ⟨succeeded, setsUp succeeded⟩

end Environment

end LayerComposition
