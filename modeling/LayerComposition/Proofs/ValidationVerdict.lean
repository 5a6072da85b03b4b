import LayerComposition.Command
import LayerComposition.Proofs.CycleVerdict
import LayerComposition.Proofs.Discovery

/-! # The verdict on a project

Validating all characters of a project comes to the same as validating them one by one, although a
character that cannot be loaded is counted in the one case and ends the command in the other. What
makes a single character fail, if warnings do not count, is that it cannot be loaded or that one of
its compositions runs into a cycle.
-/

namespace LayerComposition

namespace Project

variable {files : FileSystem} {project : Project} {directory : CharacterDirectory} {root : String}

/-- A directory that was found is found again by its name, even if names come twice: the path of a
    directory is made from its name. -/
theorem find?_of_mem_characters [Manifest.Codec] (discovered : discover files root = .ok project)
    (mem : directory ∈ project.characters) : project.find? directory.name = some directory := by
  have eq_of_mem {other : CharacterDirectory} (listed : other ∈ project.characters) :
      other = ⟨other.name, project.pathOf other.name⟩ := by
    rw [(discover_eq_ok discovered).2.2] at listed
    exact Manifest.eq_of_mem_scan listed
  cases found : project.find? directory.name with
  | none =>
      have none := List.find?_eq_none.1 found directory mem
      simp at none
  | some other =>
      have same : other.name = directory.name := by simpa using List.find?_some found
      rw [eq_of_mem (List.mem_of_find?_eq_some found), eq_of_mem mem, same]

/-- Loading all characters loads each by its name. -/
theorem loadAll_of_discover [Manifest.Codec] (discovered : discover files root = .ok project) :
    project.loadAll files = project.names.map fun name => (name, project.load files (some name)) := by
  rw [loadAll, names, List.map_map]
  refine List.map_congr_left fun directory mem => ?_
  simp [load, select, find?_of_mem_characters discovered mem, bind, Except.bind]

theorem nodup_names [Manifest.Codec] (isTree : files.root.IsTree)
    (discovered : discover files root = .ok project) : project.names.Nodup := by
  rw [names, (discover_eq_ok discovered).2.2, Manifest.names_scan]
  exact ((FileSystem.pairwise_names isTree).filter _).imp fun lt => Std.ne_of_lt lt

end Project

namespace Registry

/-- The search in the graph finds nothing exactly if every composition expands to its end. -/
theorem cycles_graph_eq_nil_iff_expand (registry : Registry) (catalog : Catalog) :
    registry.graph.cycles = [] ↔ ∀ name ∈ registry.names, ∀ activation,
      (registry.expand catalog name activation).cycle = none := by
  simp only [cycles_graph_eq_nil_iff, expand_eq_flatten]
  constructor
  · intro flattens name _ _
    exact flattens name
  · intro flattens name
    cases found : registry.get? name with
    | none => simp [flatten, found]
    | some composition => exact flattens name (mem_names_of_get? found) ∅

end Registry

namespace Environment

variable {environment : Environment} {root name : String} {strict : Bool} {project : Project}

theorem verdict_eq_ok_iff {failures : Nat} : verdict strict failures = .ok () ↔ failures = 0 := by
  unfold verdict
  split <;> simp_all

/-- A verdict that is not good tells how many failed. -/
theorem failure_of_verdict {failures : Nat} {failure : Failure}
    (failed : verdict strict failures = .error failure) :
    failure = .validation (plural failures "character" "characters" ++ " failed validation")
      (if strict then some "Warnings count as errors with --strict" else none) := by
  unfold verdict at failed
  split at failed
  · contradiction
  · exact (Except.error.inj failed).symm

variable [Manifest.Codec]

/-- Whether validating the one character of a name fails. -/
def failsAlone (environment : Environment) (root : String) (strict : Bool) (name : String) : Bool :=
  !(environment.validateOne ⟨root, some name⟩ strict).result.isOk

/-- How validating all characters of a project ends, in terms of how validating each one ends. -/
structure ValidatesEach (environment : Environment) (root : String) (strict : Bool) : Prop where
  succeeds_iff : (environment.validateAll root strict).result = .ok () ↔
    ∃ project, Project.discover environment.files root = .ok project ∧ ∀ name ∈ project.names,
      (environment.validateOne ⟨root, some name⟩ strict).result = .ok ()
  undiscovered : ∀ failure, Project.discover environment.files root = .error failure →
    (environment.validateAll root strict).result = .error failure
  counts : ∀ project failure, Project.discover environment.files root = .ok project →
    (environment.validateAll root strict).result = .error failure →
      failure = .validation
        (plural (project.names.countP (environment.failsAlone root strict)) "character"
          "characters" ++ " failed validation")
        (if strict then some "Warnings count as errors with --strict" else none)
  distinct : ∀ project, environment.files.root.IsTree →
    Project.discover environment.files root = .ok project → project.names.Nodup

theorem load_of_discover (discovered : Project.discover environment.files root = .ok project)
    (name : String) : environment.load ⟨root, some name⟩ =
      project.load environment.files (some name) := by
  simp [load, discovered, bind, Except.bind]

/-- A single run passes if its character can be loaded and what is remarked lets it pass. -/
theorem validateOne_eq_ok_iff {selection : Selection} :
    (environment.validateOne selection strict).result = .ok () ↔
      ∃ character, environment.load selection = .ok character ∧
        passes strict character.validate = true := by
  unfold validateOne withCharacter
  cases loaded : environment.load selection with
  | error failure => simp [Transcript.failed]
  | ok character => cases passed : passes strict character.validate <;>
      simp [checkLines, passed, verdict_eq_ok_iff]

theorem failsAlone_eq_false_iff :
    environment.failsAlone root strict name = false ↔
      (environment.validateOne ⟨root, some name⟩ strict).result = .ok () := by
  unfold failsAlone
  cases (environment.validateOne ⟨root, some name⟩ strict).result <;>
    simp [Except.isOk, Except.toBool]

/-- An entry fails in the run over all characters exactly if its single run does. -/
theorem checkEntry_eq (discovered : Project.discover environment.files root = .ok project)
    (strict : Bool) (name : String) :
    (environment.checkEntry strict (name, project.load environment.files (some name))).2 =
      !environment.failsAlone root strict name := by
  rw [Bool.eq_iff_iff, Bool.not_eq_true', failsAlone_eq_false_iff, validateOne_eq_ok_iff,
    load_of_discover discovered]
  cases project.load environment.files (some name) <;> simp [checkEntry, checkLines]

/-- The run over all characters ends with the verdict on as many failures as single runs have. -/
theorem result_validateAll (discovered : Project.discover environment.files root = .ok project)
    (strict : Bool) : (environment.validateAll root strict).result =
      verdict strict (project.names.countP (environment.failsAlone root strict)) := by
  simp only [validateAll, discovered, Project.loadAll_of_discover discovered, List.map_map,
    List.countP_map, Function.comp_def, checkEntry_eq discovered, Bool.not_not]

theorem validatesEach (environment : Environment) (root : String) (strict : Bool) :
    environment.ValidatesEach root strict := by
  constructor
  case succeeds_iff =>
    cases discovered : Project.discover environment.files root with
    | error failure => simp [validateAll, discovered, Transcript.failed]
    | ok project =>
        simp [result_validateAll discovered, verdict_eq_ok_iff, List.countP_eq_zero,
          failsAlone_eq_false_iff]
  case undiscovered =>
    intro failure undiscovered
    simp [validateAll, undiscovered, Transcript.failed]
  case counts =>
    intro project failure discovered failed
    rw [result_validateAll discovered] at failed
    exact failure_of_verdict failed
  case distinct => exact fun project => Project.nodup_names

/-- Validating all characters succeeds exactly if the project is discovered and each single run
    succeeds, and else tells how many of them fail. Where warnings do not count, a single run
    succeeds exactly if its character loads and each of its compositions expands to its end. -/
theorem validateAll_and_validateOne (environment : Environment) (root : String) (strict : Bool) :
    environment.ValidatesEach root strict ∧
      ∀ name, (environment.validateOne ⟨root, some name⟩ false).result = .ok () ↔
        ∃ character, environment.load ⟨root, some name⟩ = .ok character ∧
          ∀ composition ∈ character.registry.names, ∀ activation,
            (character.registry.expand character.catalog composition activation).cycle = none := by
  refine ⟨environment.validatesEach root strict, fun name => validateOne_eq_ok_iff.trans ?_⟩
  refine exists_congr fun character => and_congr_right fun _ => ?_
  rw [← Registry.cycles_graph_eq_nil_iff_expand, passes, ← not_iff_not]
  simpa using character.hasErrors_validate_iff

end Environment

end LayerComposition
