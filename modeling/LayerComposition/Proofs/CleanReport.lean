import LayerComposition.Proofs.CycleSearch
import LayerComposition.Proofs.RoundTrip
import LayerComposition.Validation

/-! # Clean reports

The canonical form of an expression describes what the expression describes if nothing is wrong
with the definitions and no composition bears the text of an op on a layer. A clean report does
not tell of the second: it finds layers that no op can name, but not ops that are hidden behind a
composition of the same text.
-/

namespace LayerComposition

/-- The ops on the layers and groups of a catalog. -/
def Catalog.ops (catalog : Catalog) : List Op :=
  catalog.layers.flatMap Layer.ops

theorem Synthesis.mem_ops_of_mem_opsBetween {catalog : Catalog} {preset state : Activation}
    {op : Op} (mem : op ∈ opsBetween catalog preset state) : op ∈ catalog.ops :=
  List.mem_flatMap.2 (exists_layer_of_mem_opsBetween mem)

namespace Character

theorem isClean_validate_iff {character : Character} :
    character.validate.isClean = true ↔ character.findings = [] :=
  List.isEmpty_iff.trans List.map_eq_nil_iff

theorem findings_eq_nil_iff {character : Character} :
    character.findings = [] ↔
      character.cycleFindings = [] ∧ character.duplicateFindings = [] ∧
        character.addressFindings = [] ∧ character.skippedFindings = [] ∧
        character.partsFindings = [] ∧ character.baselineFindings = [] := by
  simp only [findings, List.append_eq_nil_iff, and_assoc]

theorem addressFindings_of_isClean {character : Character}
    (clean : character.validate.isClean = true) : character.addressFindings = [] :=
  (findings_eq_nil_iff.1 (isClean_validate_iff.1 clean)).2.2.1

/-- If no composition includes another one, only the other findings keep a report from being
    clean. -/
theorem isClean_validate_of_unlinked {character : Character}
    (unlinked : character.registry.graph.edges = [])
    (nothing : character.duplicateFindings = [] ∧ character.addressFindings = [] ∧
      character.skippedFindings = [] ∧ character.partsFindings = [] ∧
      character.baselineFindings = []) : character.validate.isClean = true := by
  have acyclic := ReferenceGraph.cycles_eq_nil_of_edges_eq_nil unlinked
  exact isClean_validate_iff.2 (findings_eq_nil_iff.2 ⟨by simp [cycleFindings, acyclic], nothing⟩)

/-- With a clean report, and no composition that stands in the way of an op, the canonical form of
    an expression switches on the layers that the expression does. -/
theorem sameLayers_resolve_canonicalize {sources : CharacterSources}
    (clean : (ofSources sources).validate.isClean = true)
    (silent : (ofSources sources).registry.contains Expression.defaultText = false)
    (unshadowed : ∀ op ∈ (ofSources sources).catalog.ops,
      (ofSources sources).registry.contains op.text = false)
    {text canonical : String}
    (canonical_eq : (ofSources sources).canonicalize text = .ok canonical) :
    ∃ before after, (ofSources sources).resolveExpression text = .ok before ∧
      (ofSources sources).resolveExpression canonical = .ok after ∧
      after.sameLayers before (ofSources sources).catalog = true := by
  obtain ⟨before, resolved, written⟩ := Definitions.canonicalize_eq_ok_iff.1 canonical_eq
  -- What an expression activates can be written, and what a difference adds is hidden by nothing.
  have recoverable : (ofSources sources).Recoverable before
      ((ofSources sources).readExpression text).active := by
    refine ⟨addressFindings_of_isClean clean, ?_, ?_, silent⟩
    · intro name mem
      obtain ⟨contained, field⟩ := Expression.contains_of_mem_read mem
      exact ⟨.inl contained, field⟩
    · intro ops diff_eq op mem
      obtain ⟨preset, _, rfl⟩ := Definitions.diff_eq_ok_iff.1 diff_eq
      exact unshadowed op (Synthesis.mem_ops_of_mem_opsBetween mem)
  obtain ⟨_, ⟨after, resolved_again, same⟩, _⟩ := recover_synthesize recoverable written
  exact ⟨before, after, resolved, resolved_again, same⟩

/-- A pair of eyes. -/
def eyes : Catalog :=
  ⟨[⟨"Eyes", "Open", 1⟩, ⟨"Eyes", "Shut", 1⟩], [], by decide, by decide⟩

theorem read_eyes : Catalog.read "Eyes:Open:1\nEyes:Shut:1\n" = (eyes, []) :=
  Prod.ext (Catalog.ofLayers_eq (by decide) rfl) (by decide)

/-- A character with a composition that shuts the eyes. -/
def winkSources (name : String) : CharacterSources where
  name := "Wink"
  catalog := "Eyes:Open:1\nEyes:Shut:1\n"
  compositions := name ++ ":Eyes>Shut\n"
  baseline := ""

/-- The definitions of `winkSources`. -/
def wink (name : String) : Definitions where
  catalog := eyes
  registry := Registry.ofDefinitions [⟨name, ["Eyes>Shut"]⟩]
  baseline := ⟨[], []⟩

theorem ofSources_winkSources {name : String}
    (registry : Registry.read (name ++ ":Eyes>Shut\n") = ((wink name).registry, [])) :
    ofSources (winkSources name) = ofDefinitions "Wink" (wink name) :=
  ofSources_eq read_eyes registry rfl

theorem canonicalize_wink {name : String}
    (read : (wink name).readExpression "Eyes+Open" =
      ⟨ActiveSet.ofList [], [.enable "Eyes" "Open"]⟩) :
    (wink name).canonicalize "Eyes+Open" = .ok "Eyes>Open" := by
  have preset_eq : (wink name).presetState (ActiveSet.ofList []) = .ok ∅ := rfl
  have ops_eq : [.exclusive "Eyes" "Open"] =
      Synthesis.opsBetween eyes ∅ (Op.applyAll eyes ∅ [.enable "Eyes" "Open"]) :=
    Eq.symm (List.mergeSort_of_pairwise (by decide))
  have opened := Definitions.resolveExpression_eq_of_read read preset_eq
  rw [Definitions.canonicalize_eq_of_resolve opened, read]
  exact Definitions.synthesize_eq_ok_iff.2
    ⟨_, Definitions.diff_eq_ok_iff.2 ⟨_, preset_eq, ops_eq⟩, by decide⟩

/-- A composition that is named like an op on no layer does no harm. -/
theorem sameLayers_resolve_canonicalize_wink :
    ∃ before after,
      (ofSources (winkSources "Eyes>Odd")).resolveExpression "Eyes+Open" = .ok before ∧
      (ofSources (winkSources "Eyes>Odd")).resolveExpression "Eyes>Open" = .ok after ∧
      after.sameLayers before (ofSources (winkSources "Eyes>Odd")).catalog = true := by
  have loaded : ofSources (winkSources "Eyes>Odd") = ofDefinitions "Wink" (wink "Eyes>Odd") :=
    ofSources_winkSources rfl
  have clean : (ofSources (winkSources "Eyes>Odd")).validate.isClean = true := by
    rw [loaded]
    exact isClean_validate_of_unlinked (by decide) (by decide)
  have silent : (ofSources (winkSources "Eyes>Odd")).registry.contains
      Expression.defaultText = false := by
    rw [loaded]
    decide
  have unshadowed : ∀ op ∈ (ofSources (winkSources "Eyes>Odd")).catalog.ops,
      (ofSources (winkSources "Eyes>Odd")).registry.contains op.text = false := by
    rw [loaded]
    decide
  have canonical_eq : (ofSources (winkSources "Eyes>Odd")).canonicalize "Eyes+Open" =
      .ok "Eyes>Open" := by
    rw [loaded]
    exact canonicalize_wink rfl
  exact sameLayers_resolve_canonicalize clean silent unshadowed canonical_eq

theorem flatten_wink :
    (wink "Eyes>Open").registry.flatten "Eyes>Open" = ([.exclusive "Eyes" "Shut"], none) := by
  have found : (wink "Eyes>Open").registry.get? "Eyes>Open" =
      some ⟨"Eyes>Open", ["Eyes>Shut"]⟩ := by decide
  have unnamed : (wink "Eyes>Open").registry.get? "Eyes>Shut" = none := by decide
  have reads : Op.read? "Eyes>Shut" = some (.exclusive "Eyes" "Shut") := by decide
  simp [Registry.flatten, found, Registry.foldOps_op unnamed reads]

theorem presetState_wink :
    (wink "Eyes>Open").presetState (ActiveSet.ofList ["Eyes>Open"]) =
      .ok (Activation.ofList [("Eyes/Open", false), ("Eyes/Shut", true)]) := by
  have names : (ActiveSet.ofList ["Eyes>Open"]).names = ["Eyes>Open"] := rfl
  refine Definitions.presetState_eq_ok_iff.2 ⟨?_, ?_⟩
  · simp only [names, List.forall_mem_singleton, flatten_wink]
  · simp only [names, Definitions.activeWrites, List.flatMap_singleton, flatten_wink]
    decide

/-- A composition that is named like an op on a layer is taken for that op, and no report tells of
    it: what opens the eyes has a canonical form that shuts them. -/
theorem canonicalize_shadowed :
    (ofSources (winkSources "Eyes>Open")).validate.isClean = true ∧
      (ofSources (winkSources "Eyes>Open")).registry.contains Expression.defaultText = false ∧
      (ofSources (winkSources "Eyes>Open")).canonicalize "Eyes+Open" = .ok "Eyes>Open" ∧
      ∃ before after,
        (ofSources (winkSources "Eyes>Open")).resolveExpression "Eyes+Open" = .ok before ∧
        (ofSources (winkSources "Eyes>Open")).resolveExpression "Eyes>Open" = .ok after ∧
        after.sameLayers before (ofSources (winkSources "Eyes>Open")).catalog = false := by
  have loaded : ofSources (winkSources "Eyes>Open") = ofDefinitions "Wink" (wink "Eyes>Open") :=
    ofSources_winkSources rfl
  have opened : (wink "Eyes>Open").resolveExpression "Eyes+Open" =
      .ok (Activation.ofList [("Eyes/Open", true)]) := rfl
  have shadowed : (wink "Eyes>Open").readExpression "Eyes>Open" =
      ⟨ActiveSet.ofList ["Eyes>Open"], []⟩ := rfl
  rw [loaded]
  exact ⟨isClean_validate_of_unlinked (by decide) (by decide), by decide, canonicalize_wink rfl,
    _, _, opened, Definitions.resolveExpression_eq_of_read shadowed presetState_wink, by decide⟩

end Character

end LayerComposition
