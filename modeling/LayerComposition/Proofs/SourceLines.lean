import LayerComposition.Proofs.CleanReport

/-! # Source lines

Each reader passes over what it cannot use: lines that define nothing, and all but one of several
definitions. With a clean report nothing of the kind was passed over, and every line of a catalog
and of a compositions text defines what stands on it. Of a baseline only the first line is read,
and no report tells of the others.
-/

namespace LayerComposition

/-- The lines of a text that are not blank, trimmed. -/
def Text.filledLines (text : String) : List (List Char) :=
  ((lines text.toList).map trim).filter (· ≠ [])

/-- The items on both sides of the first colon of a line. -/
def Baseline.itemsOf (line : List Char) : List String :=
  let (head, tail) := Text.splitAtFirst ':' line
  Text.items (String.ofList head) ++ Text.items (String.ofList (tail.getD []))

/-! ## Lines of a reading -/

theorem SourceLine.map_toList_all (text : String) :
    (all text).map (·.text.toList) = Text.filledLines text := by
  unfold all Text.filledLines
  generalize Text.lines text.toList = lines
  generalize 1 = number
  induction lines generalizing number with
  | nil => rfl
  | cons line rest ih =>
      have later := ih (number + 1)
      cases trimmed : Text.trim line with
      | nil => simpa [trimmed] using later
      | cons c cs => simpa [trimmed] using later

/-- Where no line was skipped, each one gave a value. -/
theorem Reading.exists_of_skipped_eq_nil {α : Type} {read? : String → Option α} {text : String}
    (kept : (ofText read? text).skipped = []) {line : List Char}
    (mem : line ∈ Text.filledLines text) :
    ∃ value ∈ (ofText read? text).accepted, read? (String.ofList line) = some value := by
  rw [← SourceLine.map_toList_all] at mem
  obtain ⟨source, source_mem, rfl⟩ := List.mem_map.1 mem
  have read : read? source.text ≠ none := by
    simpa using List.filter_eq_nil_iff.1 kept source source_mem
  obtain ⟨value, found⟩ := Option.ne_none_iff_exists'.1 read
  rw [String.ofList_toList]
  exact ⟨value, List.mem_filterMap.2 ⟨source, source_mem, found⟩, found⟩

/-! ## Definitions that are kept -/

/-- Where no id is defined again, every definition is kept. -/
theorem Catalog.mem_ofLayers {layers : List Layer} {layer : Layer}
    (distinct : (ofLayers layers).duplicates = []) (mem : layer ∈ layers) :
    layer ∈ (ofLayers layers).layers := by
  have kept : distinctOn Layer.id layers = layers :=
    distinctOn_eq_self (repeatsOn_eq_nil_iff.1 distinct)
  show layer ∈ inRenderOrder (distinctOn Layer.id layers)
  rw [inRenderOrder, List.mem_mergeSort, kept]
  exact mem

theorem Registry.mem_ofDefinitions {definitions : List Composition} {composition : Composition}
    (distinct : (ofDefinitions definitions).duplicates = []) (mem : composition ∈ definitions) :
    composition ∈ (ofDefinitions definitions).compositions := by
  have nodup : (definitions.map Composition.name).Nodup := repeatsOn_eq_nil_iff.1 distinct
  have found : (ofDefinitions definitions).get? composition.name = some composition := by
    rw [get?, roster_ofDefinitions, Roster.get?_ofList]
    refine Entries.lookup_of_mem ?_ ?_
    · rw [List.map_reverse, List.nodup_reverse, List.map_map]
      exact nodup
    · exact List.mem_reverse.2 (List.mem_map.2 ⟨composition, mem, rfl⟩)
  exact mem_compositions_of_get? found

theorem Baseline.mem_ofLine {line item : String} (mem : item ∈ itemsOf line.toList) :
    item ∈ (ofLine line).presetNames ∨ item ∈ (ofLine line).baseOps := by
  simp only [ofLine, List.partition_eq_filter_filter, List.mem_append, List.mem_filter]
  rcases List.mem_append.1 mem with head | tail
  · cases reads : (Op.read? item).isSome with
    | true => exact .inr (.inr ⟨head, rfl⟩)
    | false => exact .inl ⟨head, by simp [reads]⟩
  · exact .inr (.inl tail)

namespace Character

variable {sources : CharacterSources}

/-- With a clean report every line of the catalog and of the compositions text, blank ones apart,
    defines what it states, and every item of the first line of the baseline is kept. -/
theorem stated_of_isClean (clean : (ofSources sources).validate.isClean = true) :
    (∀ line ∈ Text.filledLines sources.catalog,
        ∃ layer ∈ (ofSources sources).catalog.layers, layer.StatedBy line) ∧
      (∀ line ∈ Text.filledLines sources.compositions,
        ∃ composition ∈ (ofSources sources).registry.compositions,
          composition.StatedBy line) ∧
      ∀ line ∈ (Text.filledLines sources.baseline).head?, ∀ item ∈ Baseline.itemsOf line,
        item ∈ (ofSources sources).baseline.presetNames ∨
          item ∈ (ofSources sources).baseline.baseOps := by
  obtain ⟨_, repeated, _, skipped, _⟩ := findings_eq_nil_iff.1 (isClean_validate_iff.1 clean)
  obtain ⟨layers_distinct, compositions_distinct⟩ := List.append_eq_nil_iff.1 repeated
  obtain ⟨layers_kept, compositions_kept⟩ := List.append_eq_nil_iff.1 skipped
  refine ⟨?_, ?_, ?_⟩
  · intro line mem
    obtain ⟨layer, accepted, found⟩ :=
      Reading.exists_of_skipped_eq_nil (List.map_eq_nil_iff.1 layers_kept) mem
    refine ⟨layer, Catalog.mem_ofLayers (List.map_eq_nil_iff.1 layers_distinct) accepted, ?_⟩
    simpa using (Layer.read?_eq_some_iff.1 found).1
  · intro line mem
    obtain ⟨composition, accepted, found⟩ :=
      Reading.exists_of_skipped_eq_nil (List.map_eq_nil_iff.1 compositions_kept) mem
    refine ⟨composition,
      Registry.mem_ofDefinitions (List.map_eq_nil_iff.1 compositions_distinct) accepted, ?_⟩
    simpa using (Composition.read?_eq_some_iff.1 found).1
  · intro line first item mem
    rw [← SourceLine.map_toList_all, List.head?_map] at first
    obtain ⟨source, source_first, rfl⟩ := Option.map_eq_some_iff.1 first
    have read : (ofSources sources).baseline = Baseline.ofLine source.text := by
      show Baseline.read sources.baseline = Baseline.ofLine source.text
      cases lines : SourceLine.all sources.baseline with
      | nil => simp [lines] at source_first
      | cons other rest =>
          rw [lines] at source_first
          obtain rfl := Option.some.inj source_first
          rw [Baseline.read, lines]
    rw [read]
    exact Baseline.mem_ofLine mem

/-- Eyes that may blink, with a baseline. -/
def blinkSources (baseline : String) : CharacterSources :=
  { winkSources "Blink" with baseline }

theorem ofSources_blinkSources (baseline : String) :
    ofSources (blinkSources baseline) =
      ofDefinitions "Wink" { wink "Blink" with baseline := Baseline.read baseline } := by
  have registry : Registry.read ("Blink" ++ ":Eyes>Shut\n") = ((wink "Blink").registry, []) := rfl
  exact ofSources_eq read_eyes registry rfl

/-- Of a line with a preset and two ops nothing is lost. -/
theorem stated_of_isClean_blink :
    (∃ layer ∈ (ofSources (blinkSources "Blink,Eyes>Open:Eyes-\n")).catalog.layers,
        layer.StatedBy "Eyes:Shut:1".toList) ∧
      (∃ composition ∈
          (ofSources (blinkSources "Blink,Eyes>Open:Eyes-\n")).registry.compositions,
        composition.StatedBy "Blink:Eyes>Shut".toList) ∧
      ("Eyes>Open" ∈ (ofSources (blinkSources "Blink,Eyes>Open:Eyes-\n")).baseline.presetNames ∨
        "Eyes>Open" ∈ (ofSources (blinkSources "Blink,Eyes>Open:Eyes-\n")).baseline.baseOps) := by
  have clean :
      (ofSources (blinkSources "Blink,Eyes>Open:Eyes-\n")).validate.isClean = true := by
    rw [ofSources_blinkSources]
    exact isClean_validate_of_unlinked (by decide) (by decide)
  obtain ⟨layers, compositions, items⟩ := stated_of_isClean clean
  exact ⟨layers _ (by decide), compositions _ (by decide), items _ rfl _ (by decide)⟩

/-- The items of a second line are lost, and no report tells of it. -/
theorem isClean_of_second_line_lost :
    (ofSources (blinkSources ":Eyes>Open\nBlink\n")).validate.isClean = true ∧
      "Blink".toList ∈ Text.filledLines (blinkSources ":Eyes>Open\nBlink\n").baseline ∧
      "Blink" ∈ Baseline.itemsOf "Blink".toList ∧
      "Blink" ∉ (ofSources (blinkSources ":Eyes>Open\nBlink\n")).baseline.presetNames ∧
      "Blink" ∉ (ofSources (blinkSources ":Eyes>Open\nBlink\n")).baseline.baseOps := by
  rw [ofSources_blinkSources]
  exact ⟨isClean_validate_of_unlinked (by decide) (by decide), by decide⟩

end Character

end LayerComposition
