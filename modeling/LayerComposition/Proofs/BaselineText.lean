import LayerComposition.Proofs.RegistryText

/-! # Baseline texts

The items of a line are shared out between presets and base ops, each once and in order. A baseline
that was read has a line of its own, with the presets in front of the colon and the base ops behind
it, from which it is read again.
-/

namespace LayerComposition

namespace Text

/-- A line is divided at its first colon. Without one, all of it is the head and the tail is
    empty. -/
def Divides (line head tail : List Char) : Prop :=
  ':' ∉ head ∧ (line = head ++ ':' :: tail ∨ line = head ∧ tail = [])

/-- The first line of a text that is not blank, trimmed; nothing if there is none. -/
def firstLine (text : String) : List Char :=
  (filledLines text).headD []

theorem exists_divides (line : List Char) : ∃ head tail, Divides line head tail := by
  by_cases held : ':' ∈ line
  · obtain ⟨head, tail, line_eq, free⟩ := List.eq_append_cons_of_mem held
    exact ⟨head, tail, free, .inl line_eq⟩
  · exact ⟨line, [], held, .inr ⟨rfl, rfl⟩⟩

theorem Divides.subset {line head tail : List Char} (divides : Divides line head tail) :
    head ⊆ line ∧ tail ⊆ line := by
  rcases divides with ⟨_, rfl | ⟨rfl, rfl⟩⟩ <;> simp

theorem splitAtFirst_of_notMem {separator : Char} {cs : List Char} (free : separator ∉ cs) :
    splitAtFirst separator cs = (cs, none) := by
  have other : ∀ c ∈ cs, decide (c ≠ separator) = true := by
    intro c mem
    simpa using fun same : c = separator => free (same ▸ mem)
  rw [splitAtFirst, List.takeWhile_eq_self_iff.2 other, List.dropWhile_eq_nil_iff.2 other]

theorem newline_notMem_firstLine (text : String) : '\n' ∉ firstLine text := by
  rw [firstLine, ← SourceLine.map_toList_all]
  cases lines : SourceLine.all text with
  | nil => exact List.not_mem_nil
  | cons line rest => exact SourceLine.newline_notMem_of_mem_all (by rw [lines]; simp)

/-- A character that is no comma stands in joined items only if it stands in one of them. -/
theorem notMem_intercalate {c : Char} (other : c ≠ ',') {items : List String}
    (free : ∀ item ∈ items, c ∉ item.toList) : c ∉ (",".intercalate items).toList := by
  induction items with
  | nil => simp
  | cons item rest ih =>
      obtain ⟨first, later⟩ := List.forall_mem_cons.1 free
      cases rest with
      | nil => simpa using first
      | cons next others =>
          have later := ih later
          rw [String.intercalate_cons_cons, String.toList_append, String.toList_append]
          simp only [List.mem_append, not_or]
          exact ⟨⟨first, by simpa using other⟩, later⟩

/-- What stands on a line may be put around a text that can stand there, or left out. -/
theorem IsField.around {separator : Char} {front middle back : String}
    (isField : IsField separator middle) (first : front = "" ∨ IsField separator front)
    (last : back = "" ∨ IsField separator back) : IsField separator (front ++ middle ++ back) := by
  have ended : separator ∉ "".toList := by simp
  have begun : IsField separator (front ++ middle) := by
    rcases first with rfl | first
    · simpa using isField
    · simpa using first.join isField ended
  rcases last with rfl | last
  · simpa using begun
  · simpa using begun.join last ended

end Text

/-- A line that can stand alone is the only line of its text. -/
theorem SourceLine.all_of_isField {line : String} (isField : Text.IsField '\n' line) :
    all line = [⟨1, line⟩] := by
  have alone : line.toList.splitOn '\n' = [line.toList] := by
    have free : ∀ piece ∈ [line.toList], '\n' ∉ piece := by simpa using isField.not_mem
    simpa using List.splitOn_intercalate '\n' free (by simp)
  have trimmed : ofTrimmed? 1 line.toList = some ⟨1, line⟩ :=
    ofTrimmed?_eq_some_iff.2 ⟨rfl, rfl, isField.filled⟩
  simp [all_eq_numbered_splitOn, numbered, alone, isField.trimmed, trimmed]

namespace Baseline

/-- How a baseline has the items of a line. Those of the tail are base ops, whether or not they can
    be read, and the ops among those of the head come behind them; the rest of the head are
    presets. -/
structure SharesOut (baseline : Baseline) (head tail : List String) : Prop where
  baseOps : baseline.baseOps = tail ++ head.filter fun item => (Op.read? item).isSome
  presetNames : baseline.presetNames = head.filter fun item => (Op.read? item).isNone
  each : (baseline.presetNames ++ baseline.baseOps).Perm (head ++ tail)

theorem ofLine_eq {line : String} {head tail : List Char}
    (divides : Text.Divides line.toList head tail) :
    ofLine line =
      ⟨(Text.items (String.ofList head)).filter fun item => (Op.read? item).isNone,
        Text.items (String.ofList tail) ++
          (Text.items (String.ofList head)).filter fun item => (Op.read? item).isSome⟩ := by
  rcases divides with ⟨free, line_eq | ⟨line_eq, rfl⟩⟩
  · simp [ofLine, line_eq, Text.splitAtFirst_append free, List.partition_eq_filter_filter,
      Function.comp_def]
  · simp [ofLine, line_eq, Text.splitAtFirst_of_notMem free, List.partition_eq_filter_filter,
      Function.comp_def]

/-- A list is still there when some of its members are moved behind another one. -/
theorem perm_filter_around {α : Type} (stays : α → Bool) (items others : List α) :
    (items.filter stays ++ (others ++ items.filter fun item => !stays item)).Perm
      (items ++ others) :=
  calc
    (items.filter stays ++ (others ++ items.filter fun item => !stays item)).Perm
        (items.filter stays ++ ((items.filter fun item => !stays item) ++ others)) :=
      List.perm_append_comm.append_left _
    _ = (items.filter stays ++ items.filter fun item => !stays item) ++ others :=
      (List.append_assoc ..).symm
    List.Perm _ (items ++ others) := (List.filter_append_perm stays items).append_right others

theorem sharesOut_ofLine {line : String} {head tail : List Char}
    (divides : Text.Divides line.toList head tail) :
    (ofLine line).SharesOut (Text.items (String.ofList head)) (Text.items (String.ofList tail)) := by
  rw [ofLine_eq divides]
  refine ⟨rfl, rfl, ?_⟩
  simpa using perm_filter_around (fun item => (Op.read? item).isNone)
    (Text.items (String.ofList head)) (Text.items (String.ofList tail))

/-- A baseline is what its text's first line is read as. -/
theorem read_eq_ofLine (text : String) : read text = ofLine (String.ofList (Text.firstLine text)) := by
  rw [read, Text.firstLine, ← SourceLine.map_toList_all]
  cases SourceLine.all text with
  | nil => rfl
  | cons line rest => simp

theorem exists_sharesOut_read (text : String) :
    ∃ head tail, Text.Divides (Text.firstLine text) head tail ∧
      (read text).SharesOut (Text.items (String.ofList head))
        (Text.items (String.ofList tail)) := by
  obtain ⟨head, tail, divides⟩ := Text.exists_divides (Text.firstLine text)
  rw [read_eq_ofLine]
  exact ⟨head, tail, divides, sharesOut_ofLine (by simpa using divides)⟩

/-! ## Reading again -/

/-- The presets can stand between commas in front of a colon, and are no ops; the base ops can stand
    between commas; and all of it can stand on one line. -/
structure Writable (baseline : Baseline) : Prop where
  presets : ∀ name ∈ baseline.presetNames, Text.IsField ',' name ∧ Op.read? name = none
  presetsFree : ∀ name ∈ baseline.presetNames, ':' ∉ name.toList ∧ '\n' ∉ name.toList
  ops : ∀ token ∈ baseline.baseOps, Text.IsField ',' token ∧ '\n' ∉ token.toList

theorem writable_read (text : String) : (read text).Writable := by
  obtain ⟨head, tail, divides, shared⟩ := exists_sharesOut_read text
  have unbroken := Text.newline_notMem_firstLine text
  obtain ⟨head_subset, tail_subset⟩ := divides.subset
  -- An item holds what its side of the line does.
  have within {side : List Char} {item : String} (mem : item ∈ Text.items (String.ofList side)) :
      item.toList ⊆ side := by
    simpa using Text.subset_of_mem_items mem
  constructor
  case presets =>
    intro name mem
    exact isField_of_mem_presetNames_read mem
  case presetsFree =>
    intro name mem
    rw [shared.presetNames] at mem
    have chars := within (List.mem_of_mem_filter mem)
    exact ⟨fun colon => divides.1 (chars colon), fun newline => unbroken (head_subset (chars newline))⟩
  case ops =>
    intro token mem
    rw [shared.baseOps, List.mem_append] at mem
    rcases mem with mem | mem
    · exact ⟨Text.isField_of_mem_items mem,
        fun newline => unbroken (tail_subset (within mem newline))⟩
    · have item_mem := List.mem_of_mem_filter mem
      exact ⟨Text.isField_of_mem_items item_mem,
        fun newline => unbroken (head_subset (within item_mem newline))⟩

variable {baseline : Baseline}

theorem Writable.isField_line (writable : baseline.Writable) :
    Text.IsField '\n' baseline.line := by
  have joined {items : List String} (fields : ∀ item ∈ items, Text.IsField '\n' item) :
      ",".intercalate items = "" ∨ Text.IsField '\n' (",".intercalate items) := by
    cases items with
    | nil => exact .inl rfl
    | cons item rest => exact .inr (Text.isField_intercalate (by simp) fields)
  have colon : Text.IsField '\n' ":" := by decide
  refine colon.around (joined fun name mem => ?_) (joined fun token mem => ?_)
  · exact (writable.presets name mem).1.of_not_mem (writable.presetsFree name mem).2
  · exact (writable.ops token mem).1.of_not_mem (writable.ops token mem).2

/-- What can be written is read from its line. -/
theorem Writable.read_line (writable : baseline.Writable) : read baseline.line = baseline := by
  have free := Text.notMem_intercalate (by decide)
    fun name mem => (writable.presetsFree name mem).1
  have divides : Text.Divides baseline.line.toList (",".intercalate baseline.presetNames).toList
      (",".intercalate baseline.baseOps).toList := ⟨free, .inl (by simp [line])⟩
  have presets_eq : Text.items (",".intercalate baseline.presetNames) = baseline.presetNames :=
    Text.items_intercalate fun name mem => (writable.presets name mem).1
  have ops_eq : Text.items (",".intercalate baseline.baseOps) = baseline.baseOps :=
    Text.items_intercalate fun token mem => (writable.ops token mem).1
  have no_ops : ∀ name ∈ baseline.presetNames, Op.read? name = none :=
    fun name mem => (writable.presets name mem).2
  have kept : baseline.presetNames.filter (fun name => (Op.read? name).isNone) =
      baseline.presetNames := by
    simpa [List.filter_eq_self] using no_ops
  have left : baseline.presetNames.filter (fun name => (Op.read? name).isSome) = [] := by
    simpa [List.filter_eq_nil_iff] using no_ops
  have alone : read baseline.line = ofLine baseline.line := by
    rw [read, SourceLine.all_of_isField writable.isField_line]
  rw [alone, ofLine_eq divides]
  simp only [String.ofList_toList, presets_eq, ops_eq, kept, left, List.append_nil]

/-- Every text gives a baseline that is read again from its own line. No preset is an op, and the
    items of the first line that is not blank are shared out, each once and in order. -/
theorem read_line_read (text : String) :
    read (read text).line = read text ∧
      (∀ name ∈ (read text).presetNames, Op.read? name = none) ∧
      ∃ head tail, Text.Divides (Text.firstLine text) head tail ∧
        (read text).SharesOut (Text.items (String.ofList head))
          (Text.items (String.ofList tail)) :=
  ⟨(writable_read text).read_line, fun name mem => ((writable_read text).presets name mem).2,
    exists_sharesOut_read text⟩

/-- An op of the head is written behind the tail, whose further colons and unread items stay. -/
example : (read "Smile,Hair>Short, Idle:Body+Base:Extra,,junk").line =
    "Smile,Idle:Body+Base:Extra,junk,Hair>Short" := by
  decide

end Baseline

end LayerComposition
