import LayerComposition.Op
import LayerComposition.Roster

/-! # Compositions

A composition is a named list of parts; a part is the name of a composition or the text of an
op. A registry holds the compositions of a character in the order in which they were defined.
-/

namespace LayerComposition

/-- A named bundle of parts, as they were written. -/
structure Composition where
  name : String
  parts : List String
  deriving Repr, DecidableEq

/-- What a token stands for. -/
inductive Part where
  /-- The token is the name of a composition. -/
  | composition (composition : Composition)
  /-- The token is the text of an op. -/
  | op (op : Op)
  /-- The token is neither; it is passed over wherever it stands. -/
  | unknown
  deriving Repr, DecidableEq

def Part.display : Part → String
  | composition c => "composition:" ++ c.name
  | op o => "op:" ++ o.text
  | unknown => "unknown"

/-- Read a compositions line `name:part,part,...`. The first colon ends the name, which may not
    be blank. -/
def Composition.read? (line : String) : Option Composition :=
  match Text.splitAtFirst ':' line.toList with
  | (_, none) => none
  | (name, some parts) =>
      if Text.trim name = [] then none
      else some ⟨String.ofList (Text.trim name), Text.items (String.ofList parts)⟩

def Composition.line (composition : Composition) : String :=
  composition.name ++ ":" ++ ",".intercalate composition.parts

/-- A composition is read back from its line if its name can stand before a colon and its parts
    between commas. -/
theorem Composition.read?_line {composition : Composition}
    (name : Text.IsField ':' composition.name)
    (parts : ∀ part ∈ composition.parts, Text.IsField ',' part) :
    read? composition.line = some composition := by
  have chars : composition.line.toList =
      composition.name.toList ++ ':' :: (",".intercalate composition.parts).toList := by
    simp [line]
  have filled : composition.name.toList ≠ [] := by simpa using name.filled
  rw [read?, chars, Text.splitAtFirst_append name.not_mem]
  simp only [name.trimmed, filled, if_false, String.ofList_toList, Text.items_intercalate parts]

/-- The compositions of a character, each under its own name, in the order of first definition, and
    the names that were defined again. -/
structure Registry where
  roster : Roster Composition
  named : ∀ entry ∈ roster.entries, entry.2.name = entry.1
  duplicates : List String

namespace Registry

/-- The registry of a list of definitions. A later definition replaces an earlier one of the same
    name, and takes its place. -/
def ofDefinitions (definitions : List Composition) : Registry where
  roster := Roster.ofList (definitions.map fun composition => (composition.name, composition))
  named := by
    intro entry mem
    obtain ⟨composition, _, rfl⟩ := List.mem_map.1 (Roster.mem_of_mem_ofList mem)
    rfl
  duplicates := repeatsOn Composition.name definitions

/-- Read a compositions text, one composition a line. -/
def read (text : String) : Registry × List SourceLine :=
  let reading := Reading.ofText Composition.read? text
  (ofDefinitions reading.accepted, reading.skipped)

/-- The names of the compositions, in the order of definition. -/
def names (registry : Registry) : List String :=
  registry.roster.keys

def compositions (registry : Registry) : List Composition :=
  registry.roster.entries.map Prod.snd

/-- The text that defines the compositions of a registry, one a line. -/
def text (registry : Registry) : String :=
  String.join (registry.compositions.map fun composition => composition.line ++ "\n")

def get? (registry : Registry) (name : String) : Option Composition :=
  registry.roster.get? name

def contains (registry : Registry) (name : String) : Bool :=
  registry.roster.contains name

def size (registry : Registry) : Nat :=
  registry.roster.size

/-- The number of parts of the composition that has most. -/
def longest (registry : Registry) : Nat :=
  registry.compositions.foldr (fun composition most => max composition.parts.length most) 0

/-- What a token stands for: a composition if there is one of that name, else an op if it can
    be read as one. -/
def classify (registry : Registry) (token : String) : Part :=
  match registry.get? token with
  | some composition => .composition composition
  | none =>
      match Op.read? token with
      | some op => .op op
      | none => .unknown

theorem roster_ofDefinitions (definitions : List Composition) :
    (ofDefinitions definitions).roster =
      Roster.ofList (definitions.map fun composition => (composition.name, composition)) := rfl

variable {registry : Registry} {name token : String} {composition : Composition}

theorem mem_entries_of_get? (found : registry.get? name = some composition) :
    (name, composition) ∈ registry.roster.entries :=
  Entries.mem_of_lookup found

theorem name_of_get? (found : registry.get? name = some composition) :
    composition.name = name :=
  registry.named _ (mem_entries_of_get? found)

theorem mem_compositions_of_get? (found : registry.get? name = some composition) :
    composition ∈ registry.compositions :=
  List.mem_map.2 ⟨_, mem_entries_of_get? found, rfl⟩

theorem mem_names_of_get? (found : registry.get? name = some composition) :
    name ∈ registry.names :=
  List.mem_map.2 ⟨_, mem_entries_of_get? found, rfl⟩

theorem get?_of_mem_compositions (mem : composition ∈ registry.compositions) :
    registry.get? composition.name = some composition := by
  obtain ⟨⟨name, composition⟩, entry_mem, rfl⟩ := List.mem_map.1 mem
  obtain rfl : composition.name = name := registry.named _ entry_mem
  exact Entries.lookup_of_mem registry.roster.keys_nodup entry_mem

/-- The names are those of the compositions. -/
theorem names_eq_map_compositions (registry : Registry) :
    registry.names = registry.compositions.map Composition.name := by
  rw [compositions, List.map_map]
  exact List.map_congr_left fun entry mem => (registry.named entry mem).symm

theorem contains_iff :
    registry.contains name = true ↔ ∃ composition, registry.get? name = some composition :=
  Option.isSome_iff_exists

theorem get?_of_not_contains (absent : registry.contains token = false) :
    registry.get? token = none :=
  Option.isSome_eq_false_iff.1 absent |> Option.isNone_iff_eq_none.1

/-! ## What a token stands for -/

/-- A name of a composition stands for that composition. -/
theorem classify_eq_composition_iff :
    registry.classify token = .composition composition ↔
      registry.get? token = some composition := by
  unfold classify
  split
  · rename_i found
    simp [found]
  · rename_i missing
    split <;> simp [missing]

/-- An op stands for itself where no composition bears its text. -/
theorem classify_eq_op_iff {op : Op} :
    registry.classify token = .op op ↔ registry.get? token = none ∧ Op.read? token = some op := by
  unfold classify
  split
  · rename_i found
    simp [found]
  · rename_i missing
    split <;> simp_all

theorem classify_eq_unknown_iff :
    registry.classify token = .unknown ↔ registry.get? token = none ∧ Op.read? token = none := by
  unfold classify
  split
  · rename_i found
    simp [found]
  · rename_i missing
    split <;> simp_all

theorem classify_of_contains (contained : registry.contains token = true) :
    ∃ inner, registry.classify token = .composition inner := by
  obtain ⟨inner, found⟩ := contains_iff.1 contained
  exact ⟨inner, classify_eq_composition_iff.2 found⟩

/-- What no composition is named after stands for the op that it is read as, if for anything. -/
theorem classify_of_not_contains (absent : registry.contains token = false) :
    registry.classify token = (Op.read? token).elim .unknown .op := by
  rw [classify, get?_of_not_contains absent]
  cases Op.read? token <;> rfl

theorem get?_of_classify (classified : registry.classify token = .composition composition) :
    registry.get? token = some composition :=
  classify_eq_composition_iff.1 classified

theorem contains_of_classify (classified : registry.classify token = .composition composition) :
    registry.contains token = true :=
  contains_iff.2 ⟨composition, get?_of_classify classified⟩

theorem name_of_classify (classified : registry.classify token = .composition composition) :
    composition.name = token :=
  name_of_get? (get?_of_classify classified)

theorem length_parts_le_longest (found : registry.get? name = some composition) :
    composition.parts.length ≤ registry.longest := by
  have mem := mem_compositions_of_get? found
  unfold longest
  generalize registry.compositions = compositions at mem
  induction compositions with
  | nil => contradiction
  | cons first rest ih =>
      rcases List.mem_cons.1 mem with rfl | mem
      · exact Nat.le_max_left _ _
      · exact Nat.le_trans (ih mem) (Nat.le_max_right _ _)

end Registry

end LayerComposition
