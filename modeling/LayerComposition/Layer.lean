import LayerComposition.Text.Integer
import LayerComposition.Text.Lines

/-! # Layers

A character is drawn from layers. Each layer belongs to a group and is addressed by
`group/name`; its order says when it is drawn and has no part in what is switched on.
-/

namespace LayerComposition

/-- One drawable layer. -/
structure Layer where
  group : String
  name : String
  order : Int64
  deriving Repr, DecidableEq

namespace Layer

/-- The id under which a layer of a group is switched on and off. -/
def idOf (group name : String) : String :=
  group ++ "/" ++ name

def id (layer : Layer) : String :=
  idOf layer.group layer.name

/-- Read a catalog line `group:name:order`. Only the first two colons separate fields; group
    and name may not be blank. -/
def read? (line : String) : Option Layer :=
  match Text.splitAtFirst ':' line.toList with
  | (_, none) => none
  | (group, some rest) =>
      match Text.splitAtFirst ':' rest with
      | (_, none) => none
      | (name, some order) =>
          if Text.trim group = [] ∨ Text.trim name = [] then none
          else
            (Text.readInteger? (Text.trim order)).map fun order =>
              ⟨String.ofList (Text.trim group), String.ofList (Text.trim name), order⟩

private theorem trim_writeInteger (n : Int64) :
    Text.trim (Text.writeInteger n) = Text.writeInteger n := by
  have digit (k : Nat) (c : Char) (mem : c ∈ Nat.toDigits 10 k) : Text.isBlank c = false :=
    Text.isBlank_of_isDigit (Nat.isDigit_of_mem_toDigits (by decide) (by decide) mem)
  refine Text.trim_of_no_blank fun c mem => ?_
  unfold Text.writeInteger at mem
  split at mem
  · rcases List.mem_cons.1 mem with rfl | mem
    · decide
    · exact digit _ c mem
  · exact digit _ c mem

def line (layer : Layer) : String :=
  layer.group ++ ":" ++ layer.name ++ ":" ++ String.ofList (Text.writeInteger layer.order)

/-- A layer is read back from its line if its group and name can stand between colons. -/
theorem read?_line {layer : Layer} (group : Text.IsField ':' layer.group)
    (name : Text.IsField ':' layer.name) : read? layer.line = some layer := by
  have chars : layer.line.toList =
      layer.group.toList ++ ':' :: (layer.name.toList ++ ':' :: Text.writeInteger layer.order) := by
    simp [line]
  have filled {text : String} (isField : Text.IsField ':' text) : text.toList ≠ [] := by
    simpa using isField.filled
  rw [read?, chars, Text.splitAtFirst_append group.not_mem]
  simp only [Text.splitAtFirst_append name.not_mem, group.trimmed, name.trimmed, filled group,
    filled name, or_self, if_false, trim_writeInteger, Text.readInteger?_writeInteger,
    Option.map_some, String.ofList_toList]

end Layer

end LayerComposition
