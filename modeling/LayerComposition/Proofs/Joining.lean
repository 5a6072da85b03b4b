import LayerComposition.Proofs.Occurrences
import LayerComposition.Proofs.RoundTrip

/-! # Joined expressions

Expressions that are joined by a comma say what both of them say, the first one first. What the second
one activates again keeps its place, and its ops come behind, so joining an expression to itself
changes nothing: what the ops write last is the same when they are made once more.
-/

namespace LayerComposition

/-- Ops that are made once more leave what they left before. -/
theorem Op.applyAll_append_self (catalog : Catalog) (activation : Activation) (ops : List Op) :
    applyAll catalog activation (ops ++ ops) = applyAll catalog activation ops := by
  apply Activation.ext_get?
  intro id
  simp only [applyAll_eq_write, List.flatMap_append, Activation.get?_write_eq, lastWrite?_append]
  cases lastWrite? (ops.flatMap (writes catalog)) id <;> rfl

namespace Expression

variable {registry : Registry} {whole first second : Expression}

/-- An expression says what two others say: it activates what the first one does and then what only
    the second one does, and makes the ops of both. -/
structure Joins (whole first second : Expression) : Prop where
  active : whole.active.names =
    first.active.names ++ second.active.names.filter (· ∉ first.active.names)
  ops : whole.ops = first.ops ++ second.ops

theorem joins_read (registry : Registry) (first second : String) :
    (read registry (first ++ "," ++ second)).Joins (read registry first) (read registry second) := by
  have parts : (Text.items (first ++ "," ++ second)).map registry.classify =
      (Text.items first).map registry.classify ++ (Text.items second).map registry.classify := by
    rw [Text.items_append, List.map_append]
  constructor
  case active =>
    simp only [read, ActiveSet.ofList, parts, compositionNames, List.filterMap_append,
      distinct_append, mem_distinct]
  case ops => simp only [read, parts, opsAmong, List.filterMap_append]

/-- Nothing is activated by an expression that is not activated by it before. -/
theorem Joins.active_eq_self (joins : whole.Joins first first) : whole.active = first.active := by
  have none_new : first.active.names.filter (· ∉ first.active.names) = [] :=
    List.filter_eq_nil_iff.2 fun name mem => by simpa using mem
  apply ActiveSet.ext
  rw [joins.active, none_new, List.append_nil]

theorem Joins.pins_eq_self (joins : whole.Joins first first) (catalog : Catalog) :
    whole.pins catalog = first.pins catalog := by
  rw [pins, pins, joins.ops, Op.applyAll_append_self]

/-- Joined texts are read as the expressions of both, and a text that is joined to itself describes what
    it describes alone, or fails with the same cycle. -/
theorem joins_read_and_resolve_self (registry : Registry) (first second : String)
    (definitions : Definitions) (text : String) :
    (read registry (first ++ "," ++ second)).Joins (read registry first) (read registry second) ∧
      definitions.resolveExpression (text ++ "," ++ text) = definitions.resolveExpression text := by
  refine ⟨joins_read registry first second, ?_⟩
  have again := joins_read definitions.registry text text
  simp only [Definitions.resolveExpression, Definitions.readExpression, again.active_eq_self,
    again.pins_eq_self]

end Expression

end LayerComposition
