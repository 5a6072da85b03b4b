import LayerComposition.Proofs.RenderOrder
import LayerComposition.Proofs.RoundTrip

/-! # Ops as pins

The ops of an expression are kept as pins, which hold of every id what the ops write to it last.
Laying the pins over a state comes to applying the ops to it in order.
-/

namespace LayerComposition

/-- An id is pinned exactly if some of the ops writes it, to the value of the last such write. -/
structure Pins.HoldLastWrites (pins : Pins) (catalog : Catalog) (ops : List Op) : Prop where
  contains_iff : ∀ id, pins.contains id = true ↔
    ∃ op ∈ ops, ∃ value, (id, value) ∈ op.writes catalog
  get?_iff : ∀ id on, pins.get? id = some on ↔ Op.WritesLast catalog ops id on

theorem Expression.holdLastWrites_pins (expression : Expression) (catalog : Catalog) :
    (expression.pins catalog).HoldLastWrites catalog expression.ops := by
  constructor
  case contains_iff =>
    intro id
    rw [Roster.contains, get?_pins, Option.isSome_iff_ne_none, ne_eq,
      Op.lastWrite?_flatMap_eq_none_iff]
    simp only [not_forall, not_not, exists_prop]
  case get?_iff =>
    intro id on
    rw [get?_pins, Op.lastWrite?_flatMap_eq_some_iff]

/-- What an expression describes is what its ops make of the state that its compositions give, or
    the cycle that these end with. Its pins hold what the ops write last. -/
theorem Definitions.resolveExpression_eq_applyAll (definitions : Definitions) (text : String) :
    definitions.resolveExpression text =
        (definitions.presetState (definitions.readExpression text).active).map
          (fun preset =>
            Op.applyAll definitions.catalog preset (definitions.readExpression text).ops) ∧
      ((definitions.readExpression text).pins definitions.catalog).HoldLastWrites
        definitions.catalog (definitions.readExpression text).ops := by
  refine ⟨?_, Expression.holdLastWrites_pins _ _⟩
  rw [resolveExpression, resolve]
  congr 1
  funext preset
  exact Expression.write_pins _ definitions.catalog preset

end LayerComposition
