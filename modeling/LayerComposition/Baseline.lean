import LayerComposition.Op

/-! # Baselines

The baseline of a character says what holds before anything is chosen: ops that are always
applied first, and the compositions that are active by default.
-/

namespace LayerComposition

/-- The default state of a character, as it was written. -/
structure Baseline where
  presetNames : List String
  baseOps : List String
  deriving Repr, DecidableEq

namespace Baseline

def isEmpty (baseline : Baseline) : Bool :=
  baseline.presetNames.isEmpty && baseline.baseOps.isEmpty

/-- Read a line `head:tail`. Items of the tail are base ops. Items of the head are preset names,
    except that those which read as ops join the base ops, behind the tail. -/
def ofLine (line : String) : Baseline :=
  let (head, tail) := Text.splitAtFirst ':' line.toList
  let (headOps, presetNames) :=
    (Text.items (String.ofList head)).partition fun item => (Op.read? item).isSome
  ⟨presetNames, Text.items (String.ofList (tail.getD [])) ++ headOps⟩

def line (baseline : Baseline) : String :=
  ",".intercalate baseline.presetNames ++ ":" ++ ",".intercalate baseline.baseOps

/-- Read a baseline text. Its first line that is not blank counts. -/
def read (text : String) : Baseline :=
  match SourceLine.all text with
  | [] => ⟨[], []⟩
  | line :: _ => ofLine line.text

def ops (baseline : Baseline) : List Op :=
  baseline.baseOps.filterMap Op.read?

end Baseline

end LayerComposition
