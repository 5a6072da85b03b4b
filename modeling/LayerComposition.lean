import LayerComposition.Main
import LayerComposition.Workbench
import LayerComposition.Proofs.CycleVerdict
import LayerComposition.Proofs.RoundTrip
import LayerComposition.Proofs.RenderOrder
import LayerComposition.Proofs.CanonicalForm
import LayerComposition.Proofs.Sharing
import LayerComposition.Proofs.CleanReport
import LayerComposition.Proofs.Targets
import LayerComposition.Proofs.SourceLines
import LayerComposition.Proofs.CatalogContents
import LayerComposition.Proofs.LineEnds
import LayerComposition.Proofs.SourceText
import LayerComposition.Proofs.CatalogText
import LayerComposition.Proofs.RegistryText
import LayerComposition.Proofs.Minimality
import LayerComposition.Proofs.References
import LayerComposition.Proofs.Entering
import LayerComposition.Proofs.Discovery
import LayerComposition.Proofs.Relocation
import LayerComposition.Proofs.CycleReport
import LayerComposition.Proofs.FailingChoice
import LayerComposition.Proofs.ExpansionStack
import LayerComposition.Proofs.PinnedOps
import LayerComposition.Proofs.OpText
import LayerComposition.Proofs.Addressing
import LayerComposition.Proofs.BaselineText
import LayerComposition.Proofs.OpEffect
import LayerComposition.Proofs.Toggling
import LayerComposition.Proofs.Reach
import LayerComposition.Proofs.Joining
import LayerComposition.Proofs.PresetText
import LayerComposition.Proofs.EditHistory
import LayerComposition.Proofs.Initialization
import LayerComposition.Proofs.ValidationVerdict
