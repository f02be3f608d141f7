import CommandSequence.Main
import CommandSequence.Source.Tree
import CommandSequence.Proofs.Character
import CommandSequence.Proofs.Dictionary
import CommandSequence.Proofs.Document.Canon
import CommandSequence.Proofs.Document.JsonRoundTrip
import CommandSequence.Proofs.Document.Tags
import CommandSequence.Proofs.Source.Arguments
import CommandSequence.Proofs.Source.Lines
import CommandSequence.Proofs.CommandLine.Detour
import CommandSequence.Proofs.CommandLine.Status
import CommandSequence.Proofs.Document.Respacing
import CommandSequence.Proofs.Document.Writable
import CommandSequence.Proofs.Document.Bodies
import CommandSequence.Proofs.Document.Blocks
import CommandSequence.Proofs.Document.Failures
import CommandSequence.Proofs.Document.LoadAndGo
import CommandSequence.Proofs.Document.MetadataValues
import CommandSequence.Proofs.Document.AcceptedTags
import CommandSequence.Proofs.Time.WideCounts
import CommandSequence.Proofs.Time.FixedPoints
import CommandSequence.Proofs.Time.Grammars
import CommandSequence.Proofs.Time.WrittenTag
import CommandSequence.Proofs.Time.UnitFields
import CommandSequence.Proofs.Time.Forms
import CommandSequence.Proofs.Document.Directives
import CommandSequence.Proofs.Document.Extraction
import CommandSequence.Proofs.CommandLine.DefaultName
import CommandSequence.Proofs.Source.Positions
import CommandSequence.Proofs.LooseArgument.Types
import CommandSequence.Proofs.Source.Literals
import CommandSequence.Proofs.Source.Stems
import CommandSequence.Proofs.Document.WrittenMetadata
