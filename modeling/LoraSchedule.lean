import LoraSchedule.Number.Printing
import LoraSchedule.Number.Scalar
import LoraSchedule.Dict.Lemmas
import LoraSchedule.Text.Basic
import LoraSchedule.Text.DecimalDigit
import LoraSchedule.Text.Lowercase
import LoraSchedule.Json.Record
import LoraSchedule.Json.Printer
import LoraSchedule.Architecture.Keyword
import LoraSchedule.Block.Role
import LoraSchedule.Block.Pattern
import LoraSchedule.Block.Basic
import LoraSchedule.Preset
import LoraSchedule.Statistics.OfNorms
import LoraSchedule.Statistics.Lineage
import LoraSchedule.Files.Tree
import LoraSchedule.Files.Search
import LoraSchedule.Container.Fingerprint
import LoraSchedule.Container.Tensor
import LoraSchedule.Container.Loader
import LoraSchedule.Detection
import LoraSchedule.Weighting
import LoraSchedule.Schedule.Line
import LoraSchedule.Cache
import LoraSchedule.Resolution
import LoraSchedule.Engine
import LoraSchedule.UserInterface
import LoraSchedule.Statistics.Document
import LoraSchedule.CommandLine.Run
import LoraSchedule.Main
import LoraSchedule.Proofs.Number.FixedPlaces
import LoraSchedule.Proofs.Number.Numeral
import LoraSchedule.Proofs.Text.Parts
import LoraSchedule.Proofs.Schedule.ValueText
import LoraSchedule.Proofs.Schedule.FieldText
import LoraSchedule.Proofs.Schedule.Reparse
import LoraSchedule.Proofs.Resolution.Outcome
import LoraSchedule.Proofs.Resolution.Result
import LoraSchedule.Proofs.Engine.History
import LoraSchedule.Proofs.Block.Id
import LoraSchedule.Proofs.Statistics.Records
import LoraSchedule.Proofs.Resolution.Weights
import LoraSchedule.Proofs.Curve
import LoraSchedule.Proofs.Files.Path
import LoraSchedule.Proofs.Resolution.Fixpoint
import LoraSchedule.Proofs.Json.Numbers
import LoraSchedule.Proofs.Schedule.Head
import LoraSchedule.Proofs.Resolution.Agreement
import LoraSchedule.Proofs.Text.Lowercase
import LoraSchedule.Proofs.Files.Search
import LoraSchedule.Proofs.Engine.Stems
import LoraSchedule.Proofs.Schedule.Rows
import LoraSchedule.Proofs.Resolution.KeptText
import LoraSchedule.Proofs.Statistics.Energy
import LoraSchedule.Proofs.Block.Forms
import LoraSchedule.Proofs.Json.Fields
import LoraSchedule.Proofs.Container.Readers
import LoraSchedule.Proofs.Number.Shares
import LoraSchedule.Proofs.Schedule.Ramps
import LoraSchedule.Proofs.Resolution.Words
import LoraSchedule.Proofs.Files.Changes
import LoraSchedule.Proofs.Detection
import LoraSchedule.Proofs.Number.Scientific
import LoraSchedule.Proofs.Json.Literals
import LoraSchedule.Proofs.Json.Printed
import LoraSchedule.Proofs.Json.Decoding
import LoraSchedule.Proofs.Statistics.Document
import LoraSchedule.Proofs.Schedule.Document
import LoraSchedule.Proofs.Number.Values
import LoraSchedule.Proofs.Padding
import LoraSchedule.Proofs.Resolution.Keyframes
import LoraSchedule.Proofs.CommandLine.Reports
import LoraSchedule.Proofs.Files.Choice
import LoraSchedule.Proofs.Schedule.Sorting
import LoraSchedule.Proofs.Schedule.Pairs
import LoraSchedule.Proofs.Schedule.FieldOrder
import LoraSchedule.Proofs.Json.LineEnds
import LoraSchedule.Proofs.Json.Outermost
import LoraSchedule.Proofs.Schedule.Neighbours
import LoraSchedule.Proofs.Schedule.Profiles
import LoraSchedule.Proofs.Number.Errors
import LoraSchedule.Proofs.Schedule.Interpolation
import LoraSchedule.Proofs.Sidecar.Fields
import LoraSchedule.Proofs.Sidecar.Architecture
import LoraSchedule.Proofs.Sidecar.Words
import LoraSchedule.Proofs.Sidecar.Leniency
import LoraSchedule.Proofs.Block.Reread
import LoraSchedule.Proofs.Resolution.Unrecorded
import LoraSchedule.Proofs.Statistics.Exact
import LoraSchedule.Proofs.Statistics.Sparsity
import LoraSchedule.Proofs.Statistics.Weighted
import LoraSchedule.Proofs.Statistics.Balance
import LoraSchedule.Proofs.Statistics.Lineage
import LoraSchedule.Proofs.Container.Scan
import LoraSchedule.Proofs.Container.Sizes
import LoraSchedule.Proofs.Container.Loading
import LoraSchedule.Proofs.Dispatch
import LoraSchedule.Proofs.Schedule.ValueForm
import LoraSchedule.Proofs.Block.LetterCase
import LoraSchedule.Proofs.Number.Quotients
import LoraSchedule.Proofs.Block.Layers
