import TargetSelector.Numeric.Shortest
import TargetSelector.Numeric.Numeral
import TargetSelector.OrderedMap
import TargetSelector.Text.Quoted
import TargetSelector.EntityType
import TargetSelector.Target
import TargetSelector.SortOrder
import TargetSelector.Gamemode
import TargetSelector.Range
import TargetSelector.Nbt.Snbt
import TargetSelector.Argument.Segments
import TargetSelector.Selector.Edit
import TargetSelector.Selector.Sink
import TargetSelector.Json.Reader
import TargetSelector.Selector.Document
import TargetSelector.Main
import TargetSelector.Proofs.Selector.Fragments
import TargetSelector.Proofs.Selector.Modes
import TargetSelector.Proofs.Selector.Capacity
import TargetSelector.Proofs.Argument.OfJson
import TargetSelector.Proofs.Selector.Document
import TargetSelector.Proofs.CommandLine
import TargetSelector.Proofs.Nbt.Unambiguous
import TargetSelector.Proofs.Selector.Splitting
import TargetSelector.Proofs.Selector.DistinctNames
import TargetSelector.Proofs.Json.DistinctNames
import TargetSelector.Proofs.Selector.Edits
import TargetSelector.Proofs.Selector.Finiteness
import TargetSelector.Proofs.Target
import TargetSelector.Proofs.Selector.Loading
import TargetSelector.Proofs.Argument.Table
import TargetSelector.Proofs.Argument.Conversion
import TargetSelector.Proofs.Selector.Advancements
import TargetSelector.Proofs.Selector.Lines
import TargetSelector.Proofs.Selector.Merging
import TargetSelector.Proofs.Range.Json
import TargetSelector.Proofs.Argument.Unambiguous
import TargetSelector.Proofs.Nbt.OfJson
import TargetSelector.Proofs.Range.Text
import TargetSelector.Proofs.Argument.Equality
import TargetSelector.Proofs.Selector.Equality
import TargetSelector.Proofs.Comparison
import TargetSelector.Proofs.Selector.Comparison
import TargetSelector.Proofs.Numeric.Exact
import TargetSelector.Proofs.Selector.NonFinite
import TargetSelector.Proofs.Numeric.Whole
import TargetSelector.Proofs.Json.Reading
import TargetSelector.Proofs.Argument.Numbers
import TargetSelector.Proofs.Selector.Integers
import TargetSelector.Proofs.Json.Rounding
import TargetSelector.Proofs.Argument.Printed
import TargetSelector.Proofs.Selector.Reloading
import TargetSelector.Proofs.Selector.Interleaving
import TargetSelector.Proofs.Identifiers
