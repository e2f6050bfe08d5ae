import Schemata.Main
import Schemata.Node.Path
import Schemata.Node.Rule
import Schemata.Node.Same
import Schemata.Numeral.Fixed
import Schemata.Proofs.BinaryTables
import Schemata.Proofs.Content
import Schemata.Proofs.Continuation
import Schemata.Proofs.DepthLimit
import Schemata.Proofs.Expectations
import Schemata.Proofs.Formatting
import Schemata.Proofs.Height
import Schemata.Proofs.Layout
import Schemata.Proofs.NodeText
import Schemata.Proofs.Precedence
import Schemata.Proofs.PrintedLines
import Schemata.Proofs.Readings
import Schemata.Proofs.RoundTrip
import Schemata.Proofs.Shapes
import Schemata.Proofs.Spans
import Schemata.Proofs.Tiling
import Schemata.Proofs.Joints
import Schemata.Proofs.Ambiguities
import Schemata.Proofs.Prefixes
import Schemata.Proofs.Totality
import Schemata.Proofs.Composition
import Schemata.Proofs.Records
import Schemata.Proofs.Dumps
import Schemata.Proofs.Walk
import Schemata.Proofs.Renaming
import Schemata.Proofs.LongestMatch
import Schemata.Proofs.Arguments
import Schemata.Proofs.Traversal
import Schemata.Proofs.Mapping
import Schemata.Proofs.Targets
import Schemata.Proofs.Excerpts
import Schemata.Proofs.Respelling
import Schemata.Proofs.ExactDecimals
import Schemata.Proofs.SingleExpressions
import Schemata.Proofs.KeyedAccess
