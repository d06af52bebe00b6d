import Diglot.Document
import Diglot.Listing
import Diglot.Source.Equality
import Diglot.Proofs.Evolution.Basic
import Diglot.Proofs.Evolution.Steps
import Diglot.Proofs.Evolution.Rules
import Diglot.Proofs.Evolution.Statement
import Diglot.Proofs.Depth
import Diglot.Proofs.Flow.Machine
import Diglot.Proofs.Flow.Structured
import Diglot.Proofs.Flow.Stream
import Diglot.Proofs.Flow.Refinement
import Diglot.Proofs.Value.Machine
import Diglot.Proofs.Value.Source
import Diglot.Proofs.Sight
import Diglot.Proofs.Value.Expression
import Diglot.Proofs.Tables.Coherent
import Diglot.Proofs.Tables.Invariant
import Diglot.Proofs.Tables.Locals
import Diglot.Proofs.Tables.Addressing
import Diglot.Proofs.Tables.Growth
import Diglot.Proofs.Tables.Tidy
import Diglot.Proofs.Course.Basic
import Diglot.Proofs.Course.Unit
import Diglot.Proofs.Course.Emission
import Diglot.Proofs.Course.Expression
import Diglot.Proofs.Closed.Text
import Diglot.Proofs.Closed.Laid
import Diglot.Proofs.Closed.Statement
import Diglot.Proofs.Closed.Session
import Diglot.Proofs.Course.Session
import Diglot.Proofs.Course.Halting
import Diglot.Proofs.Slots.Basic
import Diglot.Proofs.Slots.Frame
import Diglot.Proofs.Slots.Procedure
import Diglot.Proofs.Slots.Session
import Diglot.Proofs.Slots.Inheritance
import Diglot.Proofs.Debug.Erasure
import Diglot.Proofs.Mild.Basic
import Diglot.Proofs.Mild.Expression
import Diglot.Proofs.Debug.Session
import Diglot.Proofs.Graph.Charted
import Diglot.Proofs.Graph.Node
import Diglot.Proofs.Graph.Statement
import Diglot.Proofs.Graph.Session
import Diglot.Proofs.Association.Tree
import Diglot.Proofs.Association.Expression
import Diglot.Proofs.Reads.Tracking
import Diglot.Proofs.Reads.Expression
import Diglot.Proofs.Reads.Target
import Diglot.Proofs.Spare.Basic
import Diglot.Proofs.Spare.Expression
import Diglot.Proofs.Spare.Watch
import Diglot.Proofs.Spare.Session
import Diglot.Proofs.Globals.Table
import Diglot.Proofs.Globals.First
import Diglot.Proofs.Globals.Inherited
import Diglot.Proofs.Globals.Unit
import Diglot.Proofs.Globals.Session
import Diglot.Proofs.Split.Outcome
import Diglot.Proofs.Split.Sound
import Diglot.Proofs.Split.Expression
import Diglot.Proofs.Split.Update
import Diglot.Proofs.Split.Shape
import Diglot.Proofs.Split.Statement
import Diglot.Proofs.Split.Session
import Diglot.Proofs.Law.Widening
import Diglot.Proofs.Law.Basic
import Diglot.Proofs.Law.Expression
import Diglot.Proofs.Law.Store
import Diglot.Proofs.Law.Statement
import Diglot.Proofs.Law.Session
import Diglot.Proofs.Access.Basic
import Diglot.Proofs.Access.Members
import Diglot.Proofs.Paths.Read
import Diglot.Proofs.Paths.Declared
import Diglot.Proofs.Paths.Written
import Diglot.Proofs.Paths.Matching
import Diglot.Proofs.Chains.Beside
import Diglot.Proofs.Chains.Segments
import Diglot.Proofs.Chains.Silent
import Diglot.Proofs.Chains.InStep
import Diglot.Proofs.Chains.Expression
import Diglot.Proofs.Chains.Probe
import Diglot.Proofs.Chains.Resolved
import Diglot.Proofs.Tree.Basic
import Diglot.Proofs.Tree.Session
import Diglot.Proofs.Origins.Mentions
import Diglot.Proofs.Origins.Basic
import Diglot.Proofs.Origins.Expression
import Diglot.Proofs.Origins.Store
import Diglot.Proofs.Origins.Statement
import Diglot.Proofs.Origins.Codes
import Diglot.Proofs.Origins.Calls
import Diglot.Proofs.Origins.Bounces
import Diglot.Proofs.Origins.Session
import Diglot.Proofs.Anchors.Passes
import Diglot.Proofs.Anchors.Instance
import Diglot.Proofs.Globals.Forward
import Diglot.Proofs.Harvest.Expression
import Diglot.Proofs.Harvest.Statement
import Diglot.Proofs.Harvest.Split
import Diglot.Proofs.Chains.Temporary
import Diglot.Proofs.Chains.Splitting
import Diglot.Proofs.Chains.Names
import Diglot.Proofs.Chains.Whole
import Diglot.Proofs.Chains.Unspent
import Diglot.Proofs.Chains.Reassembled
import Diglot.Proofs.Chains.Walk
import Diglot.Proofs.Association.Statement
import Diglot.Proofs.Ahead
import Diglot.Proofs.Variables.Fresh
import Diglot.Proofs.Variables.Initial
import Diglot.Proofs.Variables.Shadowed
import Diglot.Proofs.Variables.Constructors
import Diglot.Proofs.Chains.Groups
import Diglot.Proofs.Tables.Overloads
import Diglot.Proofs.Paths.Late
import Diglot.Proofs.Access.Stores
import Diglot.Proofs.Split.Probe
import Diglot.Proofs.Chains.Handed
import Diglot.Proofs.Records.Session
import Diglot.Proofs.Records.Latest
import Diglot.Proofs.Numerals
import Diglot.Proofs.Access.Lookups
import Diglot.Proofs.Access.Entries
import Diglot.Proofs.Boxes.Session
import Diglot.Proofs.Tables.Scan
import Diglot.Proofs.Typing.List
import Diglot.Proofs.Attributes
import Diglot.Proofs.Guides.Session
