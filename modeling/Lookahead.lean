import Lookahead.IndexSet
import Lookahead.CharSet
import Lookahead.Text.Column
import Lookahead.Text.Identifier
import Lookahead.Text.Width
import Lookahead.Text.Escape
import Lookahead.Config
import Lookahead.Diagnostic
import Lookahead.Log
import Lookahead.Token.Scan
import Lookahead.Graph
import Lookahead.Graph.Deletable
import Lookahead.Graph.Piece
import Lookahead.Table
import Lookahead.Definition
import Lookahead.Definition.ExprReader
import Lookahead.Definition.Reader
import Lookahead.Analysis
import Lookahead.Definition.Table
import Lookahead.CommandLine
import Lookahead.Main
import Lookahead.Proofs.Shape
import Lookahead.Proofs.Pieces
import Lookahead.Proofs.Symbols
import Lookahead.Proofs.Productions
import Lookahead.Proofs.Names
import Lookahead.Proofs.Walks
import Lookahead.Proofs.Derivation
import Lookahead.Proofs.Deletable
import Lookahead.Proofs.Singles
import Lookahead.Proofs.Circular
import Lookahead.Proofs.First
import Lookahead.Proofs.ProductionWalk
import Lookahead.Proofs.FollowWalk
import Lookahead.Proofs.Follow
import Lookahead.Proofs.Alternatives
import Lookahead.Proofs.Drawing
import Lookahead.Proofs.Readback
import Lookahead.Proofs.Written
import Lookahead.Proofs.Sentences
import Lookahead.Proofs.Recognition
import Lookahead.Proofs.Acceptance
import Lookahead.Proofs.Unbounded
import Lookahead.Proofs.Depth
import Lookahead.Proofs.HaltingSets
import Lookahead.Proofs.HaltingChecks
import Lookahead.Proofs.HaltingGraphs
import Lookahead.Proofs.Halting
import Lookahead.Proofs.Depiction
import Lookahead.Proofs.Runs
import Lookahead.Proofs.Computed
import Lookahead.Proofs.Lookaheads
import Lookahead.Proofs.Reduced
import Lookahead.Proofs.Terminating
import Lookahead.Proofs.Reports
import Lookahead.Proofs.Recording
import Lookahead.Proofs.Verdict
import Lookahead.Proofs.Conflicts
import Lookahead.Proofs.Construction
import Lookahead.Proofs.Unambiguous
import Lookahead.Proofs.Narrowing
import Lookahead.Proofs.Nesting
import Lookahead.Proofs.Yielding
import Lookahead.Proofs.WildcardSets
import Lookahead.Proofs.Stored
import Lookahead.Proofs.Rereading
import Lookahead.Proofs.Reordered
import Lookahead.Proofs.Uses
import Lookahead.Proofs.Placement
import Lookahead.Proofs.Syncs
import Lookahead.Proofs.Mirror
import Lookahead.Proofs.MirrorSets
import Lookahead.Proofs.MirrorChecks
import Lookahead.Proofs.Rearranged
import Lookahead.Proofs.Order
import Lookahead.Proofs.Declarations
import Lookahead.Proofs.HaltingDeclarations
import Lookahead.Proofs.HaltingProductions
import Lookahead.Proofs.Escapes
import Lookahead.Proofs.Lexemes
import Lookahead.Proofs.Parallel
import Lookahead.Proofs.Unique
import Lookahead.Proofs.Arenas
import Lookahead.Proofs.Counters
import Lookahead.Proofs.Faultless
import Lookahead.Proofs.Regular
import Lookahead.Proofs.Safe
import Lookahead.Proofs.Displaced
import Lookahead.Proofs.Layout
import Lookahead.Proofs.Canonical
import Lookahead.Proofs.Classes
import Lookahead.Proofs.SyncSets
import Lookahead.Proofs.Reachable
import Lookahead.Proofs.Visits
import Lookahead.Proofs.Located
import Lookahead.Proofs.Trails
import Lookahead.Proofs.Traversals
import Lookahead.Proofs.Resolvers
import Lookahead.Proofs.Attributes
import Lookahead.Proofs.Brackets
import Lookahead.Proofs.Truncation
import Lookahead.Proofs.FixedTokens
import Lookahead.Proofs.Quotes
import Lookahead.Proofs.Positions
import Lookahead.Proofs.ClassBounds
import Lookahead.Proofs.Contexts
