import Treewalk.Tree.Build
import Treewalk.Tree.Encode
import Treewalk.Main
import Treewalk.Output
import Treewalk.Proofs.Extends
import Treewalk.Proofs.Retains
import Treewalk.Proofs.Anchored
import Treewalk.Proofs.Traversal
import Treewalk.Proofs.Orderly
import Treewalk.Proofs.Answers
import Treewalk.Proofs.Frames
import Treewalk.Proofs.Operands
import Treewalk.Proofs.Discipline
import Treewalk.Proofs.Forest
import Treewalk.Proofs.Ranges
import Treewalk.Proofs.Sound
import Treewalk.Proofs.Fresh
import Treewalk.Proofs.Copies
import Treewalk.Proofs.Assigned
import Treewalk.Proofs.Levels
import Treewalk.Proofs.ValueTree
import Treewalk.Proofs.Rewrites
import Treewalk.Proofs.DeepCopy
import Treewalk.Proofs.TypedTrees
import Treewalk.Proofs.Stored
import Treewalk.Proofs.Assignment
import Treewalk.Proofs.Conversions
import Treewalk.Proofs.Safe
import Treewalk.Proofs.SafeEval
import Treewalk.Proofs.Reachable
import Treewalk.Proofs.Shape
import Treewalk.Proofs.Trees
import Treewalk.Proofs.Outcome
import Treewalk.Proofs.Isolation
import Treewalk.Proofs.Boundary
import Treewalk.Proofs.Numbers
import Treewalk.Proofs.Integers
import Treewalk.Proofs.Comparison
import Treewalk.Proofs.Runs
import Treewalk.Proofs.Truth
import Treewalk.Proofs.CompoundAssignment
import Treewalk.Proofs.Denotation
import Treewalk.Proofs.GlobalOrder
import Treewalk.Proofs.NumericTyping
import Treewalk.Proofs.RoundTrip
import Treewalk.Proofs.CallChain
import Treewalk.Proofs.Declared
import Treewalk.Proofs.Nesting
import Treewalk.Proofs.Inhabits
import Treewalk.Proofs.Compatibility
import Treewalk.Proofs.Effects
import Treewalk.Proofs.AnchoredEval
import Treewalk.Proofs.Retry
import Treewalk.Proofs.Resolution
import Treewalk.Proofs.Passing
import Treewalk.Proofs.Parameters
import Treewalk.Proofs.Overloads
import Treewalk.Proofs.Delegation
import Treewalk.Proofs.Overlap
import Treewalk.Proofs.Places
import Treewalk.Proofs.Release
import Treewalk.Proofs.Indexing
import Treewalk.Proofs.Relocation
import Treewalk.Proofs.Inert
import Treewalk.Proofs.Addresses
import Treewalk.Proofs.Doubles
import Treewalk.Proofs.Mirrors
import Treewalk.Proofs.Stepping
import Treewalk.Proofs.Promotion
import Treewalk.Proofs.Endings
import Treewalk.Proofs.Loops
import Treewalk.Proofs.Stalling
import Treewalk.Proofs.Characters
import Treewalk.Proofs.Printing
import Treewalk.Proofs.Buffers
import Treewalk.Proofs.FaultPlace
import Treewalk.Proofs.Dimensions
import Treewalk.Proofs.Lineage
import Treewalk.Proofs.ElementTypes
import Treewalk.Proofs.Qualifiers
import Treewalk.Proofs.Histories
