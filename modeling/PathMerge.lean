import PathMerge.Analysis
import PathMerge.Analysis.Dot
import PathMerge.Context
import PathMerge.Context.Render
import PathMerge.Failure
import PathMerge.Fingerprint
import PathMerge.Flow
import PathMerge.Flow.DominatorTree
import PathMerge.Flow.Loops
import PathMerge.Handle
import PathMerge.InternTable
import PathMerge.LinkedTable
import PathMerge.Marks
import PathMerge.Memo
import PathMerge.Method
import PathMerge.Node
import PathMerge.PathCondition
import PathMerge.Pool
import PathMerge.Pool.Choice
import PathMerge.Pool.Junction
import PathMerge.Proofs.Applications
import PathMerge.Proofs.Arity
import PathMerge.Proofs.Building
import PathMerge.Proofs.Canonical
import PathMerge.Proofs.Choice
import PathMerge.Proofs.Connectives
import PathMerge.Proofs.Consistency
import PathMerge.Proofs.Context
import PathMerge.Proofs.Coverage
import PathMerge.Proofs.Created
import PathMerge.Proofs.Creation
import PathMerge.Proofs.Decided
import PathMerge.Proofs.Decided.Merge
import PathMerge.Proofs.Decided.Simplify
import PathMerge.Proofs.Delivery
import PathMerge.Proofs.Denotation
import PathMerge.Proofs.DepthFirst
import PathMerge.Proofs.DominatorTree
import PathMerge.Proofs.Evaluation
import PathMerge.Proofs.Exactness
import PathMerge.Proofs.Execution
import PathMerge.Proofs.Graph
import PathMerge.Proofs.HeapFrame
import PathMerge.Proofs.Idempotence
import PathMerge.Proofs.Interning
import PathMerge.Proofs.Iteration
import PathMerge.Proofs.Junction
import PathMerge.Proofs.Laws
import PathMerge.Proofs.Laws.Heap
import PathMerge.Proofs.Laws.Integers
import PathMerge.Proofs.Laws.Locations
import PathMerge.Proofs.Leaf
import PathMerge.Proofs.LocationSets
import PathMerge.Proofs.Loops
import PathMerge.Proofs.Machine
import PathMerge.Proofs.Memory
import PathMerge.Proofs.Merge
import PathMerge.Proofs.NodeTable
import PathMerge.Proofs.Normal
import PathMerge.Proofs.NothingLost
import PathMerge.Proofs.Passes
import PathMerge.Proofs.PathCondition
import PathMerge.Proofs.Pool
import PathMerge.Proofs.Postcondition
import PathMerge.Proofs.Preservation
import PathMerge.Proofs.Registered
import PathMerge.Proofs.Registry
import PathMerge.Proofs.Repetition
import PathMerge.Proofs.Requests
import PathMerge.Proofs.Rewriting
import PathMerge.Proofs.Rounds
import PathMerge.Proofs.Rules
import PathMerge.Proofs.Schedule
import PathMerge.Proofs.Simplify
import PathMerge.Proofs.Simulation
import PathMerge.Proofs.Sorting
import PathMerge.Proofs.Soundness
import PathMerge.Proofs.State
import PathMerge.Proofs.Steady
import PathMerge.Proofs.Storage
import PathMerge.Proofs.Termination
import PathMerge.Proofs.Trail
import PathMerge.Proofs.Trees
import PathMerge.Proofs.Turns
import PathMerge.Proofs.Uniform
import PathMerge.Proofs.Uniform.States
import PathMerge.Proofs.Uniform.Walks
import PathMerge.Proofs.Unwritten
import PathMerge.Proofs.Value
import PathMerge.Proofs.Visits
import PathMerge.Proofs.Weight
import PathMerge.Proofs.Yields
import PathMerge.Purity
import PathMerge.Rule
import PathMerge.Simplify
import PathMerge.Slots
import PathMerge.SortedList
import PathMerge.State
import PathMerge.State.Merge
import PathMerge.Statement
import PathMerge.Store
import PathMerge.Symbol
import PathMerge.Text.Printable
import PathMerge.Text.Quoted
import PathMerge.Theory
import PathMerge.Theory.Heap
import PathMerge.Theory.Integers
import PathMerge.Theory.Locations
import PathMerge.ValueSort
import PathMerge.Walk
import PathMerge.Walk.Summary
import PathMerge.Proofs.NaturalLoops
import PathMerge.Proofs.Absorption
import PathMerge.Proofs.Regrouping
import PathMerge.Proofs.ChoiceOrder
import PathMerge.Proofs.MergeOrder
import PathMerge.Proofs.CanonicalPath
import PathMerge.Proofs.GuardCover
import PathMerge.Proofs.GroundTerms
import PathMerge.Proofs.Becomes
import PathMerge.Proofs.GroundEvaluation
import PathMerge.Proofs.HeapReads
import PathMerge.Proofs.CanonicalStore
import PathMerge.Proofs.NameSpaces
import PathMerge.Proofs.Chains
import PathMerge.Proofs.LinkedTable
import PathMerge.Proofs.ReversePostorder
