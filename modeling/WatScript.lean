import WatScript.Codegen.Generator
import WatScript.Log.Logger
import WatScript.Main
import WatScript.Parsing.Bench
import WatScript.Proofs.CompiledRuns
import WatScript.Proofs.VerifiedCode
import WatScript.Proofs.TokenOrder
import WatScript.Proofs.TreeInvariant
import WatScript.Proofs.Weights
import WatScript.Proofs.Agreement
import WatScript.Proofs.BracketBalance
import WatScript.Proofs.CommentInsertion
import WatScript.Proofs.Spacing
import WatScript.Proofs.PassedArguments
import WatScript.Proofs.Returns
import WatScript.Proofs.Levels
import WatScript.Proofs.StepLimit
import WatScript.Proofs.Reuse
import WatScript.Proofs.EnclosingFrames
import WatScript.Proofs.LabelStack
import WatScript.Proofs.CompiledExpressions
import WatScript.Proofs.InstructionText
import WatScript.Proofs.SourceKeys
import WatScript.Proofs.Caches
import WatScript.Proofs.ReadBack
import WatScript.Proofs.Retry
import WatScript.Proofs.Openings
import WatScript.Proofs.Climbing
import WatScript.Proofs.TailValue
import WatScript.Proofs.OpenedTrees
import WatScript.Proofs.NestingGuard
import WatScript.Proofs.TreeHeight
import WatScript.Proofs.BooleanCode
import WatScript.Proofs.Segments
import WatScript.Proofs.Relexing
import WatScript.Proofs.NumberLiterals
import WatScript.Proofs.Generators
import WatScript.Proofs.Continuations
import WatScript.Proofs.Sessions
import WatScript.Proofs.LinearMemory
import WatScript.Proofs.Powers
import WatScript.Proofs.Builds
import WatScript.Proofs.FrameMatching
import WatScript.Proofs.CallGrouping
import WatScript.Proofs.LongestMatch
import WatScript.Proofs.LogLines
