import MiniC.Json.Printer
import MiniC.Definition.Printer
import MiniC.Compiler
import MiniC.Form.Options
import MiniC.Form.Tree
import MiniC.Proofs.LoweringSteps
import MiniC.Proofs.ExprSteps
import MiniC.Proofs.StmtSteps
import MiniC.Proofs.Emission
import MiniC.Proofs.Markers
import MiniC.Proofs.Numbering
import MiniC.Proofs.Operands
import MiniC.Proofs.BlockStructure
import MiniC.Proofs.LabelPlacement
import MiniC.Proofs.Evaluation
import MiniC.Proofs.Machine
import MiniC.Proofs.Visibility
import MiniC.Proofs.Simulation
import MiniC.Proofs.ExprSimulation
import MiniC.Proofs.StmtSimulation
import MiniC.Proofs.LoopSimulation
import MiniC.Proofs.Preservation
import MiniC.Proofs.Typing
import MiniC.Proofs.Availability
import MiniC.Proofs.Regions
import MiniC.Proofs.StmtRegions
import MiniC.Proofs.Dominance
import MiniC.Proofs.Allocation
import MiniC.Proofs.Joins
import MiniC.Proofs.OptionIndependence
import MiniC.Proofs.Tokenization
import MiniC.Proofs.Grammar
import MiniC.Proofs.ParserSteps
import MiniC.Proofs.ExprGrammar
import MiniC.Proofs.StmtGrammar
import MiniC.Proofs.ProgramGrammar
import MiniC.Proofs.CastErasure
import MiniC.Proofs.ExprReprinting
import MiniC.Proofs.Reprinting
import MiniC.Proofs.Callees
import MiniC.Proofs.Relocation
import MiniC.Proofs.Staging
import MiniC.Proofs.Scanning
import MiniC.Proofs.Layout
import MiniC.Proofs.ErrorPhases
import MiniC.Proofs.Concatenation
import MiniC.Proofs.Decoding
import MiniC.Proofs.Documents
import MiniC.Proofs.History
import MiniC.Proofs.Renaming
import MiniC.Proofs.Comparison
import MiniC.Proofs.LexicalScopes
import MiniC.Proofs.BlockTermination
import MiniC.Proofs.SourceTrees
import MiniC.Proofs.LiteralRange
import MiniC.Proofs.Tracking
import MiniC.Proofs.ExprTracking
import MiniC.Proofs.StmtTracking
import MiniC.Proofs.EarliestError
import MiniC.Proofs.TreeShapes
import MiniC.Proofs.OperandChecks
import MiniC.Proofs.ParserTermination
import MiniC.Proofs.BackwardEdges
import MiniC.Proofs.ErrorKinds
import MiniC.Proofs.LabelHistory
import MiniC.Proofs.LoopExits
import MiniC.Proofs.OperandOrder
import MiniC.Proofs.InstrWords
import MiniC.Proofs.InstrReading
import MiniC.Proofs.RenderedText
import MiniC.Proofs.FailedSteps
import MiniC.Proofs.ExprFrame
import MiniC.Proofs.TokenWindow
