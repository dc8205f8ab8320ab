import Notebook.Archive
import Notebook.Builtin
import Notebook.Bytecode.Code
import Notebook.Bytecode.Listing
import Notebook.Bytecode.Opcode
import Notebook.Cells
import Notebook.CommandLine
import Notebook.CommandLine.Options
import Notebook.CompiledUnit
import Notebook.CompiledUnit.Decode
import Notebook.CompiledUnit.Encode
import Notebook.CompiledUnit.Listing
import Notebook.Compiler
import Notebook.Compiler.Incremental
import Notebook.Context
import Notebook.Diagnostic
import Notebook.Engine
import Notebook.Machine
import Notebook.Machine.Run
import Notebook.Main
import Notebook.NameTable
import Notebook.Program
import Notebook.Program.Parser
import Notebook.Proofs.Bytecode.Assembly
import Notebook.Proofs.Bytecode.Disassembly
import Notebook.Proofs.Bytecode.Fragments
import Notebook.Proofs.Bytecode.FunctionSameness
import Notebook.Proofs.Bytecode.OperandPatches
import Notebook.Proofs.Bytecode.Relocation
import Notebook.Proofs.Compiler.BufferMemory
import Notebook.Proofs.Compiler.Completeness
import Notebook.Proofs.Compiler.Emission
import Notebook.Proofs.Compiler.InPlaceBuilder
import Notebook.Proofs.Compiler.KeptSnippets
import Notebook.Proofs.Compiler.PoolOffset
import Notebook.Proofs.Compiler.PopRemoval
import Notebook.Proofs.Compiler.TermLayout
import Notebook.Proofs.Compiler.WatchedBuilder
import Notebook.Proofs.Compiler.WellFormedCode
import Notebook.Proofs.Composition.FirstPart
import Notebook.Proofs.Composition.FunctionBodies
import Notebook.Proofs.Composition.ProgramHalves
import Notebook.Proofs.Composition.RepeatedPrograms
import Notebook.Proofs.Composition.RepeatedRuns
import Notebook.Proofs.Composition.SecondPart
import Notebook.Proofs.Composition.SessionRoom
import Notebook.Proofs.Composition.SplitEvaluation
import Notebook.Proofs.Engine.ArchiveContents
import Notebook.Proofs.Engine.CallProtocol
import Notebook.Proofs.Engine.Correctness
import Notebook.Proofs.Engine.DeclaredTypes
import Notebook.Proofs.Engine.FunctionPersistence
import Notebook.Proofs.Engine.History
import Notebook.Proofs.Engine.NameMeaning
import Notebook.Proofs.Engine.NestedEvaluation
import Notebook.Proofs.Engine.SnippetHandles
import Notebook.Proofs.Engine.UnitDirectories
import Notebook.Proofs.Fallible
import Notebook.Proofs.Machine.CallNesting
import Notebook.Proofs.Machine.CodeFollowing
import Notebook.Proofs.Machine.ExecutedCode
import Notebook.Proofs.Machine.FrameRoom
import Notebook.Proofs.Machine.FunctionCalls
import Notebook.Proofs.Machine.GlobalAssignments
import Notebook.Proofs.Machine.InstructionEffects
import Notebook.Proofs.Machine.LockstepRuns
import Notebook.Proofs.Machine.OperandFunctions
import Notebook.Proofs.Machine.ResourceLimits
import Notebook.Proofs.Machine.Runs
import Notebook.Proofs.Machine.Simulation
import Notebook.Proofs.Machine.Termination
import Notebook.Proofs.Renderer.BodyTemplates
import Notebook.Proofs.Renderer.CallableMethods
import Notebook.Proofs.Renderer.InlineHandlers
import Notebook.Proofs.Renderer.PlaceholderNames
import Notebook.Proofs.Renderer.RenderChains
import Notebook.Proofs.Renderer.RendererNumbers
import Notebook.Proofs.Renderer.RendererSnippets
import Notebook.Proofs.Renderer.ResultDisplay
import Notebook.Proofs.Renderer.SessionRendering
import Notebook.Proofs.Resolution.Declarations
import Notebook.Proofs.Resolution.LexicalScoping
import Notebook.Proofs.Resolution.MirroredPlaces
import Notebook.Proofs.Resolution.RaisedGlobals
import Notebook.Proofs.Resolution.RenamedParameters
import Notebook.Proofs.Resolution.Resolver
import Notebook.Proofs.Resolution.Terms
import Notebook.Proofs.Resolution.UseBounds
import Notebook.Proofs.Semantics.EarlyReturns
import Notebook.Proofs.Semantics.EvaluationLimits
import Notebook.Proofs.Semantics.Evaluator
import Notebook.Proofs.Semantics.FunctionsInValues
import Notebook.Proofs.Session.ContextMirror
import Notebook.Proofs.Session.ReachedSessions
import Notebook.Proofs.Session.StoreAgreement
import Notebook.Proofs.Store.ConstantPool
import Notebook.Proofs.Store.LinkedUnits
import Notebook.Proofs.Store.RunAtomicity
import Notebook.Proofs.Store.StoreGrowth
import Notebook.Proofs.Store.UnitReplay
import Notebook.Proofs.Syntax.CellDivision
import Notebook.Proofs.Syntax.ProgramRoundtrip
import Notebook.Proofs.Syntax.ProgramText
import Notebook.Proofs.Syntax.ReadingBounds
import Notebook.Proofs.Syntax.SourceTiling
import Notebook.Proofs.Syntax.TokenConsumption
import Notebook.Proofs.Syntax.TokenReading
import Notebook.Proofs.Syntax.TokenRenaming
import Notebook.Proofs.Syntax.TokenSpelling
import Notebook.Proofs.Syntax.TokenWindow
import Notebook.Proofs.Syntax.WindowReading
import Notebook.Proofs.Units.ByteForm
import Notebook.Proofs.Units.ByteLanguage
import Notebook.Proofs.Units.ByteRoundtrip
import Notebook.Renderer
import Notebook.Renderer.Registry
import Notebook.RunError
import Notebook.Scope
import Notebook.Session
import Notebook.Session.Report
import Notebook.SessionError
import Notebook.Store
import Notebook.Text.Blank
import Notebook.Text.Escaped
import Notebook.Text.Lines
import Notebook.Text.Quoted
import Notebook.Text.Utf8
import Notebook.Token
import Notebook.Token.Lexer
import Notebook.UnitFiles
import Notebook.Value
