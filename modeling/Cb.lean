import Cb.Main
import Cb.Markdown
import Cb.Proofs.Parameters
import Cb.Proofs.ProcedurePaths
import Cb.Proofs.OperandTexts
import Cb.Proofs.Backtracking
import Cb.Proofs.DefinedSymbols
import Cb.Proofs.SilentComments
import Cb.Proofs.PrintedNumbers
import Cb.Proofs.ConditionalGroups
import Cb.Proofs.RewrittenPrograms
import Cb.Proofs.OutputFiles
import Cb.Proofs.TestSchedules
import Cb.Proofs.ConstantTrees
import Cb.Proofs.CastChains
import Cb.Proofs.FunctionTable
import Cb.Proofs.LinePieces
import Cb.Proofs.LinesInOrder
import Cb.Proofs.RenderedArguments
import Cb.Proofs.SettingSources
import Cb.Proofs.Checkpoints
import Cb.Proofs.ScenarioSections
import Cb.Proofs.RegisterUse
