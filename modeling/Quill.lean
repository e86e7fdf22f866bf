import Quill.Main
import Quill.Proofs.AnalysisEffect
import Quill.Proofs.AnalysisSoundness
import Quill.Proofs.ArrayStorage
import Quill.Proofs.DataValues
import Quill.Proofs.Endings
import Quill.Proofs.ExprCompleteness
import Quill.Proofs.ExprSoundness
import Quill.Proofs.FirstOrder
import Quill.Proofs.FitPrograms
import Quill.Proofs.Grammar
import Quill.Proofs.GrammarTransfer
import Quill.Proofs.Histories
import Quill.Proofs.JoinedSources
import Quill.Proofs.KeptReports
import Quill.Proofs.LargerBounds
import Quill.Proofs.Layout
import Quill.Proofs.LexedTexts
import Quill.Proofs.LinePlaces
import Quill.Proofs.OperationErrors
import Quill.Proofs.Outlines
import Quill.Proofs.PrintedPrograms
import Quill.Proofs.PrintedValues
import Quill.Proofs.ProgramCompleteness
import Quill.Proofs.ProgramSoundness
import Quill.Proofs.ReaderLogic
import Quill.Proofs.RecordedRuns
import Quill.Proofs.RejectedLines
import Quill.Proofs.RespannedFit
import Quill.Proofs.RespannedRuns
import Quill.Proofs.RunLogic
import Quill.Proofs.SafeRuns
import Quill.Proofs.ScopeFrame
import Quill.Proofs.ScopeLaws
import Quill.Proofs.ScopeLookup
import Quill.Proofs.SessionBatch
import Quill.Proofs.SessionGlobals
import Quill.Proofs.Signals
import Quill.Proofs.StepLaws
import Quill.Proofs.SourceSpans
import Quill.Proofs.SpelledTexts
import Quill.Proofs.TokenCover
import Quill.Proofs.TokenPatterns
import Quill.Proofs.TreeSpans
import Quill.Proofs.UnusedNames
import Quill.Proofs.ValueTrees
import Quill.Proofs.WrittenTokens
import Quill.Proofs.CallDepth
import Quill.Proofs.ReadingTapes
import Quill.Proofs.ReadingPaths
import Quill.Proofs.ExprPaths
import Quill.Proofs.StmtPaths
import Quill.Proofs.BraceMatching
import Quill.Proofs.ParseProgress
import Quill.Proofs.SyntaxReports
import Quill.Proofs.ValuePlaces
import Quill.Proofs.Drawings
import Quill.Proofs.DeepCopies
import Quill.Proofs.ItemLoops
import Quill.Proofs.MisplacedStatements
import Quill.Proofs.EqualValues
import Quill.Proofs.Indexing
import Quill.Proofs.Repetition
import Quill.Proofs.LineCounts
import Quill.Proofs.ExactIntegers
import Quill.Proofs.InclusiveRanges
import Quill.Proofs.IntegerTexts
import Quill.Proofs.StringOrder
import Quill.Proofs.ErrorPlaces
import Quill.Proofs.AnalysisReports
import Quill.Proofs.SubscriptRoots
