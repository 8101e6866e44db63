import BlockScript.RoundTrip
import BlockScript.Directory
import BlockScript.Main
import BlockScript.Proofs.Grammar
import BlockScript.Proofs.ParseSteps
import BlockScript.Proofs.PhraseReading
import BlockScript.Proofs.ProgramReading
import BlockScript.Proofs.Unambiguity
import BlockScript.Proofs.ParseHistory
import BlockScript.Proofs.Acceptance
import BlockScript.Proofs.Blame
import BlockScript.Proofs.CorrectPrefix
import BlockScript.Proofs.Recovery
import BlockScript.Proofs.Separation
import BlockScript.Proofs.Doubles
import BlockScript.Proofs.NumberText
import BlockScript.Proofs.PieceBoundaries
import BlockScript.Proofs.SourceReading
import BlockScript.Proofs.Lexemes
import BlockScript.Proofs.LexicalRules
import BlockScript.Proofs.ExprShape
import BlockScript.Proofs.Rereading
import BlockScript.Proofs.Simulation
import BlockScript.Proofs.LineShift
import BlockScript.Proofs.Scripts
import BlockScript.Proofs.Endings
import BlockScript.Proofs.BindingChanges
import BlockScript.Proofs.Renaming
import BlockScript.Proofs.FullSink
import BlockScript.Proofs.SessionReports
import BlockScript.Proofs.RejectedUnits
import BlockScript.Proofs.SilentRuns
import BlockScript.Proofs.Postorder
import BlockScript.Proofs.InvalidTargets
import BlockScript.Proofs.Courses
import BlockScript.Proofs.FreshStarts
import BlockScript.Proofs.GuardedNames
import BlockScript.Proofs.InitializerGuard
import BlockScript.Proofs.TokenCharges
import BlockScript.Proofs.Relayout
import BlockScript.Proofs.Shadowing
import BlockScript.Proofs.AtomTexts
import BlockScript.Proofs.PolishText
import BlockScript.Proofs.ParenthesizedText
import BlockScript.Proofs.ScopeEvents
import BlockScript.Proofs.PromptLines
import BlockScript.Proofs.DoubleValues
import BlockScript.Proofs.NearestDoubles
import BlockScript.Proofs.PrintedNumbers
import BlockScript.Proofs.KeptTokens
import BlockScript.Proofs.EndOfInput
