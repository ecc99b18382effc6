import MaximalMunch.Command.Workspace
import MaximalMunch.Main
import MaximalMunch.Proofs.BundleRoundTrip
import MaximalMunch.Proofs.CompiledBlocks
import MaximalMunch.Proofs.FullExpansion
import MaximalMunch.Proofs.GraphEdits
import MaximalMunch.Proofs.InputCoverage
import MaximalMunch.Proofs.LanguageInvariance
import MaximalMunch.Proofs.OpaqueReferences
import MaximalMunch.Proofs.PatternFaults
import MaximalMunch.Proofs.ScannedMatches
import MaximalMunch.Proofs.ScannerSafety
import MaximalMunch.Proofs.SharedGraph
import MaximalMunch.Proofs.StoredBundles
import MaximalMunch.Proofs.ComparedLexers
import MaximalMunch.Proofs.MatchOutcome
import MaximalMunch.Proofs.MutedRules
import MaximalMunch.Proofs.ResumedSessions
import MaximalMunch.Proofs.CommandRuns
import MaximalMunch.Proofs.CommandAgreement
import MaximalMunch.Proofs.ActiveNodes
import MaximalMunch.Proofs.JustifiedErrors
import MaximalMunch.Proofs.ComposedPatterns
import MaximalMunch.Proofs.DecidedCompilation
import MaximalMunch.Proofs.LineNumbers
import MaximalMunch.Proofs.ReferencedNames
import MaximalMunch.Proofs.ReportedLines
import MaximalMunch.Proofs.StrayParentheses
import MaximalMunch.Proofs.PositionalCompilation
