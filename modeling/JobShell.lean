import JobShell.Builtin.Basic
import JobShell.Builtin.Condition
import JobShell.Builtin.Directory
import JobShell.Builtin.Echo
import JobShell.Builtin.Escape
import JobShell.Builtin.Inquiry
import JobShell.Builtin.JobControl
import JobShell.Builtin.Run
import JobShell.Builtin.Tables
import JobShell.Command.Basic
import JobShell.Command.Build
import JobShell.Command.Image
import JobShell.Command.Sequence
import JobShell.CommandLine
import JobShell.Config.Basic
import JobShell.Config.Files
import JobShell.Config.Overlay
import JobShell.Error
import JobShell.Expansion.Alias
import JobShell.Expansion.FileName
import JobShell.Expansion.Reference
import JobShell.Grammar
import JobShell.Host.Basic
import JobShell.Host.Errno
import JobShell.Host.FileTree
import JobShell.Host.Path
import JobShell.Host.Process
import JobShell.Host.ProcessTable
import JobShell.Host.Program
import JobShell.Host.Signal
import JobShell.Host.Toolbox
import JobShell.Host.World
import JobShell.Job.Reap
import JobShell.Job.Table
import JobShell.Main
import JobShell.Pattern
import JobShell.Session.Basic
import JobShell.Session.Dialogue
import JobShell.Session.Engine
import JobShell.Session.Execute
import JobShell.Session.Launch
import JobShell.Session.Output
import JobShell.Session.Prompt
import JobShell.Session.Transcript
import JobShell.Store.Listing
import JobShell.Store.Table
import JobShell.Store.Variables
import JobShell.Text.Blank
import JobShell.Text.Bytes
import JobShell.Text.Identifier
import JobShell.Text.Lines
import JobShell.Text.Number
import JobShell.Text.Quoted
import JobShell.Token.Basic
import JobShell.Token.Lexer
import JobShell.Toml.Printer
import JobShell.Toml.Reader
import JobShell.Toml.Scalar
import JobShell.Toml.Value
import JobShell.Proofs.Building
import JobShell.Proofs.BuiltinFrame
import JobShell.Proofs.BuiltinSteps
import JobShell.Proofs.Carriers
import JobShell.Proofs.ChildAccounts
import JobShell.Proofs.Chronicle
import JobShell.Proofs.Comparisons
import JobShell.Proofs.ConfinedAssignments
import JobShell.Proofs.ConfinedRuns
import JobShell.Proofs.ConfinedSteps
import JobShell.Proofs.DataReading
import JobShell.Proofs.DirectoryChanges
import JobShell.Proofs.DirectoryPaths
import JobShell.Proofs.EscapeDecoding
import JobShell.Proofs.Evaluation
import JobShell.Proofs.FaithfulBuilding
import JobShell.Proofs.FileTraffic
import JobShell.Proofs.FilledLine
import JobShell.Proofs.FinalExit
import JobShell.Proofs.ForegroundRuns
import JobShell.Proofs.ForegroundTraces
import JobShell.Proofs.ForkedCommands
import JobShell.Proofs.IgnoredRedirections
import JobShell.Proofs.InertComments
import JobShell.Proofs.InertTexts
import JobShell.Proofs.JobAgreement
import JobShell.Proofs.JobHistory
import JobShell.Proofs.LastingNodes
import JobShell.Proofs.LineAssignments
import JobShell.Proofs.LineParts
import JobShell.Proofs.LinePositions
import JobShell.Proofs.LineSteps
import JobShell.Proofs.OpenBraces
import JobShell.Proofs.OpenFiles
import JobShell.Proofs.OpenedTargets
import JobShell.Proofs.OperatorReading
import JobShell.Proofs.OrderlyRuns
import JobShell.Proofs.OverlayMerging
import JobShell.Proofs.ParseTree
import JobShell.Proofs.PatternExpansion
import JobShell.Proofs.PatternMatching
import JobShell.Proofs.PieceCuts
import JobShell.Proofs.PipelineFlow
import JobShell.Proofs.PipelineRuns
import JobShell.Proofs.PlainTexts
import JobShell.Proofs.PlantedTrees
import JobShell.Proofs.PrintedOutput
import JobShell.Proofs.PrintingSteps
import JobShell.Proofs.ProcessChanges
import JobShell.Proofs.QuotedWords
import JobShell.Proofs.ReapPass
import JobShell.Proofs.RedirectedOutput
import JobShell.Proofs.RedirectionOrder
import JobShell.Proofs.ReferenceWords
import JobShell.Proofs.RefusedLines
import JobShell.Proofs.ResumedJobs
import JobShell.Proofs.ScopedFiles
import JobShell.Proofs.SessionRules
import JobShell.Proofs.SessionStates
import JobShell.Proofs.SessionSteps
import JobShell.Proofs.ShellChanges
import JobShell.Proofs.ShellInvariants
import JobShell.Proofs.SourceDepth
import JobShell.Proofs.StableSteps
import JobShell.Proofs.StatusCoherence
import JobShell.Proofs.TextBytes
import JobShell.Proofs.TokenCuts
import JobShell.Proofs.TokenLimits
import JobShell.Proofs.TokenStream
import JobShell.Proofs.TreeGrowth
import JobShell.Proofs.UnquotedWords
import JobShell.Proofs.Validation
import JobShell.Proofs.ValuesAsData
import JobShell.Proofs.VariableHistory
import JobShell.Proofs.VariableInvariants
import JobShell.Proofs.VariableListings
import JobShell.Proofs.VariableNames
import JobShell.Proofs.WordLines
