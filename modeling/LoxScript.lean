import LoxScript.Main
import LoxScript.Token.Describe
import LoxScript.Proofs.Spot
import LoxScript.Proofs.Trace
import LoxScript.Proofs.Erasure
import LoxScript.Proofs.Frames
import LoxScript.Proofs.Regime
import LoxScript.Proofs.Operations
import LoxScript.Proofs.Conduct
import LoxScript.Proofs.Sightings
import LoxScript.Proofs.History
import LoxScript.Proofs.Passage
import LoxScript.Proofs.ScopeAgreement
import LoxScript.Proofs.Grammar
import LoxScript.Proofs.ParserSoundness
import LoxScript.Proofs.Acceptance
import LoxScript.Proofs.FirstTokens
import LoxScript.Proofs.ParserCompleteness
import LoxScript.Proofs.Shape
import LoxScript.Proofs.Accepted
import LoxScript.Proofs.Placement
import LoxScript.Proofs.Binding
import LoxScript.Proofs.Runs
import LoxScript.Proofs.Safety
import LoxScript.Proofs.Search
import LoxScript.Proofs.Restoration
import LoxScript.Proofs.Likeness
import LoxScript.Proofs.Lockstep
import LoxScript.Proofs.Simulation
import LoxScript.Proofs.Signals
import LoxScript.Proofs.Containment
import LoxScript.Proofs.Trees
import LoxScript.Proofs.Plain
import LoxScript.Proofs.Rewalk
import LoxScript.Proofs.Phrases
import LoxScript.Proofs.Words
import LoxScript.Proofs.Outcomes
import LoxScript.Proofs.JoinedText
import LoxScript.Proofs.JoinedProgram
import LoxScript.Proofs.Renaming
import LoxScript.Proofs.RenamedProgram
import LoxScript.Proofs.RenamedRun
import LoxScript.Proofs.Lexemes
import LoxScript.Proofs.Recorded
import LoxScript.Proofs.Progress
import LoxScript.Proofs.Intervals
import LoxScript.Proofs.NumberText
import LoxScript.Proofs.Spelling
import LoxScript.Proofs.Sexps
import LoxScript.Proofs.PrintedPrograms
import LoxScript.Proofs.Scribe
import LoxScript.Proofs.Custody
import LoxScript.Proofs.ScribedSteps
import LoxScript.Proofs.ScribedRun
import LoxScript.Proofs.Enclosure
import LoxScript.Proofs.EndOfInput
import LoxScript.Proofs.Bookkeeping
import LoxScript.Proofs.Provenance
import LoxScript.Proofs.MovedRun
import LoxScript.Proofs.JoinedRun
import LoxScript.Proofs.SourceLines
import LoxScript.Proofs.Quotation
import LoxScript.Proofs.Receivers
import LoxScript.Proofs.Padding
import LoxScript.Proofs.PaddedSteps
import LoxScript.Proofs.PaddedWalk
import LoxScript.Proofs.PaddedRun
import LoxScript.Proofs.Reshaping
import LoxScript.Proofs.BoxedRun
import LoxScript.Proofs.ExpandedRun
import LoxScript.Proofs.StaticRules
import LoxScript.Proofs.StaticFaults
import LoxScript.Proofs.Libraries
import LoxScript.Proofs.Agreement
import LoxScript.Proofs.Continuation
import LoxScript.Proofs.Resumption
import LoxScript.Proofs.TokenPlaces
import LoxScript.Proofs.CompoundAssignment
import LoxScript.Proofs.Entries
import LoxScript.Proofs.Rescanning
import LoxScript.Proofs.BareExpressions
import LoxScript.Proofs.OpenBrackets
import LoxScript.Proofs.Balance
import LoxScript.Proofs.CallDepth
