import LoxExpr.CommandLine
import LoxExpr.Cursor
import LoxExpr.Main
import LoxExpr.Options
import LoxExpr.Proofs.BlankedOut
import LoxExpr.Proofs.Bookkeeping
import LoxExpr.Proofs.Calls
import LoxExpr.Proofs.CursorPlaces
import LoxExpr.Proofs.CursorUse
import LoxExpr.Proofs.Descent
import LoxExpr.Proofs.FaultKinds
import LoxExpr.Proofs.Gaps
import LoxExpr.Proofs.Guarded
import LoxExpr.Proofs.GuardedCalls
import LoxExpr.Proofs.GuardedScan
import LoxExpr.Proofs.Layout
import LoxExpr.Proofs.LayoutInvariance
import LoxExpr.Proofs.LimitedOutput
import LoxExpr.Proofs.LineByLine
import LoxExpr.Proofs.LineNumbers
import LoxExpr.Proofs.Lines
import LoxExpr.Proofs.ListingDecodes
import LoxExpr.Proofs.Magnitude
import LoxExpr.Proofs.MaximalMunch
import LoxExpr.Proofs.NearestNumber
import LoxExpr.Proofs.NestingLimit
import LoxExpr.Proofs.NumberValues
import LoxExpr.Proofs.PrefixForm
import LoxExpr.Proofs.Prompt
import LoxExpr.Proofs.ReadsBack
import LoxExpr.Proofs.Recognition
import LoxExpr.Proofs.Resuming
import LoxExpr.Proofs.RunOutcome
import LoxExpr.Proofs.Script
import LoxExpr.Proofs.Session
import LoxExpr.Proofs.Splice
import LoxExpr.Proofs.TextBetween
import LoxExpr.Proofs.TrailingBlanks
import LoxExpr.Proofs.Transcript
import LoxExpr.Proofs.Unbroken
import LoxExpr.Proofs.UniqueTiling
import LoxExpr.Proofs.ViablePrefix
import LoxExpr.Proofs.WrittenOut
