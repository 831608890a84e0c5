import Predictive.Command.Folder
import Predictive.Main
import Predictive.Pattern.Reader
import Predictive.Postfix.Language
import Predictive.Postfix.Scanner
import Predictive.Postfix.Vocabulary
import Predictive.Proofs.FirstExact
import Predictive.Proofs.TableCells
import Predictive.Terminal.Alphabet
import Predictive.Proofs.Prediction
import Predictive.Proofs.Runs
import Predictive.Proofs.StepLimit
import Predictive.Proofs.Acceptance
import Predictive.Proofs.FirstError
import Predictive.Proofs.Replay
import Predictive.Proofs.Termination
import Predictive.Proofs.FollowExact
import Predictive.Proofs.TableConflicts
import Predictive.Proofs.Unambiguity
import Predictive.Proofs.LeftRecursion
import Predictive.Postfix.Spelling
import Predictive.Proofs.Tiling
import Predictive.Proofs.Matching
import Predictive.Proofs.Quoting
import Predictive.Proofs.Scanning
import Predictive.Proofs.Cutting
import Predictive.Proofs.Rebuilding
import Predictive.Proofs.RoundTrip
import Predictive.Proofs.RuleLanguages
import Predictive.Proofs.Programs
import Predictive.Proofs.Diagnosis
import Predictive.Proofs.Balance
import Predictive.Proofs.Seams
import Predictive.Proofs.Checking
import Predictive.Proofs.Validation
import Predictive.Proofs.Embedding
import Predictive.Proofs.RuleOrder
import Predictive.Proofs.Reading
import Predictive.Proofs.Printing
import Predictive.Proofs.Verdicts
import Predictive.Proofs.Reachability
import Predictive.Proofs.Trimming
import Predictive.Proofs.MarkedInput
import Predictive.Proofs.LiveCells
import Predictive.Proofs.Confluence
import Predictive.Proofs.PassCount
import Predictive.Proofs.TableGrowth
import Predictive.Proofs.Joining
import Predictive.Proofs.Layout
import Predictive.Proofs.Rereading
import Predictive.Proofs.Warnings
import Predictive.Proofs.WrittenGrammar
