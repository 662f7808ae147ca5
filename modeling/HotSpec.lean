import HotSpec.Collection
import HotSpec.Command.PagePath
import HotSpec.Main
import HotSpec.Regex.Reader
import HotSpec.Settings.Options
import HotSpec.Proofs.Console.Verdict
import HotSpec.Proofs.Engine.Spared
import HotSpec.Proofs.Expectation.Race
import HotSpec.Proofs.Expectation.Change
import HotSpec.Proofs.Expectation.Failure
import HotSpec.Proofs.Expectation.Overlap
import HotSpec.Proofs.Expectation.FullSpecs
import HotSpec.Proofs.Expectation.Flush
import HotSpec.Proofs.Expectation.Fifo
import HotSpec.Proofs.Html.Matching
import HotSpec.Proofs.Html.Respaced
import HotSpec.Proofs.Html.Prefixed
import HotSpec.Proofs.Html.Decomposition
import HotSpec.Proofs.Spec.Concatenation
import HotSpec.Proofs.Spec.Conservation
import HotSpec.Proofs.Spec.Places
import HotSpec.Proofs.Script.Talk
import HotSpec.Proofs.Script.Foreign
import HotSpec.Proofs.Script.Coming
import HotSpec.Proofs.Script.Page
import HotSpec.Proofs.Engine.Gathering
import HotSpec.Proofs.Engine.Prompt
import HotSpec.Proofs.Script.Conversation
import HotSpec.Proofs.Engine.Service
import HotSpec.Proofs.Engine.Subs
import HotSpec.Proofs.Spec.Grammar
import HotSpec.Proofs.Spec.Coverage
import HotSpec.Proofs.Spec.Denotation
import HotSpec.Proofs.Spec.Fragments
import HotSpec.Proofs.Spec.LastBreak
import HotSpec.Proofs.Spec.Interference
import HotSpec.Proofs.Spec.Unfailing
import HotSpec.Proofs.Spec.WellPlaced
import HotSpec.Proofs.Spec.BlankLines
import HotSpec.Proofs.Engine.Leftovers
import HotSpec.Proofs.Expectation.Registrations
import HotSpec.Proofs.Expectation.NormalForm
import HotSpec.Proofs.Expectation.ExactChange
import HotSpec.Proofs.Expectation.Blame
import HotSpec.Proofs.Console.ErrorEpochs
import HotSpec.Proofs.Console.LoadEpochs
import HotSpec.Proofs.Spec.Ranges
import HotSpec.Proofs.Spec.Located
import HotSpec.Proofs.Plugin.Strictness
import HotSpec.Proofs.Console.Ignoring
import HotSpec.Proofs.Console.Hearing
