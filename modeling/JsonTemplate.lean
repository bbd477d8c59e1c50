import JsonTemplate.Main
import JsonTemplate.Proofs.Scanner.Tiling
import JsonTemplate.Proofs.Parser.Completeness
import JsonTemplate.Proofs.Parser.Height
import JsonTemplate.Proofs.Json.Embedding
import JsonTemplate.Proofs.Recompilation
import JsonTemplate.Proofs.Parser.Roles
import JsonTemplate.Proofs.Evaluation.Agreement
import JsonTemplate.Proofs.Parser.StopsInTime
import JsonTemplate.Proofs.Parser.ValidPrefix
import JsonTemplate.Proofs.Parser.FirstFault
import JsonTemplate.Proofs.Json.TokenTexts
import JsonTemplate.Proofs.Json.Unambiguity
import JsonTemplate.Proofs.CompiledText
import JsonTemplate.Proofs.Node.Places
import JsonTemplate.Proofs.Evaluation.Readings
import JsonTemplate.Proofs.Evaluation.Alike
import JsonTemplate.Proofs.Evaluation.Shadowing
import JsonTemplate.Proofs.Evaluation.Isolation
import JsonTemplate.Proofs.Evaluation.Visits
import JsonTemplate.Proofs.Evaluation.ThisScope
import JsonTemplate.Proofs.Evaluation.ParsedTrees
import JsonTemplate.Proofs.Evaluation.CallsInTurn
import JsonTemplate.Proofs.Scanner.Calls
import JsonTemplate.Proofs.Parser.Placeless
import JsonTemplate.Proofs.Respacing
import JsonTemplate.Proofs.Command.ArgumentGroups
import JsonTemplate.Proofs.Command.WrittenFiles
import JsonTemplate.Proofs.Command.Runs
import JsonTemplate.Proofs.FiniteNumbers
import JsonTemplate.Proofs.Json.SurrogatePairs
import JsonTemplate.Proofs.Parser.Precedence
import JsonTemplate.Proofs.Value.ExactIntegers
import JsonTemplate.Proofs.Json.Paths
import JsonTemplate.Proofs.Evaluation.Snapshots
import JsonTemplate.Proofs.Evaluation.ObjectFolds
import JsonTemplate.Proofs.Evaluation.CountedRounds
import JsonTemplate.Proofs.Evaluation.OutputAndLoops
import JsonTemplate.Proofs.Evaluation.LeavingLoops
import JsonTemplate.Proofs.Evaluation.StatementSequences
import JsonTemplate.Proofs.Command.ArgumentLanguage
import JsonTemplate.Proofs.Evaluation.UnpackedValues
import JsonTemplate.Proofs.Scanner.LocatedFaults
import JsonTemplate.Proofs.SignedIntegers
import JsonTemplate.Proofs.Parser.Progress
import JsonTemplate.Proofs.Evaluation.AddedBindings
