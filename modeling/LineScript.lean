import LineScript.Command.Launch
import LineScript.Main
import LineScript.Proofs.Declaring
import LineScript.Proofs.Joining
import LineScript.Proofs.LineEnds
import LineScript.Proofs.Publishing
import LineScript.Proofs.Queries
import LineScript.Proofs.Rename
import LineScript.Proofs.Respacing
import LineScript.Proofs.Scoping
import LineScript.Proofs.UniqueReading
import LineScript.Source.Operand
import LineScript.Proofs.Continuation
import LineScript.Proofs.ScopingModes
import LineScript.Proofs.Totality
import LineScript.Proofs.WireColumns
import LineScript.Proofs.WireAnswers
import LineScript.Proofs.Driving
import LineScript.Proofs.Likeness
import LineScript.Proofs.Skipping
import LineScript.Proofs.Containment
import LineScript.Proofs.DistinctStarts
import LineScript.Proofs.Agreement
import LineScript.Proofs.Nesting
import LineScript.Proofs.Proceeding
import LineScript.Proofs.WellPlaced
import LineScript.Proofs.RenamingBack
import LineScript.Proofs.Linewise
import LineScript.Proofs.NewNames
import LineScript.Proofs.CheckedFiles
import LineScript.Proofs.ClosingScopes
import LineScript.Proofs.Listening
import LineScript.Proofs.Offsets
import LineScript.Proofs.TableCalls
import LineScript.Outcome
