import WorkflowControl.File.Memory
import WorkflowControl.File.Tree
import WorkflowControl.Main
import WorkflowControl.Proofs.Document.Reformat
import WorkflowControl.Proofs.Document.RoundTrip
import WorkflowControl.Proofs.Substitution.Agreement
import WorkflowControl.Proofs.Substitution.Complete
import WorkflowControl.Proofs.Document.Step
import WorkflowControl.Proofs.Section.Merge
import WorkflowControl.Proofs.Document.Inclusion
import WorkflowControl.Proofs.Document.Grammar
import WorkflowControl.Proofs.Document.FoldedKeys
import WorkflowControl.Proofs.Token.LoopText
import WorkflowControl.Proofs.Substitution.Product
import WorkflowControl.Proofs.Substitution.Acyclic
import WorkflowControl.Proofs.Substitution.Circular
import WorkflowControl.Proofs.Document.Modes
import WorkflowControl.Proofs.Document.Includes
import WorkflowControl.Proofs.Document.Limit
import WorkflowControl.Proofs.ItemList.Ranges
import WorkflowControl.Proofs.Document.PairLine
import WorkflowControl.Proofs.Substitution.Arguments
import WorkflowControl.Proofs.Document.Comments
import WorkflowControl.Proofs.Section.DeepMerge
import WorkflowControl.Proofs.Substitution.Settled
import WorkflowControl.Proofs.Substitution.NestedMarkers
import WorkflowControl.Proofs.Substitution.Headers
import WorkflowControl.Proofs.Substitution.MissingHeaders
import WorkflowControl.Proofs.Document.Instances
import WorkflowControl.Proofs.Document.Assignment
import WorkflowControl.Proofs.Document.ReferenceNames
import WorkflowControl.Proofs.Document.SortedPrint
import WorkflowControl.Proofs.Fits.Walk
import WorkflowControl.Proofs.Fits.TextCard
import WorkflowControl.Proofs.Environment
import WorkflowControl.Proofs.Section.Edit
import WorkflowControl.Proofs.Document.Continuation
import WorkflowControl.Proofs.Document.Refusal
import WorkflowControl.Proofs.ItemList.Joined
import WorkflowControl.Proofs.LineEscape
