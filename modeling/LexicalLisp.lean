import LexicalLisp.Main
import LexicalLisp.Prompt.Highlight
import LexicalLisp.Prompt.Completion
import LexicalLisp.Proofs.Store.Frames
import LexicalLisp.Proofs.Store.Reach
import LexicalLisp.Proofs.Evaluation.Invariant
import LexicalLisp.Proofs.Evaluation.FrameEffect
import LexicalLisp.Proofs.Evaluation.WellFormed
import LexicalLisp.Proofs.Evaluation.Renaming
import LexicalLisp.Proofs.Scoping.FreeNames
import LexicalLisp.Proofs.Scoping.Visibility
import LexicalLisp.Proofs.Scoping.Soundness
import LexicalLisp.Proofs.Session.Rollback
import LexicalLisp.Proofs.Session.Indistinguishable
import LexicalLisp.Proofs.Evaluation.Locality
import LexicalLisp.Proofs.Evaluation.Assignment
import LexicalLisp.Proofs.Store.Chain
import LexicalLisp.Proofs.Store.SelfBound
import LexicalLisp.Proofs.Evaluation.SelfName
import LexicalLisp.Proofs.Evaluation.NamedCall
import LexicalLisp.Proofs.Scoping.Reserved
import LexicalLisp.Proofs.Evaluation.EffectFree
import LexicalLisp.Proofs.Evaluation.BindsOnce
import LexicalLisp.Proofs.Session.Host
import LexicalLisp.Proofs.Reading.Shape
import LexicalLisp.Proofs.Reading.Atom
import LexicalLisp.Proofs.Reading.RoundTrip
import LexicalLisp.Proofs.Reading.Fault
import LexicalLisp.Proofs.Reading.Tree
import LexicalLisp.Proofs.Reading.Placement
import LexicalLisp.Proofs.Reading.OnDemand
import LexicalLisp.Proofs.Prompt.Verdict
import LexicalLisp.Proofs.Reading.Concatenation
import LexicalLisp.Proofs.Reading.Recovery
import LexicalLisp.Proofs.Session.Sequence
import LexicalLisp.Proofs.Evaluation.Interaction
import LexicalLisp.Proofs.Session.RefusedWrite
import LexicalLisp.Proofs.Session.MoreInput
import LexicalLisp.Proofs.Text.Piece
import LexicalLisp.Proofs.Session.StandardInput
import LexicalLisp.Proofs.Reading.Position
import LexicalLisp.Proofs.Reading.Pairing
import LexicalLisp.Proofs.Store.Renumbering
import LexicalLisp.Proofs.Evaluation.LetForm
import LexicalLisp.Proofs.Reading.SameShapes
import LexicalLisp.Proofs.Prompt.Piping
import LexicalLisp.Proofs.Evaluation.Depth
import LexicalLisp.Proofs.Evaluation.Conditional
import LexicalLisp.Proofs.Store.Nearest
import LexicalLisp.Proofs.Evaluation.InternalError
import LexicalLisp.Proofs.Evaluation.Course
import LexicalLisp.Proofs.Evaluation.Redefinition
import LexicalLisp.Proofs.Session.DistinctParams
import LexicalLisp.Proofs.Number.Division
import LexicalLisp.Proofs.Operator.Arithmetic
import LexicalLisp.Proofs.Value.Equality
import LexicalLisp.Proofs.Prompt.Continuation
import LexicalLisp.Proofs.Prompt.Partner
import LexicalLisp.Proofs.Prompt.Highlight
import LexicalLisp.Proofs.Text.NameOrder
import LexicalLisp.Proofs.Prompt.Completion
import LexicalLisp.Proofs.Reading.Location
import LexicalLisp.Proofs.Reading.WideCharacter
import LexicalLisp.Proofs.Prompt.Trimming
import LexicalLisp.Proofs.Reading.Decomposition
import LexicalLisp.Proofs.Reading.Classification
import LexicalLisp.Proofs.Reading.PrintedValue
