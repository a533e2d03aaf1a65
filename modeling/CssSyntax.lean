import CssSyntax.Parse
import CssSyntax.Token.Nesting
import CssSyntax.Tree.Content
import CssSyntax.Tree.WellFormed
import CssSyntax.Proofs.Reading
import CssSyntax.Proofs.Run
import CssSyntax.Proofs.Expression
import CssSyntax.Proofs.Selector
import CssSyntax.Proofs.Stylesheet
import CssSyntax.Proofs.Totality
import CssSyntax.Proofs.Nesting
import CssSyntax.Proofs.Failures
import CssSyntax.Proofs.Recovery
import CssSyntax.Proofs.Completeness
import CssSyntax.Proofs.Soundness
import CssSyntax.Proofs.RoundTrip
import CssSyntax.Proofs.Kinds
import CssSyntax.Proofs.Separators
import CssSyntax.Proofs.Boundary
import CssSyntax.Proofs.Lockstep
import CssSyntax.Proofs.Resumption
import CssSyntax.Proofs.Strays
import CssSyntax.Proofs.Steadiness
import CssSyntax.Proofs.EndOfInput
import CssSyntax.Proofs.Prescanned
import CssSyntax.Proofs.Incidentals
import CssSyntax.Proofs.DeclarationLists
import CssSyntax.Proofs.Isolation
import CssSyntax.Proofs.AtRules
import CssSyntax.Proofs.Locations
import CssSyntax.Proofs.Progress
import CssSyntax.Proofs.Restart
import CssSyntax.Proofs.Content
import CssSyntax.Proofs.Window
import CssSyntax.Proofs.DepthLimit
import CssSyntax.Text.Written
import CssSyntax.Proofs.Written
import CssSyntax.Proofs.Identifiers
import CssSyntax.Proofs.Literals
import CssSyntax.Proofs.Extent
import CssSyntax.Proofs.Numbers
import CssSyntax.Proofs.Reproduction
import CssSyntax.Proofs.BlankTokens
