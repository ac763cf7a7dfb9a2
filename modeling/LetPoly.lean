import LetPoly.Command
import LetPoly.Main
import LetPoly.Proofs.Bindings
import LetPoly.Proofs.Blame
import LetPoly.Proofs.BoundNames
import LetPoly.Proofs.Brackets
import LetPoly.Proofs.Calls
import LetPoly.Proofs.Capture
import LetPoly.Proofs.Composition
import LetPoly.Proofs.Evidence
import LetPoly.Proofs.Freshness
import LetPoly.Proofs.Generalization
import LetPoly.Proofs.Idempotence
import LetPoly.Proofs.Inlining
import LetPoly.Proofs.Legibility
import LetPoly.Proofs.Location
import LetPoly.Proofs.NestedLets
import LetPoly.Proofs.Placement
import LetPoly.Proofs.Principality
import LetPoly.Proofs.Progress
import LetPoly.Proofs.Quantification
import LetPoly.Proofs.Relevance
import LetPoly.Proofs.Replacement
import LetPoly.Proofs.RoundTrip
import LetPoly.Proofs.Sections
import LetPoly.Proofs.Unambiguity
