import Sml.Main
import Sml.Proofs.ReadingEnds
import Sml.Proofs.OperatorAgreement
import Sml.Proofs.Collapse
import Sml.Proofs.Abbreviations
import Sml.Proofs.FreshNames
import Sml.Proofs.GrownTrees
import Sml.Proofs.PrintedValues
import Sml.Proofs.Rendering
import Sml.Proofs.SignatureViews
import Sml.Proofs.DatatypeEquality
import Sml.Proofs.Shadowing
import Sml.Proofs.EqualityVariables
import Sml.Proofs.EscapeGrammar
import Sml.Proofs.Domains
import Sml.Proofs.Clauses
import Sml.Proofs.PatternBindings
import Sml.Proofs.Comments
import Sml.Proofs.Generativity
import Sml.Proofs.Hiding
import Sml.Proofs.Unification
import Sml.Proofs.Division
import Sml.Proofs.ListForms
import Sml.Proofs.CanonicalNames
import Sml.Proofs.Circularity
import Sml.Proofs.FiniteTexts
import Sml.Proofs.FurthestFailure
import Sml.Proofs.TupleLabels
