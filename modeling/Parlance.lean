import Parlance.Choices
import Parlance.Derivation.Tree
import Parlance.Main
import Parlance.Proofs.Binarize
import Parlance.Proofs.Builtin
import Parlance.Proofs.Converse
import Parlance.Proofs.Cutting
import Parlance.Proofs.ErrorValues
import Parlance.Proofs.Isolation
import Parlance.Proofs.MacroExpansion
import Parlance.Proofs.Recognition
import Parlance.Proofs.Reduction
import Parlance.Proofs.ScoreAgreement
import Parlance.Proofs.SimplestForm
import Parlance.Proofs.Termination
import Parlance.Proofs.ValueText
import Parlance.Proofs.BoundNames
import Parlance.Proofs.ChainEnds
import Parlance.Proofs.Scoping
import Parlance.Proofs.MalformedCalls
import Parlance.Proofs.UnaryCycles
import Parlance.Proofs.JoinChecks
import Parlance.Proofs.FunctionTypes
import Parlance.Proofs.Policies
import Parlance.Proofs.Scheduling
import Parlance.Proofs.Gradient
import Parlance.Proofs.BeamCut
import Parlance.Proofs.Positions
import Parlance.Proofs.Statistics
import Parlance.Proofs.Spelling
import Parlance.Proofs.Loops
import Parlance.Proofs.Inclusions
import Parlance.Proofs.EntitySpans
import Parlance.Proofs.NumberRange
import Parlance.Proofs.Registration
import Parlance.Proofs.TypeText
import Parlance.Proofs.Concatenation
import Parlance.Proofs.Truncation
