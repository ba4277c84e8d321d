import Glass.CommandLine.Session
import Glass.Main
import Glass.Program
import Glass.Reader
import Glass.Proofs.KindsDecide
import Glass.Proofs.PrintedScalar
import Glass.Proofs.PrintedValue
import Glass.Proofs.TreePlaces
import Glass.Scanner
import Glass.Proofs.LexemeLocality
import Glass.Proofs.TokenLocality
import Glass.Proofs.InsertedTrivia
import Glass.Proofs.NodeText
import Glass.Proofs.SharedStreams
import Glass.Proofs.TokenConservation
import Glass.Proofs.FrameStore
import Glass.Proofs.ResolvedNames
import Glass.Proofs.Substitution
import Glass.Proofs.ValueEquality
import Glass.Proofs.StringScan
import Glass.Proofs.IntegerLiteral
import Glass.Proofs.DictionarySum
import Glass.Proofs.CanonicalNumber
import Glass.Proofs.InnermostPlace
import Glass.Proofs.RenderedDiagnostic
import Glass.Proofs.OffsetOrder
import Glass.Proofs.ClippedCarets
import Glass.Proofs.QuotedToken
import Glass.Proofs.AssignmentTarget
