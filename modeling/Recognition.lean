import Recognition.Proofs.Bounds
import Recognition.Proofs.Grammar.Literal
import Recognition.Proofs.Grammar.Permutation
import Recognition.Proofs.Grammar.Repetition
import Recognition.Proofs.Http.HeaderExtent
import Recognition.Proofs.Http.QuotedString
import Recognition.Proofs.Http.VersionOrder
import Recognition.Proofs.Http.Wildcard
import Recognition.Proofs.Http.Written.AcceptList
import Recognition.Proofs.Http.Written.Cookie
import Recognition.Proofs.Payment.ControlDigit
import Recognition.Proofs.Payment.GroupsOfFour
import Recognition.Proofs.Payment.Parts
import Recognition.Proofs.Scan
import Recognition.Proofs.Search
import Recognition.Proofs.Sgml.Clusters
import Recognition.Proofs.Sgml.LineAnchors
import Recognition.Proofs.Sgml.Overflow
import Recognition.Proofs.Sgml.PartialDecoding
import Recognition.Proofs.Sgml.Pieces
import Recognition.Proofs.Truncation.Recognition
