import CommentStrip.Analysis
import CommentStrip.Proofs.Blocks
import CommentStrip.Proofs.Brackets
import CommentStrip.Proofs.Failure
import CommentStrip.Proofs.HeaderLines
import CommentStrip.Proofs.Idempotence
import CommentStrip.Proofs.Interpolation
import CommentStrip.Proofs.LineEnding.Pairs
import CommentStrip.Proofs.Neighbours
import CommentStrip.Proofs.Opening
import CommentStrip.Proofs.Range
import CommentStrip.Proofs.RegexLine
import CommentStrip.Proofs.Resumption
import CommentStrip.Proofs.Session
import CommentStrip.Proofs.Size
import CommentStrip.Proofs.Wording
