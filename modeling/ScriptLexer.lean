import ScriptLexer.Main
import ScriptLexer.Session.FileTree
import ScriptLexer.Proofs.Lead
import ScriptLexer.Proofs.Lexeme
import ScriptLexer.Proofs.Segment
import ScriptLexer.Proofs.SegmentReading
import ScriptLexer.Proofs.SegmentItems
import ScriptLexer.Proofs.Tiling
import ScriptLexer.Proofs.Grammar
import ScriptLexer.Proofs.MaximalMunch
import ScriptLexer.Proofs.LineBreak
import ScriptLexer.Proofs.Rejoining
import ScriptLexer.Proofs.TokenForm
import ScriptLexer.Proofs.Pull
import ScriptLexer.Proofs.Resuming
import ScriptLexer.Proofs.Lookahead
import ScriptLexer.Proofs.Joining
import ScriptLexer.Proofs.Region
import ScriptLexer.Proofs.Sequence
import ScriptLexer.Proofs.Defect
import ScriptLexer.Proofs.Pieces
import ScriptLexer.Proofs.Decoding
import ScriptLexer.Proofs.Printing
import ScriptLexer.Proofs.Lines
import ScriptLexer.Proofs.Course
import ScriptLexer.Proofs.LineScan
import ScriptLexer.Proofs.LineByLine
import ScriptLexer.Proofs.History
import ScriptLexer.Proofs.ExitLaw
import ScriptLexer.Proofs.Files
import ScriptLexer.Proofs.Truncation
import ScriptLexer.Proofs.Found
import ScriptLexer.Proofs.Transcript
import ScriptLexer.Proofs.Equality
import ScriptLexer.Proofs.Inside
import ScriptLexer.Proofs.Replacement
import ScriptLexer.Proofs.Recovery
import ScriptLexer.Proofs.Comments
import ScriptLexer.Proofs.StringContents
import ScriptLexer.Proofs.LineFeeds
import ScriptLexer.Proofs.Exhaustion
import ScriptLexer.Proofs.Faultless
import ScriptLexer.Proofs.Magnitude
import ScriptLexer.Proofs.Nearest
import ScriptLexer.Proofs.NumberValue
import ScriptLexer.Proofs.ShortestDigits
import ScriptLexer.Proofs.NumberText
import ScriptLexer.Proofs.LossyText
import ScriptLexer.Proofs.ScriptPath
import ScriptLexer.Proofs.Conservation
