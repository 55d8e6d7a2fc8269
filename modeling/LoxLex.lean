import LoxLex.Directory
import LoxLex.Main
import LoxLex.Segment.Lemmas
import LoxLex.Source.Cursor
import LoxLex.Token.Cursor
import LoxLex.Proofs.ScannedSegments
import LoxLex.Proofs.LongestMatch
import LoxLex.Proofs.Places
import LoxLex.Proofs.Spacing
import LoxLex.Proofs.LineBoundary
import LoxLex.Proofs.Rank
import LoxLex.Proofs.Rounding
import LoxLex.Proofs.Nearest
import LoxLex.Proofs.Numeral
import LoxLex.Proofs.NumberLiteral
import LoxLex.Proofs.DecimalText
import LoxLex.Proofs.ShortestDecimal
import LoxLex.Proofs.NumberFormat
import LoxLex.Proofs.Lines
import LoxLex.Proofs.Prompt
import LoxLex.Proofs.Lookahead
import LoxLex.Proofs.Messages
import LoxLex.Proofs.SessionScan
import LoxLex.Proofs.Separation
import LoxLex.Proofs.Outcome
import LoxLex.Proofs.LineEndings
import LoxLex.Proofs.CodePoints
import LoxLex.Proofs.Recovery
import LoxLex.Proofs.Bodies
import LoxLex.Proofs.OpenString
import LoxLex.Proofs.Rescan
import LoxLex.Proofs.ListDecoding
import LoxLex.Proofs.TableLayout
import LoxLex.Proofs.TableDecoding
import LoxLex.Proofs.DebugLines
import LoxLex.Proofs.Merging
import LoxLex.Proofs.TokenCursor
import LoxLex.Proofs.LineText
import LoxLex.Proofs.Echo
import LoxLex.Proofs.TableHistory
import LoxLex.Proofs.TableRule
import LoxLex.Proofs.Arguments
import LoxLex.Proofs.LogHistory
import LoxLex.Proofs.LineSearch
import LoxLex.Proofs.SpanOrder
import LoxLex.Proofs.SourceCursor
import LoxLex.Proofs.NumberLength
