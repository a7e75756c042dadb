import SeekParse.Session
import SeekParse.Cursor.Place
import SeekParse.Expr.Printer
import SeekParse.Proofs.Replay
import SeekParse.Proofs.ViablePrefix
import SeekParse.Proofs.Printing
import SeekParse.Proofs.Needs
import SeekParse.Proofs.Seeks
import SeekParse.Proofs.Budget
import SeekParse.Proofs.Faults
import SeekParse.Proofs.Atomic
import SeekParse.Proofs.Runs
import SeekParse.Proofs.Groups
import SeekParse.Proofs.Literals
import SeekParse.Proofs.Slices
import SeekParse.Proofs.Expectations
import SeekParse.Proofs.ReportLines
import SeekParse.Proofs.Lookahead
import SeekParse.Proofs.Widths
import SeekParse.Proofs.Impasse
import SeekParse.Proofs.Loops
import SeekParse.Proofs.Quoting
