import SeekParse.Parser.Basic

/-!
# Requests to a cursor, as data

Everything that can be asked of a cursor, as a value, with one type of reply. A history of a cursor
is then a list, and one can speak of all histories: of what every one of them keeps, of one that is
run twice, of what one costs.

A request that fails is answered by its failure, and the cursor goes on from where that left it.
-/

namespace SeekParse

/-- What can be asked of a cursor. -/
inductive Request where
  | advance
  | rewind
  | peek
  | restore (state : Cursor.State)
  | slice (first past : Nat)
  | between (first last : Cursor.State)
  | excerpt (width : Nat)
  | diagnose (code : ErrorCode) (message : String)
  | probeText (text : String)
  | acceptText (text : String)
  | expectText (text : String)
  | probeOneOf (set : String)
  | acceptOneOf (set : String)
  | expectOneOf (set : String) (message : Option String)
  | takeWhile (p : UInt8 → Bool)
  | parse (rule : Rule)
  | parseToEnd

/-- What a request is answered with when it succeeds. -/
inductive Reply where
  | done
  | flag (value : Bool)
  | byte (value : Option UInt8)
  | length (value : Option Nat)
  | bytes (value : List UInt8)
  | text (value : String)
  | diagnostic (value : Diagnostic)
  | tree (value : Expr)
  deriving DecidableEq

namespace Request

/-- Do what is asked. -/
def perform : Request → ParseM Reply
  | .advance => return .flag (← Cursor.advance)
  | .rewind => return .flag (← Cursor.rewind)
  | .peek => return .byte (← Cursor.peek)
  | .restore state => do
    Cursor.restore state
    return .done
  | .slice first past => return .bytes (← Cursor.slice first past)
  | .between first last => return .bytes (← Cursor.between first last)
  | .excerpt width => return .text (← Cursor.excerpt width)
  | .diagnose code message => return .diagnostic (← Cursor.diagnose code message)
  | .probeText text => return .length (← Cursor.probeText text)
  | .acceptText text => return .flag (← Cursor.acceptText text)
  | .expectText text => do
    Cursor.expectText text
    return .done
  | .probeOneOf set => return .flag ((← get).atOneOf set)
  | .acceptOneOf set => return .flag (← Cursor.acceptOneOf set)
  | .expectOneOf set message => do
    Cursor.expectOneOf set message
    return .done
  | .takeWhile p => return .bytes (← Cursor.takeWhile p)
  | .parse rule => return .tree (← Cursor.parse rule)
  | .parseToEnd => return .tree (← Cursor.parseToEnd)

/-- The answer to a request, and the cursor after it. -/
def answer (r : Request) (c : Cursor) : Except Failure Reply × Cursor :=
  match r.perform c with
  | .ok reply c => (.ok reply, c)
  | .error e c => (.error e, c)

/-- The answers to a list of requests, each with the state after it, and the cursor after all. -/
def answerAll : List Request → Cursor → List (Except Failure Reply × Cursor.State) × Cursor
  | [], c => ([], c)
  | r :: rest, c =>
    let (reply, c) := r.answer c
    let (replies, last) := answerAll rest c
    ((reply, c.state) :: replies, last)

end Request

end SeekParse
