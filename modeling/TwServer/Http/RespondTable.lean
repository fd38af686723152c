import TwServer.Http.RespondParser

/-! The whole table of the generated machine of responds: the chunk size, the status line and
the header lines. Next to every name and value the machine spells the three headers that it
knows, in states of their own. -/

namespace TwServer

namespace Http
namespace HttpclientParser

/-! ## Bytes -/

def isDigit (b : UInt8) : Bool := 48 ≤ b && b ≤ 57

def isHex (b : UInt8) : Bool := isDigit b || 65 ≤ b && b ≤ 70 || 97 ≤ b && b ≤ 102

/-- A byte of a token: a letter, a digit or one of the marks that may stand in a name. -/
def isToken (b : UInt8) : Bool :=
  b = 33 || 35 ≤ b && b ≤ 39 || 42 ≤ b && b ≤ 43 || 45 ≤ b && b ≤ 46 || isDigit b ||
    65 ≤ b && b ≤ 90 || 94 ≤ b && b ≤ 122 || b = 124 || b = 126

/-- White space other than the two ends of a line. -/
def isBlank (b : UInt8) : Bool := b = 9 || 11 ≤ b && b ≤ 12 || b = 32

/-! ## Names and values -/

/-- In the name of a header, behind its first byte. -/
def isName (cs : Nat) : Bool :=
  cs = 21 || 25 ≤ cs && cs ≤ 34 || 44 ≤ cs && cs ≤ 60 || 73 ≤ cs && cs ≤ 79 ||
    90 ≤ cs && cs ≤ 94 || 101 ≤ cs && cs ≤ 111 || cs = 117

/-- In the value of a header, behind its first byte. -/
def isValue (cs : Nat) : Bool :=
  cs = 23 || 81 ≤ cs && cs ≤ 87 || 96 ≤ cs && cs ≤ 100 || cs = 119

def digits : List UInt8 := [48, 49, 50, 51, 52, 53, 54, 55, 56, 57]

/-- What goes on with a word that the machine knows, in small letters, and the state then. -/
def spelling : Nat → List (UInt8 × Nat)
  -- connection, and content-length from its fourth letter on
  | 25 => [(111, 26)] | 26 => [(110, 27)] | 27 => [(110, 28), (116, 101)] | 28 => [(101, 29)]
  | 29 => [(99, 30)] | 30 => [(116, 31)] | 31 => [(105, 32)] | 32 => [(111, 33)]
  | 33 => [(110, 34)]
  | 101 => [(101, 102)] | 102 => [(110, 103)] | 103 => [(116, 104)] | 104 => [(45, 105)]
  | 105 => [(108, 106)] | 106 => [(101, 107)] | 107 => [(110, 108)] | 108 => [(103, 109)]
  | 109 => [(116, 110)] | 110 => [(104, 111)]
  -- transfer-encoding
  | 44 => [(114, 45)] | 45 => [(97, 46)] | 46 => [(110, 47)] | 47 => [(115, 48)]
  | 48 => [(102, 49)] | 49 => [(101, 50)] | 50 => [(114, 51)] | 51 => [(45, 52)]
  | 52 => [(101, 53)] | 53 => [(110, 54)] | 54 => [(99, 55)] | 55 => [(111, 56)]
  | 56 => [(100, 57)] | 57 => [(105, 58)] | 58 => [(110, 59)] | 59 => [(103, 60)]
  -- chunked, close and digits at the start of the line behind a header without a value
  | 73 => [(104, 74), (111, 26)] | 74 => [(117, 75)] | 75 => [(110, 76)] | 76 => [(107, 77)]
  | 77 => [(101, 78)] | 78 => [(100, 79)]
  | 90 => [(108, 91), (111, 26)] | 91 => [(111, 92)] | 92 => [(115, 93)] | 93 => [(101, 94)]
  | 117 => digits.map fun d => (d, 117)
  -- the values chunked, close and a number
  | 81 => [(104, 82)] | 82 => [(117, 83)] | 83 => [(110, 84)] | 84 => [(107, 85)]
  | 85 => [(101, 86)] | 86 => [(100, 87)]
  | 96 => [(108, 97)] | 97 => [(111, 98)] | 98 => [(115, 99)] | 99 => [(101, 100)]
  | 119 => digits.map fun d => (d, 119)
  | _ => []

/-- The state behind the byte, where `other` is the one of any other name or value. -/
def spell (cs : Nat) (b : UInt8) (other : Nat) : Nat :=
  ((spelling cs).lookup (toLower b)).getD other

/-- The state behind the colon. -/
def colon : Nat → Nat
  | 34 => 35
  | 60 => 61
  | 111 => 112
  | _ => 22

def nameStep (cs : Nat) (b : UInt8) : Transition :=
  if b = 58 then .goto [.writeField] (colon cs)
  else if isToken b then .goto [] (spell cs b 21)
  else
    match cs, b with
    | 79, 10 => .goto [.httpField, .transferEncodingChunked] 20
    | 79, 13 => .goto [.httpField] 71
    | 94, 10 => .goto [] 43
    | 94, 13 => .goto [] 88
    | 117, 10 => .goto [.writeContentLength, .httpField] 20
    | 117, 13 => .goto [.writeContentLength, .httpField] 24
    | _, _ => .error

def valueStep (cs : Nat) (b : UInt8) : Transition :=
  match cs, b with
  | 87, 10 => .goto [.httpField, .transferEncodingChunked] 20
  | 87, 13 => .goto [.httpField] 71
  | 100, 10 => .goto [.httpField] 43
  | 100, 13 => .goto [.httpField] 88
  | 119, 10 => .goto [.writeContentLength, .httpField] 20
  | 119, 13 => .goto [.writeContentLength, .httpField] 24
  | _, 10 => .goto [.httpField] 20
  | _, 13 => .goto [.httpField] 24
  | _, _ => .goto [] (spell cs b 23)

/-- Behind the colon, in the state `cs`: blanks are skipped. `lf` and `cr` are the states where
the value is empty. -/
def openValue (cs lf cr : Nat) (other : Nat) (b : UInt8) : Transition :=
  if b = 10 then .goto [.startValue, .httpField] lf
  else if b = 13 then .goto [.startValue, .httpField] cr
  else if isBlank b then .goto [.startValue] cs
  else .goto [.startValue] other

/-- The start of a line, after the actions that the line in front of it has left. -/
def openName (actions : List Action) (other : Nat) (b : UInt8) : Transition :=
  if isToken b then .goto (actions ++ [.startField]) other else .error

/-- White space in front of a value on a line of its own. -/
def folded (cs : Nat) (first : UInt8 → Bool) (actions : List Action) (next : Nat) (b : UInt8) :
    Transition :=
  if isBlank b || b = 10 || b = 13 then .goto [] cs
  else if first b then .goto actions next
  else .error

def only (c : UInt8) (cs : Nat) (b : UInt8) : Transition :=
  if toLower b = c then .goto [] cs else .error

def isC (b : UInt8) : Bool := toLower b = 99

/-! ## The table -/

def httpclient : Table := fun cs b =>
  if isName cs then nameStep cs b
  else if isValue cs then valueStep cs b
  else
    match cs with
    | 1 =>
      if b = 72 then .goto [.mark] 8 else if isHex b then .goto [.mark] 2 else .error
    -- the size of a chunk and its extensions
    | 2 =>
      if b = 10 then .done [.chunkSize] 120
      else if b = 13 then .goto [.chunkSize] 3
      else if b = 59 then .goto [.chunkSize] 4
      else if isHex b then .goto [] 2
      else .error
    | 3 => if b = 10 then .done [] 120 else .error
    | 4 => if isToken b then .goto [.startField] 5 else .error
    | 5 =>
      if b = 10 then .done [.writeField, .startValue, .httpField] 120
      else if b = 13 then .goto [.writeField, .startValue, .httpField] 3
      else if b = 59 then .goto [.writeField, .startValue, .httpField] 4
      else if b = 61 then .goto [.writeField, .startValue] 6
      else if isToken b then .goto [] 5
      else .error
    | 6 => if isToken b then .goto [.startValue] 7 else .error
    | 7 =>
      if b = 10 then .done [.httpField] 120
      else if b = 13 then .goto [.httpField] 3
      else if b = 59 then .goto [.httpField] 4
      else if isToken b then .goto [] 7
      else .error
    -- the status line
    | 8 => if b = 84 then .goto [] 9 else .error
    | 9 => if b = 84 then .goto [] 10 else .error
    | 10 => if b = 80 then .goto [] 11 else .error
    | 11 => if b = 47 then .goto [] 12 else .error
    | 12 => if isDigit b then .goto [] 13 else .error
    | 13 => if b = 46 then .goto [] 14 else if isDigit b then .goto [] 13 else .error
    | 14 => if isDigit b then .goto [] 15 else .error
    | 15 => if b = 32 then .goto [.httpVersion] 16 else if isDigit b then .goto [] 15 else .error
    | 16 => if isDigit b then .goto [.mark] 17 else .error
    | 17 => if b = 32 then .goto [.statusCode] 18 else if isDigit b then .goto [] 17 else .error
    | 18 => if b = 10 then .error else .goto [.mark] 19
    | 19 =>
      if b = 10 then .goto [.reasonPhrase] 20
      else if b = 13 then .goto [.reasonPhrase] 24
      else .goto [] 19
    -- the starts of lines
    | 20 =>
      if b = 10 then .done [] 120
      else if b = 13 then .goto [] 3
      else openName [] (if isC b then 25 else if toLower b = 116 then 44 else 21) b
    | 36 =>
      if b = 10 then .done [] 122
      else if b = 13 then .goto [] 89
      else if isBlank b then .goto [] 37
      else openName [] (if isC b then 90 else if toLower b = 116 then 44 else 21) b
    | 43 =>
      if b = 10 then .done [.connClose] 120
      else if b = 13 then .goto [.connClose] 3
      else openName [.connClose] (if isC b then 25 else if toLower b = 116 then 44 else 21) b
    | 62 =>
      if b = 10 then .done [] 121
      else if b = 13 then .goto [] 72
      else if isBlank b then .goto [] 63
      else if isC b then .goto [.startValue, .startField] 73
      else openName [] (if toLower b = 116 then 44 else 21) b
    | 113 =>
      if b = 10 then .done [] 123
      else if b = 13 then .goto [] 116
      else if isBlank b then .goto [] 114
      else if isDigit b then .goto [.startValue, .startField] 117
      else openName [] (if isC b then 25 else if toLower b = 116 then 44 else 21) b
    -- the starts of values
    | 22 => openValue 22 20 24 23 b
    | 35 => openValue 35 36 95 (if isC b then 96 else 23) b
    | 61 => openValue 61 62 80 (if isC b then 81 else 23) b
    | 112 => openValue 112 113 118 (if isDigit b then 119 else 23) b
    -- the ends of lines
    | 24 => if b = 10 then .goto [] 20 else .error
    | 71 => if b = 10 then .goto [.transferEncodingChunked] 20 else .error
    | 88 => if b = 10 then .goto [] 43 else .error
    | 89 => if b = 10 then .done [] 122 else folded 37 isC [] 38 b
    | 95 => if b = 10 then .goto [] 36 else folded 37 isC [] 38 b
    | 72 => if b = 10 then .done [] 121 else folded 63 isC [.startValue] 64 b
    | 80 => if b = 10 then .goto [] 62 else folded 63 isC [.startValue] 64 b
    | 116 => if b = 10 then .done [] 123 else folded 114 isDigit [.startValue] 115 b
    | 118 => if b = 10 then .goto [] 113 else folded 114 isDigit [.startValue] 115 b
    -- values on a line of their own: close, chunked and a number
    | 37 | 122 => folded 37 isC [] 38 b
    | 38 => only 108 39 b
    | 39 => only 111 40 b
    | 40 => only 115 41 b
    | 41 => only 101 42 b
    | 42 => if b = 10 then .goto [] 43 else if b = 13 then .goto [] 88 else .error
    | 63 | 121 => folded 63 isC [.startValue] 64 b
    | 64 => only 104 65 b
    | 65 => only 117 66 b
    | 66 => only 110 67 b
    | 67 => only 107 68 b
    | 68 => only 101 69 b
    | 69 => only 100 70 b
    | 70 =>
      if b = 10 then .goto [.httpField, .transferEncodingChunked] 20
      else if b = 13 then .goto [.httpField] 71
      else .error
    | 114 | 123 => folded 114 isDigit [.startValue] 115 b
    | 115 =>
      if b = 10 then .goto [.writeContentLength, .httpField] 20
      else if b = 13 then .goto [.writeContentLength, .httpField] 24
      else if isDigit b then .goto [] 115
      else .error
    | _ => .error

end HttpclientParser
end Http
end TwServer
