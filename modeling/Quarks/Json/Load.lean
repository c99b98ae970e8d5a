import Quarks.Json.Value

/-!
# The parser of crow

`crow::json::load` copies the text, ends it with a zero byte and parses it by
recursive descent. As the parser stops at the first zero byte, it reads the text
up to that byte only.
-/

namespace Quarks

/-- `Parser::ws_skip`. -/
def wsSkip (s : Bytes) : Bytes := s.dropWhile fun c => c = 32 ∨ c = 9 ∨ c = 13 ∨ c = 10

/-- The letters that may follow a backslash, other than `u`. -/
def isEscapeLetter (c : UInt8) : Bool :=
  [34, 92, 47, 98, 102, 110, 114, 116].contains c

/-- `Parser::decode_string` after the opening quote: the raw string and what
follows the closing quote. -/
def decodeString : Bytes → Option (Bytes × Bytes)
  | 34 :: rest => some ([], rest)
  | 92 :: 117 :: h₁ :: h₂ :: h₃ :: h₄ :: rest =>
    if isHexDigit h₁ && isHexDigit h₂ && isHexDigit h₃ && isHexDigit h₄ then
      (decodeString rest).map fun p => (92 :: 117 :: h₁ :: h₂ :: h₃ :: h₄ :: p.1, p.2)
    else none
  | 92 :: c :: rest =>
    if isEscapeLetter c then (decodeString rest).map fun p => (92 :: c :: p.1, p.2) else none
  | c :: rest => if c = 92 then none else (decodeString rest).map fun p => (c :: p.1, p.2)
  | [] => none

/-- The states of `Parser::decode_number`. -/
inductive NumberState
  | minus | afterMinus | zeroFirst | digits | digitsAfterPoints | e | digitsAfterE | invalid
  deriving DecidableEq

namespace NumberState

/-- The row of the transition table for a character, `none` for one that ends the
number. Skipping the digits after a digit between `1` and `9` never changes the
state, and is left out. -/
def step (st : NumberState) (c : UInt8) : Option NumberState :=
  if c = 48 then some (match st with
    | minus | afterMinus => zeroFirst
    | digits => digits
    | digitsAfterPoints => digitsAfterPoints
    | e | digitsAfterE => digitsAfterE
    | zeroFirst | invalid => invalid)
  else if 49 ≤ c ∧ c ≤ 57 then some (match st with
    | minus | afterMinus | digits => digits
    | digitsAfterPoints => digitsAfterPoints
    | e | digitsAfterE => digitsAfterE
    | zeroFirst | invalid => invalid)
  else if c = 46 then some (match st with
    | zeroFirst | digits => digitsAfterPoints
    | _ => invalid)
  else if c = 45 then some (match st with
    | minus => afterMinus
    | e => digitsAfterE
    | _ => invalid)
  else if c = 43 then some (match st with
    | e => digitsAfterE
    | _ => invalid)
  else if c = 101 ∨ c = 69 then some (match st with
    | digits | digitsAfterPoints => e
    | _ => invalid)
  else none

/-- The states in which the number may end. -/
def accepts : NumberState → Bool
  | zeroFirst | digits | digitsAfterPoints | digitsAfterE => true
  | _ => false

/-- The state after a run of number characters, or `none` if it ends before. -/
def steps : NumberState → Bytes → Option NumberState
  | st, [] => some st
  | st, c :: s => (st.step c).bind fun st => if st = invalid then none else st.steps s

end NumberState

/-- `Parser::decode_number`: the token and what follows it. -/
def decodeNumber (st : NumberState) : Bytes → Option (Bytes × Bytes)
  | [] => if st.accepts then some ([], []) else none
  | c :: rest => match st.step c with
    | none => if st.accepts then some ([], c :: rest) else none
    | some st =>
      if st = .invalid then none else (decodeNumber st rest).map fun p => (c :: p.1, p.2)

mutual

/-- `Parser::decode_value`: the value and what follows it. -/
def decodeValue : ℕ → Bytes → Option (RValue × Bytes)
  | 0, _ => none
  | fuel + 1, data => match data with
    | 91 :: rest => match wsSkip rest with
      | 93 :: rest => some (.list [], rest)
      | rest => (decodeList fuel rest).map fun p => (.list p.1, p.2)
    | 123 :: rest => match wsSkip rest with
      | 125 :: rest => some (.object [], rest)
      | rest => (decodeObject fuel rest).map fun p => (.object p.1, p.2)
    | 34 :: rest => (decodeString rest).map fun p => (.string p.1, p.2)
    | 116 :: 114 :: 117 :: 101 :: rest => some (.bool true, rest)
    | 102 :: 97 :: 108 :: 115 :: 101 :: rest => some (.bool false, rest)
    | 110 :: 117 :: 108 :: 108 :: rest => some (.null, rest)
    | data => (decodeNumber .minus data).map fun p => (.number p.1, p.2)

/-- The loop of `Parser::decode_list`, at the start of an element. -/
def decodeList : ℕ → Bytes → Option (List RValue × Bytes)
  | 0, _ => none
  | fuel + 1, data => (decodeValue fuel data).bind fun p => match wsSkip p.2 with
    | 93 :: rest => some ([p.1], rest)
    | 44 :: rest => (decodeList fuel (wsSkip rest)).map fun q => (p.1 :: q.1, q.2)
    | _ => none

/-- The loop of `Parser::decode_object`, at the start of a field. -/
def decodeObject : ℕ → Bytes → Option (List (Bytes × RValue) × Bytes)
  | 0, _ => none
  | fuel + 1, data => match data with
    | 34 :: rest => (decodeString rest).bind fun name => match wsSkip name.2 with
      | 58 :: rest => (decodeValue fuel (wsSkip rest)).bind fun p => match wsSkip p.2 with
        | 125 :: rest => some ([(unescape name.1, p.1)], rest)
        | 44 :: rest => (decodeObject fuel (wsSkip rest)).map fun q =>
          ((unescape name.1, p.1) :: q.1, q.2)
        | _ => none
      | _ => none
    | _ => none

end

/-- `Parser::parse`: one value with nothing but white space around it. -/
def parse (data : Bytes) : Option RValue :=
  (decodeValue (2 * data.length + 2) (wsSkip data)).bind fun p =>
    if wsSkip p.2 = [] then some p.1 else none

/-- `crow::json::load`; `none` is the error value. -/
def load (text : Bytes) : Option RValue := parse (cstr text)

/-- The text is a JSON document for crow. -/
def IsJson (text : Bytes) : Prop := (load text).isSome = true

instance (text : Bytes) : Decidable (IsJson text) :=
  inferInstanceAs (Decidable ((load text).isSome = true))

/-- Using the result of a failed load raises an exception. -/
def checked (x : Option RValue) : Except Failure RValue :=
  match x with
  | some x => .ok x
  | none => .error (.runtimeError (ascii "invalid json object"))

theorem of_checked_ok {x : Option RValue} {y : RValue} (h : checked x = .ok y) : x = some y := by
  cases x with
  | none => cases h
  | some y' =>
    cases h
    rfl

end Quarks
