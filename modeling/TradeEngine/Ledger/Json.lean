import Mathlib.Tactic

/-!
# JSON texts

The parser and the writer of the ledger's documents. A text is its characters; the positions in
errors count the bytes of their UTF-8 encoding.
-/

namespace TradeEngine

/-- The integers of 128 bits. -/
def I128 : Type := { n : Int // -2 ^ 127 ≤ n ∧ n < 2 ^ 127 }

instance : DecidableEq I128 := inferInstanceAs (DecidableEq { n : Int // -2 ^ 127 ≤ n ∧ n < 2 ^ 127 })

/-- A JSON value; a number that is no 128-bit integer keeps its text. -/
inductive Json where
  | null
  | bool (b : Bool)
  | int (n : I128)
  | bigInt (text : String)
  | float (text : String)
  | str (s : String)
  | arr (items : List Json)
  | obj (pairs : List (String × Json))

structure JsonError where
  unsupported : Bool
  message : String
deriving DecidableEq, Repr

namespace Json

abbrev Result := Except JsonError

def err {α : Type} (message : String) : Result α := .error ⟨false, message⟩

def maxDepth : Nat := 400

/-! ## Reading -/

def isWs (c : Char) : Bool := c = ' ' || c = '\t' || c = '\n' || c = '\r'

def ws (s : List Char) : List Char := s.dropWhile isWs

/-- The integer a text of the number grammar stands for. -/
def intValue : List Char → Int
  | '-' :: digits => -(Nat.ofDigitChars 10 digits 0 : Int)
  | digits => Nat.ofDigitChars 10 digits 0

/-- `text.parse::<i128>()`, or the text itself. -/
def integer (text : List Char) : Json :=
  if h : -2 ^ 127 ≤ intValue text ∧ intValue text < 2 ^ 127 then .int ⟨intValue text, h⟩ else .bigInt (String.ofList text)

/-- The digits after a point, with it. -/
def fraction : List Char → List Char × List Char
  | '.' :: c :: rest =>
    if c.isDigit then ('.' :: (c :: rest).takeWhile Char.isDigit, (c :: rest).dropWhile Char.isDigit)
    else ([], '.' :: c :: rest)
  | s => ([], s)

/-- The sign of an exponent. -/
def sign : List Char → List Char × List Char
  | '+' :: rest => (['+'], rest)
  | '-' :: rest => (['-'], rest)
  | s => ([], s)

/-- An exponent, if its digits are there. -/
def exponent : List Char → List Char × List Char
  | e :: rest =>
    if e = 'e' ∨ e = 'E' then
      let (sgn, digits) := sign rest
      match digits with
      | c :: _ =>
        if c.isDigit then (e :: sgn ++ digits.takeWhile Char.isDigit, digits.dropWhile Char.isDigit)
        else ([], e :: rest)
      | [] => ([], e :: rest)
    else ([], e :: rest)
  | [] => ([], [])

/-- A number whose integer part is read. -/
def afterInteger (text s : List Char) : Json × List Char :=
  let (frac, s) := fraction s
  let (exp, s) := exponent s
  if frac = [] ∧ exp = [] then (integer text, s) else (.float (String.ofList (text ++ frac ++ exp)), s)

/-- The digits of a number, after its sign. -/
def digitsOf (sgn : List Char) : List Char → Result (Json × List Char)
  | '0' :: rest => .ok (afterInteger (sgn ++ ['0']) rest)
  | c :: rest =>
    if c.isDigit then
      .ok (afterInteger (sgn ++ (c :: rest).takeWhile Char.isDigit) ((c :: rest).dropWhile Char.isDigit))
    else err "Expecting value"
  | [] => err "Expecting value"

def number : List Char → Result (Json × List Char)
  | '-' :: rest => digitsOf ['-'] rest
  | s => digitsOf [] s

/-- `to_digit(16)`. -/
def hexDigit (c : Char) : Option Nat :=
  if '0' ≤ c ∧ c ≤ '9' then some (c.toNat - '0'.toNat)
  else if 'a' ≤ c ∧ c ≤ 'f' then some (c.toNat - 'a'.toNat + 10)
  else if 'A' ≤ c ∧ c ≤ 'F' then some (c.toNat - 'A'.toNat + 10)
  else none

def hex4 : List Char → Option (Nat × List Char)
  | a :: b :: c :: d :: rest => do
    pure ((((← hexDigit a) * 16 + (← hexDigit b)) * 16 + (← hexDigit c)) * 16 + (← hexDigit d), rest)
  | _ => none

def hexErr {α : Type} : Result α := err "Invalid \\uXXXX escape"

/-- The code point of a `\u` escape, a surrogate pair joined. -/
def escape (s : List Char) : Result (Nat × List Char) :=
  match hex4 s with
  | none => hexErr
  | some (hi, rest) =>
    if 0xD800 ≤ hi ∧ hi < 0xDC00 then
      match rest with
      | '\\' :: 'u' :: low =>
        match hex4 low with
        | none => hexErr
        | some (lo, after) =>
          if 0xDC00 ≤ lo ∧ lo < 0xE000 then
            .ok (0x10000 + (hi - 0xD800) * 1024 + (lo - 0xDC00), after)
          else .ok (hi, rest)
      | _ => .ok (hi, rest)
    else .ok (hi, rest)

/-- `char::from_u32`. -/
def charOf (cp : Nat) : Option Char :=
  if h : cp.isValidChar then some (Char.ofNatAux cp h) else none

/-- What a one-letter escape stands for. -/
def shortEscape (e : Char) : Option Char :=
  if e = '"' then some '"'
  else if e = '\\' then some '\\'
  else if e = '/' then some '/'
  else if e = 'b' then some '\x08'
  else if e = 'f' then some '\x0c'
  else if e = 'n' then some '\n'
  else if e = 'r' then some '\r'
  else if e = 't' then some '\t'
  else none

/-- The characters of a string up to its closing quote. Every step takes a character, so the length of
the text is fuel enough. -/
def chars : Nat → List Char → Result (List Char × List Char)
  | 0, _ => err "Unterminated string"
  | _, [] => err "Unterminated string"
  | fuel + 1, b :: rest =>
    if b = '"' then .ok ([], rest)
    else if b = '\\' then
      match rest with
      | [] => err "Unterminated string"
      | e :: rest =>
        if e = 'u' then do
          let (cp, rest) ← escape rest
          match charOf cp with
          | none => .error ⟨true, "a lone UTF-16 surrogate in a string"⟩
          | some c => do
            let (cs, rest) ← chars fuel rest
            pure (c :: cs, rest)
        else
          match shortEscape e with
          | none => err "Invalid \\escape"
          | some c => do
            let (cs, rest) ← chars fuel rest
            pure (c :: cs, rest)
    else if b.toNat < 0x20 then err "Invalid control character"
    else do
      let (cs, rest) ← chars fuel rest
      pure (b :: cs, rest)

/-- A string, its opening quote read. -/
def string (s : List Char) : Result (String × List Char) := do
  let (cs, rest) ← chars (s.length + 1) s
  pure (String.ofList cs, rest)

/-- A repeated key keeps its first place and takes the last value. -/
def setPair (pairs : List (String × Json)) (key : String) (v : Json) : List (String × Json) :=
  if key ∈ pairs.map (·.1) then pairs.map fun p => if p.1 = key then (p.1, v) else p
  else pairs ++ [(key, v)]

/-- The words and the numbers. -/
def scalar (s : List Char) : Result (Json × List Char) :=
  match s.head? with
  | none => err "Expecting value"
  | some c =>
    if c = 'n' ∧ "null".toList <+: s then .ok (.null, s.drop 4)
    else if c = 't' ∧ "true".toList <+: s then .ok (.bool true, s.drop 4)
    else if c = 'f' ∧ "false".toList <+: s then .ok (.bool false, s.drop 5)
    else if c = 'N' ∧ "NaN".toList <+: s then .ok (.float "NaN", s.drop 3)
    else if c = 'I' ∧ "Infinity".toList <+: s then .ok (.float "Infinity", s.drop 8)
    else if c = '-' ∧ "-Infinity".toList <+: s then .ok (.float "-Infinity", s.drop 9)
    else if c = '-' ∨ c.isDigit then number s
    else err "Expecting value"

mutual

/-- One value at a depth of nesting. Every call takes a character, so the length of the text is fuel
enough. -/
def value : Nat → Nat → List Char → Result (Json × List Char)
  | 0, _, _ => err "Expecting value"
  | fuel + 1, depth, s =>
    match s with
    | '"' :: rest => do
      let (t, rest) ← string rest
      pure (.str t, rest)
    | '{' :: rest =>
      if depth + 1 > maxDepth then err "nesting too deep"
      else match ws rest with
        | '}' :: rest => pure (.obj [], rest)
        | rest => object fuel (depth + 1) [] rest
    | '[' :: rest =>
      if depth + 1 > maxDepth then err "nesting too deep"
      else match ws rest with
        | ']' :: rest => pure (.arr [], rest)
        | rest => array fuel (depth + 1) [] rest
    | s => scalar s

/-- The items of an array that has one. -/
def array : Nat → Nat → List Json → List Char → Result (Json × List Char)
  | 0, _, _, _ => err "Expecting value"
  | fuel + 1, depth, items, s => do
    let (v, rest) ← value fuel depth (ws s)
    match ws rest with
    | ',' :: rest => array fuel depth (items ++ [v]) rest
    | ']' :: rest => pure (.arr (items ++ [v]), rest)
    | _ => err "Expecting ',' delimiter"

/-- The pairs of an object that has one. -/
def object : Nat → Nat → List (String × Json) → List Char → Result (Json × List Char)
  | 0, _, _, _ => err "Expecting value"
  | fuel + 1, depth, pairs, s =>
    match ws s with
    | '"' :: rest => do
      let (key, rest) ← string rest
      match ws rest with
      | ':' :: rest => do
        let (v, rest) ← value fuel depth (ws rest)
        match ws rest with
        | ',' :: rest => object fuel depth (setPair pairs key v) rest
        | '}' :: rest => pure (.obj (setPair pairs key v), rest)
        | _ => err "Expecting ',' delimiter"
      | _ => err "Expecting ':' delimiter"
    | _ => err "Expecting property name enclosed in double quotes"

end

theorem value_scalar {fuel depth : Nat} {c : Char} {s : List Char} (hq : c ≠ '"') (ho : c ≠ '{') (ha : c ≠ '[') :
    value (fuel + 1) depth (c :: s) = scalar (c :: s) := by
  rw [value]
  all_goals simp [hq, ho, ha]

def byteLength (s : List Char) : Nat := (s.map Char.utf8Size).sum

def parse (text : String) : Result Json := do
  let s := text.toList
  let (v, rest) ← value (s.length + 1) 0 (ws s)
  let rest := ws rest
  if rest = [] then pure v
  else err s!"Extra data: char {byteLength s - byteLength rest}"

/-! ## Writing -/

def hexChar (d : Nat) : Char := Char.ofNat (if d < 10 then '0'.toNat + d else 'a'.toNat + (d - 10))

/-- `\u` and the four hexadecimal digits of a number below 2^16. -/
def unicode (n : Nat) : List Char :=
  ['\\', 'u', hexChar (n / 4096 % 16), hexChar (n / 256 % 16), hexChar (n / 16 % 16), hexChar (n % 16)]

/-- A character inside a string; one beyond 16 bits as a surrogate pair. -/
def writeChar (c : Char) : List Char :=
  if c = '"' then ['\\', '"']
  else if c = '\\' then ['\\', '\\']
  else if c = '\n' then ['\\', 'n']
  else if c = '\r' then ['\\', 'r']
  else if c = '\t' then ['\\', 't']
  else if c = '\x08' then ['\\', 'b']
  else if c = '\x0c' then ['\\', 'f']
  else if c.toNat < 0x20 ∨ c.toNat > 0x7e then
    if c.toNat ≥ 0x10000 then
      let v := c.toNat - 0x10000
      unicode (0xd800 + v / 1024) ++ unicode (0xdc00 + v % 1024)
    else unicode c.toNat
  else [c]

def writeStr (s : String) : List Char := '"' :: s.toList.flatMap writeChar ++ ['"']

/-- Texts joined by commas. -/
def commas (l : List (List Char)) : List Char := [','].intercalate l

/-- Pairs by key. -/
def sortPairs {α : Type} (l : List (String × α)) : List (String × α) :=
  l.insertionSort fun a b => (compare a.1 b.1 != .gt) = true

mutual

def writeJson : Json → List Char
  | .null => "null".toList
  | .bool true => "true".toList
  | .bool false => "false".toList
  | .int n => (toString n.1).toList
  | .bigInt t | .float t => t.toList
  | .str s => writeStr s
  | .arr items => '[' :: commas (writeItems items) ++ [']']
  | .obj pairs =>
    '{' :: commas ((sortPairs (writePairs pairs)).map fun p => writeStr p.1 ++ ':' :: p.2) ++ ['}']

def writeItems : List Json → List (List Char)
  | [] => []
  | v :: items => writeJson v :: writeItems items

/-- Each key with the text of its value: sorting by key moves the texts as it does the values. -/
def writePairs : List (String × Json) → List (String × List Char)
  | [] => []
  | (k, v) :: pairs => (k, writeJson v) :: writePairs pairs

end

def dumps (v : Json) : String := String.ofList (writeJson v)

end Json

end TradeEngine
