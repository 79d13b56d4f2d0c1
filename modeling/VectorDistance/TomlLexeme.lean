import VectorDistance.BinaryValue

/-!
# Words of TOML

The lexical side of the TOML format for settings files: blanks, comments and
ends of lines; keys; the four kinds of quoted text; and the words that stand for
integers, reals, booleans and moments of time. A reader takes characters and
gives what it has read with the characters that follow, or nothing when they do
not begin as they should. No control character but the tab may stand in a
comment or a text.
-/

namespace VectorDistance.Toml

-- Powers are the core ones also where the algebraic hierarchy is in scope.
attribute [local instance (high)] instPowNat

/-- What has been read, and the characters after it. -/
abbrev Reading (α : Type) := α × List Char

/-- How deep a document may go: no path has more keys than this, and no value
stands within more arrays and tables written as values. -/
def depthLimit : Nat := 79

/-- Blanks within a line. -/
def isBlank (c : Char) : Bool :=
  c == ' ' || c == '\t'

/-- Characters that comments and texts may hold: no control characters but the
tab. -/
def isPlain (c : Char) : Bool :=
  c == '\t' || (0x20 ≤ c.toNat && c.toNat != 0x7f)

/-- Drops the blanks in front. -/
def skipBlanks (cs : List Char) : List Char :=
  cs.dropWhile isBlank

/-- The characters after an end of line, which may carry a carriage return. -/
def afterNewline? : List Char → Option (List Char)
  | '\n' :: rest => some rest
  | '\r' :: '\n' :: rest => some rest
  | _ => none

/-- The characters after blanks, an optional comment and an end of line or of
the document. -/
def afterLine? (cs : List Char) : Option (List Char) :=
  let rest :=
    match skipBlanks cs with
    | '#' :: comment => comment.dropWhile isPlain
    | other => other
  match rest with
  | [] => some []
  | _ => afterNewline? rest

/-- The characters after blanks, comments and ends of lines, as they may stand
between the elements of an array. -/
def afterTrivia? (inComment : Bool) : List Char → Option (List Char)
  | [] => some []
  | '\n' :: rest => afterTrivia? false rest
  | '\r' :: '\n' :: rest => afterTrivia? false rest
  | c :: rest =>
    if inComment then
      if isPlain c then afterTrivia? true rest else none
    else if isBlank c then afterTrivia? false rest
    else if c = '#' then afterTrivia? true rest
    else some (c :: rest)

/-! ## Quoted texts -/

/-- The character of an escape by one letter. -/
def letterEscape? : Char → Option Char
  | 'b' => some (Char.ofNat 0x08)
  | 't' => some '\t'
  | 'n' => some '\n'
  | 'f' => some (Char.ofNat 0x0c)
  | 'r' => some '\r'
  | '"' => some '"'
  | '\\' => some '\\'
  | _ => none

/-- The value of a hexadecimal digit of either case. -/
def hexValue? (c : Char) : Option Nat :=
  if c.isDigit then some (c.toNat - '0'.toNat)
  else if 'a' ≤ c ∧ c ≤ 'f' then some (c.toNat - 'a'.toNat + 10)
  else if 'A' ≤ c ∧ c ≤ 'F' then some (c.toNat - 'A'.toNat + 10)
  else none

/-- The character with that hexadecimal number; surrogates are none. -/
def numberedChar? (digits : List Char) : Option Char := do
  let number ← digits.foldlM (fun n c => (hexValue? c).map (16 * n + ·)) 0
  if number < 0xd800 ∨ (0xdfff < number ∧ number < 0x110000) then some (Char.ofNat number)
  else none

/-- Puts a character in front of a text that has been read. -/
def consChar (c : Char) (reading : Option (Reading (List Char))) : Option (Reading (List Char)) :=
  reading.map fun (text, rest) => (c :: text, rest)

/-- A text on one line up to its closing double quote, with escapes. -/
def basicText? : List Char → Option (Reading (List Char))
  | '"' :: rest => some ([], rest)
  | '\\' :: 'u' :: a :: b :: c :: d :: rest => do
    consChar (← numberedChar? [a, b, c, d]) (basicText? rest)
  | '\\' :: 'U' :: a :: b :: c :: d :: e :: f :: g :: h :: rest => do
    consChar (← numberedChar? [a, b, c, d, e, f, g, h]) (basicText? rest)
  | '\\' :: c :: rest => do consChar (← letterEscape? c) (basicText? rest)
  | c :: rest => if isPlain c && c != '\\' then consChar c (basicText? rest) else none
  | [] => none

/-- A text on one line up to its closing single quote, without escapes. -/
def literalText? : List Char → Option (Reading (List Char))
  | '\'' :: rest => some ([], rest)
  | c :: rest => if isPlain c then consChar c (literalText? rest) else none
  | [] => none

/-- Where a text over several lines stands with respect to a backslash at the
end of a line, which swallows all blanks and ends of lines that follow. -/
inductive Continuation where
  /-- No such backslash. -/
  | absent
  /-- After the backslash, before the end of its line. -/
  | pending
  /-- On the lines after it, before any other character. -/
  | gliding
  deriving DecidableEq

/-- A text over several lines up to its closing three double quotes, before
which up to two more may belong to the text. -/
def basicLines? (state : Continuation) : List Char → Option (Reading (List Char))
  | '\n' :: rest =>
    if state = .absent then consChar '\n' (basicLines? .absent rest)
    else basicLines? .gliding rest
  | '\r' :: '\n' :: rest =>
    if state = .absent then consChar '\n' (basicLines? .absent rest)
    else basicLines? .gliding rest
  | c :: rest =>
    if state ≠ .absent ∧ isBlank c then basicLines? state rest
    else if state = .pending then none
    else
      match c, rest with
      | '"', '"' :: '"' :: '"' :: '"' :: after => some (['"', '"'], after)
      | '"', '"' :: '"' :: '"' :: after => some (['"'], after)
      | '"', '"' :: '"' :: after => some ([], after)
      | '\\', 'u' :: a :: b :: c :: d :: after => do
        consChar (← numberedChar? [a, b, c, d]) (basicLines? .absent after)
      | '\\', 'U' :: a :: b :: c :: d :: e :: f :: g :: h :: after => do
        consChar (← numberedChar? [a, b, c, d, e, f, g, h]) (basicLines? .absent after)
      | '\\', letter :: after =>
        match letterEscape? letter with
        | some escaped => consChar escaped (basicLines? .absent after)
        | none => basicLines? .pending (letter :: after)
      | c, rest =>
        if isPlain c && c != '\\' then consChar c (basicLines? .absent rest) else none
  | [] => none

/-- A text over several lines up to its closing three single quotes, before
which up to two more may belong to the text. -/
def literalLines? : List Char → Option (Reading (List Char))
  | '\'' :: '\'' :: '\'' :: '\'' :: '\'' :: rest => some (['\'', '\''], rest)
  | '\'' :: '\'' :: '\'' :: '\'' :: rest => some (['\''], rest)
  | '\'' :: '\'' :: '\'' :: rest => some ([], rest)
  | '\n' :: rest => consChar '\n' (literalLines? rest)
  | '\r' :: '\n' :: rest => consChar '\n' (literalLines? rest)
  | c :: rest => if isPlain c then consChar c (literalLines? rest) else none
  | [] => none

/-- Drops an end of line right after the opening quotes of a text over several
lines. -/
def skipFirstNewline (cs : List Char) : List Char :=
  (afterNewline? cs).getD cs

/-- A quoted text of any of the four kinds. -/
def quotedText? : List Char → Option (Reading (List Char))
  | '"' :: '"' :: '"' :: rest => basicLines? .absent (skipFirstNewline rest)
  | '\'' :: '\'' :: '\'' :: rest => literalLines? (skipFirstNewline rest)
  | '"' :: rest => basicText? rest
  | '\'' :: rest => literalText? rest
  | _ => none

/-! ## Keys -/

/-- Characters of a key without quotes. -/
def isKeyChar (c : Char) : Bool :=
  c.isAlphanum || c == '_' || c == '-'

/-- One key, bare or quoted on one line. -/
def key? : List Char → Option (Reading String)
  | '"' :: rest => (basicText? rest).map fun (text, after) => (String.ofList text, after)
  | '\'' :: rest => (literalText? rest).map fun (text, after) => (String.ofList text, after)
  | cs =>
    if (cs.takeWhile isKeyChar).isEmpty then none
    else some (String.ofList (cs.takeWhile isKeyChar), cs.dropWhile isKeyChar)

/-- Keys joined by points, at most `limit` of them, as a path from the outside
in, and the characters after the blanks that follow. -/
def keyPath? : Nat → List Char → Option (Reading (List String))
  | 0, _ => none
  | limit + 1, cs => do
    let (first, rest) ← key? cs
    match skipBlanks rest with
    | '.' :: more =>
      let (others, after) ← keyPath? limit (skipBlanks more)
      return (first :: others, after)
    | after => return ([first], after)

/-! ## Words for single values -/

/-- Characters of the words for numbers, booleans and moments. -/
def isWordChar (c : Char) : Bool :=
  isKeyChar c || c == '+' || c == '.' || c == ':'

/-- Digits with single underscores between them. -/
def isDigitRun (isDigit : Char → Bool) : List Char → Bool
  | [] => false
  | [c] => isDigit c
  | c :: '_' :: rest => isDigit c && isDigitRun isDigit rest
  | c :: rest => isDigit c && isDigitRun isDigit rest

/-- The number that digits stand for in a base, underscores passed over. -/
def digitsValue (base : Nat) (cs : List Char) : Nat :=
  cs.foldl (fun n c => if c = '_' then n else base * n + (hexValue? c).getD 0) 0

/-- A word without its sign, and whether that is a minus. -/
def splitSign : List Char → Bool × List Char
  | '-' :: rest => (true, rest)
  | '+' :: rest => (false, rest)
  | word => (false, word)

/-- The parts before and after the first character of a kind, which is dropped. -/
def splitAtFirst (isMark : Char → Bool) (cs : List Char) : List Char × Option (List Char) :=
  match cs.dropWhile (!isMark ·) with
  | [] => (cs, none)
  | _ :: after => (cs.takeWhile (!isMark ·), some after)

/-- Decimal digits without a leading zero. -/
def isDecimalNumeral (cs : List Char) : Bool :=
  isDigitRun Char.isDigit cs && (cs.head? != some '0' || cs.length == 1)

/-- The integer of a word, if it is one that fits 64 bits. -/
def integer? (word : List Char) : Option Int :=
  match word with
  | '0' :: 'x' :: digits =>
    bounded (isDigitRun (fun c => (hexValue? c).isSome) digits) (digitsValue 16 digits)
  | '0' :: 'o' :: digits =>
    bounded (isDigitRun (fun c => '0' ≤ c && c ≤ '7') digits) (digitsValue 8 digits)
  | '0' :: 'b' :: digits =>
    bounded (isDigitRun (fun c => c == '0' || c == '1') digits) (digitsValue 2 digits)
  | _ =>
    let (negative, digits) := splitSign word
    let value : Int := digitsValue 10 digits
    bounded (isDecimalNumeral digits) (if negative then -value else value)
where
  /-- The value if the word is well-formed and the value fits. -/
  bounded (wellFormed : Bool) (value : Int) : Option Int :=
    if wellFormed ∧ -2 ^ (63 : Nat) ≤ value ∧ value < 2 ^ (63 : Nat) then some value else none

/-- Does the decimal `coefficient * 10 ^ exponent` round to a finite 64-bit
value? Only the largest finite power of ten needs a closer look. -/
def isWithinDouble (coefficient : Nat) (exponent : Int) : Bool :=
  let size := (Nat.toDigits 10 coefficient).length + exponent
  coefficient == 0 || decide (size ≤ 308) ||
    (size == 309 &&
      (Binary.ofRatio false (coefficient * 10 ^ exponent.toNat * 2 ^ Format.double.quantum)
        (10 ^ (-exponent).toNat) : Double).isFinite)

/-- Is the word a real number? Apart from infinities and NaNs it needs a decimal
or an exponent, and a positive one must not round to an infinity. -/
def isReal (word : List Char) : Bool :=
  let (negative, unsigned) := splitSign word
  if unsigned = ['i', 'n', 'f'] ∨ unsigned = ['n', 'a', 'n'] then true
  else
    let (mantissa, exponent?) := splitAtFirst (fun c => c == 'e' || c == 'E') unsigned
    let (whole, fraction?) := splitAtFirst (· == '.') mantissa
    let (lowered, exponentDigits) := splitSign (exponent?.getD ['0'])
    let fraction := fraction?.getD []
    let power : Int := digitsValue 10 exponentDigits
    let places := fraction.countP (· != '_')
    let coefficient := digitsValue 10 (whole ++ fraction)
    (fraction?.isSome || exponent?.isSome) && isDecimalNumeral whole &&
      (fraction?.isNone || isDigitRun Char.isDigit fraction) &&
      isDigitRun Char.isDigit exponentDigits &&
      (negative || isWithinDouble coefficient ((if lowered then -power else power) - places))

/-- The number of two decimal digits. -/
def twoDigits? (tens units : Char) : Option Nat :=
  if tens.isDigit ∧ units.isDigit then some (digitsValue 10 [tens, units]) else none

/-- Number of days of a month. -/
def daysInMonth (year month : Nat) : Nat :=
  if month = 2 then
    if year % 4 = 0 ∧ (year % 100 ≠ 0 ∨ year % 400 = 0) then 29 else 28
  else if month = 4 ∨ month = 6 ∨ month = 9 ∨ month = 11 then 30
  else 31

/-- The characters after a calendar date. -/
def afterDate? : List Char → Option (List Char)
  | y1 :: y2 :: y3 :: y4 :: '-' :: m1 :: m2 :: '-' :: d1 :: d2 :: rest => do
    let century ← twoDigits? y1 y2
    let year ← twoDigits? y3 y4
    let month ← twoDigits? m1 m2
    let day ← twoDigits? d1 d2
    let last := daysInMonth (100 * century + year) month
    if 1 ≤ month ∧ month ≤ 12 ∧ 1 ≤ day ∧ day ≤ last then some rest
    else none
  | _ => none

/-- The characters after hours and minutes. -/
def afterMinutes? : List Char → Option (List Char)
  | h1 :: h2 :: ':' :: m1 :: m2 :: rest => do
    let hour ← twoDigits? h1 h2
    let minute ← twoDigits? m1 m2
    if hour ≤ 23 ∧ minute ≤ 59 then some rest else none
  | _ => none

/-- The characters after a time of day with seconds and an optional fraction;
a leap second is allowed. -/
def afterTime? (cs : List Char) : Option (List Char) := do
  match ← afterMinutes? cs with
  | ':' :: s1 :: s2 :: rest =>
    let second ← twoDigits? s1 s2
    if 60 < second then none
    else
      match rest with
      | '.' :: fraction =>
        if (fraction.takeWhile Char.isDigit).isEmpty then none
        else some (fraction.dropWhile Char.isDigit)
      | _ => some rest
  | _ => none

/-- Is this nothing or an offset from universal time? -/
def isOffset : List Char → Bool
  | [] => true
  | ['Z'] => true
  | ['z'] => true
  | '+' :: rest => afterMinutes? rest == some []
  | '-' :: rest => afterMinutes? rest == some []
  | _ => false

/-- Is the word a date, a time of day or both, then perhaps with an offset? -/
def isMoment (word : List Char) : Bool :=
  afterTime? word == some [] ||
    match afterDate? word with
    | some [] => true
    | some (mark :: time) =>
      (mark == 'T' || mark == 't' || mark == ' ') &&
        match afterTime? time with
        | some offset => isOffset offset
        | none => false
    | none => false

/-- The characters of a word, and those after it. A date takes in a time of day
that follows after one space. -/
def splitWord (cs : List Char) : List Char × List Char :=
  let word := cs.takeWhile isWordChar
  match cs.dropWhile isWordChar with
  | ' ' :: c :: rest =>
    if afterDate? word = some [] ∧ c.isDigit then
      (word ++ ' ' :: (c :: rest).takeWhile isWordChar, (c :: rest).dropWhile isWordChar)
    else (word, ' ' :: c :: rest)
  | rest => (word, rest)

end VectorDistance.Toml
