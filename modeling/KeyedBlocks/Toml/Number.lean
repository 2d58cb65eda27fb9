import KeyedBlocks.Toml.Text

/-!
TOML numbers, dates and times, recognised as whole words. Integers have 64 bits. A single
underscore may stand between two digits.
-/
namespace KeyedBlocks.Toml

/-- The digits of a word in which single underscores may stand between digits. -/
def grouped? (isDigit : Char → Bool) : List Char → Option (List Char)
  | [] => none
  | [c] => if isDigit c then some [c] else none
  | c :: '_' :: rest => if isDigit c then (grouped? isDigit rest).map (c :: ·) else none
  | c :: rest => if isDigit c then (grouped? isDigit rest).map (c :: ·) else none

def ofDigits (base : Nat) (digits : List Char) : Nat :=
  digits.foldl (fun n c => base * n + (hexValue? c).getD 0) 0

/-- Digits that do not begin with a zero, unless that is the only one. -/
def decimal? (word : List Char) : Option (List Char) := do
  let digits ← grouped? Char.isDigit word
  match digits with
  | '0' :: _ :: _ => none
  | _ => some digits

def unsigned (sign : List Char) : Bool × List Char :=
  match sign with
  | '-' :: rest => (true, rest)
  | '+' :: rest => (false, rest)
  | rest => (false, rest)

/-- An integer: decimal with a sign or without, or in base 16, 8 or 2 without one. -/
def integer? (word : List Char) : Option Int :=
  let inBase (base : Nat) (isDigit : Char → Bool) (rest : List Char) : Option Int := do
    let digits ← grouped? isDigit rest
    let n := ofDigits base digits
    if n < Nat.pow 2 63 then some n else none
  match word with
  | '0' :: 'x' :: rest => inBase 16 (fun c => (hexValue? c).isSome) rest
  | '0' :: 'o' :: rest => inBase 8 (fun c => '0' ≤ c && c ≤ '7') rest
  | '0' :: 'b' :: rest => inBase 2 (fun c => c = '0' || c = '1') rest
  | _ => do
      let (negative, rest) := unsigned word
      let digits ← decimal? rest
      let n := ofDigits 10 digits
      if negative then (if n ≤ Nat.pow 2 63 then some (-(n : Int)) else none)
      else if n < Nat.pow 2 63 then some n else none

/-- Whether `m * 10 ^ e` lies beyond the largest number of double precision. -/
def tooLarge (m : Nat) (e : Int) : Bool :=
  let size := (Nat.toDigits 10 m).length + e
  let bound := Nat.pow 2 1024 - Nat.pow 2 970
  if m = 0 then false
  else if 320 < size then true
  else if size < 300 then false
  else bound * Nat.pow 10 (-e).toNat ≤ m * Nat.pow 10 e.toNat

/-- Whether a word is a number with a fraction or an exponent, and not too large. -/
def isFloat (word : List Char) : Bool :=
  let (negative, rest) := unsigned word
  if rest = ['i', 'n', 'f'] || rest = ['n', 'a', 'n'] then true
  else
    let isDigitPart (c : Char) : Bool := c.isDigit || c = '_'
    let whole := rest.takeWhile isDigitPart
    let afterWhole := rest.dropWhile isDigitPart
    let (fraction?, afterFraction) : Option (List Char) × List Char :=
      match afterWhole with
      | '.' :: more => (some (more.takeWhile isDigitPart), more.dropWhile isDigitPart)
      | more => (none, more)
    let exponent? : Option (Option (Bool × List Char)) :=
      match afterFraction with
      | [] => some none
      | c :: more => if c = 'e' || c = 'E' then some (some (unsigned more)) else none
    let read : Option Bool := do
      let wholeDigits ← decimal? whole
      let fractionDigits ←
        match fraction? with
        | some digits => grouped? Char.isDigit digits
        | none => some []
      let (down, exponentDigits) ←
        match ← exponent? with
        | some (down, digits) => do
            let digits ← grouped? Char.isDigit digits
            some (down, digits)
        | none => if fraction?.isSome then some (false, []) else none
      let size : Int := ofDigits 10 exponentDigits
      let exponent := (if down then -size else size) - fractionDigits.length
      some (negative || !tooLarge (ofDigits 10 (wholeDigits ++ fractionDigits)) exponent)
    read.getD false

/-- A number of exactly two digits, at most `limit`. -/
def twoDigits? (limit : Nat) : Reader Nat
  | a :: b :: rest =>
      let n := ofDigits 10 [a, b]
      if a.isDigit && b.isDigit && n ≤ limit then some (n, rest) else none
  | _ => none

def isLeapYear (year : Nat) : Bool := year % 4 = 0 && (year % 100 ≠ 0 || year % 400 = 0)

def daysIn (year month : Nat) : Nat :=
  if month = 2 then (if isLeapYear year then 29 else 28)
  else if month = 4 || month = 6 || month = 9 || month = 11 then 30 else 31

/-- A day of the calendar; the rest of the text. -/
def date? (word : List Char) : Option (List Char) :=
  match word with
  | a :: b :: c :: d :: '-' :: rest => do
      if [a, b, c, d].any (!Char.isDigit ·) then none
      let (month, rest) ← twoDigits? 12 rest
      match rest with
      | '-' :: rest => do
          let (day, rest) ← twoDigits? 31 rest
          if 1 ≤ month && 1 ≤ day && day ≤ daysIn (ofDigits 10 [a, b, c, d]) month then some rest
          else none
      | _ => none
  | _ => none

/-- A time of the day, perhaps with a fraction of a second; the rest of the text. -/
def time? (word : List Char) : Option (List Char) := do
  let (_, rest) ← twoDigits? 23 word
  match rest with
  | ':' :: rest => do
      let (_, rest) ← twoDigits? 59 rest
      match rest with
      | ':' :: rest => do
          let (_, rest) ← twoDigits? 60 rest
          match rest with
          | '.' :: c :: rest => if c.isDigit then some (rest.dropWhile Char.isDigit) else none
          | rest => some rest
      | _ => none
  | _ => none

/-- Whether a text is empty or exactly the distance of a time zone. -/
def isZone (word : List Char) : Bool :=
  match word with
  | [] => true
  | ['Z'] | ['z'] => true
  | sign :: rest =>
      (sign = '+' || sign = '-') &&
        match twoDigits? 23 rest with
        | some (_, ':' :: rest) => (twoDigits? 59 rest).any (·.2.isEmpty)
        | _ => false

def isZonedTime (word : List Char) : Bool := (time? word).any isZone

/-- Whether a word is a day, a time of the day, or both joined by a letter. -/
def isMoment (word : List Char) : Bool :=
  match date? word with
  | some [] => true
  | some (c :: rest) => (c = 'T' || c = 't') && isZonedTime rest
  | none => time? word = some []

def isWordChar (c : Char) : Bool :=
  c.isAlphanum || c = '_' || c = '+' || c = '-' || c = '.' || c = ':'

/-- The value that a word stands for, quoted texts and nested values apart. -/
def word? (word : List Char) : Option Value :=
  if word = ['t', 'r', 'u', 'e'] || word = ['f', 'a', 'l', 's', 'e'] then some .boolean
  else if isMoment word then some .moment
  else if isFloat word then some .float
  else (integer? word).map .integer

/-- A value that is one word; a time of the day may follow a day after a space. -/
def scalar : Reader Value := fun s => do
  let word := s.takeWhile isWordChar
  let rest := s.dropWhile isWordChar
  let value ← word? word
  match rest with
  | ' ' :: more =>
      let time := more.takeWhile isWordChar
      if date? word = some [] && isZonedTime time then
        some (.moment, more.dropWhile isWordChar)
      else some (value, rest)
  | _ => some (value, rest)

end KeyedBlocks.Toml
