import CommitSplit.Text.Blank
import CommitSplit.Toml.Basic

/-!
# Numbers, truth values and moments

A scalar without quotation marks is one run of characters. Digits may be parted by single
underscores. A whole number has 64 bits with a sign; a fraction may not be beyond the range of a
double; a moment has to exist in the calendar.
-/

namespace CommitSplit.Toml

/-- Whether a character may stand in a scalar without quotation marks. -/
def isScalarPart (c : Char) : Bool :=
  c.isAlphanum || c = '_' || c = '+' || c = '-' || c = '.' || c = ':'

/-- The digits of a run in which single underscores may stand between digits. -/
def digitRun? (isDigit : Char → Bool) (cs : List Char) : Option (List Char) :=
  let runs := Text.splitOn '_' cs
  if runs.all fun run => run ≠ [] && run.all isDigit then some runs.flatten else none

/-- The value of a digit of any base up to sixteen. -/
def digitValue (c : Char) : Nat :=
  if c.isDigit then c.toNat - '0'.toNat else c.toLower.toNat - 'a'.toNat + 10

def numberOf (base : Nat) (digits : List Char) : Nat :=
  digits.foldl (fun n c => n * base + digitValue c) 0

/-- The digits of a decimal whole number, which begins with zero only if it is zero. -/
def decimalDigits? (cs : List Char) : Option (List Char) :=
  (digitRun? Char.isDigit cs).filter fun digits => digits.length = 1 || digits.head? ≠ some '0'

/-- A sign, and what is behind it. -/
def splitSign (cs : List Char) : Bool × List Char :=
  match cs with
  | '-' :: rest => (true, rest)
  | '+' :: rest => (false, rest)
  | _ => (false, cs)

/-- A whole number. -/
def integer? (cs : List Char) : Option Int :=
  let value : Option Int :=
    match cs with
    | '0' :: 'x' :: digits =>
      (digitRun? (fun c => c.isDigit || ('a' ≤ c.toLower && c.toLower ≤ 'f')) digits).map
        fun ds => (numberOf 16 ds : Int)
    | '0' :: 'o' :: digits =>
      (digitRun? (fun c => '0' ≤ c && c ≤ '7') digits).map fun ds => (numberOf 8 ds : Int)
    | '0' :: 'b' :: digits =>
      (digitRun? (fun c => c = '0' || c = '1') digits).map fun ds => (numberOf 2 ds : Int)
    | _ =>
      let (negative, digits) := splitSign cs
      (decimalDigits? digits).map fun ds =>
        if negative then -(numberOf 10 ds : Int) else (numberOf 10 ds : Int)
  value.filter fun n => -9223372036854775808 ≤ n && n ≤ 9223372036854775807

/-- Whether a decimal number is rounded to a double beyond the largest one: `digits` times ten to
the power of `exponent` reaches the middle between the largest double and the next power of two. -/
def overflows (digits : Nat) (exponent : Int) : Bool :=
  let size : Int := exponent + (Nat.toDigits 10 digits).length
  if digits = 0 || size < 300 then false
  else if 320 < size then true
  else
    let middle := Nat.pow 2 1024 - Nat.pow 2 970
    if 0 ≤ exponent then middle ≤ digits * Nat.pow 10 exponent.toNat
    else middle * Nat.pow 10 (-exponent).toNat ≤ digits

/-- The value of an exponent with an optional sign. -/
def exponent? (cs : List Char) : Option Int :=
  let (negative, digits) := splitSign cs
  (digitRun? Char.isDigit digits).map fun ds =>
    if negative then -(numberOf 10 ds : Int) else (numberOf 10 ds : Int)

/-- Whether the characters are a fraction. -/
def isFloat (cs : List Char) : Bool :=
  let (negative, unsigned) := splitSign cs
  let isMark (c : Char) : Bool := c = 'e' || c = 'E'
  let mantissa := unsigned.takeWhile (!isMark ·)
  let exponent :=
    match unsigned.dropWhile (!isMark ·) with
    | [] => some none
    | _ :: behind => (exponent? behind).map some
  let whole := mantissa.takeWhile (· ≠ '.')
  let fraction :=
    match mantissa.dropWhile (· ≠ '.') with
    | [] => some none
    | _ :: behind => (digitRun? Char.isDigit behind).map some
  if unsigned = "inf".toList || unsigned = "nan".toList then true
  else
    match decimalDigits? whole, fraction, exponent with
    | some _, some none, some none => false
    | some ds, some fs, some e =>
      let behind := fs.getD []
      negative || !overflows (numberOf 10 (ds ++ behind)) (e.getD 0 - behind.length)
    | _, _, _ => false

/-- A number of exactly so many digits. -/
def fixed? (count : Nat) (cs : List Char) : Option (Nat × List Char) :=
  let digits := cs.take count
  if digits.length = count && digits.all Char.isDigit then
    some (numberOf 10 digits, cs.drop count)
  else none

/-- What is behind a character that has to come next. -/
def past? (c : Char) (cs : List Char) : Option (List Char) :=
  match cs with
  | d :: rest => if d = c then some rest else none
  | [] => none

/-- The number of days in a month. -/
def daysIn (year month : Nat) : Nat :=
  let leap := year % 4 = 0 && (year % 100 ≠ 0 || year % 400 = 0)
  if month = 2 then if leap then 29 else 28
  else if month = 4 || month = 6 || month = 9 || month = 11 then 30
  else 31

/-- What is behind a day of the calendar. -/
def pastDate? (cs : List Char) : Option (List Char) := do
  let (year, cs) ← fixed? 4 cs
  let (month, cs) ← fixed? 2 (← past? '-' cs)
  let (day, cs) ← fixed? 2 (← past? '-' cs)
  if 1 ≤ month && month ≤ 12 && 1 ≤ day && day ≤ daysIn year month then some cs else none

/-- What is behind an hour and a minute. -/
def pastMinute? (cs : List Char) : Option (List Char) := do
  let (hour, cs) ← fixed? 2 cs
  let (minute, cs) ← fixed? 2 (← past? ':' cs)
  if hour ≤ 23 && minute ≤ 59 then some cs else none

/-- What is behind a time of day; a minute may have a leap second. -/
def pastTime? (cs : List Char) : Option (List Char) := do
  let (second, cs) ← fixed? 2 (← past? ':' (← pastMinute? cs))
  if 60 < second then none
  else
    match cs with
    | '.' :: behind =>
      if behind.head?.any Char.isDigit then some (behind.dropWhile Char.isDigit) else none
    | _ => some cs

/-- Whether the characters are the distance of a time from the universal one, or nothing. -/
def isOffset (cs : List Char) : Bool :=
  match cs with
  | [] => true
  | ['Z'] | ['z'] => true
  | sign :: rest => (sign = '+' || sign = '-') && pastMinute? rest = some []

/-- Whether the characters are a time of day with an optional offset. -/
def isClock (cs : List Char) : Bool :=
  (pastTime? cs).any isOffset

/-- Whether the characters are a moment: a day, a time, or both. -/
def isMoment (cs : List Char) : Bool :=
  match pastDate? cs with
  | some [] => true
  | some (mark :: rest) => (mark = 'T' || mark = 't') && isClock rest
  | none => pastTime? cs = some []

/-- The value of a run of characters. -/
def scalar? (cs : List Char) : Option Toml :=
  if cs = "true".toList then some (.bool true)
  else if cs = "false".toList then some (.bool false)
  else if isMoment cs then some .moment
  else
    match integer? cs with
    | some n => some (.int n)
    | none => if isFloat cs then some .float else none

/-- Reads a scalar without quotation marks. A day and a time may be parted by a blank. -/
def readScalar (cs : List Char) : Option (Toml × List Char) :=
  let run := cs.takeWhile isScalarPart
  let behind := cs.dropWhile isScalarPart
  match behind with
  | ' ' :: rest =>
    if pastDate? run = some [] && isClock (rest.takeWhile isScalarPart) then
      some (.moment, rest.dropWhile isScalarPart)
    else (scalar? run).map fun v => (v, behind)
  | _ => (scalar? run).map fun v => (v, behind)

end CommitSplit.Toml
