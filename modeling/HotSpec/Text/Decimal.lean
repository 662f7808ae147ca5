/-!
# Decimal text of numbers

Reading and writing of finite double precision numbers: the shortest decimal that reads back, and
one layout record for each place that writes numbers.  A double is taken apart into
`mantissa * 2 ^ exponent`, and every comparison is made on natural numbers.

Main definitions:

- `Binary`: a positive double as mantissa and exponent, with `Binary.shortest` its shortest decimal.
- `Layout`: how digits become text; `Layout.write`.
- `readNumber?`: a decimal text as a double.
-/

namespace HotSpec.Decimal

/-! ## The parts of a double -/

/-- A positive double `mantissa * 2 ^ exponent`; `covers` below says which decimals round to it. -/
structure Binary where
  mantissa : Nat
  exponent : Int
  deriving Repr, DecidableEq

/-- The parts of a finite double other than zero, sign apart. -/
def Binary.ofBits (bits : UInt64) : Binary :=
  let biased := (bits >>> 52).toNat % 2048
  let fraction := bits.toNat % Nat.pow 2 52
  if biased = 0 then ⟨fraction, -1074⟩ else ⟨Nat.pow 2 52 + fraction, (biased : Int) - 1075⟩

/-- A decimal `digits * 10 ^ exponent`. -/
structure Scaled where
  digits : Nat
  exponent : Int
  deriving Repr, DecidableEq

/-- Two fractions put on one denominator: `a * 2 ^ p` and `b * 10 ^ q` as whole numbers that
compare as they do. -/
def onOneScale (a : Nat) (p : Int) (b : Nat) (q : Int) : Nat × Nat :=
  (a * Nat.pow 2 p.toNat * Nat.pow 10 (-q).toNat, b * Nat.pow 10 q.toNat * Nat.pow 2 (-p).toNat)

/-- Whether a decimal rounds to the double: it lies between the midpoints to the neighbours, the
midpoints included where the mantissa is even.  Below a power of two the neighbour is nearer. -/
def Binary.covers (b : Binary) (d : Scaled) : Bool :=
  let lowest := b.mantissa = Nat.pow 2 52 && -1074 < b.exponent
  let low := 4 * b.mantissa - (if lowest then 1 else 2)
  let high := 4 * b.mantissa + 2
  let (lower, value) := onOneScale low (b.exponent - 2) d.digits d.exponent
  let (upper, value') := onOneScale high (b.exponent - 2) d.digits d.exponent
  if b.mantissa % 2 = 0 then lower ≤ value && value' ≤ upper
  else lower < value && value' < upper

/-- How far a decimal is from the double, on the scale of `onOneScale`. -/
def Binary.distance (b : Binary) (d : Scaled) : Nat :=
  let (mine, value) := onOneScale b.mantissa b.exponent d.digits d.exponent
  (mine - value) + (value - mine)

/-- The greatest decimal of the grid `10 ^ q` that is not above the double. -/
def Binary.floorOn (b : Binary) (q : Int) : Nat :=
  (b.mantissa * Nat.pow 2 b.exponent.toNat * Nat.pow 10 (-q).toNat) /
    (Nat.pow 10 q.toNat * Nat.pow 2 (-b.exponent).toNat)

/-- The number of decimal digits of the whole part, or minus the number of zeros after the point:
the `k` with `10 ^ (k - 1) ≤ b < 10 ^ k`. -/
def Binary.magnitude (b : Binary) : Int :=
  let guess : Int := ((Nat.log2 b.mantissa : Int) + b.exponent) * 30103 / 100000
  let above (k : Int) : Bool :=
    let (mine, power) := onOneScale b.mantissa b.exponent 1 k
    mine < power
  if above guess then guess else if above (guess + 1) then guess + 1 else guess + 2

/-- The shortest decimal that rounds to the double, searched from a number of digits upwards: of
the two neighbours on the grid the nearer one that is covered. -/
def Binary.shortestFrom (b : Binary) : (fuel : Nat) → (count : Nat) → Scaled
  | 0, count =>
    let q := b.magnitude - (count : Int)
    ⟨b.floorOn q, q⟩
  | fuel + 1, count =>
    let q := b.magnitude - (count : Int)
    let below : Scaled := ⟨b.floorOn q, q⟩
    let above : Scaled := ⟨b.floorOn q + 1, q⟩
    match b.covers below, b.covers above with
    | true, true =>
      if b.distance below < b.distance above then below
      else if b.distance above < b.distance below then above
      else if below.digits % 2 = 0 then below else above
    | true, false => below
    | false, true => above
    | false, false => b.shortestFrom fuel (count + 1)

/-- The shortest decimal that rounds to the double. -/
def Binary.shortest (b : Binary) : Scaled :=
  b.shortestFrom 17 1

/-- A decimal without trailing zeros: its digits and the place of the point after the first
`point` of them. -/
def Scaled.normalize (d : Scaled) : List Char × Int :=
  let written := Nat.toDigits 10 d.digits
  let kept := (written.reverse.dropWhile (· == '0')).reverse
  (kept, (written.length : Int) + d.exponent)

/-! ## Layout -/

/-- How digits become the text of a number. -/
structure Layout where
  /-- Least place of the point written without an exponent. -/
  least : Int
  /-- Greatest place of the point written without an exponent. -/
  greatest : Int
  /-- Text of a mantissa of one digit, before the exponent. -/
  bareMantissa : List Char
  /-- Texts of infinity and of what is not a number. -/
  infinite : String
  notANumber : String

/-- Numbers in messages: positional from `0.0001` up to sixteen digits before the point, with at
least one digit after it; else one digit before the point and an exponent of two digits. -/
def shown : Layout := ⟨-3, 16, [], "inf", "nan"⟩

/-- Numbers in data files: as in messages, with a point even before an exponent, and with dotted
names for what has no digits. -/
def stored : Layout := ⟨-3, 16, ['.', '0'], ".inf", ".nan"⟩

/-- The text of digits with the point after the first `point` of them. -/
def Layout.place (n : Layout) (digits : List Char) (point : Int) : List Char :=
  if n.least ≤ point && point ≤ n.greatest then
    if point ≤ 0 then
      '0' :: '.' :: List.replicate (-point).toNat '0' ++ digits
    else
      let whole := digits.take point.toNat
      let padding := List.replicate (point.toNat - digits.length) '0'
      let rest := digits.drop point.toNat
      whole ++ padding ++ '.' :: (if rest.isEmpty then ['0'] else rest)
  else
    let exponent := point - 1
    let size := Nat.toDigits 10 exponent.natAbs
    let sign := if exponent < 0 then '-' else '+'
    let tail := 'e' :: sign :: List.replicate (2 - size.length) '0' ++ size
    match digits with
    | [] => tail
    | [digit] => digit :: n.bareMantissa ++ tail
    | digit :: rest => digit :: '.' :: rest ++ tail

/-- The text of a double. -/
def Layout.write (n : Layout) (x : Float) : String :=
  let bits := x.toBits
  let sign := if bits.toNat / Nat.pow 2 63 = 1 then "-" else ""
  let magnitude := bits.toNat % Nat.pow 2 63
  if magnitude = 0 then sign ++ "0.0"
  else if magnitude = 0x7ff * Nat.pow 2 52 then sign ++ n.infinite
  else if magnitude > 0x7ff * Nat.pow 2 52 then n.notANumber
  else
    let (digits, point) := (Binary.ofBits bits).shortest.normalize
    sign ++ String.ofList (n.place digits point)

/-! ## Reading -/

/-- The value of a run of decimal digits. -/
def digitsValue (digits : List Char) : Nat :=
  digits.foldl (fun value c => value * 10 + (c.toNat - '0'.toNat)) 0

/-- The double nearest to `digits * 10 ^ exponent`.  Far out of the range of doubles the exponent
makes no difference any more, so it is cut there. -/
def toFloat (digits : Nat) (exponent : Int) : Float :=
  Float.ofScientific digits (exponent < 0) (min exponent.natAbs (digits.log2 + 800))

/-- A run of digits in front of a text, single underscores between digits left out, and the rest. -/
def takeDigits : List Char → List Char × List Char
  | [] => ([], [])
  | c :: '_' :: d :: rest =>
    if !c.isDigit then ([], c :: '_' :: d :: rest)
    else if d.isDigit then
      let (digits, rest) := takeDigits (d :: rest)
      (c :: digits, rest)
    else ([c], '_' :: d :: rest)
  | c :: rest =>
    if c.isDigit then
      let (digits, rest) := takeDigits rest
      (c :: digits, rest)
    else ([], c :: rest)

/-- An optional sign in front of a text: whether it is a minus, and the rest. -/
def takeSign : List Char → Bool × List Char
  | '-' :: rest => (true, rest)
  | '+' :: rest => (false, rest)
  | text => (false, text)

/-- The exponent that ends a number, zero where there is none. -/
def readExponent? : List Char → Option Int
  | [] => some 0
  | c :: rest =>
    if c == 'e' || c == 'E' then
      let (negative, digits) := takeSign rest
      let (run, rest) := takeDigits digits
      if run.isEmpty || !rest.isEmpty then none
      else some (if negative then -(digitsValue run : Int) else digitsValue run)
    else none

/-- The double that a decimal text stands for: a sign, digits with an optional point and an
optional exponent. -/
def readNumber? (text : List Char) : Option Float :=
  let (negative, body) := takeSign text
  let (whole, rest) := takeDigits body
  let (part, rest) := match rest with
    | '.' :: more => takeDigits more
    | _ => ([], rest)
  if whole.isEmpty && part.isEmpty then none
  else (readExponent? rest).map fun exponent =>
    let x := toFloat (digitsValue (whole ++ part)) (exponent - part.length)
    if negative then -x else x

/-- The whole number that a text of an optional sign and digits stands for. -/
def readInt? (text : List Char) : Option Int :=
  let (negative, body) := takeSign text
  let (digits, rest) := takeDigits body
  if digits.isEmpty || !rest.isEmpty then none
  else some (if negative then -(digitsValue digits : Int) else digitsValue digits)

end HotSpec.Decimal
