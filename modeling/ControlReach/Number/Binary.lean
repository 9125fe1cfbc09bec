/-!
# Double precision numbers

A number with a fraction or an exponent is kept as the nearest number of the form `m * 2 ^ q` with
`m < 2 ^ 53` and `-1074 ≤ q ≤ 971`.
-/

namespace ControlReach.Number

/-- A double precision number. -/
inductive Binary where
  | finite (negative : Bool) (mantissa : Nat) (exponent : Int)
  | infinite (negative : Bool)
  | undefined
  deriving DecidableEq, Repr

namespace Binary

/-- `num / den` rounded to the nearest natural, a tie going to the even one. -/
def roundDiv (num den : Nat) : Nat :=
  let k := num / den
  let r := num % den
  if 2 * r < den then k
  else if den < 2 * r then k + 1
  else if k % 2 = 0 then k else k + 1

def scale (num den : Nat) (q : Int) : Nat × Nat :=
  if 0 ≤ q then (num, den * Nat.pow 2 q.toNat) else (num * Nat.pow 2 (-q).toNat, den)

variable (negative : Bool)

def ofRatio (num den : Nat) : Binary :=
  let low : Int := (Nat.log2 num : Int) - (Nat.log2 den : Int) - 53
  let wide := scale num den low
  let q := max (if Nat.pow 2 53 * wide.2 ≤ wide.1 then low + 1 else low) (-1074)
  let exact := scale num den q
  let m := roundDiv exact.1 exact.2
  let (m, q) := if m = Nat.pow 2 53 then (Nat.pow 2 52, q + 1) else (m, q)
  if 971 < q then .infinite negative else .finite negative m q

/-- The nearest number to `d * 10 ^ e`. Exponents far outside the range are settled by digits alone.
-/
def ofDecimal (d : Nat) (e : Int) : Binary :=
  let size : Int := (Nat.toDigits 10 d).length + e
  if d = 0 then .finite negative 0 (-1074)
  else if 400 < size then .infinite negative
  else if size < -400 then .finite negative 0 (-1074)
  else if 0 ≤ e then ofRatio negative (d * Nat.pow 10 e.toNat) 1
  else ofRatio negative d (Nat.pow 10 (-e).toNat)

def truncate? : Binary → Option Int
  | .finite negative m q =>
    let n : Nat := if 0 ≤ q then m * Nat.pow 2 q.toNat else m / Nat.pow 2 (-q).toNat
    some (if negative then -(n : Int) else n)
  | _ => none

def integer? : Binary → Option Int
  | .finite negative m q =>
    if 0 ≤ q || m % Nat.pow 2 (-q).toNat = 0 then truncate? (.finite negative m q) else none
  | _ => none

def opposite : Binary → Binary
  | .finite negative m q => .finite (!negative) m q
  | .infinite negative => .infinite (!negative)
  | .undefined => .undefined

variable (m : Nat) (q : Int)

def ofScaled : Binary :=
  if m = 0 then .finite negative 0 (-1074)
  else
    let (num, den) := scale m 1 (-q)
    ofRatio negative num den

def scaledMantissa : Int :=
  let n : Int := m * Nat.pow 2 q.toNat
  if negative then -n else n

/-- The sum of two numbers; of infinities with opposite signs there is none. -/
def plus : Binary → Binary → Binary
  | .finite a m q, .finite b n r =>
    let low := min q r
    let sum := scaledMantissa a m (q - low) + scaledMantissa b n (r - low)
    ofScaled (if sum = 0 then a && b else decide (sum < 0)) sum.natAbs low
  | .infinite a, .infinite b => if a = b then .infinite a else .undefined
  | .infinite a, .finite _ _ _ => .infinite a
  | .finite _ _ _, .infinite b => .infinite b
  | _, _ => .undefined

/-- The product of two numbers; there is none of zero and an infinity. -/
def times : Binary → Binary → Binary
  | .finite a m q, .finite b n r => ofScaled (a != b) (m * n) (q + r)
  | .infinite a, .infinite b => .infinite (a != b)
  | .infinite a, .finite b n _ => if n = 0 then .undefined else .infinite (a != b)
  | .finite a m _, .infinite b => if m = 0 then .undefined else .infinite (a != b)
  | _, _ => .undefined

def isZero : Binary → Bool
  | .finite _ m _ => m == 0
  | _ => false

def decimalExponent (num den : Nat) : Nat → Int → Int
  | 0, e => e
  | fuel + 1, e =>
    let below := if 0 ≤ e then decide (den * Nat.pow 10 e.toNat ≤ num)
      else decide (den ≤ num * Nat.pow 10 (-e).toNat)
    if below then e else decimalExponent num den fuel (e - 1)

def onGrid (c : Nat) (k : Int) (num den : Nat) : Nat × Nat :=
  if 0 ≤ k then (c * Nat.pow 10 k.toNat * den, num) else (c * den, num * Nat.pow 10 (-k).toNat)

/-- The decimal `c * 10 ^ k` lies within half a step of `m * 2 ^ q`, ends included when `m` is even.
-/
def readsBack (c : Nat) (k : Int) : Bool :=
  let lowStep := if m = Nat.pow 2 52 && -1074 < q then (4 * m - 1, q - 2) else (2 * m - 1, q - 1)
  let low := scale lowStep.1 1 (-lowStep.2)
  let high := scale (2 * m + 1) 1 (-(q - 1))
  let a := onGrid c k low.1 low.2
  let b := onGrid c k high.1 high.2
  if m % 2 = 0 then decide (a.2 ≤ a.1) && decide (b.1 ≤ b.2)
  else decide (a.2 < a.1) && decide (b.1 < b.2)

/-- The best decimal with `k` as the exponent of its last digit, if one reads back. -/
def nearestOnGrid (k : Int) : Option Nat :=
  let v := scale m 1 (-q)
  let g := onGrid 1 k v.1 v.2
  let below := g.2 / g.1
  let nearer := roundDiv g.2 g.1
  if readsBack m q nearer k then some nearer
  else if readsBack m q below k then some below
  else if readsBack m q (below + 1) k then some (below + 1)
  else none

/-- The first grid, from coarse to fine, on which a decimal reads back. -/
def shortestFrom (m : Nat) (q : Int) : Nat → Int → Nat × Int
  | 0, k => ((nearestOnGrid m q k).getD 0, k)
  | fuel + 1, k =>
    match nearestOnGrid m q k with
    | some c => (c, k)
    | none => shortestFrom m q fuel (k - 1)

/-- The fewest digits `c` with `c * 10 ^ k` reading back as `m * 2 ^ q`, for `0 < m`. -/
def shortest : Nat × Int :=
  let v := scale m 1 (-q)
  shortestFrom m q 17 (decimalExponent v.1 v.2 800 400)

/-- Digits without the zeros at their end, and the exponent of the last digit kept. -/
def stripZeros : List Char → Int → List Char × Int
  | '0' :: c :: rest, k => stripZeros (c :: rest) (k + 1)
  | digits, k => (digits.reverse, k)

/-- The digits `ds` with the point after the first `n` of them. -/
def positional (ds : List Char) (n : Int) : List Char :=
  if n ≤ 0 then '0' :: '.' :: List.replicate (-n).toNat '0' ++ ds
  else if n.toNat < ds.length then ds.take n.toNat ++ '.' :: ds.drop n.toNat
  else ds ++ List.replicate (n.toNat - ds.length) '0' ++ ['.', '0']

/-- The digits `ds` with one digit before the point and the exponent `e`. -/
def scientific (ds : List Char) (e : Int) : List Char :=
  let mantissa := match ds with
    | [] => []
    | [d] => [d]
    | d :: rest => d :: '.' :: rest
  let size := Nat.toDigits 10 e.natAbs
  let sign := if e < 0 then '-' else '+'
  mantissa ++ 'e' :: sign :: (List.replicate (2 - size.length) '0' ++ size)

def magnitudeText : List Char :=
  let (c, k) := shortest m q
  let (ds, k) := stripZeros (Nat.toDigits 10 c).reverse k
  let point : Int := ds.length + k
  if -4 < point && point ≤ 16 then positional ds point else scientific ds (point - 1)

def text : Binary → String
  | .undefined => "nan"
  | .infinite negative => if negative then "-inf" else "inf"
  | .finite negative m q =>
    String.ofList ((if negative then ['-'] else []) ++
      (if m = 0 then ['0', '.', '0'] else magnitudeText m q))

end Binary

end ControlReach.Number
