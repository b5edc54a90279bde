import PhraseGrammar.Number.Binary64

/-! The shortest decimal that rounds to a given number, and its customary form: `1.5`, `100.0`,
`1e+100`, `1e-100`. -/
namespace PhraseGrammar
namespace Binary64

/-- Value and bounds of the reals that round to `x`, in quarters of its last place. -/
def quarters (x : Binary64) : Nat × Nat × Nat :=
  let below := if x.mantissa = leastFull && least < x.exponent then 1 else 2
  (4 * x.mantissa - below,4 * x.mantissa,4 * x.mantissa + 2)

/-- The value of `c * 10 ^ k` lies among the reals that round to `x`, whose bounds belong to them if
the mantissa is even. -/
def holds (x : Binary64) (c : Nat) (k : Int) : Bool :=
  let (low,_,high) := x.quarters
  let (a,b) := power 2 (x.exponent - 2)
  let (p,q) := power 10 k
  let v := c * p * b
  let unit := a * q
  if x.mantissa % 2 = 0 then low * unit ≤ v && v ≤ high * unit
  else low * unit < v && v < high * unit

/-- The multiple of `10 ^ k` nearest to `x`, if it rounds to `x`, or else a neighbour that does. -/
def onGrid? (x : Binary64) (k : Int) : Option Nat :=
  let (n,d) := x.fraction
  let (p,q) := power 10 k
  let down := n * q / (d * p)
  let best := nearest (n * q) (d * p)
  [best,down,down + 1].find? fun c => 0 < c && x.holds c k

/-- Tries ever finer grids. -/
def search (x : Binary64) : Nat → Int → Nat × Int
  | 0, k => (x.mantissa,k)
  | n + 1, k =>
    match x.onGrid? k with
    | some c => (c,k)
    | none => search x n (k - 1)

/-- The number of decimal digits before the point, or less if the number is below one. -/
def magnitude (x : Binary64) : Int :=
  let (n,d) := x.fraction
  if d ≤ n then (Nat.toDigits 10 (n / d)).length else 1 - ((Nat.toDigits 10 (d / n)).length : Int)

/-- Digits without trailing zeros and the power of ten that the last one counts. -/
def digits (x : Binary64) : List Char × Int :=
  let (c,k) := search x 20 x.magnitude
  let ds := Nat.toDigits 10 c
  let short := (ds.reverse.dropWhile (· = '0')).reverse
  (short,k + (ds.length - short.length : Nat))

/-- An exponent is written with its sign. -/
def exponentText (e : Int) : List Char :=
  'e' :: (if 0 ≤ e then '+' else '-') :: Nat.toDigits 10 e.natAbs

/-- Digits without an exponent where the point falls at most 16 places after the first digit or 4
zeros before it. -/
def layout (ds : List Char) (k : Int) : List Char :=
  let point := ds.length + k
  if 0 ≤ k && point ≤ 16 then ds ++ List.replicate k.toNat '0' ++ ['.','0']
  else if 0 < point && point ≤ 16 then ds.take point.toNat ++ '.' :: ds.drop point.toNat
  else if -5 < point && point ≤ 0 then
    ['0','.'] ++ List.replicate (-point).toNat '0' ++ ds
  else
    match ds with
    | [] => exponentText (point - 1)
    | [d] => d :: exponentText (point - 1)
    | d :: rest => d :: '.' :: rest ++ exponentText (point - 1)

def shown (negative : Bool) (x : Binary64) : String :=
  let sign := if negative then ['-'] else []
  let body := if x.mantissa = 0 then ['0','.','0'] else layout x.digits.1 x.digits.2
  String.ofList (sign ++ body)

end Binary64

end PhraseGrammar
