/-! Nonnegative binary floating-point numbers with 53 significant bits, as exact values, and the
rounding of fractions to them. -/
namespace PhraseGrammar

/-- The number `mantissa * 2 ^ exponent`. -/
structure Binary64 where
  mantissa : Nat
  exponent : Int
deriving DecidableEq

namespace Binary64

def least : Int := -1074

/-- The least mantissa of 53 bits, and the first one that is longer. -/
def leastFull : Nat := 0x10000000000000
def tooLong : Nat := 0x20000000000000

def zero : Binary64 := ⟨0,least⟩

/-- A power as a fraction. -/
def power (base : Nat) (e : Int) : Nat × Nat :=
  if 0 ≤ e then (base.pow e.toNat,1) else (1,base.pow (-e).toNat)

def fraction (x : Binary64) : Nat × Nat :=
  let (p,q) := power 2 x.exponent
  (x.mantissa * p,q)

/-- The nearest integer to `p / q`; a half goes to the even neighbour. -/
def nearest (p q : Nat) : Nat :=
  let d := p / q
  let twice := 2 * (p % q)
  if twice < q || (twice = q && d % 2 = 0) then d else d + 1

/-- The nearest number to `p / q`. -/
def round (p q : Nat) : Binary64 :=
  if p = 0 then zero
  else
    let mantissaAt := fun (e : Int) =>
      let (a,b) := power 2 e
      (p * b,q * a)
    let low := (p.log2 : Int) - q.log2 - 53
    let (n,d) := mantissaAt low
    let e := max least (if tooLong ≤ n / d then low + 1 else low)
    let (n,d) := mantissaAt e
    let m := nearest n d
    if m = tooLong then ⟨leastFull,e + 1⟩ else ⟨m,e⟩

def finite (x : Binary64) : Bool := x.exponent ≤ 971

def ofNat (n : Nat) : Binary64 := round n 1

def mul (x y : Binary64) : Binary64 :=
  let (a,b) := x.fraction
  let (c,d) := y.fraction
  round (a * c) (b * d)

def div (x y : Binary64) : Binary64 :=
  let (a,b) := x.fraction
  let (c,d) := y.fraction
  round (a * d) (b * c)

def ten (e : Nat) : Binary64 := ofNat (Nat.pow 10 e)

/-- Scales by a power of ten in steps of at most `10 ^ 308`, each of them rounded. Three steps down
leave nothing of a 64-bit number. -/
def scale (x : Binary64) (e : Int) : Option Binary64 :=
  if x.mantissa = 0 then some x
  else if 0 ≤ e then
    if e ≤ 308 then
      let y := x.mul (ten e.toNat)
      if y.finite then some y else none
    else none
  else
    let n := (-e).toNat
    let steps := (n - 1) / 308
    let y := Nat.repeat (·.div (ten 308)) (min steps 3) x
    some (y.div (ten (n - 308 * steps)))

end Binary64

end PhraseGrammar
