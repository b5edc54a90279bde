/-! Decimal numerals with a point between groups of three digits, as in `1.234.567`. -/
namespace PhraseGrammar
namespace Grouped

/-- Takes the digits from the last one on. -/
def separate : List Char → List Char
  | a :: b :: c :: d :: rest => a :: b :: c :: '.' :: separate (d :: rest)
  | short => short

def digits (ds : List Char) : List Char := (separate ds.reverse).reverse

end Grouped

def grouped (n : Nat) : String := String.ofList (Grouped.digits (Nat.toDigits 10 n))

end PhraseGrammar
