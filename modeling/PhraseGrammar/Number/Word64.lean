/-! Bounds of numbers that fit into 64 bits. -/
namespace PhraseGrammar
namespace Word64

/-- The first natural number that does not fit. -/
def bound : Nat := 0x10000000000000000

/-- Half of it, which bounds the numbers with a sign. -/
def half : Nat := 0x8000000000000000

end Word64
end PhraseGrammar
