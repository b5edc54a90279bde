import PhraseGrammar.Choice
import PhraseGrammar.Number.Word64

/-! A seeded source of 64-bit numbers: a keyed block function of twelve rounds, read block after
block, and the strategy that draws from it without bias. -/
namespace PhraseGrammar
namespace Generator

/-- Four words that are worked on side by side. -/
structure Row where
  a : UInt32
  b : UInt32
  c : UInt32
  d : UInt32

namespace Row

def zip (f : UInt32 → UInt32 → UInt32) (x y : Row) : Row :=
  ⟨f x.a y.a,f x.b y.b,f x.c y.c,f x.d y.d⟩

/-- Rotates every word left by `k` bits, where `0 < k < 32`. -/
def rotate (k : UInt32) (x : Row) : Row :=
  let turn := fun (w : UInt32) => (w <<< k) ||| (w >>> (32 - k))
  ⟨turn x.a,turn x.b,turn x.c,turn x.d⟩

def shift (x : Row) : Row := ⟨x.b,x.c,x.d,x.a⟩

def words (x : Row) : List UInt32 := [x.a,x.b,x.c,x.d]

end Row

structure Block where
  top : Row
  second : Row
  third : Row
  bottom : Row

namespace Block

/-- Mixes the four columns. -/
def mix (m : Block) : Block :=
  let top := m.top.zip (· + ·) m.second
  let bottom := (m.bottom.zip (· ^^^ ·) top).rotate 16
  let third := m.third.zip (· + ·) bottom
  let second := (m.second.zip (· ^^^ ·) third).rotate 12
  let top := top.zip (· + ·) second
  let bottom := (bottom.zip (· ^^^ ·) top).rotate 8
  let third := third.zip (· + ·) bottom
  let second := (second.zip (· ^^^ ·) third).rotate 7
  ⟨top,second,third,bottom⟩

/-- Brings diagonals into columns. -/
def skew (m : Block) : Block :=
  ⟨m.top,m.second.shift,m.third.shift.shift,m.bottom.shift.shift.shift⟩

def unskew (m : Block) : Block :=
  ⟨m.top,m.second.shift.shift.shift,m.third.shift.shift,m.bottom.shift⟩

def doubleRound (m : Block) : Block := m.mix.skew.mix.unskew

def add (m n : Block) : Block :=
  ⟨m.top.zip (· + ·) n.top,m.second.zip (· + ·) n.second,m.third.zip (· + ·) n.third,
    m.bottom.zip (· + ·) n.bottom⟩

def words (m : Block) : List UInt32 :=
  m.top.words ++ m.second.words ++ m.third.words ++ m.bottom.words

end Block

/-- Eight words. -/
structure Key where
  front : Row
  back : Row

def constants : Row := ⟨0x61707865,0x3320646E,0x79622D32,0x6B206574⟩

def block (key : Key) (counter : UInt64) : Block :=
  let start : Block :=
    ⟨constants,key.front,key.back,⟨counter.toUInt32,(counter >>> 32).toUInt32,0,0⟩⟩
  (Nat.repeat Block.doubleRound 6 start).add start

/-- The state after one step of the sequence that spreads a seed over a key, and the word it
gives. -/
def spread (state : UInt64) : UInt64 × UInt32 :=
  let state := state * 6364136223846793005 + 11634580027462260723
  let x := (((state >>> 18) ^^^ state) >>> 27).toUInt32
  let k := (state >>> 59).toUInt32
  (state,(x >>> k) ||| (x <<< ((32 - k) % 32)))

def spreadRow (state : UInt64) : UInt64 × Row :=
  let (state,a) := spread state
  let (state,b) := spread state
  let (state,c) := spread state
  let (state,d) := spread state
  (state,⟨a,b,c,d⟩)

def keyOfSeed (seed : UInt64) : Key :=
  let (state,front) := spreadRow seed
  let (_,back) := spreadRow state
  ⟨front,back⟩

end Generator

/-- A key and how many numbers have been drawn with it. -/
structure Generator where
  key : Generator.Key
  drawn : Nat

namespace Generator

def ofSeed (seed : UInt64) : Generator := ⟨keyOfSeed seed,0⟩

/-- The `i`-th number: two words of a block, low word first, eight numbers to a block. -/
def number (key : Key) (i : Nat) : UInt64 :=
  let words := (block key (i / 8).toUInt64).words
  let word := fun j => (words.getD j 0).toUInt64
  word (2 * (i % 8)) ||| (word (2 * (i % 8) + 1) <<< 32)

def next (g : Generator) : UInt64 × Generator :=
  (number g.key g.drawn,{ g with drawn := g.drawn + 1 })

/-- Scales a draw to a number below `n`. A draw whose lower half lies beyond the largest multiple of
`n` that fits is repeated, at most `tries` times. -/
def draw (n : Nat) : Nat → Generator → Nat × Generator
  | 0, g => (0,g)
  | tries + 1, g =>
    let (v,g) := g.next
    let product := v.toNat * n
    let zone := (n <<< (63 - n.log2)) - 1
    if product % Word64.bound ≤ zone then (product / Word64.bound,g) else draw n tries g

/-- Each draw is accepted with a chance of at least one half. -/
def tries : Nat := 1024

/-- Picks uniformly among the alternatives. -/
def uniform : Strategy Generator := ⟨fun g alternatives => draw alternatives tries g⟩

end Generator

end PhraseGrammar
