import PhraseGrammar.Document.Value

/-! What a document's text falls into. -/
namespace PhraseGrammar

inductive Token
  | mark (c : Char)
  | leaf (value : Value)
  /-- An identifier, written as it is or behind `r#`. -/
  | word (name : List Char) (raw : Bool)
  /-- An empty pair of parentheses with nothing between them. -/
  | unit
  /-- A comment that is none or does not end; no token follows it. -/
  | badComment
  /-- Any other place where the text goes wrong; no token follows it. -/
  | bad

/-- The value of a hexadecimal digit. -/
def hexDigit? (c : Char) : Option Nat :=
  if '0' ≤ c && c ≤ '9' then some (c.toNat - '0'.toNat)
  else if 'a' ≤ c && c ≤ 'f' then some (c.toNat - 'a'.toNat + 10)
  else if 'A' ≤ c && c ≤ 'F' then some (c.toNat - 'A'.toNat + 10)
  else none

/-- The number written by digits of a base up to sixteen. -/
def numeral? (base : Nat) (cs : List Char) : Option Nat :=
  cs.foldlM (fun n c => do
    let d ← hexDigit? c
    if d < base then some (n * base + d) else none) 0

/-- Splits a string's body off at its closing quote; a backslash protects the next character. -/
def splitQuote : List Char → Option (List Char × List Char)
  | [] => none
  | '"' :: cs => some ([],cs)
  | '\\' :: c :: cs => (splitQuote cs).map fun (body,rest) => ('\\' :: c :: body,rest)
  | c :: cs => (splitQuote cs).map fun (body,rest) => (c :: body,rest)

theorem length_lt_of_splitQuote {cs body rest : List Char} (h : splitQuote cs = some (body,rest)) :
    rest.length < cs.length := by
  fun_induction splitQuote cs generalizing body with
  | case1 => simp at h
  | case2 cs => simp_all
  | case3 c cs ih =>
    obtain ⟨⟨b,r⟩,hb,he⟩ := Option.map_eq_some_iff.1 h
    obtain ⟨rfl,rfl⟩ := Prod.mk.inj he
    have := ih hb
    simp only [List.length_cons]
    omega
  | case4 c cs _ _ ih =>
    obtain ⟨⟨b,r⟩,hb,he⟩ := Option.map_eq_some_iff.1 h
    obtain ⟨rfl,rfl⟩ := Prod.mk.inj he
    have := ih hb
    simp only [List.length_cons]
    omega

/-- The longest beginning that satisfies a test, and what follows it. -/
def split (p : Char → Bool) (cs : List Char) : List Char × List Char :=
  (cs.takeWhile p,cs.dropWhile p)

end PhraseGrammar
