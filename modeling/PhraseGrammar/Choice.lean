/-! Who decides which rule of a group is taken. A strategy is asked with the number of alternatives,
answers with any number, and carries a state from one question to the next. -/
namespace PhraseGrammar

structure Strategy (σ : Type) where
  choose : σ → Nat → Nat × σ

namespace Strategy

variable {σ : Type}

def first : Strategy Unit := ⟨fun _ _ => (0,())⟩

/-- Answers from a list, again and again; the state is the number of answers given. -/
def scripted (answers : List Nat) : Strategy Nat :=
  ⟨fun n _ => (answers.getD (n % answers.length) 0,n + 1)⟩

/-- Keeps the questions asked, in order. -/
def recording (s : Strategy σ) : Strategy (σ × List Nat) :=
  ⟨fun (state,asked) alternatives =>
    let (answer,state) := s.choose state alternatives
    (answer,state,asked ++ [alternatives])⟩

end Strategy

end PhraseGrammar
