import PhraseGrammar.Error

/-! How a computation that may run without end comes out. -/
namespace PhraseGrammar

inductive Outcome (α : Type)
  | done (value : α)
  | failed (error : Error)
  /-- The steps allowed were used up. -/
  | unfinished
deriving DecidableEq

namespace Outcome

variable {α β : Type}

def map (f : α → β) : Outcome α → Outcome β
  | done a => done (f a)
  | failed e => failed e
  | unfinished => unfinished

def bind (o : Outcome α) (f : α → Outcome β) : Outcome β :=
  match o with
  | done a => f a
  | failed e => failed e
  | unfinished => unfinished

@[simp] theorem bind_done (a : α) (f : α → Outcome β) : (done a).bind f = f a := rfl
@[simp] theorem bind_failed (e : Error) (f : α → Outcome β) : (failed e).bind f = failed e := rfl
@[simp] theorem bind_unfinished (f : α → Outcome β) :
    (unfinished : Outcome α).bind f = unfinished := rfl
@[simp] theorem map_done (a : α) (f : α → β) : (done a).map f = done (f a) := rfl
@[simp] theorem map_failed (e : Error) (f : α → β) : (failed e).map f = failed e := rfl
@[simp] theorem map_unfinished (f : α → β) : (unfinished : Outcome α).map f = unfinished := rfl

end Outcome

end PhraseGrammar
