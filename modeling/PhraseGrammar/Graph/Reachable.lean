import PhraseGrammar.Graph.Basic

/-! The groups that a group leads to, itself included, along dependencies. -/
namespace PhraseGrammar
namespace Graph

theorem count_set_lt {marks : List Bool} {id : GroupId} (h : marks[id]? = some false) :
    (marks.set id true).count false < marks.count false := by
  induction marks generalizing id with
  | nil => simp at h
  | cons m marks ih =>
    cases id with
    | zero =>
      simp only [List.getElem?_cons_zero,Option.some.injEq] at h
      simp [h]
    | succ id =>
      simp only [List.getElem?_cons_succ] at h
      simp only [List.set_cons_succ,List.count_cons]
      have := ih h
      omega

/-- Marks the groups still to visit, and what they lead to. -/
def sweep (g : Graph) (marks : List Bool) : List GroupId → List Bool
  | [] => marks
  | id :: rest =>
    if _h : marks[id]? = some false then
      sweep g (marks.set id true) ((g.group id).dependencies ++ rest)
    else sweep g marks rest
termination_by ids => (marks.count false,ids.length)
decreasing_by
  · exact Prod.Lex.left _ _ (count_set_lt ‹_›)
  · exact Prod.Lex.right _ (by simp)

/-- One mark for each group. -/
def reachableFrom (g : Graph) (root : GroupId) : List Bool :=
  g.sweep (List.replicate g.size false) [root]

end Graph

end PhraseGrammar
