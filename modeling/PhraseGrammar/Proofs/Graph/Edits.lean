import PhraseGrammar.Proofs.Graph.Dependence

/-! Sequences of references and declarations, failing ones included. The position that a call
answers is the one at which the name is found from then on, and a rule's references are the
positions of the names that its placeholders have. -/
namespace PhraseGrammar

/-- A call that may change a graph. -/
inductive Edit
  | reference (name : String)
  | declare (name : String) (sources : List String)
deriving DecidableEq

namespace Graph

def edit (g : Graph) : Edit → Graph
  | .reference name => (g.reference name).2
  | .declare name sources => (g.declare name sources).2

def edits (g : Graph) (calls : List Edit) : Graph := calls.foldl edit g

variable {g : Graph}

theorem Reached.edit (hg : g.Reached) (call : Edit) : (g.edit call).Reached := by
  cases call with
  | reference name => exact hg.reference name
  | declare name sources => exact hg.declare name sources

theorem Reached.edits (hg : g.Reached) (calls : List Edit) : (g.edits calls).Reached := by
  induction calls generalizing g with
  | nil => exact hg
  | cons call calls ih => exact ih (hg.edit call)

theorem Plain.edit (hg : g.Plain) (call : Edit) : (g.edit call).Plain := by
  cases call with
  | reference name =>
    rw [Graph.edit,reference_snd]
    exact hg.mention _
  | declare name sources => exact hg.declare name sources

theorem Plain.edits (hg : g.Plain) (calls : List Edit) : (g.edits calls).Plain := by
  induction calls generalizing g with
  | nil => exact hg
  | cons call calls ih => exact ih (hg.edit call)

theorem reference_of_resolved {name : String}
    (h : ((g.reference name).2.group (g.reference name).1).resolved = true) :
    (g.reference name).2 = g := by
  unfold reference at h ⊢
  cases hid : g.idOf? name with
  | some id => rfl
  | none => simp [hid,group,size,Group.pending] at h

theorem idOf?_reference (hg : g.WellFormed) (name : String) :
    (g.reference name).2.idOf? name = some (g.reference name).1 := by
  have hid := getElem?_names_reference g name
  rw [← reference_snd] at hid
  exact (hg.reference name).idOf?_eq_some.mpr hid

theorem idOf?_declare (hg : g.WellFormed) {name : String} {sources : List String} {id : GroupId}
    (h : (g.declare name sources).1 = .ok id) :
    (g.declare name sources).2.idOf? name = some id := by
  have hwf := hg.declare name sources
  have hd := declares g name sources
  generalize g.declare name sources = result at h hd hwf ⊢
  cases hd with
  | taken => cases h
  | unbalanced => cases h
  | declared hid =>
    obtain rfl := Except.ok.inj h
    refine hwf.idOf?_eq_some.mpr ?_
    rwa [names_update (f:=(·.declared _)) fun _ => rfl]

theorem WellFormed.idOf?_symbol (hg : g.WellFormed) {id : GroupId} {rule : Rule}
    (hrule : rule ∈ (g.group id).rules) {k : Nat} {p : Placeholder}
    (hp : rule.template.placeholders[k]? = some p) :
    ∃ r, rule.references[k]? = some r ∧ g.idOf? p.symbol = some r := by
  have hsymbol : rule.template.symbols[k]? = some p.symbol := by
    rw [Template.symbols,List.getElem?_map,hp]
    rfl
  rcases forall₂_getElem? (hg.fits id rule hrule).references k with ⟨-,hn⟩ | ⟨r,symbol,hr,hs,hrs⟩
  · rw [hsymbol] at hn
    cases hn
  · obtain rfl := Option.some.inj (hsymbol.symm.trans hs)
    exact ⟨r,hr,hg.idOf?_eq_some.mpr hrs⟩

end Graph

end PhraseGrammar
