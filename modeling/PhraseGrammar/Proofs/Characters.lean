import PhraseGrammar.Proofs.Enumeration
import PhraseGrammar.Proofs.Graph.WellFormed
import PhraseGrammar.Proofs.Segmentation

/-! The characters that texts are made of: those of the literals, and what these become as capitals.
No literal has a delimiter and no other character becomes one, so no text has a delimiter. -/
namespace PhraseGrammar

namespace Uppercase

theorem eq_of_mem_codes {n m : Nat} (h : m ∈ codes n) (hm : m < 'A'.toNat) : m = n := by
  have hexpansions : ∀ e ∈ expansions, ∀ k ∈ e.2, 'A'.toNat ≤ k := by decide +kernel
  have hruns : ∀ r ∈ runs, 'A'.toNat ≤ r.image := by decide +kernel
  rw [codes] at h
  split at h
  · rename_i ns hns
    obtain ⟨before,after,he,-⟩ := List.lookup_eq_some_iff.mp hns
    have hle := hexpansions (n,ns) (he ▸ List.mem_append_right _ List.mem_cons_self) m h
    omega
  · split at h
    · rename_i r hr
      have hle := hruns r (List.mem_of_find?_eq_some hr)
      have he : m = r.image + (n - r.first) := List.mem_singleton.mp h
      omega
    · exact List.mem_singleton.mp h

end Uppercase

theorem eq_of_delimiter_mem_upper {c : Char} (h : Template.delimiter ∈ upper c) :
    c = Template.delimiter := by
  obtain ⟨n,hn,he⟩ := List.mem_map.mp h
  by_cases hvalid : n.isValidChar
  · have hchar : Char.ofNatAux n hvalid = Template.delimiter := (dif_pos hvalid).symm.trans he
    have hcode : n = Template.delimiter.toNat := congrArg Char.toNat hchar
    rw [← Char.ofNat_toNat c,← Uppercase.eq_of_mem_codes hn (hcode ▸ by decide),hcode,
      Char.ofNat_toNat]
  · exact absurd ((dif_neg hvalid).symm.trans he) (by decide)

/-- Every character of the text has the property. -/
def MadeOf (P : Char → Prop) (text : String) : Prop := ∀ c ∈ text.toList, P c

/-- The property carries over from a character to its capitals. -/
def KeptByUpper (P : Char → Prop) : Prop := ∀ c, P c → ∀ d ∈ upper c, P d

variable {P : Char → Prop}

theorem madeOf_empty : MadeOf P "" := by
  simp [MadeOf]

theorem MadeOf.append {s t : String} (hs : MadeOf P s) (ht : MadeOf P t) : MadeOf P (s ++ t) := by
  intro c hc
  rw [String.toList_append,List.mem_append] at hc
  exact hc.elim (hs c) (ht c)

theorem MadeOf.apply (hP : KeptByUpper P) {text : String} (h : MadeOf P text) (m : Modifier) :
    MadeOf P (m.apply text) := by
  cases m with
  | capitalize =>
    rw [MadeOf,Modifier.apply,String.toList_ofList]
    rw [MadeOf] at h
    cases hcs : text.toList with
    | nil => simp
    | cons first rest =>
      rw [hcs] at h
      obtain ⟨hfirst,hrest⟩ := List.forall_mem_cons.mp h
      rw [capitalize_cons,List.forall_mem_append]
      exact ⟨hP first hfirst,hrest⟩

theorem MadeOf.applyModifiers (hP : KeptByUpper P) {text : String} (h : MadeOf P text)
    (p : Placeholder) : MadeOf P (p.applyModifiers text) := by
  rw [Placeholder.applyModifiers]
  induction p.modifiers generalizing text with
  | nil => exact h
  | cons m modifiers ih => exact ih (h.apply hP m)

namespace Graph

variable {g : Graph} {limit : Option Nat}

/-- The literals of the graph are made of characters with the property. -/
def Literals (g : Graph) (P : Char → Prop) : Prop :=
  ∀ id, ∀ rule ∈ (g.group id).rules, ∀ text, .literal text ∈ rule.template.segments → MadeOf P text

theorem madeOf_fills (hP : KeptByUpper P) {all : GroupId → List Derivation}
    (hall : ∀ id, ∀ d ∈ all id, MadeOf P d.2) {segments : List Segment} {ids : List GroupId}
    (hsegments : ∀ text, .literal text ∈ segments → MadeOf P text) :
    ∀ d ∈ fills all segments ids, MadeOf P d.2 := by
  induction segments generalizing ids with
  | nil =>
    intro d hd
    rw [List.mem_singleton.mp hd]
    exact madeOf_empty
  | cons segment segments ih =>
    have ih {ids : List GroupId} : ∀ d ∈ fills all segments ids, MadeOf P d.2 :=
      ih fun text ht => hsegments text (List.mem_cons_of_mem _ ht)
    cases segment with
    | literal text =>
      intro d hd
      obtain ⟨rest,hrest,rfl⟩ := List.mem_map.mp hd
      exact (hsegments text List.mem_cons_self).append (ih rest hrest)
    | placeholder p =>
      cases ids with
      | nil => simp [fills]
      | cons id ids =>
        intro d hd
        obtain ⟨first,hfirst,hd⟩ := List.mem_flatMap.mp hd
        obtain ⟨rest,hrest,rfl⟩ := List.mem_map.mp hd
        exact ((hall id first hfirst).applyModifiers hP p).append (ih rest hrest)

theorem madeOf_derivations (hP : KeptByUpper P) (hg : g.Literals P) {levels depth : Nat}
    {id : GroupId} : ∀ d ∈ g.derivations limit levels depth id, MadeOf P d.2 := by
  induction levels generalizing depth id with
  | zero => exact fun d hd => absurd hd List.not_mem_nil
  | succ levels ih =>
    rintro ⟨script,text⟩ hd
    obtain ⟨-,i,rule,rest,hrule,-,hd⟩ := mem_derivations_succ.mp hd
    exact madeOf_fills hP (fun _ => ih) (hg id rule (List.mem_of_getElem? hrule)) (rest,text) hd

theorem WellFormed.literals (hg : g.WellFormed) : g.Literals (· ≠ Template.delimiter) := by
  intro id rule hrule text htext c hc he
  obtain ⟨-,hsegments⟩ := Template.parse_eq_ok.mp (hg.fits id rule hrule).parsed
  have hcanonical := Template.Canonical.of_alternate (fun _ => not_mem_of_mem_splitOn) hsegments
  exact (hcanonical.proper _ htext).2 (he ▸ hc)

theorem keptByUpper_ne_delimiter : KeptByUpper (· ≠ Template.delimiter) :=
  fun _ hc _ hd he => hc (eq_of_delimiter_mem_upper (he ▸ hd))

/-- Whoever chooses, and whatever limit and cap there are, no text that an expansion gives or an
enumeration lists has a delimiter. -/
theorem delimiter_notMem_texts (hg : g.Reached) (limit : Option Nat) (symbol : String) :
    (∀ {σ : Type} (strategy : Strategy σ) (levels : Nat) (s s' : σ) (text : String),
      g.expand limit levels strategy symbol s = (.done text,s') →
        Template.delimiter ∉ text.toList) ∧
    ∀ (levels cap : Nat) (texts : List String),
      g.enumerate limit levels symbol cap = .done texts →
        ∀ text ∈ texts, Template.delimiter ∉ text.toList := by
  have hderived {levels depth : Nat} {id : GroupId} {d : Derivation}
      (hd : d ∈ g.derivations limit levels depth id) : Template.delimiter ∉ d.2.toList :=
    fun hmem => madeOf_derivations keptByUpper_ne_delimiter hg.wellFormed.literals d hd _ hmem rfl
  constructor
  · intro σ strategy levels s s' text h
    rw [expand] at h
    split at h
    · cases (Prod.mk.inj h).1
    · obtain ⟨script,hd⟩ := exists_derivation_of_expandGroup h
      exact hderived hd
  · intro levels cap texts h text htext
    rw [enumerate] at h
    split at h
    · cases h
    · rw [enumerateGroup_eq_take h] at htext
      obtain ⟨d,hd,rfl⟩ := List.mem_map.mp (List.mem_of_mem_take htext)
      exact hderived hd

/-- An empty placeholder, two placeholders in a row, characters that become two as capitals, and a
rule that is refused. -/
def mosaic : Graph :=
  ((((empty.declare "a" ["##é#b.capitalize##b#","l'#b#"]).2.declare "b" ["ßu","ﬁ"]).2.declare ""
    ["","x#b#"]).2.declare "c" ["#b#","#"]).2

theorem delimiter_notMem_texts_mosaic :
    mosaic.Reached ∧ mosaic.expand none 3 .first "a" () = (.done "éSSußu",()) ∧
    Template.delimiter ∉ "éSSußu".toList ∧
    mosaic.enumerate (some 2) 3 "a" 3 = .done ["éSSußu","éSSuﬁ","éFIßu"] ∧
    ∀ text ∈ ["éSSußu","éSSuﬁ","éFIßu"], Template.delimiter ∉ text.toList := by
  have hreached : mosaic.Reached :=
    (((Reached.empty.declare _ _).declare _ _).declare _ _).declare _ _
  have hexpand : mosaic.expand none 3 .first "a" () = (.done "éSSußu",()) := by decide +kernel
  have henumerate : mosaic.enumerate (some 2) 3 "a" 3 = .done ["éSSußu","éSSuﬁ","éFIßu"] := by
    decide +kernel
  refine ⟨hreached,hexpand,?_,henumerate,?_⟩
  · exact (delimiter_notMem_texts hreached none "a").1 .first 3 () () _ hexpand
  · exact (delimiter_notMem_texts hreached (some 2) "a").2 3 3 _ henumerate

end Graph

end PhraseGrammar
