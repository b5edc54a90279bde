import Mathlib.Data.List.Forall2
import Mathlib.Data.List.Induction
import Mathlib.Data.List.Nodup
import PhraseGrammar.Proofs.Document.Reload

/-! What loading makes of a file with its includes: one grammar that has the groups of all these
documents, or the first fault on the way. A name that is in two documents is a fault of the later
one. What an included document includes itself does not matter. -/
namespace PhraseGrammar
namespace Grammar

variable {read : Reader} {path : String} {g main other : Grammar} {gs others : List Grammar}
variable {paths : List String} {e : Error}

/-- The file can be read, and its text is that of a grammar. -/
def Holds (read : Reader) (path : String) (g : Grammar) : Prop :=
  ∃ text, read path = .ok text ∧ parse (formatOf path) text = .ok g

/-- Why a file gives no grammar. -/
inductive Refused (read : Reader) (path : String) : Error → Prop
  | unreadable {fault : FileFault} (h : read path = .error fault) : Refused read path (.file fault)
  | unparsed {text : String} {e : Error} (h : read path = .ok text)
    (hparse : parse (formatOf path) text = .error e) : Refused read path e

theorem loadFile_eq_ok : loadFile read path = .ok g ↔ Holds read path g := by
  rw [loadFile,Holds]
  cases read path with
  | error fault => simp
  | ok text => simp

theorem Holds.nodup (h : Holds read path g) : g.names.Nodup :=
  (loadable_of_loadFile (loadFile_eq_ok.mpr h)).nodup

/-- One grammar with the groups of several, in order. -/
def joined (gs : List Grammar) : Grammar := ⟨gs.flatMap groups,[]⟩

theorem names_joined (gs : List Grammar) : (joined gs).names = gs.flatMap names :=
  List.map_flatMap

theorem nodup_joined (hgs : ∀ g ∈ gs, g.names.Nodup)
    (hdisjoint : gs.Pairwise fun g other => g.names.Disjoint other.names) :
    (joined gs).names.Nodup := by
  rw [names_joined,List.nodup_flatMap]
  exact ⟨hgs,hdisjoint⟩

/-- Files that hold documents which go together with the main one. A file that is listed twice has
its document twice. -/
structure Opened (read : Reader) (main : Grammar) (paths : List String)
    (others : List Grammar) : Prop where
  holds : List.Forall₂ (Holds read) paths others
  disjoint : (main :: others).Pairwise fun g other => g.names.Disjoint other.names

/-- The first fault of included files: one that gives no grammar, or the first name in it that is
taken by a document before it. -/
inductive Stops (read : Reader) (main : Grammar) : List String → Error → Prop
  | refused {before after : List String} {file : String} {others : List Grammar} {e : Error}
    (hbefore : Opened read main before others) (hfile : Refused read file e) :
    Stops read main (before ++ file :: after) e
  | taken {before after : List String} {file : String} {others : List Grammar} {other : Grammar}
    {free rest : List String} {name : String} (hbefore : Opened read main before others)
    (hfile : Holds read file other) (hnames : other.names = free ++ name :: rest)
    (hfree : ∀ name ∈ free, ∀ g ∈ main :: others, name ∉ g.names)
    (hname : ∃ g ∈ main :: others, name ∈ g.names) :
    Stops read main (before ++ file :: after) (.duplicateKey name file)

theorem Opened.nodup (h : Opened read main paths others) (hmain : main.names.Nodup) :
    (joined (main :: others)).names.Nodup := by
  have hothers : ∀ other ∈ others, other.names.Nodup :=
    ((List.forall₂_and_left _ _).mp
      (h.holds.flip.imp fun other file hfile => ⟨Holds.nodup hfile,hfile⟩)).1
  exact nodup_joined (List.forall_mem_cons.mpr ⟨hmain,hothers⟩) h.disjoint

theorem Opened.append (h : Opened read main paths others) (hother : Holds read path other)
    (hdisjoint : ∀ g ∈ main :: others, g.names.Disjoint other.names) :
    Opened read main (paths ++ [path]) (others ++ [other]) := by
  refine ⟨List.rel_append h.holds (.cons hother .nil),?_⟩
  rw [← List.cons_append,List.pairwise_append]
  refine ⟨h.disjoint,List.pairwise_singleton _ _,fun g hg other' hother' => ?_⟩
  exact List.mem_singleton.mp hother' ▸ hdisjoint g hg

theorem Stops.append (h : Stops read main paths e) (after : List String) :
    Stops read main (paths ++ after) e := by
  cases h with
  | refused hbefore hfile =>
    rw [List.append_assoc]
    exact .refused hbefore hfile
  | taken hbefore hfile hnames hfree hname =>
    rw [List.append_assoc]
    exact .taken hbefore hfile hnames hfree hname

end Grammar

end PhraseGrammar
