import PhraseGrammar.Proofs.Document.Reload
import PhraseGrammar.Proofs.FileTree
import PhraseGrammar.Proofs.Preparation.Walk

/-! A prepared grammar in its file. It is put beside the file it comes from, under a name that this
file cannot have, and it is loaded as what was prepared. -/
namespace PhraseGrammar

open PhraseGrammar.Path Grammar

variable {t t' : FileTree} {path written root : String} {g p : Grammar}

namespace Path

variable {front : List (List Char)} {name : List Char}

theorem directory_prepared (hparts : parts path = front ++ [name]) (hname : Proper name) :
    directory (prepared path) = directory path := by
  rw [directory,directory,split?_prepared hparts hname,split?_of_parts hparts hname]

theorem suffix_prepared (hparts : parts path = front ++ [name]) (hname : Proper name) :
    "_prepared.json".toList <:+ (prepared path).toList := by
  rw [prepared_eq hparts hname]
  exact (List.suffix_append _ _).trans (suffix_ofParts_concat _ _)

theorem prepared_ne (hparts : parts path = front ++ [name]) (hname : Proper name) :
    prepared path ≠ path := by
  intro he
  have hsplit := split?_prepared hparts hname
  rw [he,split?_of_parts hparts hname,Option.some.injEq,Prod.mk.injEq] at hsplit
  exact preparedName_ne name hsplit.2.symm

theorem formatOf_prepared (hparts : parts path = front ++ [name]) (hname : Proper name) :
    formatOf (prepared path) = .json := by
  have hextension : extension? (prepared path) = some "json".toList := by
    rw [extension?,fileName?,split?_prepared hparts hname]
    simp [splitName_preparedName]
  rw [formatOf,hextension]
  rfl

end Path

namespace Grammar

theorem includes_prepareNames {room : Nat} {stack : List String} {prepared : Grammar}
    (h : g.prepareNames room stack prepared = .ok p) : p.includes = prepared.includes := by
  fun_induction Grammar.prepareNames g room stack prepared with
  | case1 room prepared => rw [Except.ok.inj h]
  | case2 room prepared name stack hcontains ih => exact ih h
  | case3 => cases h
  | case4 => cases h
  | case5 room prepared => rw [Except.ok.inj h]
  | case6 prepared name stack hcontains rules hr symbols hs room ih => exact ih h

theorem load_of_printed {read : Reader} (hread : read path = .ok p.toJson)
    (hformat : formatOf path = .json) (hp : p.Loadable) (hincludes : p.includes = []) :
    load read path = .ok p := by
  have hfile : loadFile read path = .ok p := by
    rw [loadFile,hread,hformat]
    exact parseJson_toJson hp.nodup hp.key
  rw [load,hfile]
  simp only [includedPaths,hincludes,List.map_nil,mergeFiles]
  rw [← hincludes]

end Grammar

namespace FileTree

theorem exists_text_of_load (h : load t.read path = .ok g) : ∃ text, t.read path = .ok text := by
  cases hread : t.read path with
  | error fault => simp [load,loadFile,hread] at h
  | ok text => exact ⟨text,rfl⟩

theorem savePrepared_eq_ok : t.savePrepared p path = .ok (written,t') ↔
    written = prepared path ∧ t.write (prepared path) p.toJson = .ok t' := by
  unfold savePrepared preparedFile
  dsimp only
  cases t.write (prepared path) p.toJson with
  | error fault => simp
  | ok after => simp [eq_comm]

/-- A grammar that is loaded from a file, prepared and written goes into another file of the same
directory. The source stays as it is, and so do all other files; the file written is loaded as the
prepared grammar, which has no includes. -/
theorem savePrepared_reloads (hload : load t.read path = .ok g)
    (hprepare : g.prepareFrom root = .ok p)
    (hsave : t.savePrepared p path = .ok (written,t')) :
    (Path.directory written = Path.directory path ∧
      "_prepared.json".toList <:+ written.toList ∧ written ≠ path) ∧
    (∃ dir name other text, name ≠ other ∧
      t.find path = .ok (.file (dir ++ [name]) (.text text)) ∧
      t'.find path = .ok (.file (dir ++ [name]) (.text text)) ∧
      t'.find written = .ok (.file (dir ++ [other]) (.text p.toJson)) ∧
      ∀ route ≠ dir ++ [other], t'.files.lookup route = t.files.lookup route) ∧
    load t'.read written = .ok p ∧ p.includes = [] := by
  obtain ⟨text,hread⟩ := exists_text_of_load hload
  obtain ⟨route,hfind⟩ := read_eq_ok.mp hread
  obtain ⟨front,name,dir,hnames,rfl,-⟩ := exists_names_of_find hfind
  obtain ⟨rfl,hwrite⟩ := savePrepared_eq_ok.mp hsave
  rw [hnames.prepared.write_eq] at hwrite
  split at hwrite
  · cases hwrite
  · rename_i hfree
    obtain rfl := Except.ok.inj hwrite
    have hne : String.ofList name ≠ .ofList (preparedName name) :=
      fun he => preparedName_ne name (String.ofList_inj.mp he).symm
    have hsource := find_put_of_ne hfind (by simpa using hne) hfree p.toJson
    have hwritten := hnames.prepared.find_put hfree p.toJson
    have hincludes : p.includes = [] := includes_prepareNames hprepare
    have hp := (loadable_of_load hload).prepareNames .empty hprepare
    obtain ⟨hparts,hname,-⟩ := hnames
    refine ⟨⟨directory_prepared hparts hname,suffix_prepared hparts hname,
      prepared_ne hparts hname⟩,?_,?_,hincludes⟩
    · exact ⟨dir,_,_,text,hne,hfind,hsource,hwritten,fun _ => lookup_put_of_ne p.toJson⟩
    · exact load_of_printed (read_eq_ok.mpr ⟨_,hwritten⟩) (formatOf_prepared hparts hname) hp
        hincludes

/-- A source in the other format that includes a file, beside an older prepared form. -/
def drawer : FileTree :=
  ⟨[(["h","d","s.v2.ron"],
      .text "\x7b\"origin\":[\"#b_fem#\"],\"#include\":[\"b.json\"]\x7d"),
    (["h","d","b.json"],
      .text "\x7b\"b\":\x7b\"fem\":[\"x\"]\x7d,\"c\":[\"#\"]\x7d"),
    (["h","d","s.v2_prepared.json"],.text "y")],["h"]⟩

def drawn : Grammar :=
  ⟨[("origin",.flat ["#b_fem#"]),("b",.gendered ⟨none,some ["x"],none⟩),("c",.flat ["#"])],[]⟩

def neat : Grammar := ⟨[("origin",.flat ["#b_fem#"]),("b_fem",.flat ["x"])],[]⟩

theorem savePrepared_reloads_drawer : ∃ after,
    load drawer.read "d/./s.v2.ron" = .ok drawn ∧ drawn.prepare = .ok neat ∧
    drawer.savePrepared neat "d/./s.v2.ron" = .ok ("d/s.v2_prepared.json",after) ∧
    Path.directory "d/s.v2_prepared.json" = Path.directory "d/./s.v2.ron" ∧
    load after.read "d/s.v2_prepared.json" = .ok neat := by
  have hload : load drawer.read "d/./s.v2.ron" = .ok drawn := by decide +kernel
  have horigin : drawn.Mentions "origin" ["b_fem"] :=
    mentions_iff.mpr ⟨["#b_fem#"],by decide +kernel,by decide +kernel⟩
  have hfem : drawn.Mentions "b_fem" [] :=
    mentions_iff.mpr ⟨["x"],by decide +kernel,by decide +kernel⟩
  have hwalk : drawn.Walk [] ["origin"] (.ok ["origin","b_fem"]) :=
    .visit (by decide) horigin (.visit (by decide) hfem .done .done) .done
  have hneat : drawn.flattened ["origin","b_fem"] = neat := by decide +kernel
  have hprepare : drawn.prepare = .ok neat :=
    (prepareNames_of_walk hwalk le_rfl).trans (congrArg Except.ok hneat)
  have hwritten : (drawer.savePrepared neat "d/./s.v2.ron").map Prod.fst =
      .ok "d/s.v2_prepared.json" := by decide +kernel
  cases hsave : drawer.savePrepared neat "d/./s.v2.ron" with
  | error e => simp [hsave,Except.map] at hwritten
  | ok saved =>
    obtain ⟨written,after⟩ := saved
    rw [hsave] at hwritten
    obtain rfl := Except.ok.inj hwritten
    obtain ⟨⟨hdirectory,-,-⟩,-,hreloads,-⟩ := savePrepared_reloads hload hprepare hsave
    exact ⟨after,hload,hprepare,rfl,hdirectory,hreloads⟩

end FileTree

end PhraseGrammar
