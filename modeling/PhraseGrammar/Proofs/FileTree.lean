import Mathlib.Data.List.Induction
import PhraseGrammar.FileTree
import PhraseGrammar.Proofs.Path

/-! What a path leads to before and after a file is written. A write takes nothing away: directories
stay where they are, and every other file stays as it is. -/
namespace PhraseGrammar
namespace FileTree

open PhraseGrammar.Path

variable {t t' : FileTree} {path : String} {route dir written : List String}
  {front : List (List Char)} {name : List Char} {text : String} {content : Content}

/-- The parts of a path lead from one directory to another. -/
def Leads (t : FileTree) (route : List String) (front : List (List Char)) (dir : List String) :
    Prop :=
  (front.map String.ofList).foldlM t.step (.directory route) = .ok (.directory dir)

/-- Nothing lies in a file, so all parts but the last lead to directories. -/
theorem foldlM_concat_eq_ok {place : Place} {part : List Char} :
    ((front ++ [part]).map String.ofList).foldlM t.step (.directory route) = .ok place ↔
      ∃ dir, t.Leads route front dir ∧ t.step (.directory dir) (.ofList part) = .ok place := by
  rw [List.map_append,List.foldlM_append,List.map_singleton]
  simp only [List.foldlM_cons,List.foldlM_nil,bind_pure]
  cases h : (front.map String.ofList).foldlM t.step (.directory route) with
  | error e => simp [Leads,h,bind,Except.bind]
  | ok middle =>
    cases middle with
    | file => simp [Leads,h,bind,Except.bind,step]
    | directory => simp [Leads,h,bind,Except.bind]

theorem leads_concat {part : List Char} : t.Leads route (front ++ [part]) dir ↔
    ∃ above, t.Leads route front above ∧
      t.step (.directory above) (.ofList part) = .ok (.directory dir) :=
  foldlM_concat_eq_ok

theorem step_ofList (t : FileTree) (dir : List String) (part : List Char) :
    t.step (.directory dir) (.ofList part) =
      if idle part then .ok (.directory dir)
      else if part = ['.','.'] then .ok (.directory dir.dropLast)
      else t.lookup (dir ++ [.ofList part]) := by
  simp [step,idle,← String.toList_inj]

theorem step_idle {part : List Char} (h : idle part = true) :
    t.step (.directory dir) (.ofList part) = .ok (.directory dir) := by
  rw [step_ofList,if_pos h]

theorem step_proper (h : Proper name) :
    t.step (.directory dir) (.ofList name) = t.lookup (dir ++ [.ofList name]) := by
  rw [step_ofList,if_neg h.not_idle,if_neg h.ne_above]

theorem Leads.trim (h : t.Leads route front dir) : t.Leads route (trim front) dir := by
  cases front with
  | nil => exact h
  | cons first inner =>
    rw [Path.trim]
    induction inner using List.reverseRecOn with
    | nil => exact h
    | append_singleton inner part ih =>
      rw [List.rdropWhile_concat]
      split
      · rename_i hpart
        rw [← List.cons_append,leads_concat] at h
        obtain ⟨above,habove,hstep⟩ := h
        rw [step_idle hpart] at hstep
        obtain rfl := Place.directory.inj (Except.ok.inj hstep)
        exact ih habove
      · exact h

theorem lookup_eq_file {found : List String} :
    t.lookup route = .ok (.file found content) ↔
      route = found ∧ t.files.lookup route = some content := by
  rw [lookup]
  cases hfile : t.files.lookup route with
  | none =>
    simp only [reduceCtorEq,and_false,iff_false]
    split <;> exact fun h => nomatch h
  | some => simp

theorem read_eq_ok :
    t.read path = .ok text ↔ ∃ route, t.find path = .ok (.file route (.text text)) := by
  rw [read]
  constructor
  · intro h
    split at h
    · cases h
    · cases h
    · cases h
    · rename_i route found hfind
      exact ⟨route,Except.ok.inj h ▸ hfind⟩
  · rintro ⟨route,hfind⟩
    rw [hfind]

/-- A path is made of parts that lead to a directory and of the name that a file has in it. -/
structure Names (t : FileTree) (path : String) (front : List (List Char)) (name : List Char)
    (dir : List String) : Prop where
  parts_eq : parts path = front ++ [name]
  proper : Proper name
  leads : t.Leads (t.start path) front dir

theorem Names.ne_empty (h : t.Names path front name dir) : path ≠ "" := by
  rintro rfl
  have hparts : [[]] = front ++ [name] := h.parts_eq
  have hname : [] = name := by simpa using congrArg List.getLast? hparts
  exact h.proper.ne_nil hname.symm

theorem Names.partsOf_eq (h : t.Names path front name dir) :
    partsOf path = front.map String.ofList ++ [.ofList name] := by
  rw [partsOf,h.parts_eq,List.map_append,List.map_singleton]

theorem Names.find_eq (h : t.Names path front name dir) :
    t.find path = t.lookup (dir ++ [.ofList name]) := by
  rw [find,if_neg h.ne_empty,h.partsOf_eq,List.foldlM_append,h.leads]
  exact (bind_pure _).trans (step_proper h.proper)

theorem Names.write_eq (h : t.Names path front name dir) (text : String) :
    t.write path text =
      if t.isDirectory (dir ++ [.ofList name]) then .error .isDirectory
      else .ok (t.put (dir ++ [.ofList name]) text) := by
  have hproper :
      String.ofList name ≠ "" ∧ String.ofList name ≠ "." ∧ String.ofList name ≠ ".." := by
    simp only [Ne,← String.toList_inj,String.toList_ofList]
    exact ⟨h.proper.ne_nil,fun he => h.proper.not_idle (he ▸ rfl),h.proper.ne_above⟩
  have hlast : (if path = "" then none else (partsOf path).getLast?) = some (.ofList name) := by
    rw [if_neg h.ne_empty,h.partsOf_eq,List.getLast?_concat]
  have hdir : (partsOf path).dropLast.foldlM t.step (.directory (t.start path)) =
      .ok (.directory dir) := by
    rw [h.partsOf_eq,List.dropLast_concat]
    exact h.leads
  rw [write,hlast]
  simp [hdir,hproper]

theorem exists_names_of_find (h : t.find path = .ok (.file route content)) :
    ∃ front name dir, t.Names path front name dir ∧ route = dir ++ [.ofList name] ∧
      t.files.lookup route = some content := by
  rw [find] at h
  split at h
  · cases h
  · obtain ⟨front,name,hparts⟩ :=
      (List.eq_nil_or_concat' (parts path)).resolve_left (List.splitOn_ne_nil _ _)
    rw [partsOf,hparts,foldlM_concat_eq_ok] at h
    obtain ⟨dir,hdir,hstep⟩ := h
    rw [step_ofList] at hstep
    split at hstep
    · cases hstep
    · rename_i hidle
      split at hstep
      · cases hstep
      · rename_i habove
        obtain ⟨hroute,hfile⟩ := lookup_eq_file.mp hstep
        exact ⟨front,name,dir,⟨hparts,⟨hidle,habove⟩,hdir⟩,hroute.symm,hroute ▸ hfile⟩

theorem lookup_put_self (t : FileTree) (route : List String) (text : String) :
    (t.put route text).files.lookup route = some (.text text) := by
  have hnone : (t.files.filter (·.1 != route)).lookup route = none := by
    rw [List.lookup_eq_none_iff]
    intro file hfile
    have hne : file.1 ≠ route := by simpa using (List.mem_filter.mp hfile).2
    exact bne_iff_ne.mpr hne.symm
  rw [put,List.lookup_append,hnone]
  simp

theorem lookup_put_of_ne (text : String) (h : route ≠ written) :
    (t.put written text).files.lookup route = t.files.lookup route := by
  have hother : (route == written) = false := beq_eq_false_iff_ne.mpr h
  have hkept (files : List (List String × Content)) :
      (files.filter (·.1 != written)).lookup route = files.lookup route := by
    induction files with
    | nil => rfl
    | cons file files ih =>
      by_cases hfile : file.1 = written
      · rw [List.filter_cons_of_neg (by simp [hfile]),ih,List.lookup_cons,hfile,hother]
      · rw [List.filter_cons_of_pos (by simp [hfile]),List.lookup_cons,List.lookup_cons,ih]
  rw [put,List.lookup_append,hkept,List.lookup_cons,hother]
  simp

theorem isDirectory_put (text : String) (h : t.isDirectory route = true) :
    (t.put written text).isDirectory route = true := by
  rw [isDirectory,Bool.or_eq_true,List.any_eq_true] at h ⊢
  rcases h with h | ⟨file,hfile,hbelow⟩
  · exact .inl h
  · refine .inr ?_
    by_cases hwritten : file.1 = written
    · exact ⟨(written,.text text),by simp [put],hwritten ▸ hbelow⟩
    · exact ⟨file,by simp [put,hfile,hwritten],hbelow⟩

theorem lookup_put_directory (text : String) (hwritten : ¬ t.isDirectory written = true)
    (h : t.lookup route = .ok (.directory dir)) :
    (t.put written text).lookup route = .ok (.directory dir) := by
  rw [lookup] at h
  split at h
  · cases h
  · rename_i hfile
    split at h
    · rename_i hroute
      have hne : route ≠ written := fun he => hwritten (he ▸ hroute)
      rw [lookup,lookup_put_of_ne text hne,hfile]
      exact (if_pos (isDirectory_put text hroute)).trans h
    · cases h

theorem Leads.put (h : t.Leads route front dir) (hwritten : ¬ t.isDirectory written = true)
    (text : String) : (t.put written text).Leads route front dir := by
  induction front using List.reverseRecOn generalizing dir with
  | nil => exact h
  | append_singleton front part ih =>
    rw [leads_concat] at h ⊢
    obtain ⟨above,habove,hstep⟩ := h
    refine ⟨above,ih habove,?_⟩
    rw [step_ofList] at hstep ⊢
    split_ifs at hstep ⊢
    · exact hstep
    · exact hstep
    · exact lookup_put_directory text hwritten hstep

theorem Names.put (h : t.Names path front name dir) (hwritten : ¬ t.isDirectory written = true)
    (text : String) : (t.put written text).Names path front name dir :=
  ⟨h.parts_eq,h.proper,h.leads.put hwritten text⟩

theorem Names.find_put (h : t.Names path front name dir)
    (hfree : ¬ t.isDirectory (dir ++ [.ofList name]) = true) (text : String) :
    (t.put (dir ++ [.ofList name]) text).find path =
      .ok (.file (dir ++ [.ofList name]) (.text text)) := by
  rw [(h.put hfree text).find_eq,lookup_eq_file]
  exact ⟨rfl,lookup_put_self t _ text⟩

theorem find_put_of_ne (h : t.find path = .ok (.file route content)) (hne : route ≠ written)
    (hfree : ¬ t.isDirectory written = true) (text : String) :
    (t.put written text).find path = .ok (.file route content) := by
  obtain ⟨front,name,dir,hnames,rfl,hfile⟩ := exists_names_of_find h
  rw [(hnames.put hfree text).find_eq,lookup_eq_file,lookup_put_of_ne text hne]
  exact ⟨rfl,hfile⟩

theorem start_prepared (hparts : parts path = front ++ [name]) (hname : Proper name) :
    t.start (prepared path) = t.start path := by
  have hhead : (prepared path).toList.head? = some '/' ↔ path.toList.head? = some '/' := by
    rw [head?_eq_slash_iff (parts_prepared hparts hname),head?_trim,head?_eq_slash_iff hparts]
  simp only [start,hhead]

theorem Names.prepared (h : t.Names path front name dir) :
    t.Names (prepared path) (Path.trim front) (preparedName name) dir := by
  refine ⟨parts_prepared h.parts_eq h.proper,proper_preparedName name,?_⟩
  rw [start_prepared h.parts_eq h.proper]
  exact h.leads.trim

end FileTree

end PhraseGrammar
