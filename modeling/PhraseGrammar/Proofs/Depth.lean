import PhraseGrammar.Proofs.Entered
import PhraseGrammar.Proofs.Truncation

/-! What a limit on the depth does to a run. It cuts the run at the first group that lies too deep,
and up to there nothing differs from a run under a higher limit or without one. So a run that is
not cut is the same under all of these, and every run under a limit ends. Where no cycle can be
reached, no group lies deeper than there are groups. -/
namespace PhraseGrammar
namespace Graph

variable {σ : Type} {g : Graph} {limit : Option Nat} {d : Nat}

theorem asked_fill {enter : GroupId → σ × List Nat → Outcome String × σ × List Nat}
    (henter : ∀ id s, s.2 <+: (enter id s).2.2) (segments : List Segment) (ids : List GroupId)
    (s : σ × List Nat) : s.2 <+: (fill enter segments ids s).2.2 := by
  induction segments generalizing ids s with
  | nil => exact List.prefix_refl _
  | cons segment segments ih =>
    cases segment with
    | literal text =>
      rw [fill]
      exact ih ids s
    | placeholder p =>
      cases ids with
      | nil => exact List.prefix_refl _
      | cons id ids =>
        have hid := henter id s
        rw [fill]
        rcases he : enter id s with ⟨text | e | _,t⟩ <;> rw [he] at hid
        · exact hid.trans (ih ids t)
        · exact hid
        · exact hid

theorem asked_expandGroup (strategy : Strategy σ) (levels depth : Nat) (id : GroupId)
    (s : σ × List Nat) :
    s.2 <+: (g.expandGroup limit strategy.recording levels depth id s).2.2 := by
  induction levels generalizing depth id s with
  | zero => exact List.prefix_refl _
  | succ levels ih =>
    rcases expandGroup_cases limit strategy.recording levels depth id s with
      ⟨n,-,he⟩ | ⟨-,he⟩ | ⟨rule,-,he⟩
    · rw [he]
    · rw [he]
    · have hchoose : s.2 <+: (strategy.recording.choose s (g.group id).rules.length).2.2 :=
        List.prefix_append _ _
      rw [he]
      exact hchoose.trans (asked_fill (ih (depth + 1)) _ _ _)

/-- How a run under a limit compares with one that may go deeper: it comes to its end in the same
way, or it is cut and the other run has more to ask. -/
inductive Cut (d : Nat) : Outcome String × σ × List Nat → Outcome String × σ × List Nat → Prop
  | whole {o : Outcome String} {s : σ × List Nat} (ho : o ≠ .unfinished) : Cut d (o,s) (o,s)
  | short {o : Outcome String} {s t : σ × List Nat} (name : String) (hasked : s.2 <+: t.2) :
    Cut d (.failed (.depthLimit name d),s) (o,t)

theorem Cut.map {r r' : Outcome String × σ × List Nat} (h : Cut d r r') (f : String → String) :
    Cut d (r.1.map f,r.2) (r'.1.map f,r'.2) := by
  cases h with
  | @whole o s ho => exact .whole (by cases o <;> simp_all)
  | short name hasked => exact .short name hasked

theorem Cut.ends {r r' : Outcome String × σ × List Nat} (h : Cut d r r') : r.1 ≠ .unfinished := by
  cases h with
  | whole ho => exact ho
  | short name hasked => simp

theorem Cut.eq_of_whole {r r' : Outcome String × σ × List Nat} (h : Cut d r r')
    (hwhole : ∀ name n, r.1 ≠ .failed (.depthLimit name n)) : r' = r := by
  cases h with
  | whole ho => rfl
  | short name hasked => exact absurd rfl (hwhole name d)

theorem Cut.asked {r r' : Outcome String × σ × List Nat} (h : Cut d r r') : r.2.2 <+: r'.2.2 := by
  cases h with
  | whole ho => exact List.prefix_refl _
  | short name hasked => exact hasked

theorem Cut.fill {enter enter' : GroupId → σ × List Nat → Outcome String × σ × List Nat}
    (henter : ∀ id s, Cut d (enter id s) (enter' id s))
    (hasked : ∀ id s, s.2 <+: (enter' id s).2.2) (segments : List Segment) (ids : List GroupId)
    (s : σ × List Nat) : Cut d (fill enter segments ids s) (fill enter' segments ids s) := by
  induction segments generalizing ids s with
  | nil => exact .whole (by simp)
  | cons segment segments ih =>
    cases segment with
    | literal text => exact (ih ids s).map (text ++ ·)
    | placeholder p =>
      cases ids with
      | nil => exact .whole (by simp)
      | cons id ids =>
        have hid := henter id s
        rw [Graph.fill,Graph.fill]
        generalize enter id s = r at hid ⊢
        generalize enter' id s = r' at hid ⊢
        cases hid with
        | @whole o t ho =>
          cases o with
          | done text => exact (ih ids t).map (p.applyModifiers text ++ ·)
          | failed e => exact .whole ho
          | unfinished => exact absurd rfl ho
        | @short o t t' name hmore =>
          cases o with
          | done text => exact .short name (hmore.trans (asked_fill hasked segments ids t'))
          | failed e => exact .short name hmore
          | unfinished => exact .short name hmore

/-- Two runs of a group start with the same choice, and part where the limit cuts one of them. -/
theorem expandGroup_cut (strategy : Strategy σ) (hlimit : ∀ n ∈ limit, d ≤ n)
    {levels levels' depth : Nat} (hdepth : depth ≤ d + 1) (h : d + 2 ≤ depth + levels)
    (h' : d + 2 ≤ depth + levels') (id : GroupId) (s : σ × List Nat) :
    Cut d (g.expandGroup (some d) strategy.recording levels depth id s)
      (g.expandGroup limit strategy.recording levels' depth id s) := by
  induction levels generalizing levels' depth id s with
  | zero => omega
  | succ levels ih =>
    by_cases hle : depth ≤ d
    · obtain ⟨levels',rfl⟩ : ∃ m, levels' = m + 1 := Nat.exists_eq_add_one.mpr (by omega)
      have hroom : exceeded? (some d) depth = none := exceeded?_of_le (by simp) hle
      have hroom' : exceeded? limit depth = none := exceeded?_of_le hlimit hle
      by_cases hempty : (g.group id).rules = []
      · have hfail : g.expandGroup (some d) strategy.recording (levels + 1) depth id s =
            g.expandGroup limit strategy.recording (levels' + 1) depth id s := by
          simp [expandGroup,hroom,hroom',hempty]
        rw [hfail,expandGroup]
        simp only [hroom',hempty]
        exact .whole (by simp)
      · obtain ⟨rule,hrule⟩ := exists_rule_of_choose hempty
          (strategy.recording.choose s (g.group id).rules.length).1
        rw [expandGroup_enter hroom hrule,expandGroup_enter hroom' hrule]
        exact Cut.fill (fun id s => ih (by omega) (by omega) (by omega) id s)
          (fun id s => asked_expandGroup strategy levels' (depth + 1) id s) _ _ _
    · have hlt : d < depth := Nat.lt_of_not_le hle
      have hcut : g.expandGroup (some d) strategy.recording (levels + 1) depth id s =
          (.failed (.depthLimit (g.group id).name d),s) := by
        simp [expandGroup,exceeded?_of_lt hlt]
      rw [hcut]
      exact .short _ (asked_expandGroup strategy levels' depth id s)

theorem expandGroup_levels (strategy : Strategy σ) {levels levels' depth : Nat}
    (hdepth : depth ≤ d + 1) (h : d + 2 ≤ depth + levels) (h' : d + 2 ≤ depth + levels')
    (id : GroupId) (s : σ) : g.expandGroup (some d) strategy levels depth id s =
      g.expandGroup (some d) strategy levels' depth id s := by
  induction levels generalizing levels' depth id s with
  | zero => omega
  | succ levels ih =>
    obtain ⟨levels',rfl⟩ : ∃ m, levels' = m + 1 := Nat.exists_eq_add_one.mpr (by omega)
    by_cases hle : depth ≤ d
    · have hinner : g.expandGroup (some d) strategy levels (depth + 1) =
          g.expandGroup (some d) strategy levels' (depth + 1) :=
        funext fun id => funext fun s => ih (by omega) (by omega) (by omega) id s
      simp only [expandGroup,hinner]
    · simp only [expandGroup,exceeded?_of_lt (Nat.lt_of_not_le hle)]

theorem combine_congr_done {enter enter' : GroupId → Outcome (List String)} {cap : Nat}
    (henter : ∀ id options, enter id = .done options → enter' id = .done options)
    {segments : List Segment} {ids : List GroupId} {texts out : List String}
    (h : combine enter cap segments ids texts = .done out) :
    combine enter' cap segments ids texts = .done out := by
  induction segments generalizing ids texts with
  | nil => exact h
  | cons segment segments ih =>
    cases segment with
    | literal lead => exact ih h
    | placeholder p =>
      cases ids with
      | nil => cases h
      | cons id ids =>
        rw [combine] at h ⊢
        obtain ⟨options,hid,hrest⟩ := Outcome.bind_eq_done.mp h
        rw [henter id options hid]
        exact ih hrest

theorem gather_congr_done {list list' : Nat → Rule → Outcome (List String)}
    (hlist : ∀ cap rule texts, list cap rule = .done texts → list' cap rule = .done texts)
    {cap : Nat} {rules : List Rule} {out : List String} (h : gather list cap rules = .done out) :
    gather list' cap rules = .done out := by
  induction rules generalizing cap out with
  | nil => exact h
  | cons rule rules ih =>
    rw [gather] at h ⊢
    by_cases hcap : cap = 0
    · simpa only [if_pos hcap] using h
    · rw [if_neg hcap] at h ⊢
      obtain ⟨texts,htexts,hmap⟩ := Outcome.bind_eq_done.mp h
      obtain ⟨rest,hrest,rfl⟩ := Outcome.map_eq_done.mp hmap
      rw [hlist cap rule texts htexts,Outcome.bind_done,ih hrest,Outcome.map_done]

theorem enumerateGroup_deeper (hlimit : ∀ n ∈ limit, d ≤ n) {levels depth cap : Nat}
    {id : GroupId} {texts : List String}
    (h : g.enumerateGroup (some d) levels depth cap id = .done texts) :
    g.enumerateGroup limit levels depth cap id = .done texts := by
  induction levels generalizing depth cap id texts with
  | zero => cases h
  | succ levels ih =>
    by_cases hle : depth ≤ d
    · have hroom : exceeded? (some d) depth = none := exceeded?_of_le (by simp) hle
      rw [enumerateGroup] at h ⊢
      simp only [hroom] at h
      simp only [exceeded?_of_le hlimit hle]
      exact gather_congr_done
        (fun cap rule texts => combine_congr_done fun id options => ih) h
    · simp [enumerateGroup,exceeded?_of_lt (Nat.lt_of_not_le hle)] at h

theorem combine_ends {enter : GroupId → Outcome (List String)} {cap : Nat}
    (henter : ∀ id, enter id ≠ .unfinished) (segments : List Segment) (ids : List GroupId)
    (texts : List String) : combine enter cap segments ids texts ≠ .unfinished := by
  induction segments generalizing ids texts with
  | nil => simp [combine]
  | cons segment segments ih =>
    cases segment with
    | literal lead => exact ih ids _
    | placeholder p =>
      cases ids with
      | nil => simp [combine]
      | cons id ids =>
        rw [combine]
        cases hid : enter id with
        | done options => exact ih ids _
        | failed e => simp
        | unfinished => exact absurd hid (henter id)

theorem gather_ends {list : Nat → Rule → Outcome (List String)}
    (hlist : ∀ cap rule, list cap rule ≠ .unfinished) (cap : Nat) (rules : List Rule) :
    gather list cap rules ≠ .unfinished := by
  induction rules generalizing cap with
  | nil => simp [gather]
  | cons rule rules ih =>
    rw [gather]
    split
    · simp
    · cases htexts : list cap rule with
      | done texts =>
        have hrest := ih (cap - texts.length)
        rw [Outcome.bind_done]
        cases hr : gather list (cap - texts.length) rules with
        | unfinished => exact absurd hr hrest
        | _ => simp
      | failed e => simp
      | unfinished => exact absurd htexts (hlist cap rule)

theorem enumerateGroup_ends {levels depth : Nat} (hdepth : depth ≤ d + 1)
    (h : d + 2 ≤ depth + levels) (cap : Nat) (id : GroupId) :
    g.enumerateGroup (some d) levels depth cap id ≠ .unfinished := by
  induction levels generalizing depth cap id with
  | zero => omega
  | succ levels ih =>
    rw [enumerateGroup]
    by_cases hle : depth ≤ d
    · have hroom : exceeded? (some d) depth = none := exceeded?_of_le (by simp) hle
      simp only [hroom]
      exact gather_ends (fun cap rule => combine_ends
        (fun id => ih (by omega) (by omega) cap id) _ _ _) _ _
    · simp [exceeded?_of_lt (Nat.lt_of_not_le hle)]

theorem expandGroup_within (hg : g.WellFormed) (strategy : Strategy σ) {levels depth : Nat}
    {id : GroupId} (hlt : id < g.size) (hfree : g.CycleFree id)
    (hroom : depth + g.rank id ≤ d + 1) (s : σ) (name : String) (n : Nat) :
    (g.expandGroup (some d) strategy levels depth id s).1 ≠ .failed (.depthLimit name n) := by
  induction levels generalizing depth id s with
  | zero => simp [expandGroup]
  | succ levels ih =>
    have hle : depth ≤ d := by
      have hpos := rank_pos hlt
      omega
    have hexceeded : exceeded? (some d) depth = none := exceeded?_of_le (by simp) hle
    by_cases hempty : (g.group id).rules = []
    · simp [expandGroup,hexceeded,hempty]
    · obtain ⟨rule,hrule⟩ := exists_rule_of_choose hempty
        (strategy.choose s (g.group id).rules.length).1
      have hmem := List.mem_of_getElem? hrule
      rw [expandGroup_enter hexceeded hrule]
      intro hfail
      obtain ⟨r,hr,t,t',hinner⟩ := failed_of_fill (hg.length_references hmem)
        (Prod.ext hfail rfl : _ = (_,_))
      have hd := hg.dependsOn_of_mem hmem hr
      have hrank := hfree.rank_lt hd
      exact ih (hg.lt_size_of_dependsOn hd) (hfree.of_dependsOn hd) (by omega) t
        (congrArg Prod.fst hinner)

theorem enumerateGroup_within (hg : g.WellFormed) {levels depth cap : Nat} {id : GroupId}
    (hlt : id < g.size) (hfree : g.CycleFree id) (hroom : depth + g.rank id ≤ d + 1)
    (name : String) (n : Nat) :
    g.enumerateGroup (some d) levels depth cap id ≠ .failed (.depthLimit name n) := by
  intro hfail
  have hlimit : ∀ n ∈ some d, depth + g.rank id ≤ n + 1 := by simpa using hroom
  obtain ⟨texts,htexts⟩ := enumerateGroup_done_of_room hg hlt hfree
    (Nat.le_max_right levels (g.rank id)) hlimit cap
  rw [enumerateGroup_mono (by simp [hfail]) (Nat.le_max_left levels (g.rank id)),hfail] at htexts
  cases htexts

/-- What an expansion under a limit comes to, with the state and the questions that it leaves, and
how every run compares that may go deeper. -/
structure LimitedRun (g : Graph) (d : Nat) (strategy : Strategy σ) (symbol : String) (s : σ)
    (o : Outcome String) (s' : σ) (asked : List Nat) : Prop where
  runs : ∀ levels, d + 2 ≤ levels →
    g.expand (some d) levels strategy.recording symbol (s,[]) = (o,s',asked)
  ends : o ≠ .unfinished
  whole : (∀ name n, o ≠ .failed (.depthLimit name n)) → ∀ limit : Option Nat,
    (∀ n ∈ limit, d ≤ n) → ∀ levels, d + 2 ≤ levels →
      g.expand limit levels strategy.recording symbol (s,[]) = (o,s',asked)
  /-- The group that a cut names is the last one entered, and the first one past the limit. -/
  past : ∀ name n, o = .failed (.depthLimit name n) → n = d ∧ ∀ levels, d + 2 ≤ levels →
    ∃ before id, g.names[id]? = some name ∧ (∀ e ∈ before, e.2 ≤ d) ∧
      g.expandNoting (some d) levels strategy.recording symbol (s,[]) =
        (o,(s',asked),before ++ [(id,d + 1)])
  deeper : ∀ limit : Option Nat, (∀ n ∈ limit, d ≤ n) → ∀ levels, d + 2 ≤ levels →
    asked <+: (g.expand limit levels strategy.recording symbol (s,[])).2.2

theorem limitedRun_unknown {symbol : String} (h : g.idOf? symbol = none) (strategy : Strategy σ)
    (s : σ) : g.LimitedRun d strategy symbol s (.failed (.unknownGroup symbol)) s [] := by
  have hexpand (limit : Option Nat) (levels : Nat) :
      g.expand limit levels strategy.recording symbol (s,[]) =
        (.failed (.unknownGroup symbol),s,[]) := by
    rw [expand,h]
  exact ⟨fun levels _ => hexpand _ levels,by simp,fun _ limit _ levels _ => hexpand limit levels,
    by simp,fun _ _ _ _ => List.nil_prefix⟩

theorem exists_limitedRun (hg : g.WellFormed) (symbol : String) (d : Nat) (strategy : Strategy σ)
    (s : σ) : ∃ o s' asked, g.LimitedRun d strategy symbol s o s' asked := by
  cases hid : g.idOf? symbol with
  | none => exact ⟨_,_,_,limitedRun_unknown hid strategy s⟩
  | some id =>
    have hlt : id < g.size := lt_size_of_idOf? hid
    have hcut (limit : Option Nat) (hlimit : ∀ n ∈ limit, d ≤ n) (levels : Nat)
        (hlevels : d + 2 ≤ levels) :
        Cut d (g.expandGroup (some d) strategy.recording (d + 2) 0 id (s,[]))
          (g.expandGroup limit strategy.recording levels 0 id (s,[])) :=
      expandGroup_cut strategy hlimit (Nat.zero_le (d + 1)) (by omega) (by omega) id (s,[])
    have hsame (levels : Nat) (hlevels : d + 2 ≤ levels) :
        g.expandGroup (some d) strategy.recording levels 0 id (s,[]) =
          g.expandGroup (some d) strategy.recording (d + 2) 0 id (s,[]) :=
      expandGroup_levels strategy.recording (Nat.zero_le (d + 1)) (by omega) (by omega) id _
    have hnotes (levels : Nat) :
        g.Notes d (g.expandGroup (some d) strategy.recording levels 0 id (s,[])) []
          (g.expandGroupNoting (some d) strategy.recording levels 0 id ((s,[]),[])) :=
      notes_expandGroup hg strategy.recording hlt (Nat.zero_le (d + 1)) (s,[]) []
    generalize g.expandGroup (some d) strategy.recording (d + 2) 0 id (s,[]) = run at hcut hsame
    obtain ⟨o,s',asked⟩ := run
    refine ⟨o,s',asked,?_,(hcut none (by simp) (d + 2) le_rfl).ends,?_,?_,?_⟩
      <;> simp only [expand,expandNoting,hid]
    · exact hsame
    · exact fun hwhole limit hlimit levels hlevels =>
        (hcut limit hlimit levels hlevels).eq_of_whole hwhole
    · intro name n hname
      refine ⟨?_,fun levels hlevels => ?_⟩
      · obtain ⟨entered,-,hentered⟩ := hnotes (d + 2)
        rw [hsame (d + 2) le_rfl,hname] at hentered
        exact hentered.past_of_cut.1
      · obtain ⟨entered,hrun,hentered⟩ := hnotes levels
        rw [hsame levels hlevels] at hrun hentered
        rw [hname] at hentered
        obtain ⟨-,before,other,hother,hbefore,rfl⟩ := hentered.past_of_cut
        exact ⟨before,other,hother,hbefore,hrun⟩
    · exact fun limit hlimit levels hlevels => (hcut limit hlimit levels hlevels).asked

/-- An enumeration under a limit ends, and what it lists it lists wherever it may go deeper. -/
theorem enumerate_cut (g : Graph) (symbol : String) (d cap : Nat) : ∃ o,
    (∀ levels, d + 2 ≤ levels → g.enumerate (some d) levels symbol cap = o) ∧ o ≠ .unfinished ∧
    ∀ texts, o = .done texts → ∀ limit : Option Nat, (∀ n ∈ limit, d ≤ n) → ∀ levels,
      d + 2 ≤ levels → g.enumerate limit levels symbol cap = .done texts := by
  simp only [enumerate]
  cases g.idOf? symbol with
  | none => exact ⟨_,fun _ _ => rfl,by simp,by simp⟩
  | some id =>
    have hends : g.enumerateGroup (some d) (d + 2) 0 cap id ≠ .unfinished :=
      enumerateGroup_ends (Nat.zero_le (d + 1)) (by omega) cap id
    have hsame (levels : Nat) (hlevels : d + 2 ≤ levels) :
        g.enumerateGroup (some d) levels 0 cap id = g.enumerateGroup (some d) (d + 2) 0 cap id :=
      enumerateGroup_mono hends hlevels
    refine ⟨_,hsame,hends,fun texts htexts limit hlimit levels hlevels => ?_⟩
    exact enumerateGroup_deeper hlimit ((hsame levels hlevels).trans htexts)

/-- A limit on the depth only cuts, and makes every run end. Where no cycle can be reached, a limit
of one less than there are groups does not cut. -/
theorem depth_limit_cuts (hg : g.Reached) (symbol : String) (d : Nat) :
    (∀ {σ : Type} (strategy : Strategy σ) (s : σ),
      ∃ o s' asked, g.LimitedRun d strategy symbol s o s' asked) ∧
    (∀ cap, ∃ o,
      (∀ levels, d + 2 ≤ levels → g.enumerate (some d) levels symbol cap = o) ∧
      o ≠ .unfinished ∧
      ∀ texts, o = .done texts → ∀ limit : Option Nat, (∀ n ∈ limit, d ≤ n) → ∀ levels,
        d + 2 ≤ levels → g.enumerate limit levels symbol cap = .done texts) ∧
    ∀ id, g.idOf? symbol = some id → g.CycleFree id → g.size ≤ d + 1 → ∀ levels,
      (∀ {σ : Type} (strategy : Strategy σ) (s : σ) (name : String) (n : Nat),
        (g.expand (some d) levels strategy symbol s).1 ≠ .failed (.depthLimit name n)) ∧
      ∀ (cap : Nat) (name : String) (n : Nat),
        g.enumerate (some d) levels symbol cap ≠ .failed (.depthLimit name n) := by
  have hwf := hg.wellFormed
  refine ⟨exists_limitedRun hwf symbol d,enumerate_cut g symbol d,
    fun id hid hfree hsize levels => ?_⟩
  have hlt : id < g.size := lt_size_of_idOf? hid
  have hroom : 0 + g.rank id ≤ d + 1 := by
    have hrank := rank_le_size g id
    omega
  simp only [expand,enumerate,hid]
  exact ⟨fun strategy => expandGroup_within hwf strategy hlt hfree hroom,
    fun cap => enumerateGroup_within hwf hlt hfree hroom⟩

theorem depth_limit_cuts_loopAndPair :
    loopAndPair.Reached ∧
    (∃ before id, loopAndPair.names[id]? = some "loop" ∧ (∀ e ∈ before, e.2 ≤ 2) ∧
      loopAndPair.expandNoting (some 2) 4 Strategy.first.recording "loop" ((),[]) =
        (.failed (.depthLimit "loop" 2),((),[2,2,2]),before ++ [(id,3)])) ∧
    (∀ limit : Option Nat, (∀ n ∈ limit, 2 ≤ n) → ∀ levels, 4 ≤ levels → [2,2,2] <+:
      (loopAndPair.expand limit levels Strategy.first.recording "loop" ((),[])).2.2) ∧
    (∀ limit : Option Nat, (∀ n ∈ limit, 2 ≤ n) → ∀ levels, 4 ≤ levels →
      loopAndPair.enumerate limit levels "pair" 2 = .done ["sun Sun","sun Moon"]) ∧
    ∀ (levels cap : Nat) (name : String) (n : Nat),
      loopAndPair.enumerate (some 2) levels "pair" cap ≠ .failed (.depthLimit name n) := by
  have hreached : loopAndPair.Reached := ((Reached.empty.declare _ _).declare _ _).declare _ _
  have hfree : loopAndPair.CycleFree 1 :=
    cycleFree_of_increasing [1,2] (by decide) (by decide +kernel)
  have hrun : loopAndPair.expand (some 2) 4 Strategy.first.recording "loop" ((),[]) =
      (.failed (.depthLimit "loop" 2),(),[2,2,2]) := by decide +kernel
  have hlist : loopAndPair.enumerate (some 2) 4 "pair" 2 = .done ["sun Sun","sun Moon"] := by
    decide +kernel
  obtain ⟨hexpand,-,-⟩ := depth_limit_cuts hreached "loop" 2
  obtain ⟨o,s',asked,hlimited⟩ := hexpand Strategy.first ()
  obtain ⟨rfl,rfl⟩ : o = .failed (.depthLimit "loop" 2) ∧ asked = [2,2,2] := by
    simpa using (hlimited.runs 4 le_rfl).symm.trans hrun
  obtain ⟨-,hentered⟩ := hlimited.past "loop" 2 rfl
  obtain ⟨-,henumerate,hwithin⟩ := depth_limit_cuts hreached "pair" 2
  obtain ⟨o,hlists,-,hdeeper⟩ := henumerate 2
  have hpair := hwithin 1 (by decide +kernel) hfree (by decide +kernel)
  exact ⟨hreached,hentered 4 le_rfl,hlimited.deeper,hdeeper _ ((hlists 4 le_rfl).symm.trans hlist),
    fun levels => (hpair levels).2⟩

end Graph
end PhraseGrammar
