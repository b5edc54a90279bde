import Mathlib.Data.Nat.PSub
import PhraseGrammar.Proofs.Enumeration

/-! A lower cap cuts an enumeration and does nothing else to it. The cap is handed down to every
group that is entered, so partial texts are cut in many places at once; as the texts of a product
come in the order of their beginnings, each cut keeps the front of what it would have been. No rule
lists more texts than there was room for, so the room for the next one is never below zero. -/
namespace PhraseGrammar

theorem Outcome.bind_eq_done {α β : Type} {o : Outcome α} {f : α → Outcome β} {b : β} :
    o.bind f = .done b ↔ ∃ a, o = .done a ∧ f a = .done b := by
  cases o <;> simp

theorem Outcome.map_eq_done {α β : Type} {o : Outcome α} {f : α → β} {b : β} :
    o.map f = .done b ↔ ∃ a, o = .done a ∧ f a = b := by
  cases o <;> simp

namespace Graph

variable {g : Graph} {limit : Option Nat} {cap cap' : Nat}

theorem products_take (endings texts : List String) (hle : cap ≤ cap') :
    products (endings.take cap) cap (texts.take cap) = (products endings cap' texts).take cap := by
  have hlength (t : String) : ((endings.take cap).map (t ++ ·)).length =
      (endings.take cap).length := List.length_map _
  rw [products_eq_take,products_eq_take,List.take_take,Nat.min_eq_left hle,
    take_flatMap_take hlength]
  apply take_flatMap_congr
  intro t
  rw [List.map_take,List.take_take,Nat.min_self]

/-- Entering groups under a lower cap cuts what they list, and so the texts made from it. -/
theorem combine_take {enter enter' : GroupId → Outcome (List String)} (hle : cap ≤ cap')
    (henter : ∀ id options, enter' id = .done options → enter id = .done (options.take cap))
    {segments : List Segment} {ids : List GroupId} {texts out : List String}
    (h : combine enter' cap' segments ids texts = .done out) :
    combine enter cap segments ids (texts.take cap) = .done (out.take cap) := by
  induction segments generalizing ids texts with
  | nil =>
    obtain rfl := Outcome.done.inj h
    rfl
  | cons segment segments ih =>
    cases segment with
    | literal lead =>
      rw [combine] at h ⊢
      simpa only [List.map_take] using ih h
    | placeholder p =>
      cases ids with
      | nil => cases h
      | cons id ids =>
        rw [combine] at h ⊢
        obtain ⟨options,hid,hrest⟩ := Outcome.bind_eq_done.mp h
        rw [henter id options hid,Outcome.bind_done,List.map_take,products_take _ _ hle]
        exact ih hrest

theorem gather_take {list : Nat → Rule → Outcome (List String)}
    (hlist : ∀ cap cap' rule texts, cap ≤ cap' → 0 < cap → list cap' rule = .done texts →
      list cap rule = .done (texts.take cap))
    (hle : cap ≤ cap') {rules : List Rule} {out : List String}
    (h : gather list cap' rules = .done out) : gather list cap rules = .done (out.take cap) := by
  induction rules generalizing cap cap' out with
  | nil =>
    obtain rfl := Outcome.done.inj h
    rw [gather,List.take_nil]
  | cons rule rules ih =>
    rw [gather] at h ⊢
    by_cases hcap : cap = 0
    · rw [if_pos hcap,hcap,List.take_zero]
    · have hpos : 0 < cap := Nat.pos_of_ne_zero hcap
      have hcap' : cap' ≠ 0 := by omega
      rw [if_neg hcap'] at h
      rw [if_neg hcap]
      obtain ⟨texts,hrule,hbind⟩ := Outcome.bind_eq_done.mp h
      obtain ⟨rest,hrest,rfl⟩ := Outcome.map_eq_done.mp hbind
      rw [hlist cap cap' rule texts hle hpos hrule,Outcome.bind_done]
      have hroom : cap - (texts.take cap).length = cap - texts.length := by
        rw [List.length_take]
        omega
      have hleft : cap - texts.length ≤ cap' - texts.length := by omega
      rw [hroom,ih hleft hrest,Outcome.map_done,List.take_append]

theorem enumerateGroup_take (hle : cap ≤ cap') {levels depth : Nat} {id : GroupId}
    {texts : List String} (h : g.enumerateGroup limit levels depth cap' id = .done texts) :
    g.enumerateGroup limit levels depth cap id = .done (texts.take cap) := by
  induction levels generalizing depth cap cap' id texts with
  | zero => cases h
  | succ levels ih =>
    rw [enumerateGroup] at h ⊢
    cases hl : exceeded? limit depth with
    | some n =>
      simp only [hl] at h
      cases h
    | none =>
      simp only [hl] at h ⊢
      refine gather_take (fun cap cap' rule texts hle hpos hrule => ?_) hle h
      have hstart : [""].take cap = [""] := List.take_of_length_le hpos
      rw [← hstart]
      exact combine_take hle (fun id options hid => ih hle hid) hrule

/-- Puts the texts of rules behind those that are there, as a loop does it: how many there is room
for comes from a subtraction, and `crash` is the end if that goes below zero. -/
def gatherInto (crash : Error) (list : Nat → Rule → Outcome (List String)) (cap : Nat) :
    List String → List Rule → Outcome (List String)
  | out, [] => .done out
  | out, rule :: rules =>
    match cap.psub out.length with
    | none => .failed crash
    | some 0 => .done out
    | some room =>
      (list room rule).bind fun texts => gatherInto crash list cap (out ++ texts) rules

/-- The enumeration of a group by this loop. -/
def enumerateGroupInto (g : Graph) (crash : Error) (limit : Option Nat) :
    (levels depth cap : Nat) → GroupId → Outcome (List String)
  | 0, _, _, _ => .unfinished
  | levels + 1, depth, cap, id =>
    let group := g.group id
    match exceeded? limit depth with
    | some limit => .failed (.depthLimit group.name limit)
    | none =>
      gatherInto crash
        (fun cap rule =>
          combine (g.enumerateGroupInto crash limit levels (depth + 1) cap) cap
            rule.template.segments rule.references [""])
        cap [] group.rules

def enumerateInto (g : Graph) (crash : Error) (limit : Option Nat) (levels : Nat)
    (symbol : String) (cap : Nat) : Outcome (List String) :=
  match g.idOf? symbol with
  | none => .failed (.unknownGroup symbol)
  | some id => g.enumerateGroupInto crash limit levels 0 cap id

theorem length_le_of_combine {enter : GroupId → Outcome (List String)} {segments : List Segment}
    {ids : List GroupId} {texts out : List String} (hlen : texts.length ≤ cap)
    (h : combine enter cap segments ids texts = .done out) : out.length ≤ cap := by
  induction segments generalizing ids texts with
  | nil =>
    obtain rfl := Outcome.done.inj h
    exact hlen
  | cons segment segments ih =>
    cases segment with
    | literal lead =>
      rw [combine] at h
      exact ih (by simpa using hlen) h
    | placeholder p =>
      cases ids with
      | nil => cases h
      | cons id ids =>
        rw [combine] at h
        obtain ⟨options,-,hrest⟩ := Outcome.bind_eq_done.mp h
        refine ih ?_ hrest
        rw [products_eq_take]
        exact List.length_take_le _ _

/-- The loop has no crash where no rule lists more texts than it has room for. -/
theorem gatherInto_eq {list : Nat → Rule → Outcome (List String)}
    (hlist : ∀ room rule texts, 0 < room → list room rule = .done texts → texts.length ≤ room)
    (crash : Error) {out : List String} (hout : out.length ≤ cap) (rules : List Rule) :
    gatherInto crash list cap out rules =
      (gather list (cap - out.length) rules).map (out ++ ·) := by
  induction rules generalizing out with
  | nil => simp [gatherInto,gather]
  | cons rule rules ih =>
    rw [gatherInto,gather,Nat.psub_eq_sub hout]
    cases hroom : cap - out.length with
    | zero => simp
    | succ room =>
      rw [if_neg (Nat.succ_ne_zero room)]
      change (list (room + 1) rule).bind _ = _
      cases hrule : list (room + 1) rule with
      | done texts =>
        have hlen := hlist (room + 1) rule texts (Nat.succ_pos room) hrule
        have hout' : (out ++ texts).length ≤ cap := by
          rw [List.length_append]
          omega
        have hleft : cap - (out ++ texts).length = room + 1 - texts.length := by
          rw [List.length_append]
          omega
        simp only [Outcome.bind_done]
        rw [ih hout',hleft]
        cases gather list (room + 1 - texts.length) rules <;> simp
      | failed e => rfl
      | unfinished => rfl

theorem enumerateGroupInto_eq (crash : Error) (levels depth cap : Nat) (id : GroupId) :
    g.enumerateGroupInto crash limit levels depth cap id =
      g.enumerateGroup limit levels depth cap id := by
  induction levels generalizing depth cap id with
  | zero => rfl
  | succ levels ih =>
    rw [enumerateGroupInto,enumerateGroup]
    cases exceeded? limit depth with
    | some n => rfl
    | none =>
      have henter (cap : Nat) : g.enumerateGroupInto crash limit levels (depth + 1) cap =
          g.enumerateGroup limit levels (depth + 1) cap := by
        funext id
        exact ih (depth + 1) cap id
      simp only [henter]
      have hlist (room : Nat) (rule : Rule) (texts : List String) (hpos : 0 < room)
          (h : combine (g.enumerateGroup limit levels (depth + 1) room) room
            rule.template.segments rule.references [""] = .done texts) : texts.length ≤ room :=
        have hstart : [""].length ≤ room := hpos
        length_le_of_combine hstart h
      rw [gatherInto_eq hlist crash (Nat.zero_le cap)]
      cases gather _ _ _ <;> rfl

/-- If an enumeration ends with texts, it ends under every lower cap, with the first of them. And
whatever `crash` would be, no enumeration comes to a subtraction below zero. -/
theorem enumerate_truncates (g : Graph) (limit : Option Nat) (levels : Nat) (symbol : String) :
    (∀ cap cap' texts, cap ≤ cap' → g.enumerate limit levels symbol cap' = .done texts →
      g.enumerate limit levels symbol cap = .done (texts.take cap)) ∧
    ∀ crash cap, g.enumerateInto crash limit levels symbol cap =
      g.enumerate limit levels symbol cap := by
  constructor
  · intro cap cap' texts hle h
    rw [enumerate] at h ⊢
    cases hid : g.idOf? symbol with
    | none =>
      rw [hid] at h
      cases h
    | some id =>
      simp only [hid] at h ⊢
      exact enumerateGroup_take hle h
  · intro crash cap
    rw [enumerateInto,enumerate]
    cases g.idOf? symbol with
    | none => rfl
    | some id => exact enumerateGroupInto_eq crash levels 0 cap id

/-- Its group leads to itself, so that only the cap ends an enumeration. -/
def litany : Graph := (empty.declare "list" ["a","b, #list#","#list.capitalize#"]).2

theorem enumerate_truncates_litany :
    litany.enumerate none 6 "list" 5 = .done ["a","b, a","b, b, a","b, b, b, a","b, b, b, b, a"] ∧
    litany.enumerate none 6 "list" 2 = .done ["a","b, a"] ∧
    litany.enumerateInto (.emptyGroup "list") none 6 "list" 5 =
      .done ["a","b, a","b, b, a","b, b, b, a","b, b, b, b, a"] := by
  have h : litany.enumerate none 6 "list" 5 =
      .done ["a","b, a","b, b, a","b, b, b, a","b, b, b, b, a"] := by decide +kernel
  obtain ⟨hlower,hcrash⟩ := enumerate_truncates litany none 6 "list"
  exact ⟨h,hlower 2 5 _ (by decide) h,(hcrash _ 5).trans h⟩

end Graph

end PhraseGrammar
