import Mathlib.Algebra.Ring.Nat
import PhraseGrammar.Session

/-! What a session answers to calls of any kind and order. All that they change is the number of
texts since the last reset. It picks the generator of the next text, a success moves it on, and a
question leaves it alone, although counts are kept once they have been asked for. -/
namespace PhraseGrammar

namespace Outcome

variable {α : Type}

def isDone : Outcome α → Bool
  | done _ => true
  | _ => false

/-- All values, or the first outcome that has none. -/
def collect : List (Outcome α) → Outcome (List α)
  | [] => done []
  | o :: os => o.bind fun a => (collect os).map (a :: ·)

end Outcome

namespace Session

/-- Questions that generate nothing. -/
inductive Query : Type 1
  | expand {σ : Type} (strategy : Strategy σ) (symbol : String) (state : σ)
  | enumerate (symbol : String) (cap : Nat)
  | count (symbol : String)
  | dot (style : Dot.Style)
  | prepare
  | lint

def Query.Answer : Query → Type
  | @expand σ _ _ _ => Outcome String × σ
  | enumerate _ _ => Outcome (List String)
  | count _ => Except Error Nat
  | dot _ => String
  | prepare => Except Error Grammar
  | lint => List Lint.Finding

inductive Call : Type 1
  | generate
  | flatten (symbol : String)
  | variants (n : Nat)
  | reset
  | query (q : Query)

def Call.Answer : Call → Type
  | generate => Outcome String
  | flatten _ => Outcome String
  | variants _ => Outcome (List String)
  | reset => Unit
  | query q => q.Answer

def Call.isQuery : Call → Bool
  | query _ => true
  | _ => false

/-- A call and what it was answered. -/
abbrev Event := Σ call : Call, call.Answer

/-- A session, with the counts of its groups from when they are first asked for. -/
structure Running where
  session : Session
  counts : Option Tally

namespace Running

def fresh (s : Session) : Running := ⟨s,none⟩

def tally (r : Running) : Tally := r.counts.getD r.session.graph.tally

def counted (r : Running) : Running := { r with counts := some r.tally }

def ask : (q : Query) → Running → q.Answer × Running
  | .expand strategy symbol state, r => (r.session.expand strategy symbol state,r)
  | .enumerate symbol cap, r => (r.session.enumerate symbol cap,r)
  | .count symbol, r =>
    match r.session.graph.idOf? symbol with
    | none => (.error (.unknownGroup symbol),r)
    | some id => (.ok (r.tally.total id),r.counted)
  | .dot style, r =>
    if style.counted then (PhraseGrammar.dot r.session.graph style (some r.tally),r.counted)
    else (PhraseGrammar.dot r.session.graph style none,r)
  | .prepare, r => (r.session.prepare,r)
  | .lint, r => (r.session.lint,r)

def move {α : Type} (f : Session → α × Session) (r : Running) : α × Running :=
  ((f r.session).1,{ r with session := (f r.session).2 })

def call : (c : Call) → Running → c.Answer × Running
  | .generate, r => r.move generate
  | .flatten symbol, r => r.move fun s => s.flatten symbol
  | .variants n, r => r.move fun s => s.variants n
  | .reset, r => r.move fun s => ((),s.reset)
  | .query q, r => r.ask q

def run : List Call → Running → List Event × Running
  | [], r => ([],r)
  | c :: calls, r =>
    let (answer,r) := r.call c
    let (events,r) := r.run calls
    (⟨c,answer⟩ :: events,r)

end Running

/-- The text of a symbol from the generator that is due after `k` texts. -/
def textAt (s : Session) (k : Nat) (symbol : String) : Outcome String :=
  (s.expand Generator.uniform symbol (.ofSeed (.ofNat ((s.seed.toNat + k) % 2 ^ 64)))).1

/-- Up to `n` texts of the origin, beginning after `k` texts. -/
def textsFrom (s : Session) (k n : Nat) : List (Outcome String) :=
  (List.range n).map fun i => s.textAt (k + i) Grammar.origin

/-- How many of them come before the first failure. -/
def streak (s : Session) (k n : Nat) : Nat :=
  ((s.textsFrom k n).takeWhile Outcome.isDone).length

def respond (s : Session) : (q : Query) → q.Answer
  | .expand strategy symbol state => s.expand strategy symbol state
  | .enumerate symbol cap => s.enumerate symbol cap
  | .count symbol => s.count symbol
  | .dot style => s.dot style
  | .prepare => s.prepare
  | .lint => s.lint

/-- What a call is answered after `k` texts. -/
def answer (s : Session) (k : Nat) : (c : Call) → c.Answer
  | .generate => s.textAt k Grammar.origin
  | .flatten symbol => s.textAt k symbol
  | .variants n => Outcome.collect (s.textsFrom k n)
  | .reset => ()
  | .query q => s.respond q

/-- The number of texts after a call. -/
def advance (s : Session) (k : Nat) : Call → Nat
  | .generate => if (s.textAt k Grammar.origin).isDone then k + 1 else k
  | .flatten symbol => if (s.textAt k symbol).isDone then k + 1 else k
  | .variants n => k + s.streak k n
  | .reset => 0
  | .query _ => k

/-- The number of texts since the last reset. -/
def made (s : Session) (k : Nat) (calls : List Call) : Nat := calls.foldl s.advance k

def answers (s : Session) : Nat → List Call → List Event
  | _, [] => []
  | k, c :: calls => ⟨c,s.answer k c⟩ :: s.answers (s.advance k c) calls

variable {s s' : Session} {k : Nat}

/-- The session when it has made `k` texts. -/
def after (s : Session) (k : Nat) : Session := { s with generated := k }

@[simp] theorem after_graph : (s.after k).graph = s.graph := rfl
@[simp] theorem expand_after {σ : Type} (strategy : Strategy σ) (symbol : String) (state : σ) :
    (s.after k).expand strategy symbol state = s.expand strategy symbol state := by
  rw [expand,expand,after]

theorem generator_after :
    (s.after k).generator = .ofSeed (.ofNat ((s.seed.toNat + k) % 2 ^ 64)) := by
  have h : s.seed + k.toUInt64 = .ofNat ((s.seed.toNat + k) % 2 ^ 64) := by
    rw [← UInt64.toNat_inj]
    simp
  rw [generator,after,h]

theorem flatten_after (symbol : String) :
    (s.after k).flatten symbol = (s.textAt k symbol,s.after (s.advance k (.flatten symbol))) := by
  rw [flatten,generator_after,expand_after,← textAt,advance]
  cases s.textAt k symbol <;> rfl

theorem generate_after :
    (s.after k).generate = (s.textAt k Grammar.origin,s.after (s.advance k .generate)) :=
  flatten_after Grammar.origin

theorem textsFrom_succ (s : Session) (k n : Nat) :
    s.textsFrom k (n + 1) = s.textAt k Grammar.origin :: s.textsFrom (k + 1) n := by
  simp only [textsFrom,List.range_succ_eq_map,List.map_cons,List.map_map,Nat.add_zero]
  refine congrArg (List.cons _) (List.map_congr_left fun i _ => ?_)
  have hi : k + i.succ = k + 1 + i := by omega
  rw [Function.comp_apply,hi]

theorem variants_after (n : Nat) : (s.after k).variants n =
    (Outcome.collect (s.textsFrom k n),s.after (k + s.streak k n)) := by
  induction n generalizing k with
  | zero => rfl
  | succ n ih =>
    rw [variants,generate_after,streak,textsFrom_succ,advance]
    cases s.textAt k Grammar.origin with
    | done text =>
      have htake : (Outcome.done text :: s.textsFrom (k + 1) n).takeWhile Outcome.isDone =
          .done text :: (s.textsFrom (k + 1) n).takeWhile Outcome.isDone := rfl
      have hlength : k + (s.streak (k + 1) n + 1) = k + 1 + s.streak (k + 1) n := by omega
      rw [htake,List.length_cons,← streak,hlength]
      simp only [Outcome.isDone,if_true,ih]
      rfl
    | failed e => rfl
    | unfinished => rfl

namespace Running

/-- The session has made `k` texts, and counts that are kept are those of its graph. -/
structure Fits (r : Running) (s : Session) (k : Nat) : Prop where
  session : r.session = s.after k
  counts : ∀ t ∈ r.counts, t = s.graph.tally

variable {r : Running}

theorem Fits.tally_eq (h : r.Fits s k) : r.tally = s.graph.tally := by
  rw [tally,h.session]
  cases hc : r.counts with
  | none => rfl
  | some t => exact h.counts t hc

theorem Fits.counted (h : r.Fits s k) : r.counted.Fits s k := by
  refine ⟨h.session,fun t ht => ?_⟩
  rw [← h.tally_eq]
  exact (Option.some.inj ht).symm

theorem Fits.ask (h : r.Fits s k) (q : Query) :
    (r.ask q).1 = s.respond q ∧ (r.ask q).2.Fits s k := by
  cases q with
  | count symbol =>
    rw [Running.ask,respond,count,h.session,after_graph]
    cases s.graph.idOf? symbol with
    | none => exact ⟨rfl,h⟩
    | some id => exact ⟨by rw [h.tally_eq],h.counted⟩
  | dot style =>
    rw [Running.ask,respond,Session.dot,h.session,after_graph,h.tally_eq]
    split
    · exact ⟨rfl,h.counted⟩
    · exact ⟨rfl,h⟩
  | _ =>
    refine ⟨?_,h⟩
    rw [Running.ask,h.session]
    rfl

theorem Fits.move {α : Type} {f : Session → α × Session} {answer : α} {k' : Nat}
    (h : r.Fits s k) (hf : f (s.after k) = (answer,s.after k')) :
    (r.move f).1 = answer ∧ (r.move f).2.Fits s k' := by
  rw [Running.move,h.session,hf]
  exact ⟨rfl,rfl,h.counts⟩

theorem Fits.call (h : r.Fits s k) (c : Call) :
    (r.call c).1 = s.answer k c ∧ (r.call c).2.Fits s (s.advance k c) := by
  cases c with
  | generate => exact h.move generate_after
  | flatten symbol => exact h.move (flatten_after symbol)
  | variants n => exact h.move (variants_after n)
  | reset => exact h.move rfl
  | query q => exact h.ask q

theorem Fits.run (h : r.Fits s k) (calls : List Call) :
    (r.run calls).1 = s.answers k calls ∧ (r.run calls).2.Fits s (s.made k calls) := by
  induction calls generalizing k r with
  | nil => exact ⟨rfl,h⟩
  | cons c calls ih =>
    obtain ⟨hanswer,hnext⟩ := h.call c
    obtain ⟨hanswers,hlast⟩ := ih hnext
    rw [Running.run,answers,← hanswer,← hanswers]
    exact ⟨rfl,hlast⟩

theorem fits_fresh (h : s.generated = 0) : (fresh s).Fits s 0 :=
  ⟨by rw [fresh,after,← h],by simp [fresh]⟩

end Running

/-- Without its questions a history is what it would be, had they never been asked. -/
theorem filter_answers (s : Session) (k : Nat) (calls : List Call) :
    (s.answers k calls).filter (fun event => !event.1.isQuery) =
      s.answers k (calls.filter fun c => !c.isQuery) := by
  induction calls generalizing k with
  | nil => rfl
  | cons c calls ih =>
    cases c with
    | query q => exact ih k
    | _ => exact congrArg (List.cons _) (ih _)

theorem streak_of_failure {n : Nat} (h : (s.textAt k Grammar.origin).isDone = false) :
    s.streak k n = 0 := by
  cases n with
  | zero => rfl
  | succ n => rw [streak,textsFrom_succ,List.takeWhile_cons_of_neg (by simp [h]),List.length_nil]

/-- Where the next text of the origin fails, only another symbol or a reset can change that. -/
theorem made_of_failure {calls : List Call} (h : (s.textAt k Grammar.origin).isDone = false)
    (hflatten : ∀ symbol (answer : Outcome String),
      (⟨.flatten symbol,answer⟩ : Event) ∈ s.answers k calls → answer.isDone = false)
    (hreset : k = 0 ∨ Call.reset ∉ calls) : s.made k calls = k := by
  induction calls with
  | nil => rfl
  | cons c calls ih =>
    have hstep : s.advance k c = k := by
      cases c with
      | generate => simp [advance,h]
      | flatten symbol =>
        have hfail := hflatten symbol (s.textAt k symbol) List.mem_cons_self
        simp [advance,hfail]
      | variants n => rw [advance,streak_of_failure h,Nat.add_zero]
      | reset => exact (hreset.resolve_right fun hc => hc List.mem_cons_self).symm
      | query q => rfl
    rw [made,List.foldl_cons,hstep]
    refine ih (fun symbol answer hmem => hflatten symbol answer ?_)
      (hreset.imp_right fun hc hmem => hc (List.mem_cons_of_mem _ hmem))
    rw [answers,hstep]
    exact List.mem_cons_of_mem _ hmem

/-- The session with a seed that is `j` further on. -/
def shift (s : Session) (j : Nat) : Session := { s with seed := s.seed + .ofNat j }

theorem textAt_shift (s : Session) (j k : Nat) (symbol : String) :
    (s.shift j).textAt k symbol = s.textAt (j + k) symbol := by
  have hseed : ((s.seed + .ofNat j).toNat + k) % 2 ^ 64 = (s.seed.toNat + (j + k)) % 2 ^ 64 := by
    simp only [UInt64.toNat_add,UInt64.toNat_ofNat']
    omega
  rw [textAt,textAt,expand,expand,shift,hseed]

theorem textsFrom_shift (s : Session) (j k n : Nat) :
    (s.shift j).textsFrom k n = s.textsFrom (j + k) n := by
  simp only [textsFrom,textAt_shift,Nat.add_assoc]

theorem answer_shift (s : Session) (j k : Nat) (c : Call) :
    (s.shift j).answer k c = s.answer (j + k) c := by
  cases c with
  | generate => exact textAt_shift s j k _
  | flatten symbol => exact textAt_shift s j k symbol
  | variants n => exact congrArg Outcome.collect (textsFrom_shift s j k n)
  | reset => rfl
  | query q => cases q <;> rfl

theorem advance_shift (s : Session) (j k : Nat) {c : Call} (hc : c ≠ .reset) :
    j + (s.shift j).advance k c = s.advance (j + k) c := by
  cases c with
  | reset => exact absurd rfl hc
  | query q => rfl
  | variants n => simp only [advance,streak,textsFrom_shift,Nat.add_assoc]
  | _ =>
    simp only [advance,textAt_shift]
    split <;> rfl

/-- Until a reset, a session goes on like one that begins with a later seed. -/
theorem answers_shift (s : Session) (j k : Nat) {calls : List Call} (hreset : Call.reset ∉ calls) :
    (s.shift j).answers k calls = s.answers (j + k) calls := by
  induction calls generalizing k with
  | nil => rfl
  | cons c calls ih =>
    have hc : c ≠ .reset := fun hc => hreset (hc ▸ List.mem_cons_self)
    rw [answers,answers,answer_shift,ih _ fun hmem => hreset (List.mem_cons_of_mem _ hmem),
      advance_shift s j k hc]

theorem start_ok {grammar : Grammar} {dedup : Bool} {limit : Option Nat} {seed : UInt64}
    (h : start grammar dedup limit seed = .ok s) : s.generated = 0 ∧
      ∀ j, start grammar dedup limit (seed + .ofNat j) = .ok (s.shift j) := by
  rw [start] at h
  cases hgraph : Graph.build grammar dedup with
  | error e => simp [hgraph,Except.map] at h
  | ok graph =>
    simp only [hgraph,Except.map,Except.ok.injEq] at h
    subst h
    exact ⟨rfl,fun j => by simp [start,hgraph,Except.map,shift]⟩

/-- After any calls, what a session answers is given by the number of texts since the last reset.
Questions could be left out. A failure of the origin lasts until another symbol succeeds or a reset
counts. What follows is what a session answers that begins with the seed then due. -/
theorem run_of_start {grammar : Grammar} {dedup : Bool} {limit : Option Nat} {seed : UInt64}
    (h : start grammar dedup limit seed = .ok s) (calls more : List Call) :
    let r := ((Running.fresh s).run calls).2
    let k := s.made 0 calls
    ((Running.fresh s).run calls).1 = s.answers 0 calls ∧ r.session = s.after k ∧
    (r.run more).1.filter (fun event => !event.1.isQuery) =
      (r.run (more.filter fun c => !c.isQuery)).1 ∧
    ((s.textAt k Grammar.origin).isDone = false →
      (∀ symbol (answer : Outcome String),
        (⟨.flatten symbol,answer⟩ : Event) ∈ (r.run more).1 → answer.isDone = false) →
      k = 0 ∨ Call.reset ∉ more →
      ((r.run more).2.call .generate).1 = (r.call .generate).1) ∧
    ∀ j, ∃ s', start grammar dedup limit (seed + .ofNat j) = .ok s' ∧
      (∀ i symbol, s'.textAt i symbol = s.textAt (j + i) symbol) ∧
      (j = k → Call.reset ∉ more → ((Running.fresh s').run more).1 = (r.run more).1) := by
  obtain ⟨hzero,hshift⟩ := start_ok h
  intro r k
  obtain ⟨hanswers,hr⟩ : ((Running.fresh s).run calls).1 = s.answers 0 calls ∧ r.Fits s k :=
    (Running.fits_fresh hzero).run calls
  refine ⟨hanswers,hr.session,?_,fun hfail hflatten hreset => ?_,fun j => ?_⟩
  · rw [(hr.run more).1,(hr.run _).1,filter_answers]
  · rw [(hr.run more).1] at hflatten
    rw [((hr.run more).2.call .generate).1,(hr.call .generate).1,
      made_of_failure hfail hflatten hreset]
  · refine ⟨s.shift j,hshift j,fun i symbol => textAt_shift s j i symbol,fun hj hreset => ?_⟩
    have hfresh : (Running.fresh (s.shift j)).Fits (s.shift j) 0 := Running.fits_fresh hzero
    rw [(hfresh.run more).1,(hr.run more).1,answers_shift s j 0 hreset,Nat.add_zero,hj]

/-- Whether its origin has a text at depth one is left to the generator. -/
def stutter : Grammar :=
  ⟨[("origin",.flat ["#origin#","#word#"]),("word",.flat ["ba","bo"])],[]⟩

/-- The seed wraps around after two texts, and the batch fails after two more. -/
theorem run_of_start_stutter : ∃ s s', start stutter false (some 1) 0xFFFFFFFFFFFFFFFE = .ok s ∧
    start stutter false (some 1) 2 = .ok s' ∧
    let r := ((Running.fresh s).run [.generate,.flatten "word",.flatten "word",.variants 3]).2
    r.session.generated = 4 ∧ (s.textAt 4 "origin").isDone = false ∧
    ((r.run [.variants 2,.query .lint]).2.call .generate).1 = (r.call .generate).1 ∧
    ((Running.fresh s').run [.flatten "word",.generate]).1 =
      (r.run [.flatten "word",.generate]).1 := by
  have hseed : (0xFFFFFFFFFFFFFFFE : UInt64) + .ofNat 4 = 2 := by decide
  have hmade : (start stutter false (some 1) 0xFFFFFFFFFFFFFFFE).toOption.map (fun s =>
      (s.made 0 [.generate,.flatten "word",.flatten "word",.variants 3],
        (s.textAt 4 "origin").isDone)) = some (4,false) := by decide +kernel
  cases h : start stutter false (some 1) 0xFFFFFFFFFFFFFFFE with
  | error e => simp [h,Except.toOption] at hmade
  | ok s =>
    rw [h] at hmade
    obtain ⟨hmade,hfail⟩ := Prod.mk.inj (Option.some.inj hmade)
    obtain ⟨-,hsession,-,hstuck,-⟩ := run_of_start h
      [.generate,.flatten "word",.flatten "word",.variants 3] [.variants 2,.query .lint]
    obtain ⟨-,-,-,-,hshift⟩ := run_of_start h
      [.generate,.flatten "word",.flatten "word",.variants 3] [.flatten "word",.generate]
    rw [hmade] at hsession hstuck
    obtain ⟨s',hs',-,hsame⟩ := hshift 4
    rw [hseed] at hs'
    refine ⟨s,s',rfl,hs',?_,hfail,hstuck hfail ?_ (.inr (by simp)),hsame hmade.symm (by simp)⟩
    · rw [hsession]
      rfl
    · intro symbol answer hmem
      simp only [Running.run,List.mem_cons,List.not_mem_nil,or_false] at hmem
      rcases hmem with he | he
      · exact absurd (congrArg Sigma.fst he) (by simp)
      · exact absurd (congrArg Sigma.fst he) (by simp)

end Session

end PhraseGrammar
