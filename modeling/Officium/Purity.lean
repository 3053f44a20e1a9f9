import Officium.WellFormed

/-! The purity boundary. An effect is only recorded where the mode's own tower has the layer
it needs, and a committed plan is the value the operand of a `perage` came to in the last turn. -/
namespace Officium
open Runs (Turn run)

theorem commitMixolydian {mode : Mode} (h : .commit ∈ mode.tower) : mode = .mixolydian := by
  cases mode <;> first | rfl | exact absurd h (by decide)

theorem writerHypomixolydian {mode : Mode} (h : .writer ∈ mode.tower) : mode = .hypomixolydian := by
  cases mode <;> first | rfl | exact absurd h (by decide)

theorem maybeProtus {mode : Mode} (h : .maybe ∈ mode.tower) : mode = .dorian ∨ mode = .hypodorian := by
  cases mode <;> first | exact .inl rfl | exact .inr rfl | exact absurd h (by decide)

theorem exceptDeuterus {mode : Mode} (h : .except ∈ mode.tower) : mode = .phrygian ∨ mode = .hypophrygian := by
  cases mode <;> first | exact .inl rfl | exact .inr rfl | exact absurd h (by decide)

theorem stateTritus {mode : Mode} (h : .state ∈ mode.tower) : mode = .lydian ∨ mode = .hypolydian := by
  cases mode <;> first | exact .inl rfl | exact .inr rfl | exact absurd h (by decide)

theorem kindMember {m : Continuation} {mode : Mode} (good : WellFormed m ∧ m.mode = mode) {i : Nat} {kind : LayerKind}
    (h : (m.tower.map Layer.kind)[i]? = some kind) : kind ∈ mode.tower := by
  rw [good.1.tower,good.2] at h
  exact List.mem_of_getElem? h

theorem firstPlanWriter {tower : List Layer} (h : firstPlan tower ≠ []) : .writer ∈ tower.map Layer.kind := by
  induction tower with
  | nil => exact absurd rfl h
  | cons l rest ih =>
    cases l with
    | writer p => exact List.mem_cons_self
    | _ => exact List.mem_cons_of_mem _ (ih h)

/- The last turn of a run that commits: the operand of the `perage` entered at turn `j` has
come to `p` right above the frame that `perage` pushed. -/
structure PerageLast (env : Env) (start : Continuation) (o : VerseOutcome) (p : Plan)
    (k : Nat) (m : Continuation) (rest : List Frame) (j : Nat) (t : Continuation) (e : Expr) (scope : Scope) : Prop where
  reached : run (turn env) k start = .more m
  last : turn env m = .done (.ok o)
  operand : m.control = .value (.plan p)
  frame : m.stack = .perageK :: rest
  opened : OpenedAt env start k .perageK rest j t (.perage e) scope
  entered : turn env t = .more { t with control := .eval e scope, stack := .perageK :: rest }

section Outcomes
variable {env : Env} {mode : Mode} {body : Expr} {arg st : Value}

theorem lastState {budgets : List Nat} {r : Verdict}
    (h : sliced env budgets (initial mode body arg st) = r) (ended : ∀ c, r ≠ failure (.outOfFuel c)) :
    ∃ k m, run (turn env) k (initial mode body arg st) = .more m ∧ turn env m = .done r ∧
      WellFormed m ∧ m.mode = mode := by
  rw [slicedSum] at h
  obtain ⟨k,m,_,hk,last⟩ := Runs.lastTurn (endedRun h ended)
  exact ⟨k,m,hk,last,wellFormedRun hk⟩

theorem planWriter {m : Continuation} (good : WellFormed m ∧ m.mode = mode) {value : Option Value} {committed : Option Plan}
    (h : (finish m.tower value committed).plan ≠ []) : mode = .hypomixolydian := by
  have writer := firstPlanWriter h
  rw [good.1.tower,good.2] at writer
  exact writerHypomixolydian writer

theorem planOnlyWriter {budgets : List Nat} {o : VerseOutcome}
    (h : sliced env budgets (initial mode body arg st) = .ok o) (some_ : o.plan ≠ []) : mode = .hypomixolydian := by
  obtain ⟨k,m,_,last,good⟩ := lastState h (fun c same => by cases same)
  cases turnStop last with
  | dry at_ top => exact planWriter good some_
  | cadence at_ top => exact planWriter good some_
  | commit at_ top nonempty => exact planWriter good some_

theorem committedPerage {budgets : List Nat} {o : VerseOutcome} {p : Plan}
    (h : sliced env budgets (initial mode body arg st) = .ok o) (some_ : o.committed = some p) :
    mode = .mixolydian ∧ p ≠ [] ∧
      ∃ k m rest j t e scope, PerageLast env (initial mode body arg st) o p k m rest j t e scope := by
  obtain ⟨k,m,hk,last,good⟩ := lastState h (fun c same => by cases same)
  cases turnStop last with
  | dry at_ top => cases some_
  | cadence at_ top => cases some_
  | @commit q rest at_ top nonempty =>
    cases some_
    have on : .perageK :: rest <:+ m.stack := top ▸ List.suffix_rfl
    obtain ⟨j,t,e,scope,e',opened,opens,next⟩ := openedAt hk on (by simp) (by simp) (by simp)
    cases opens with
    | perage visible =>
      have before := wellFormedRun opened.reached
      exact ⟨commitMixolydian (kindMember before (findKind visible)),nonempty,
        k,m,rest,j,t,e',scope,hk,last,at_,top,opened,next⟩

theorem rejectsNotEffect {f v : Value} {r : Raise} (h : Rejects f v r) : r ≠ .dissonance .silent := by
  induction h with
  | other => intro same; cases same
  | call full called =>
    cases Builtins.plainCall (by simpa using full) _ called <;> intro same <;> cases same
  | inner full called inner ih => exact ih

theorem silentProtus {budgets : List Nat} (h : sliced env budgets (initial mode body arg st) = failure .silent) :
    mode = .dorian ∨ mode = .hypodorian := by
  obtain ⟨k,m,_,last,good⟩ := lastState h (fun c same => by cases same)
  cases turnStop last with
  | fails at_ h =>
    cases h with
    | nihil visible => exact maybeProtus (kindMember good (findKind visible))
    | ask unbound => have same := askError unbound; cases same
  | refuses at_ top h =>
    cases h with
    | appCall h => exact absurd rfl (rejectsNotEffect h)
    | fixK h => exact absurd rfl (rejectsNotEffect h)
    | resolveK unresolved => have same := resolveError unresolved; cases same
    | builtinPost h => have plain := Builtins.plainApplyPost _ _ _ h; cases plain

theorem userDeuterus {budgets : List Nat} {v : Value}
    (h : sliced env budgets (initial mode body arg st) = failure (.user v)) :
    mode = .phrygian ∨ mode = .hypophrygian := by
  obtain ⟨k,m,_,last,good⟩ := lastState h (fun c same => by cases same)
  cases turnStop last with
  | escaped at_ top h =>
    have placed := good.1.placed (.clamaK _) (by rw [top]; exact List.mem_cons_self)
    exact exceptDeuterus (kindMember good placed)
  | fails at_ h =>
    cases h with
    | ask unbound => have same := askError unbound; cases same
  | refuses at_ top h =>
    cases h with
    | appCall h => exact absurd rfl (rejectsFatal h v)
    | fixK h => exact absurd rfl (rejectsFatal h v)
    | resolveK unresolved => have same := resolveError unresolved; cases same
    | builtinPost h => have plain := Builtins.plainApplyPost _ _ _ h; cases plain

/- A turn that reads a state cell, is about to write one, or changed one. -/
def TouchesState (m m' : Continuation) : Prop :=
  (∃ scope, m.control = .eval .lege scope) ∨
  (∃ v i rest, m.control = .value v ∧ m.stack = .poneK i :: rest) ∨
  ∃ (i : Nat) (v : Value), m'.tower[i]? = some (Layer.state v) ∧ m.tower[i]? ≠ some (Layer.state v)

theorem stateLayer {m m' : Continuation} {n : Nat} (hn : run (turn env) n (initial mode body arg st) = .more m)
    (next : turn env m = .more m') (touches : TouchesState m m') : .state ∈ mode.tower := by
  have good := wellFormedRun hn
  have good' := wellFormedRun (Runs.runThrough hn 1 |>.trans ((Runs.runOne m).trans next))
  rcases touches with ⟨scope,at_⟩ | ⟨v,i,rest,_,top⟩ | ⟨i,v,now,_⟩
  · cases turnStep next with
    | yields at_' h =>
      rw [at_] at at_'
      cases at_'
      cases h with
      | lege visible cell => exact kindMember good (findKind visible)
    | opens at_' h => rw [at_] at at_'; cases at_'; cases h
    | pure at_' => rw [at_] at at_'; cases at_'
    | lift at_' => rw [at_] at at_'; cases at_'
    | answers at_' | poneK at_' | mitteK at_' | liftK at_' | caught at_' => rw [at_] at at_'; cases at_'
  · have placed := good.1.placed (.poneK i) (by rw [top]; exact List.mem_cons_self)
    exact kindMember good placed
  · exact kindMember good' (kindAt now)

end Outcomes

theorem effectConfinement (env : Env) (mode : Mode) (body : Expr) (arg st : Value) :
    (∀ budgets o, sliced env budgets (initial mode body arg st) = .ok o →
      (∀ p, o.committed = some p → mode = .mixolydian ∧ p ≠ [] ∧ o.plan = [] ∧
        ∃ k m rest j t e scope, PerageLast env (initial mode body arg st) o p k m rest j t e scope) ∧
      (mode ≠ .mixolydian → o.committed = none) ∧
      (o.plan ≠ [] → mode = .hypomixolydian)) ∧
    (∀ budgets, sliced env budgets (initial mode body arg st) = failure .silent →
      mode = .dorian ∨ mode = .hypodorian) ∧
    (∀ budgets v, sliced env budgets (initial mode body arg st) = failure (.user v) →
      mode = .phrygian ∨ mode = .hypophrygian) ∧
    (∀ n m m', run (turn env) n (initial mode body arg st) = .more m → turn env m = .more m' → TouchesState m m' →
      mode = .lydian ∨ mode = .hypolydian) := by
  refine ⟨fun budgets o h => ⟨fun p some_ => ?_,fun other => ?_,planOnlyWriter h⟩,
    fun budgets => silentProtus,fun budgets v => userDeuterus,
    fun n m m' hn next touches => stateTritus (stateLayer hn next touches)⟩
  · obtain ⟨mixolydian,nonempty,last⟩ := committedPerage h some_
    refine ⟨mixolydian,nonempty,?_,last⟩
    by_cases empty : o.plan = []
    · exact empty
    · have writer := planOnlyWriter h empty
      rw [mixolydian] at writer
      cases writer
  · cases some_ : o.committed with
    | none => rfl
    | some p => exact absurd (committedPerage h some_).1 other

/- A plan of one command committed through a literal, the fuel given one turn at a time. -/
theorem effectConfinementCommits :
    ∃ k m rest j t e scope, PerageLast .default (initial .mixolydian (.perage (.lit (.plan [⟨1,⟨0,0,0⟩,0⟩]))) .unit emptyState)
      ⟨some .unit,.unit,[],some [⟨1,⟨0,0,0⟩,0⟩]⟩ [⟨1,⟨0,0,0⟩,0⟩] k m rest j t e scope :=
  (((effectConfinement .default .mixolydian (.perage (.lit (.plan [⟨1,⟨0,0,0⟩,0⟩]))) .unit emptyState).1
    [1,1,1,1] _ rfl).1 _ rfl).2.2.2

end Officium
