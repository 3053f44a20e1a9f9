import Mathlib.Algebra.Ring.Nat
import Officium.WellFormed

/-! The plan a Hypomixolydian run puts together. Only a value handed to a `mitte` frame adds to the
`Writer` layer, so the layer holds the commands of those values, in the order they arrived. -/
namespace Officium
open Runs (Turn run runThrough runInvariant emitted emittedThrough emittedEnd emittedEach emittedLog lastTurn doneStable)

/- The value the turn about to be made hands to a `mitte` frame. -/
def reachesMitte (m : Continuation) : List Value :=
  match m.control,m.stack with
  | .value v,.mitteK _ :: _ => [v]
  | _,_ => []

/- One command for a `Cmd`, all of them for a `Plan`. -/
def issued (v : Value) : Plan := (commands v).getD []

/- The values that reached a `mitte` frame in the first `n` turns. -/
def mitteValues (env : Env) (n : Nat) (start : Continuation) : List Value := emitted (turn env) reachesMitte n start

/- From one pause to any later one the plan only grows; at each it holds the commands of the values handed over so
far, and so does the plan of a run that ends well, all of whose values were commands. -/
structure Appends (env : Env) (start : Continuation) : Prop where
  grows : ∀ before after c c', sliced env before start = failure (.outOfFuel c) → sliced env after c = failure (.outOfFuel c') →
    firstPlan c.tower <+: firstPlan c'.tower
  holds : ∀ budgets c, sliced env budgets start = failure (.outOfFuel c) →
    firstPlan c.tower = (mitteValues env budgets.sum start).flatMap issued
  complete : ∀ budgets o, sliced env budgets start = .ok o →
    o.plan = (mitteValues env budgets.sum start).flatMap issued ∧ ∀ v ∈ mitteValues env budgets.sum start, (commands v).isSome = true

section Writing
variable {env : Env} {m m' : Continuation}

theorem writerTower (wf : WellFormed m) (mode : m.mode = .hypomixolydian) : ∃ p, m.tower = [.writer p] := by
  have kinds := wf.tower
  rw [mode] at kinds
  match tower : m.tower with
  | [.writer p] => exact ⟨p,rfl⟩
  | [] | .maybe :: _ | .except :: _ | .state _ :: _ | .commit :: _ | .writer _ :: _ :: _ => rw [tower] at kinds; cases kinds

theorem silentEval {e : Expr} {scope : Scope} (at_ : m.control = .eval e scope) : reachesMitte m = [] := by
  rw [reachesMitte,at_]

theorem silentFrame {f : Frame} {rest : List Frame} (top : m.stack = f :: rest) (other : ∀ i, f ≠ .mitteK i) : reachesMitte m = [] := by
  unfold reachesMitte
  split
  · rename_i top'
    rw [top] at top'
    cases top'
    exact absurd rfl (other _)
  · rfl

theorem reachesFrame {v : Value} {i : Nat} {rest : List Frame} (at_ : m.control = .value v) (top : m.stack = .mitteK i :: rest) :
    reachesMitte m = [v] := by
  rw [reachesMitte,at_,top]

theorem answersOther {f : Frame} {v : Value} {c : Control} {pushed : List Frame} (h : Answers env f v c pushed) (i : Nat) :
    f ≠ .mitteK i := by
  rintro rfl
  cases h

/- A turn adds the commands of the value it hands to a `mitte` frame, and nothing else. -/
theorem stepPlan (wf : WellFormed m) (mode : m.mode = .hypomixolydian) (step : Step env m m') :
    firstPlan m'.tower = firstPlan m.tower ++ (reachesMitte m).flatMap issued := by
  cases step with
  | yields at_ | opens at_ | pure at_ | lift at_ => rw [silentEval at_]; exact (List.append_nil _).symm
  | answers at_ top h => rw [silentFrame top (answersOther h)]; exact (List.append_nil _).symm
  | liftK at_ top | caught at_ top => rw [silentFrame top (by simp)]; exact (List.append_nil _).symm
  | poneK at_ top inside =>
    have placed := wf.placed _ (by rw [top]; exact List.mem_cons_self)
    obtain ⟨p,tower⟩ := writerTower wf mode
    rw [tower] at placed inside
    obtain rfl := Nat.lt_one_iff.mp inside
    cases placed
  | @mitteK v i rest p cs at_ top plan given =>
    obtain ⟨q,tower⟩ := writerTower wf mode
    rw [reachesFrame at_ top]
    have first : i = 0 := by
      have inside := (List.getElem?_eq_some_iff.mp plan).1
      rw [tower] at inside
      exact Nat.lt_one_iff.mp inside
    subst first
    rw [tower] at plan ⊢
    cases plan
    simp [firstPlan,issued,given]

/- The last turn of a run that ends well hands nothing over. -/
theorem stopsPlan {o : VerseOutcome} (h : Stops env m (.ok o)) : o.plan = firstPlan m.tower ∧ reachesMitte m = [] := by
  cases h with
  | dry at_ top => exact ⟨rfl,by rw [reachesMitte,at_,top]⟩
  | cadence at_ top | commit at_ top => exact ⟨rfl,silentFrame top (by simp)⟩

/- A value that is not a command is not handed over without the run ending there. -/
theorem stepIssued {v : Value} (step : Step env m m') (among : v ∈ reachesMitte m) : (commands v).isSome = true := by
  cases step with
  | yields at_ | opens at_ | pure at_ | lift at_ => rw [silentEval at_] at among; cases among
  | answers at_ top h => rw [silentFrame top (answersOther h)] at among; cases among
  | liftK at_ top | caught at_ top | poneK at_ top => rw [silentFrame top (by simp)] at among; cases among
  | mitteK at_ top plan given =>
    rw [reachesFrame at_ top,List.mem_singleton] at among
    rw [among,given]
    rfl

end Writing

theorem planHolds {env : Env} {body : Expr} {arg st : Value} {m c : Continuation} {k n : Nat}
    (reached : run (turn env) k (initial .hypomixolydian body arg st) = .more m) (h : run (turn env) n m = .more c) :
    firstPlan c.tower = firstPlan m.tower ++ (mitteValues env n m).flatMap issued := by
  unfold mitteValues
  refine emittedLog (fun m => firstPlan m.tower) (fun m => WellFormed m ∧ m.mode = .hypomixolydian) (fun s s' good next => ?_) (wellFormedRun reached) h
  have step := turnStep next
  exact ⟨⟨wellFormedStep good.1 step,(stepMode step).trans good.2⟩,stepPlan good.1 good.2 step⟩

theorem planAppends (env : Env) (body : Expr) (arg st : Value) : Appends env (initial .hypomixolydian body arg st) := by
  have empty : firstPlan (initial .hypomixolydian body arg st).tower = [] := rfl
  constructor
  · intro before after c c' paused paused'
    rw [slicedSum] at paused paused'
    rw [planHolds (pausedRun.mp paused) (pausedRun.mp paused')]
    exact List.prefix_append _ _
  · intro budgets c paused
    rw [slicedSum] at paused
    rw [planHolds (Runs.runZero _) (pausedRun.mp paused),empty]
    rfl
  · intro budgets o ended
    rw [slicedSum] at ended
    obtain ⟨k,m,within,hk,last⟩ := lastTurn (endedRun ended (fun c same => by cases same))
    obtain ⟨plan,silent⟩ := stopsPlan (turnStop last)
    have same : mitteValues env budgets.sum (initial .hypomixolydian body arg st) = mitteValues env k _ := emittedEnd hk last silent within
    rw [same,plan,planHolds (Runs.runZero _) hk,empty]
    refine ⟨rfl,fun v among => ?_⟩
    obtain ⟨j,t,early,ht,at_⟩ := emittedEach among
    obtain ⟨t',next⟩ := Runs.moreBefore hk early
    rw [runThrough ht 1,Runs.runOne] at next
    exact stepIssued (turnStep next) at_

end Officium
