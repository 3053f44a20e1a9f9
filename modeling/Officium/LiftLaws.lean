import Officium.MonadLaws
import Officium.WellFormed

/-! The laws of `lift`. Both sides of the second one run the operand with the lift entered, once over the
continuation and the lift frame and once over the lift frame and the continuation lifted; the operand
leaves at the depth it was entered with, and from there the two go on as one. -/
namespace Officium
open Runs (Turn run runOne runThrough runInvariant Ends)

/- Expressions answered at once, with the state and the depth unread. -/
def Expr.prompt : Expr → Bool
  | .lit _ | .var _ | .lam _ _ => true
  | _ => false

section Laws
variable {env : Env} {mode mode' : Mode} {m n : Continuation} {scope : Scope} {e k : Expr} {x : Sym}

theorem promptYields {v : Expr} (prompt : v.prompt = true) (env : Env) (scope : Scope) :
    (∃ w, ∀ m, Yields env m scope v w) ∨ ∃ name, v = .var name ∧ lookupVar env scope name = none := by
  cases v with
  | lit w => exact .inl ⟨w,fun _ => .lit w⟩
  | lam param body => exact .inl ⟨_,fun _ => .lam param body⟩
  | var name =>
    cases found : lookupVar env scope name with
    | some w => exact .inl ⟨w,fun _ => .var found⟩
    | none => exact .inr ⟨name,rfl,found⟩
  | _ => cases prompt

theorem liftPure {v : Expr} (prompt : v.prompt = true) (room : m.depth + 1 < m.tower.length) :
    BehavesAs Eq env (m.enter (.lift (.pure mode v)) scope) (m.enter (.pure mode' v) scope) := by
  have left : run (turn env) 2 (m.enter (.lift (.pure mode v)) scope) =
      .more { m with control := .eval v scope, stack := .liftK m.depth :: m.stack, depth := m.depth + 1 } :=
    moreStep (.lift rfl room) (moreStep (.pure rfl) rfl)
  have right : run (turn env) 1 (m.enter (.pure mode' v) scope) = .more (m.enter v scope) := moreStep (.pure rfl) rfl
  refine behavesAlike (alikeAfter left right ?_)
  rcases promptYields prompt env scope with ⟨w,yields⟩ | ⟨name,rfl,unbound⟩
  · have back : run (turn env) 2 { m with control := .eval v scope, stack := .liftK m.depth :: m.stack, depth := m.depth + 1 } =
        .more { m with control := .value w } :=
      moreStep (.yields rfl (yields _)) (moreStep (.liftK rfl rfl) rfl)
    have here : run (turn env) 1 (m.enter v scope) = .more { m with control := .value w } := moreStep (.yields rfl (yields _)) rfl
    exact alikeAfter back here (alikeSame rfl (fun _ _ => rfl))
  · have ends {s : Continuation} (at_ : s.control = .eval (.var name) scope) :
        Ends (turn env) s (failure (.unboundVar name)) := ⟨1,(runOne _).trans (stopTurn (.fails at_ (.var unbound)))⟩
    exact .inr ⟨_,_,ends rfl,ends rfl,rfl⟩

/- With no layer below the run ends when it comes to the lift. -/
theorem liftBottom (wf : WellFormed m) (room : ¬ m.depth + 1 < m.tower.length) {fuel : Nat} (enough : 2 ≤ fuel) :
    resume env (m.enter (.lift e) scope) fuel = failure (.wrongMode m.mode .lift) := by
  have ends : run (turn env) 1 (m.enter (.lift e) scope) = .done (failure (.wrongMode m.mode .lift)) :=
    (runOne _).trans (stopTurn (.fails rfl (.bottom e (Nat.le_of_lt wf.room) room)))
  rw [resumeRun,Runs.doneStable ends (Nat.le_of_succ_le enough)]

theorem bindBottom (wf : WellFormed m) (room : ¬ m.depth + 1 < m.tower.length) {fuel : Nat} (enough : 2 ≤ fuel) :
    resume env (m.enter (.bind mode (.lift e) x k) scope) fuel = failure (.wrongMode m.mode .lift) := by
  have ends : run (turn env) 2 (m.enter (.bind mode (.lift e) x k) scope) = .done (failure (.wrongMode m.mode .lift)) := by
    rw [Runs.runMore (stepTurn (.opens rfl (.bind mode (.lift e) x k)))]
    exact (runOne _).trans (stopTurn (.fails rfl (.bottom e (Nat.le_of_lt wf.room) room)))
  rw [resumeRun,Runs.doneStable ends enough]

theorem wellFormedAfter {j : Nat} {s t : Continuation} (wf : WellFormed s) (h : run (turn env) j s = .more t) :
    WellFormed t ∧ t.mode = s.mode := by
  refine runInvariant (fun t => WellFormed t ∧ t.mode = s.mode) (fun t t' good next => ?_) ⟨wf,rfl⟩ h
  have step := turnStep next
  exact ⟨wellFormedStep good.1 step,(stepMode step).trans good.2⟩

theorem towerLength (wf : WellFormed m) : m.tower.length = m.mode.tower.length := by
  rw [← wf.tower,List.length_map]

theorem liftBind (wf : WellFormed m) :
    BehavesAs Eq env (m.enter (.lift (.bind mode e x k)) scope) (m.enter (.bind mode' (.lift e) x (.lift k)) scope) := by
  by_cases room : m.depth + 1 < m.tower.length
  · -- the operand, with the lift entered and nothing pending
    let start : Continuation := { m with control := .eval e scope, stack := [], depth := m.depth + 1 }
    have left : run (turn env) 2 (m.enter (.lift (.bind mode e x k)) scope) =
        .more (start.upon (.bindK x k scope :: .liftK m.depth :: m.stack)) :=
      moreStep (.lift rfl room) (moreStep (.opens rfl (.bind mode e x k)) rfl)
    have right : run (turn env) 2 (m.enter (.bind mode' (.lift e) x (.lift k)) scope) =
        .more (start.upon (.liftK m.depth :: .bindK x (.lift k) scope :: m.stack)) :=
      moreStep (.opens rfl (.bind mode' (.lift e) x (.lift k))) (moreStep (.lift rfl room) rfl)
    have wfEnter : WellFormed (m.enter (.lift (.bind mode e x k)) scope) := ⟨wf.tower,wf.lifted,wf.room,wf.placed⟩
    refine behavesAlike (alikeAfter left right (alikeBases (fun _ _ _ => rfl) (fun _ _ _ => rfl) ?_))
    intro j n v reached at_ top
    -- the operand leaves at the depth it was entered with, over a tower as long
    obtain ⟨wfN,sameMode⟩ := wellFormedAfter wfEnter ((runThrough left j).trans (runOver reached _))
    have lifted := wfN.lifted
    simp only [Continuation.upon,top,List.nil_append] at lifted
    have depth : n.depth = m.depth + 1 := (liftedPop lifted).1
    have room' : m.depth + 1 < n.tower.length := by
      have len := towerLength wfN
      rw [sameMode] at len
      exact Nat.lt_of_lt_of_eq room ((towerLength wf).trans len.symm)
    have left' : run (turn env) 1 (n.upon (.bindK x k scope :: .liftK m.depth :: m.stack)) =
        .more { n with control := .eval k (scope.bind x v), stack := .liftK m.depth :: m.stack } :=
      moreStep (.answers at_ (by simp only [Continuation.upon,top]; rfl) (.bindK x k scope v)) rfl
    have right' : run (turn env) 3 (n.upon (.liftK m.depth :: .bindK x (.lift k) scope :: m.stack)) =
        .more { n with control := .eval k (scope.bind x v), stack := .liftK m.depth :: m.stack } := by
      refine moreStep (.liftK at_ (by simp only [Continuation.upon,top]; rfl)) ?_
      refine moreStep (.answers rfl rfl (.bindK x (.lift k) scope v)) ?_
      refine moreStep (.lift rfl room') ?_
      rw [Runs.runZero,← depth]
      rfl
    exact alikeAfter left' right' (alikeSame rfl (fun _ _ => rfl))
  · exact .inr ⟨_,_,2,rfl,fun fuel enough => ⟨liftBottom wf room enough,bindBottom wf room enough⟩⟩

end Laws

/- From any state a run passes through, in any scope; the modes written at the nodes are of no account. -/
theorem liftLaws (env : Env) (mode : Mode) (body : Expr) (arg st : Value) {n : Nat} {m : Continuation}
    (reached : run (turn env) n (initial mode body arg st) = .more m) (scope : Scope) :
    (∀ mode₁ mode₂ v, v.prompt = true → m.depth + 1 < m.tower.length →
      BehavesAs Eq env (m.enter (.lift (.pure mode₁ v)) scope) (m.enter (.pure mode₂ v) scope)) ∧
    (∀ mode₁ mode₂ e x k,
      BehavesAs Eq env (m.enter (.lift (.bind mode₁ e x k)) scope) (m.enter (.bind mode₂ (.lift e) x (.lift k)) scope)) ∧
    (¬ m.depth + 1 < m.tower.length → ∀ mode₁ mode₂ e x k fuel, 2 ≤ fuel →
      resume env (m.enter (.lift (.bind mode₁ e x k)) scope) fuel = failure (.wrongMode m.mode .lift) ∧
        resume env (m.enter (.bind mode₂ (.lift e) x (.lift k)) scope) fuel = failure (.wrongMode m.mode .lift)) := by
  have wf := (wellFormedRun reached).1
  exact ⟨fun _ _ _ prompt room => liftPure prompt room,fun _ _ _ _ _ => liftBind wf,
    fun room _ _ _ _ _ _ enough => ⟨liftBottom wf room enough,bindBottom wf room enough⟩⟩

/- Under a handler of the upper layer, an operand that throws into the lower one. -/
theorem liftLawsThrowing : ∃ m, run (turn .default) 1 (initial .hypophrygian (.recipe .arg "w" (.var "w")) .unit .unit) = .more m ∧
    BehavesAs Eq .default (m.enter (.lift (.bind .dorian (.clama .arg) "x" (.lift .arg))) .empty)
      (m.enter (.bind .lydian (.lift (.clama .arg)) "x" (.lift (.lift .arg))) .empty) :=
  ⟨_,rfl,(liftLaws .default .hypophrygian (.recipe .arg "w" (.var "w")) .unit .unit (n := 1) rfl .empty).2.1 _ _ _ _ _⟩

end Officium
