import Officium.Steps

/-! The inversions of `Steps` read the other way: each rule is the turn the machine takes.
A simulation builds the rule on its side and gets the turn from here. -/
namespace Officium
open Runs (Turn)
open Machine

theorem applyOk {f v : Value} {c : Control} {posts : List PostOp} (h : Enters f v c posts) {n : Nat}
    (enough : solveNesting f < n) (m : Continuation) :
    applyWithin n f v m = .ok c { m with stack := posts.map .builtinPost ++ m.stack } := by
  induction h generalizing n m with
  | closure param body env v => cases n with
    | zero => omega
    | succ n => rfl
  | @short name args v few => cases n with
    | zero => omega
    | succ n =>
      have few' : (args ++ [v]).length < (Builtins.arity name).getD 0 := by simpa using few
      simp only [applyWithin,if_pos few']; rfl
  | @done name args v r full called => cases n with
    | zero => omega
    | succ n =>
      have full' : ¬ (args ++ [v]).length < (Builtins.arity name).getD 0 := by simpa using full
      simp only [applyWithin,if_neg full',called]; rfl
  | @apply name args v f a post c posts full called inner ih => cases n with
    | zero => omega
    | succ n =>
      have full' : ¬ (args ++ [v]).length < (Builtins.arity name).getD 0 := by simpa using full
      have less := applyNested called
      have entered := ih (n := n) (by omega) { m with stack := .builtinPost post :: m.stack }
      simp only [applyWithin,if_neg full',called]
      refine Eq.trans entered ?_
      simp

theorem applyRejected {f v : Value} {r : Raise} (h : Rejects f v r) {n : Nat}
    (enough : solveNesting f < n) (m : Continuation) : ∃ m', applyWithin n f v m = .error r m' := by
  induction h generalizing n m with
  | @other f v closure builtin => cases n with
    | zero => omega
    | succ n => cases f with
      | closure p b s => exact absurd rfl (closure p b s)
      | builtin name args => exact absurd rfl (builtin name args)
      | _ => exact ⟨m,rfl⟩
  | @call name args v r full called => cases n with
    | zero => omega
    | succ n =>
      have full' : ¬ (args ++ [v]).length < (Builtins.arity name).getD 0 := by simpa using full
      refine ⟨m,?_⟩
      simp only [applyWithin,if_neg full',called]; rfl
  | @inner name args v f a post r full called inner ih => cases n with
    | zero => omega
    | succ n =>
      have full' : ¬ (args ++ [v]).length < (Builtins.arity name).getD 0 := by simpa using full
      have less := applyNested called
      obtain ⟨m',rejected⟩ := ih (n := n) (by omega) { m with stack := .builtinPost post :: m.stack }
      refine ⟨m',?_⟩
      simp only [applyWithin,if_neg full',called]
      exact rejected

section Turns
variable {env : Env} {m m' : Continuation}

theorem yieldsTurn {e : Expr} {scope : Scope} {v : Value} (at_ : m.control = .eval e scope)
    (h : Yields env m scope e v) : turn env m = .more { m with control := .value v } := by
  refine turnEval (n := m.idle) at_ ?_
  cases h with
  | lit | lam | arg => rfl
  | var found => simp only [evalStep,found]; rfl
  | ask found => exact liftOk found
  | @lege i v visible cell =>
    have inside : index m.tower i = .ok (.state v) := by simp only [index,cell]
    exact (bindOk (layerSome (m := m.idle) visible)).trans (liftOk inside)

theorem opensTurn {e e' : Expr} {scope : Scope} {frame : Frame} (at_ : m.control = .eval e scope)
    (h : Opens m scope e e' frame) :
    turn env m = .more { m with control := .eval e' scope, stack := frame :: m.stack } := by
  refine turnEval (n := { m.idle with stack := frame :: m.stack }) at_ ?_
  cases h with
  | clama visible | recipe visible | pone visible | mitte visible | perage visible =>
    exact bindOk (layerSome (m := m.idle) visible)
  | _ => rfl

theorem appliesTurn {v : Value} {frame : Frame} {rest : List Frame} {f a : Value} {c : Control} {posts : List PostOp}
    (at_ : m.control = .value v) (top : m.stack = frame :: rest)
    (shape : valueStep env frame v = do
      let c ← apply f a
      Pure.pure (.proceed c)) (h : Enters f a c posts) :
    turn env m = .more { m with control := c, stack := posts.map .builtinPost ++ rest } := by
  refine turnValue (o := .proceed c) (n := { m.idle with stack := posts.map .builtinPost ++ rest }) at_ top ?_
  rw [shape]
  exact bindOk (applyOk h (Nat.lt_succ_self _) { m.idle with stack := rest })

theorem answersTurn {v : Value} {frame : Frame} {rest pushed : List Frame} {c : Control}
    (at_ : m.control = .value v) (top : m.stack = frame :: rest) (h : Answers env frame v c pushed) :
    turn env m = .more { m with control := c, stack := pushed ++ rest } := by
  cases h with
  | appCall enters => exact appliesTurn at_ top rfl enters
  | fixK enters => exact appliesTurn at_ top rfl enters
  | resolveK found => exact turnValue at_ top (liftOk found)
  | builtinPost applied => exact turnValue at_ top (liftOk applied)
  | _ => exact turnValue at_ top rfl

theorem liftTurn {e : Expr} {scope : Scope} (at_ : m.control = .eval (.lift e) scope)
    (room : m.depth + 1 < m.tower.length) :
    turn env m = .more { m with control := .eval e scope, stack := .liftK m.depth :: m.stack, depth := m.depth + 1 } := by
  refine turnEval (n := { m.idle with stack := .liftK m.depth :: m.stack, depth := m.depth + 1 }) at_ ?_
  have outside : ¬ m.idle.tower.length < m.idle.depth := by change ¬ m.tower.length < m.depth; omega
  have few : ¬ m.idle.tower.length - m.idle.depth < 2 := by change ¬ m.tower.length - m.depth < 2; omega
  rw [evalStep,getBind,if_neg outside,if_neg few]; rfl

theorem stepTurn (h : Step env m m') : turn env m = .more m' := by
  cases h with
  | yields at_ h => exact yieldsTurn at_ h
  | opens at_ h => exact opensTurn at_ h
  | pure at_ => exact turnEval (n := m.idle) at_ rfl
  | lift at_ room => exact liftTurn at_ room
  | answers at_ top h => exact answersTurn at_ top h
  | @poneK v i rest at_ top inside =>
    have cell : index m.tower i = .ok m.tower[i] := by simp only [index,List.getElem?_eq_getElem inside]
    exact turnValue at_ top (liftOk cell)
  | @mitteK v i rest p cs at_ top plan issued =>
    have cell : index m.tower i = .ok (.writer p) := by simp only [index,plan]
    cases v <;> cases issued <;> exact turnValue at_ top (liftOk cell)
  | liftK at_ top => exact turnValue at_ top rfl
  | @caught v channel rest c rest' d at_ top h =>
    have thrown : turn env m =
        settle (.error (.dissonance (.user v)) { m.idle with stack := rest, thrown := channel }) := by
      simp only [turn,at_,top]; rfl
    refine thrown.trans ?_
    simp only [settle,EStateM.run]
    rw [unwindSome (m := { m.idle with stack := rest, thrown := channel }) h]; rfl

theorem moreStep {s s' t : Continuation} {n : Nat} (step : Step env s s') (h : Runs.run (turn env) n s' = .more t) :
    Runs.run (turn env) (n+1) s = .more t := by rw [Runs.runMore (stepTurn step)]; exact h

theorem failsTurn {e : Expr} {scope : Scope} {r : Raise} (at_ : m.control = .eval e scope)
    (h : Fails env m scope e r) : turn env m = .done (.error r) := by
  cases h with
  | @var name unbound =>
    have shape : evalStep env (.var name) scope = dissonance (.unboundVar name) := by simp only [evalStep,unbound]
    exact turnEvalError (n := m.idle) at_ (by rw [shape]; rfl) (fatalOther (by simp))
  | ask unbound =>
    refine turnEvalError at_ (liftError unbound) ?_
    rw [askError unbound]
    exact fatalOther (by simp)
  | nihil visible =>
    exact turnEvalError at_ (bindOk (layerSome (m := m.idle) visible)) (fatalOther (by simp))
  | @hidden e kind op need none =>
    have hides {rest : Nat → Machine Control} (shape : evalStep env e scope = (layer kind op >>= rest)) :
        turn env m = .done (.error (.dissonance (.wrongMode m.mode op))) := by
      refine turnEvalError (n := m.idle) at_ ?_ (fatalOther (by simp))
      rw [shape]
      exact bindError (layerNone (m := m.idle) none)
    cases e <;> cases need <;> exact hides rfl
  | bottom e inside room =>
    have outside : ¬ m.idle.tower.length < m.idle.depth := by change ¬ m.tower.length < m.depth; omega
    have few : m.idle.tower.length - m.idle.depth < 2 := by change m.tower.length - m.depth < 2; omega
    refine turnEvalError (n := m.idle) at_ ?_ (fatalOther (by simp))
    rw [evalStep,getBind,if_neg outside,if_pos few]; rfl
  | below e outside =>
    have outside' : m.idle.tower.length < m.idle.depth := outside
    refine turnEvalError (n := m.idle) at_ ?_ (by intro v h; cases h)
    rw [evalStep,getBind,if_pos outside']; rfl

theorem rejectsTurn {v : Value} {frame : Frame} {rest : List Frame} {f a : Value} {r : Raise}
    (at_ : m.control = .value v) (top : m.stack = frame :: rest)
    (shape : valueStep env frame v = do
      let c ← apply f a
      Pure.pure (.proceed c)) (h : Rejects f a r) : turn env m = .done (.error r) := by
  obtain ⟨m',rejected⟩ := applyRejected h (Nat.lt_succ_self _) { m.idle with stack := rest }
  refine turnValueError (n := m') at_ top ?_ (rejectsFatal h)
  rw [shape]
  exact bindError rejected

theorem refusesTurn {v : Value} {frame : Frame} {rest : List Frame} {r : Raise} (at_ : m.control = .value v)
    (top : m.stack = frame :: rest) (h : Refuses env m frame v r) :
    turn env m = .done (.error r) := by
  cases h with
  | appCall h => exact rejectsTurn at_ top rfl h
  | fixK h => exact rejectsTurn at_ top rfl h
  | @ifK t e scope v other =>
    refine turnValueError (n := { m.idle with stack := rest }) at_ top ?_ (fatalOther (by simp))
    cases v with
    | bool b => exact absurd rfl (other b)
    | _ => rfl
  | @poneK i v outside | @outside i v outside =>
    have cell : index m.tower i = .error (.fault .index) := by simp only [index,List.getElem?_eq_none outside]
    exact turnValueError at_ top (liftError cell) (by intro v h; cases h)
  | @mitteK i v p plan other =>
    have cell : index m.tower i = .ok (.writer p) := by simp only [index,plan]
    refine turnValueError (n := { m.idle with stack := rest }) at_ top ?_ (fatalOther (by simp))
    cases v <;> cases other <;> exact liftOk cell
  | @layer i v l found other =>
    have cell : index m.tower i = .ok l := by simp only [index,found]
    refine turnValueError (n := { m.idle with stack := rest }) at_ top ?_ (by intro v h; cases h)
    cases l with
    | writer p => exact absurd rfl (other p)
    | _ => exact liftOk cell
  | premature => exact turnValueError (n := { m.idle with stack := rest }) at_ top rfl (fatalOther (by simp))
  | @unconsecrated v other =>
    refine turnValueError (n := { m.idle with stack := rest }) at_ top ?_ (fatalOther (by simp))
    cases v with
    | plan p => exact absurd rfl (other p)
    | _ => rfl
  | resolveK unresolved =>
    refine turnValueError at_ top (liftError unresolved) ?_
    rw [resolveError unresolved]
    exact fatalOther (by simp)
  | @genus name scope v other =>
    refine turnValueError (n := { m.idle with stack := rest }) at_ top ?_ (fatalOther (by simp))
    cases v with
    | genus g => exact absurd rfl (other g)
    | _ => rfl
  | builtinPost h =>
    exact turnValueError at_ top (liftError h) (plainFatal (Builtins.plainApplyPost _ _ _ h))

theorem escapedTurn {v : Value} {channel : Nat} {rest : List Frame} (at_ : m.control = .value v)
    (top : m.stack = .clamaK channel :: rest) (h : unwindFrames v channel rest m.depth = none) :
    turn env m = .done (failure (.user v)) := by
  have thrown : turn env m =
      settle (.error (.dissonance (.user v)) { m.idle with stack := rest, thrown := channel }) := by
    simp only [turn,at_,top]; rfl
  refine thrown.trans ?_
  simp only [settle,EStateM.run]
  rw [unwindNone (m := { m.idle with stack := rest, thrown := channel }) h]; rfl

theorem stopTurn {r : Verdict} (h : Stops env m r) : turn env m = .done r := by
  cases h with
  | dry at_ top => simp only [turn,at_,top]
  | cadence at_ top => exact turnValue at_ top rfl
  | @commit p rest at_ top some_ =>
    cases p with
    | nil => exact absurd rfl some_
    | cons c p => exact turnValue at_ top rfl
  | escaped at_ top h => exact escapedTurn at_ top h
  | fails at_ h => exact failsTurn at_ h
  | refuses at_ top h => exact refusesTurn at_ top h

end Turns

end Officium
