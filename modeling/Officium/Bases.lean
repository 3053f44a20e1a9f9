import Officium.Turns

/-! A run over a base of frames it has not reached yet. The turns are those of the same run
over an empty stack, until that run is dry, raises past its own handlers, or ends. -/
namespace Officium
open Runs (Turn run Forever)

def Continuation.upon (m : Continuation) (base : List Frame) : Continuation := { m with stack := m.stack ++ base }

/- The depth left when a raise has passed the whole stack. -/
def depthUnder : List Frame → Nat → Nat
  | [], depth => depth
  | .liftK d :: rest, _ => depthUnder rest d
  | _ :: rest, depth => depthUnder rest depth

section Unwinding
variable {v : Value} {thrown : Nat} {stack rest : List Frame} {depth d : Nat} {c : Control}

theorem unwindOver (h : unwindFrames v thrown stack depth = some (c,rest,d)) (base : List Frame) :
    unwindFrames v thrown (stack ++ base) depth = some (c,rest ++ base,d) := by
  induction stack generalizing depth with
  | nil => cases h
  | cons f stack ih =>
    cases f with
    | recipeH name handler scope channel =>
      simp only [List.cons_append,unwindFrames] at h ⊢
      split at h
      · rename_i same
        cases h
        rw [if_pos same]
      · rename_i other
        rw [if_neg other]
        exact ih h
    | liftK k => exact ih h
    | _ => exact ih h

theorem unwindPast (h : unwindFrames v thrown stack depth = none) (base : List Frame) :
    unwindFrames v thrown (stack ++ base) depth = unwindFrames v thrown base (depthUnder stack depth) := by
  induction stack generalizing depth with
  | nil => rfl
  | cons f stack ih =>
    cases f with
    | recipeH name handler scope channel =>
      simp only [List.cons_append,unwindFrames] at h ⊢
      split at h
      · cases h
      · rename_i other
        rw [if_neg other]
        exact ih h
    | liftK k => exact ih h
    | _ => exact ih h

end Unwinding

section Over
variable {env : Env} {m m' : Continuation}

theorem yieldsOver {scope : Scope} {e : Expr} {v : Value} (h : Yields env m scope e v) (base : List Frame) :
    Yields env (m.upon base) scope e v := by
  cases h with
  | lit => exact .lit v
  | var found => exact .var found
  | lam param body => exact .lam param body
  | arg => exact .arg
  | ask found => exact .ask found
  | lege visible cell => exact .lege visible cell

theorem opensOver {scope : Scope} {e e' : Expr} {f : Frame} (h : Opens m scope e e' f) (base : List Frame) :
    Opens (m.upon base) scope e e' f := by
  cases h with
  | app _ a => exact .app _ a
  | ifE _ t e => exact .ifE _ t e
  | fix => exact .fix _
  | ret mode => exact .ret mode _
  | bind mode _ name k => exact .bind mode _ name k
  | resolve name => exact .resolve name _
  | clama visible => exact .clama visible
  | recipe visible => exact .recipe visible
  | pone visible => exact .pone visible
  | mitte visible => exact .mitte visible
  | perage visible => exact .perage visible

theorem stepOver (step : Step env m m') (base : List Frame) : Step env (m.upon base) (m'.upon base) := by
  have topOver {f : Frame} {rest : List Frame} (top : m.stack = f :: rest) :
      (m.upon base).stack = f :: (rest ++ base) := by simp only [Continuation.upon,top,List.cons_append]
  cases step with
  | yields at_ h => exact .yields at_ (yieldsOver h base)
  | opens at_ h => exact .opens at_ (opensOver h base)
  | pure at_ => exact .pure (m := m.upon base) at_
  | lift at_ room => exact .lift (m := m.upon base) at_ room
  | answers at_ top h =>
    have step := Step.answers (m := m.upon base) at_ (topOver top) h
    rw [← List.append_assoc] at step
    exact step
  | poneK at_ top inside => exact .poneK (m := m.upon base) at_ (topOver top) inside
  | mitteK at_ top plan issued => exact .mitteK (m := m.upon base) at_ (topOver top) plan issued
  | liftK at_ top => exact .liftK (m := m.upon base) at_ (topOver top)
  | caught at_ top h => exact .caught (m := m.upon base) at_ (topOver top) (unwindOver h base)

theorem runOver {n : Nat} (h : run (turn env) n m = .more m') (base : List Frame) :
    run (turn env) n (m.upon base) = .more (m'.upon base) := by
  induction n generalizing m with
  | zero => cases h; rfl
  | succ n ih =>
    cases one : turn env m with
    | more t =>
      rw [Runs.runMore one] at h
      rw [Runs.runMore (stepTurn (stepOver (turnStep one) base))]
      exact ih h
    | done r => rw [Runs.runDone one] at h; cases h

theorem foreverOver (h : Forever (turn env) m) (base : List Frame) : Forever (turn env) (m.upon base) := by
  intro n
  obtain ⟨m',hn⟩ := h n
  exact ⟨m'.upon base,runOver hn base⟩

theorem failsOver {scope : Scope} {e : Expr} {r : Raise} (h : Fails env m scope e r) (base : List Frame) :
    Fails env (m.upon base) scope e r := by
  cases h with
  | var unbound => exact .var unbound
  | ask unbound => exact .ask unbound
  | nihil visible => exact .nihil visible
  | hidden need none => exact .hidden (m := m.upon base) need none
  | bottom e inside room => exact .bottom (m := m.upon base) e inside room
  | below e outside => exact .below e outside

theorem refusesOver {f : Frame} {v : Value} {r : Raise} (h : Refuses env m f v r) (base : List Frame) :
    Refuses env (m.upon base) f v r := by
  cases h with
  | appCall h => exact .appCall h
  | fixK h => exact .fixK h
  | ifK other => exact .ifK other
  | poneK outside => exact .poneK outside
  | mitteK plan other => exact .mitteK plan other
  | outside outside => exact .outside outside
  | layer found other => exact .layer found other
  | premature => exact .premature
  | unconsecrated other => exact .unconsecrated other
  | resolveK unresolved => exact .resolveK unresolved
  | genus other => exact .genus other
  | builtinPost h => exact .builtinPost h

/- How a run over an empty stack ends: dry, with a raise no frame of its own caught, or in a
way the frames beneath it have no say in. -/
inductive Leaves (env : Env) (m : Continuation) (r : Verdict) : Prop where
  | dry {v} (at_ : m.control = .value v) (top : m.stack = [])
  | escaped {v channel rest} (at_ : m.control = .value v) (top : m.stack = .clamaK channel :: rest)
      (none : unwindFrames v channel rest m.depth = none)
  | ends (h : ∀ base, Stops env (m.upon base) r)

theorem stopsLeaves {r : Verdict} (stop : Stops env m r) : Leaves env m r := by
  have topOver {f : Frame} {rest : List Frame} (top : m.stack = f :: rest) (base : List Frame) :
      (m.upon base).stack = f :: (rest ++ base) := by simp only [Continuation.upon,top,List.cons_append]
  cases stop with
  | dry at_ top => exact .dry at_ top
  | escaped at_ top h => exact .escaped at_ top h
  | cadence at_ top => exact .ends (fun base => .cadence (m := m.upon base) at_ (topOver top base))
  | commit at_ top nonempty => exact .ends (fun base => .commit (m := m.upon base) at_ (topOver top base) nonempty)
  | fails at_ h => exact .ends (fun base => .fails at_ (failsOver h base))
  | refuses at_ top h => exact .ends (fun base => .refuses at_ (topOver top base) (refusesOver h base))

end Over

end Officium
