import Officium.Machine

/-! What one turn can do. `Step` lists every turn that goes on and `Stops` every turn that
ends the run, each with what it reads and what it changes; every invariant is derived from
these two inversions and none unfolds the machine again. -/
namespace Officium
open Runs (Turn)
open Machine

/- A control that is answered at once, with the continuation otherwise unchanged. -/
inductive Yields (env : Env) (m : Continuation) (scope : Scope) : Expr → Value → Prop where
  | lit (v : Value) : Yields env m scope (.lit v) v
  | var {name v} (found : lookupVar env scope name = some v) : Yields env m scope (.var name) v
  | lam (param body) : Yields env m scope (.lam param body) (.closure param body scope)
  | arg : Yields env m scope .arg m.arg
  | ask {name v} (found : env.ask name = .ok v) : Yields env m scope (.ask name) v
  | lege {i v} (visible : findLayer m.tower m.depth .state = some i)
      (cell : m.tower[i]? = some (.state v)) : Yields env m scope .lege v

/- An expression that pushes one frame and goes on with an operand in the same scope. -/
inductive Opens (m : Continuation) (scope : Scope) : Expr → Expr → Frame → Prop where
  | app (f a) : Opens m scope (.app f a) f (.appArg a scope)
  | ifE (c t e) : Opens m scope (.ifE c t e) c (.ifK t e scope)
  | fix (f) : Opens m scope (.fix f) f (.fixK f scope)
  | ret (mode e) : Opens m scope (.ret mode e) e .returnK
  | bind (mode mval name k) : Opens m scope (.bind mode mval name k) mval (.bindK name k scope)
  | resolve (name genus) : Opens m scope (.resolve name genus) genus (.resolveK name scope)
  | clama {e i} (visible : findLayer m.tower m.depth .except = some i) :
      Opens m scope (.clama e) e (.clamaK i)
  | recipe {body name handler i} (visible : findLayer m.tower m.depth .except = some i) :
      Opens m scope (.recipe body name handler) body (.recipeH name handler scope i)
  | pone {e i} (visible : findLayer m.tower m.depth .state = some i) : Opens m scope (.pone e) e (.poneK i)
  | mitte {e i} (visible : findLayer m.tower m.depth .writer = some i) : Opens m scope (.mitte e) e (.mitteK i)
  | perage {e i} (visible : findLayer m.tower m.depth .commit = some i) : Opens m scope (.perage e) e .perageK

/- Applying a function value: the control it goes on with and the post steps it leaves,
innermost first. -/
inductive Enters : Value → Value → Control → List PostOp → Prop where
  | closure (param body env v) : Enters (.closure param body env) v (.eval body (env.bind param v)) []
  | short {name args v} (few : args.length + 1 < (Builtins.arity name).getD 0) :
      Enters (.builtin name args) v (.value (.builtin name (args ++ [v]))) []
  | done {name args v r} (full : ¬ args.length + 1 < (Builtins.arity name).getD 0)
      (called : Builtins.call name (args ++ [v]) = .ok (.done r)) :
      Enters (.builtin name args) v (.value r) []
  | apply {name args v f a post c posts} (full : ¬ args.length + 1 < (Builtins.arity name).getD 0)
      (called : Builtins.call name (args ++ [v]) = .ok (.apply f a post)) (inner : Enters f a c posts) :
      Enters (.builtin name args) v c (posts ++ [post])

/- A frame that takes a value and touches nothing but the control and the stack. -/
inductive Answers (env : Env) : Frame → Value → Control → List Frame → Prop where
  | appArg (a scope v) : Answers env (.appArg a scope) v (.eval a scope) [.appCall v]
  | appCall {f v c posts} (enters : Enters f v c posts) :
      Answers env (.appCall f) v c (posts.map .builtinPost)
  | fixK {f scope v c posts} (enters : Enters v (selfRef f scope) c posts) :
      Answers env (.fixK f scope) v c (posts.map .builtinPost)
  | ifTrue (t e scope) : Answers env (.ifK t e scope) (.bool true) (.eval t scope) []
  | ifFalse (t e scope) : Answers env (.ifK t e scope) (.bool false) (.eval e scope) []
  | bindK (name k scope v) : Answers env (.bindK name k scope) v (.eval k (scope.bind name v)) []
  | recipeH (name handler scope channel v) :
      Answers env (.recipeH name handler scope channel) v (.value v) []
  | resolveK {name scope g e} (found : env.resolve name g = .ok e) :
      Answers env (.resolveK name scope) (.genus g) (.eval e scope) []
  | builtinPost {post v r} (applied : Builtins.applyPost post v = .ok r) :
      Answers env (.builtinPost post) v (.value r) []

/- The commands `mitte` appends for a value. -/
def commands : Value → Option Plan
  | .cmd c => some [c]
  | .plan p => some p
  | _ => none

inductive Step (env : Env) (m : Continuation) : Continuation → Prop where
  | yields {e scope v} (at_ : m.control = .eval e scope) (h : Yields env m scope e v) :
      Step env m { m with control := .value v }
  | opens {e scope e' frame} (at_ : m.control = .eval e scope) (h : Opens m scope e e' frame) :
      Step env m { m with control := .eval e' scope, stack := frame :: m.stack }
  | pure {mode e scope} (at_ : m.control = .eval (.pure mode e) scope) :
      Step env m { m with control := .eval e scope }
  | lift {e scope} (at_ : m.control = .eval (.lift e) scope) (room : m.depth + 1 < m.tower.length) :
      Step env m { m with control := .eval e scope, stack := .liftK m.depth :: m.stack, depth := m.depth + 1 }
  | answers {v frame rest c pushed} (at_ : m.control = .value v) (top : m.stack = frame :: rest)
      (h : Answers env frame v c pushed) : Step env m { m with control := c, stack := pushed ++ rest }
  | poneK {v i rest} (at_ : m.control = .value v) (top : m.stack = .poneK i :: rest)
      (inside : i < m.tower.length) :
      Step env m { m with control := .value .unit, stack := rest, tower := m.tower.set i (.state v) }
  | mitteK {v i rest p cs} (at_ : m.control = .value v) (top : m.stack = .mitteK i :: rest)
      (plan : m.tower[i]? = some (.writer p)) (issued : commands v = some cs) :
      Step env m { m with control := .value .unit, stack := rest, tower := m.tower.set i (.writer (p ++ cs)) }
  | liftK {v d rest} (at_ : m.control = .value v) (top : m.stack = .liftK d :: rest) :
      Step env m { m with control := .value v, stack := rest, depth := d }
  | caught {v channel rest c rest' d} (at_ : m.control = .value v) (top : m.stack = .clamaK channel :: rest)
      (h : unwindFrames v channel rest m.depth = some (c,rest',d)) :
      Step env m { m with control := c, stack := rest', depth := d, thrown := channel }

/- The layer an operation binds to, for the operations that need one. -/
def needs : Expr → Option (LayerKind × OpKind)
  | .nihil => some (.maybe,.nihil)
  | .clama _ => some (.except,.clama)
  | .recipe _ _ _ => some (.except,.recipe)
  | .lege => some (.state,.lege)
  | .pone _ => some (.state,.pone)
  | .mitte _ => some (.writer,.mitte)
  | .perage _ => some (.commit,.perage)
  | _ => none

inductive Fails (env : Env) (m : Continuation) (scope : Scope) : Expr → Raise → Prop where
  | var {name} (unbound : lookupVar env scope name = none) :
      Fails env m scope (.var name) (.dissonance (.unboundVar name))
  | ask {name r} (unbound : env.ask name = .error r) : Fails env m scope (.ask name) r
  | nihil {i} (visible : findLayer m.tower m.depth .maybe = some i) :
      Fails env m scope .nihil (.dissonance .silent)
  | hidden {e kind op} (need : needs e = some (kind,op)) (none : findLayer m.tower m.depth kind = none) :
      Fails env m scope e (.dissonance (.wrongMode m.mode op))
  | bottom (e) (inside : m.depth ≤ m.tower.length) (room : ¬ m.depth + 1 < m.tower.length) :
      Fails env m scope (.lift e) (.dissonance (.wrongMode m.mode .lift))
  | below (e) (outside : m.tower.length < m.depth) : Fails env m scope (.lift e) (.fault .underflow)

inductive Rejects : Value → Value → Raise → Prop where
  | other {f : Value} (v) (closure : ∀ p b s, f ≠ .closure p b s) (builtin : ∀ n a, f ≠ .builtin n a) :
      Rejects f v (.dissonance (.dissonant "closure" f.ty))
  | call {name args v r} (full : ¬ args.length + 1 < (Builtins.arity name).getD 0)
      (called : Builtins.call name (args ++ [v]) = .error r) : Rejects (.builtin name args) v r
  | inner {name args v f a post r} (full : ¬ args.length + 1 < (Builtins.arity name).getD 0)
      (called : Builtins.call name (args ++ [v]) = .ok (.apply f a post)) (inner : Rejects f a r) :
      Rejects (.builtin name args) v r

inductive Refuses (env : Env) (m : Continuation) : Frame → Value → Raise → Prop where
  | appCall {f v r} (h : Rejects f v r) : Refuses env m (.appCall f) v r
  | fixK {f scope v r} (h : Rejects v (selfRef f scope) r) : Refuses env m (.fixK f scope) v r
  | ifK {t e scope v} (other : ∀ b, v ≠ .bool b) :
      Refuses env m (.ifK t e scope) v (.dissonance (.dissonant "bool" v.ty))
  | poneK {i v} (outside : m.tower.length ≤ i) : Refuses env m (.poneK i) v (.fault .index)
  | mitteK {i v p} (plan : m.tower[i]? = some (.writer p)) (other : commands v = none) :
      Refuses env m (.mitteK i) v (.dissonance (.dissonant "cmd" v.ty))
  | outside {i v} (outside : m.tower.length ≤ i) : Refuses env m (.mitteK i) v (.fault .index)
  | layer {i v l} (found : m.tower[i]? = some l) (other : ∀ p, l ≠ .writer p) :
      Refuses env m (.mitteK i) v (.fault .unreachable)
  | premature : Refuses env m .perageK (.plan []) (.dissonance .premature)
  | unconsecrated {v} (other : ∀ p, v ≠ .plan p) : Refuses env m .perageK v (.dissonance .unconsecrated)
  | resolveK {name scope g r} (unresolved : env.resolve name g = .error r) :
      Refuses env m (.resolveK name scope) (.genus g) r
  | genus {name scope v} (other : ∀ g, v ≠ .genus g) :
      Refuses env m (.resolveK name scope) v (.dissonance (.dissonant "genus" v.ty))
  | builtinPost {post v r} (h : Builtins.applyPost post v = .error r) : Refuses env m (.builtinPost post) v r

inductive Stops (env : Env) (m : Continuation) : Verdict → Prop where
  | dry {v} (at_ : m.control = .value v) (top : m.stack = []) :
      Stops env m (.ok (finish m.tower (some v) none))
  | cadence {v rest} (at_ : m.control = .value v) (top : m.stack = .returnK :: rest) :
      Stops env m (.ok (finish m.tower (some v) none))
  | commit {p rest} (at_ : m.control = .value (.plan p)) (top : m.stack = .perageK :: rest) (some_ : p ≠ []) :
      Stops env m (.ok (finish m.tower (some .unit) (some p)))
  | escaped {v channel rest} (at_ : m.control = .value v) (top : m.stack = .clamaK channel :: rest)
      (h : unwindFrames v channel rest m.depth = none) : Stops env m (failure (.user v))
  | fails {e scope r} (at_ : m.control = .eval e scope) (h : Fails env m scope e r) : Stops env m (.error r)
  | refuses {v frame rest r} (at_ : m.control = .value v) (top : m.stack = frame :: rest)
      (h : Refuses env m frame v r) : Stops env m (.error r)

theorem applyWithinOk {n : Nat} {f v : Value} {m m' : Continuation} {c : Control}
    (h : applyWithin n f v m = .ok c m') :
    ∃ posts, Enters f v c posts ∧ m' = { m with stack := posts.map .builtinPost ++ m.stack } := by
  induction n generalizing f v m with
  | zero => cases h
  | succ n ih =>
    cases f with
    | closure param body env => cases h; exact ⟨[],.closure _ _ _ _,rfl⟩
    | builtin name args =>
      simp only [applyWithin] at h
      split at h
      · rename_i few
        cases h
        exact ⟨[],.short (by simpa using few),rfl⟩
      · rename_i full
        have full' : ¬ args.length + 1 < (Builtins.arity name).getD 0 := by simpa using full
        cases called : Builtins.call name (args ++ [v]) with
        | error r => rw [called] at h; cases h
        | ok r =>
          rw [called] at h
          cases r with
          | done r => cases h; exact ⟨[],.done full' called,rfl⟩
          | apply g a post =>
            obtain ⟨posts,enters,rfl⟩ := ih (m := { m with stack := .builtinPost post :: m.stack }) h
            exact ⟨posts ++ [post],.apply full' called enters,by simp⟩
    | _ => cases h

/- The layer found is there, is of the kind asked for and lies at or below the lift depth. -/
theorem findLayerSome {tower : List Layer} {depth i : Nat} {kind : LayerKind}
    (h : findLayer tower depth kind = some i) : ∃ l, tower[i]? = some l ∧ l.kind = kind ∧ depth ≤ i := by
  have good := List.find?_some h
  have range := List.mem_range'_1.mp (List.mem_of_find?_eq_some h)
  cases found : tower[i]? with
  | none => simp [found] at good
  | some l => exact ⟨l,rfl,by simpa [found] using good,range.1⟩

theorem bindOk {α β : Type} {x : Machine α} {f : α → Machine β} {m m' : Continuation} {a : α}
    (h : x m = .ok a m') : (x >>= f) m = f a m' := by
  change EStateM.bind x f m = _
  simp only [EStateM.bind,h]

theorem bindError {α β : Type} {x : Machine α} {f : α → Machine β} {m m' : Continuation} {r : Raise}
    (h : x m = .error r m') : (x >>= f) m = .error r m' := by
  change EStateM.bind x f m = _
  simp only [EStateM.bind,h]

/- A raised value the stack may still catch; every other raise ends the run. -/
def Fatal (r : Raise) : Prop := ∀ v, r ≠ .dissonance (.user v)

theorem settleError {r : Raise} {m : Continuation} (final : Fatal r) : settle (.error r m) = .done (.error r) := by
  cases r with
  | fault f => rfl
  | dissonance d =>
    cases d with
    | user v => exact absurd rfl (final v)
    | _ => rfl

section Turns
variable {env : Env} {m n : Continuation}

theorem turnEval {e : Expr} {scope : Scope} {c : Control} (at_ : m.control = .eval e scope)
    (h : evalStep env e scope m.idle = .ok c n) :
    turn env m = .more { n with control := c } := by
  have mapped : (StepOut.proceed <$> evalStep env e scope) m.idle =
      .ok (.proceed c) n := by
    change EStateM.map _ _ _ = _
    simp only [EStateM.map,h]
  simp only [turn,at_,EStateM.run,mapped,settle]

theorem turnEvalError {e : Expr} {scope : Scope} {r : Raise} (at_ : m.control = .eval e scope)
    (h : evalStep env e scope m.idle = .error r n) (final : Fatal r) :
    turn env m = .done (.error r) := by
  have mapped : (StepOut.proceed <$> evalStep env e scope) m.idle = .error r n := by
    change EStateM.map _ _ _ = _
    simp only [EStateM.map,h]
  simp only [turn,at_,EStateM.run,mapped,settleError final]

theorem turnValue {v : Value} {frame : Frame} {rest : List Frame} {o : StepOut}
    (at_ : m.control = .value v) (top : m.stack = frame :: rest)
    (h : valueStep env frame v { m.idle with stack := rest } = .ok o n) :
    turn env m = settle (.ok o n) := by
  simp only [turn,at_,top,EStateM.run,h]

theorem turnValueError {v : Value} {frame : Frame} {rest : List Frame} {r : Raise}
    (at_ : m.control = .value v) (top : m.stack = frame :: rest)
    (h : valueStep env frame v { m.idle with stack := rest } = .error r n) (final : Fatal r) :
    turn env m = .done (.error r) := by
  simp only [turn,at_,top,EStateM.run,h,settleError final]

end Turns

theorem layerUnfold (kind : LayerKind) (op : OpKind) (m : Continuation) : layer kind op m =
    (match findLayer m.tower m.depth kind with
     | some i => (pure i : Machine Nat)
     | none => dissonance (.wrongMode m.mode op)) m := rfl

theorem layerSome {kind : LayerKind} {op : OpKind} {m : Continuation} {i : Nat}
    (h : findLayer m.tower m.depth kind = some i) : layer kind op m = .ok i m := by
  rw [layerUnfold,h]; rfl

theorem layerNone {kind : LayerKind} {op : OpKind} {m : Continuation}
    (h : findLayer m.tower m.depth kind = none) :
    layer kind op m = .error (.dissonance (.wrongMode m.mode op)) m := by
  rw [layerUnfold,h]; rfl

theorem liftError {α β : Type} {x : Except Raise α} {f : α → Machine β} {m : Continuation} {r : Raise}
    (h : x = .error r) : (Machine.lift x >>= f) m = .error r m := by
  subst h; rfl

theorem liftOk {α β : Type} {x : Except Raise α} {f : α → Machine β} {m : Continuation} {a : α}
    (h : x = .ok a) : (Machine.lift x >>= f) m = f a m := by
  subst h; rfl

inductive Taken (env : Env) (m : Continuation) : Prop where
  | more {n} (h : turn env m = .more n) (step : Step env m n)
  | done {r} (h : turn env m = .done r) (stop : Stops env m r)

theorem askError {env : Env} {name : Sym} {r : Raise} (h : env.ask name = .error r) :
    r = .dissonance (.unboundVar name) := by
  unfold Env.ask at h
  split at h <;> cases h
  rfl

theorem fatalOther {d : Dissonance} (h : ∀ v, d ≠ .user v) : Fatal (.dissonance d) := by
  intro v same
  cases same
  exact h v rfl

section Taken
variable {env : Env} {m : Continuation} {e : Expr} {scope : Scope}

theorem hiddenTaken {kind : LayerKind} {op : OpKind} {rest : Nat → Machine Control}
    (at_ : m.control = .eval e scope) (need : needs e = some (kind,op))
    (shape : evalStep env e scope = (layer kind op >>= rest))
    (hidden : findLayer m.tower m.depth kind = none) : Taken env m := by
  refine .done (turnEvalError (n := m.idle) at_ ?_ ?_) (.fails at_ (.hidden need hidden))
  · rw [shape]; exact bindError (layerNone (m := m.idle) hidden)
  · exact fatalOther (fun v => by simp)

theorem opensTaken {e' : Expr} {kind : LayerKind} {op : OpKind} {f : Nat → Frame}
    (at_ : m.control = .eval e scope) (need : needs e = some (kind,op))
    (shape : evalStep env e scope = do
      let i ← layer kind op
      push (f i)
      pure (.eval e' scope))
    (opens : ∀ i, findLayer m.tower m.depth kind = some i → Opens m scope e e' (f i)) : Taken env m := by
  cases visible : findLayer m.tower m.depth kind with
  | none => exact hiddenTaken at_ need shape visible
  | some i =>
    refine .more (n := { m with control := .eval e' scope, stack := f i :: m.stack })
      (turnEval (n := { m.idle with stack := f i :: m.stack }) at_ ?_)
      (.opens at_ (opens i visible))
    rw [shape]
    exact bindOk (layerSome (m := m.idle) visible)

theorem getBind {α : Type} (k : Continuation → Machine α) (m : Continuation) :
    (do let m ← get; k m) m = k m m := rfl

theorem evalTaken (env : Env) (m : Continuation) {e : Expr} {scope : Scope} (at_ : m.control = .eval e scope) :
    Taken env m := by
  cases e with
  | lit v => exact .more (turnEval at_ rfl) (.yields at_ (.lit v))
  | lam param body => exact .more (turnEval at_ rfl) (.yields at_ (.lam param body))
  | arg => exact .more (turnEval at_ rfl) (.yields at_ .arg)
  | app f a => exact .more (turnEval at_ rfl) (.opens at_ (.app f a))
  | ifE c t e => exact .more (turnEval at_ rfl) (.opens at_ (.ifE c t e))
  | fix f => exact .more (turnEval at_ rfl) (.opens at_ (.fix f))
  | pure mode e => exact .more (turnEval at_ rfl) (.pure at_)
  | ret mode e => exact .more (turnEval at_ rfl) (.opens at_ (.ret mode e))
  | bind mode mval name k => exact .more (turnEval at_ rfl) (.opens at_ (.bind mode mval name k))
  | resolve name genus => exact .more (turnEval at_ rfl) (.opens at_ (.resolve name genus))
  | clama e => exact opensTaken at_ rfl rfl (fun i visible => .clama visible)
  | recipe body name handler => exact opensTaken at_ rfl rfl (fun i visible => .recipe visible)
  | pone e => exact opensTaken at_ rfl rfl (fun i visible => .pone visible)
  | mitte e => exact opensTaken at_ rfl rfl (fun i visible => .mitte visible)
  | perage e => exact opensTaken (f := fun _ => .perageK) at_ rfl rfl (fun i visible => .perage visible)
  | var name =>
    cases found : lookupVar env scope name with
    | some v =>
      have shape : evalStep env (.var name) scope = pure (.value v) := by simp only [evalStep,found]
      exact .more (turnEval (n := m.idle) at_ (by rw [shape]; rfl)) (.yields at_ (.var found))
    | none =>
      have shape : evalStep env (.var name) scope = dissonance (.unboundVar name) := by simp only [evalStep,found]
      exact .done (turnEvalError (n := m.idle) at_ (by rw [shape]; rfl) (fatalOther (by simp))) (.fails at_ (.var found))
  | ask name =>
    cases found : env.ask name with
    | ok v => exact .more (turnEval at_ (liftOk found)) (.yields at_ (.ask found))
    | error r =>
      refine .done (turnEvalError at_ (liftError found) ?_) (.fails at_ (.ask found))
      rw [askError found]
      exact fatalOther (by simp)
  | nihil =>
    cases visible : findLayer m.tower m.depth .maybe with
    | none => exact hiddenTaken at_ rfl rfl visible
    | some i =>
      exact .done (turnEvalError at_ (bindOk (layerSome (m := m.idle) visible)) (fatalOther (by simp))) (.fails at_ (.nihil visible))
  | lege =>
    cases visible : findLayer m.tower m.depth .state with
    | none => exact hiddenTaken at_ rfl rfl visible
    | some i =>
      obtain ⟨l,found,kind,_⟩ := findLayerSome visible
      have cell : index m.tower i = .ok l := by simp only [index,found]
      cases l with
      | state v =>
        exact .more (turnEval at_ ((bindOk (layerSome (m := m.idle) visible)).trans (liftOk cell)))
          (.yields at_ (.lege visible found))
      | _ => cases kind
  | lift e =>
    by_cases outside : m.idle.tower.length < m.idle.depth
    · have shape : evalStep env (.lift e) scope m.idle = .error (.fault .underflow) m.idle := by
        rw [evalStep,getBind,if_pos outside]; rfl
      exact .done (turnEvalError at_ shape (by intro v h; cases h)) (.fails at_ (.below e outside))
    · by_cases few : m.idle.tower.length - m.idle.depth < 2
      · have shape : evalStep env (.lift e) scope m.idle = .error (.dissonance (.wrongMode m.mode .lift)) m.idle := by
          rw [evalStep,getBind,if_neg outside,if_pos few]; rfl
        refine .done (turnEvalError at_ shape (fatalOther (by simp))) (.fails at_ (.bottom e ?_ ?_))
        · exact Nat.le_of_not_lt outside
        · change ¬ m.idle.depth + 1 < m.idle.tower.length
          omega
      · have shape : evalStep env (.lift e) scope m.idle =
            .ok (.eval e scope) { m.idle with stack := .liftK m.depth :: m.stack, depth := m.depth + 1 } := by
          rw [evalStep,getBind,if_neg outside,if_neg few]; rfl
        refine .more (turnEval at_ shape) (.lift at_ ?_)
        change m.idle.depth + 1 < m.idle.tower.length
        omega

end Taken

theorem plainFatal {r : Raise} (h : Builtins.Plain r) : Fatal r := by
  cases h <;> intro v same <;> cases same

theorem nestingHead {f : Value} {args : List Value} (h : args[0]? = some f) (name : Sym) :
    solveNesting (.builtin name args) = solveNesting f + 1 := by
  cases args with
  | nil => cases h
  | cons g rest => cases h; simp only [solveNesting,solveNestingHead]

/- `apply` calls itself on the first argument of a `solve`, which is nested one level less. -/
theorem applyNested {name : Sym} {args : List Value} {v f a : Value} {post : PostOp}
    (h : Builtins.call name (args ++ [v]) = .ok (.apply f a post)) :
    solveNesting f < solveNesting (.builtin name args) := by
  obtain ⟨_,first,second,_⟩ := Builtins.callApply h
  cases args with
  | nil => cases second
  | cons g rest =>
    rw [nestingHead (f := f) (by simpa using first)]
    exact Nat.lt_succ_self _

theorem applyWithinError {n : Nat} {f v : Value} {m m' : Continuation} {r : Raise}
    (enough : solveNesting f < n) (h : applyWithin n f v m = .error r m') : Rejects f v r := by
  induction n generalizing f v m with
  | zero => omega
  | succ n ih =>
    cases f with
    | closure param body env => cases h
    | builtin name args =>
      simp only [applyWithin] at h
      split at h
      · cases h
      · rename_i full
        have full' : ¬ args.length + 1 < (Builtins.arity name).getD 0 := by simpa using full
        cases called : Builtins.call name (args ++ [v]) with
        | error q => rw [called] at h; cases h; exact .call full' called
        | ok q =>
          rw [called] at h
          cases q with
          | done q => cases h
          | apply g a post =>
            have less := applyNested called
            exact .inner full' called (ih (by omega) h)
    | _ => cases h; exact .other v (by simp) (by simp)

theorem rejectsFatal {f v : Value} {r : Raise} (h : Rejects f v r) : Fatal r := by
  induction h with
  | other v closure builtin => exact fatalOther (by simp)
  | call full called => exact plainFatal (Builtins.plainCall (by simpa using full) _ called)
  | inner full called inner ih => exact ih

theorem resolveError {env : Env} {name : Sym} {g : Genus} {r : Raise} (h : env.resolve name g = .error r) :
    r = .dissonance (.unresolved name g) := by
  unfold Env.resolve at h
  split at h
  · cases h
  · split at h <;> cases h
    rfl

section Taken
variable {env : Env} {m : Continuation} {v : Value} {frame : Frame} {rest : List Frame}

theorem answersTaken {c : Control} {pushed : List Frame} (at_ : m.control = .value v)
    (top : m.stack = frame :: rest) (h : Answers env frame v c pushed)
    (run : valueStep env frame v { m.idle with stack := rest } =
      .ok (.proceed c) { m.idle with stack := pushed ++ rest }) : Taken env m :=
  .more (turnValue at_ top run) (.answers at_ top h)

theorem refusesTaken {r : Raise} (at_ : m.control = .value v) (top : m.stack = frame :: rest)
    (h : Refuses env m frame v r) (fatal : Fatal r)
    (run : valueStep env frame v { m.idle with stack := rest } = .error r { m.idle with stack := rest }) :
    Taken env m :=
  .done (turnValueError at_ top run fatal) (.refuses at_ top h)

/- The two frames that apply a function value. -/
theorem appliesTaken {f a : Value} (at_ : m.control = .value v) (top : m.stack = frame :: rest)
    (shape : valueStep env frame v = do
      let c ← apply f a
      pure (.proceed c))
    (good : ∀ c posts, Enters f a c posts → Answers env frame v c (posts.map .builtinPost))
    (bad : ∀ r, Rejects f a r → Refuses env m frame v r) : Taken env m := by
  cases applied : apply f a { m.idle with stack := rest } with
  | ok c m' =>
    obtain ⟨posts,enters,rfl⟩ := applyWithinOk applied
    refine answersTaken at_ top (good c posts enters) ?_
    rw [shape]
    exact bindOk applied
  | error r m' =>
    have rejects := applyWithinError (Nat.lt_succ_self _) applied
    refine .done (turnValueError (n := m') at_ top ?_ (rejectsFatal rejects)) (.refuses at_ top (bad r rejects))
    rw [shape]
    exact bindError applied

theorem unwindUnfold (v : Value) (m : Continuation) : unwind (.user v) m =
    (match unwindFrames v m.thrown m.stack m.depth with
     | some (c,rest,depth) => (do set { m with stack := rest, depth := depth }; Pure.pure c : Machine Control)
     | none => dissonance (.user v)) m := rfl

theorem unwindSome {m : Continuation} {v : Value} {c : Control} {rest : List Frame} {d : Nat}
    (h : unwindFrames v m.thrown m.stack m.depth = some (c,rest,d)) :
    unwind (.user v) m = .ok c { m with stack := rest, depth := d } := by
  rw [unwindUnfold,h]; rfl

theorem unwindNone {m : Continuation} {v : Value} (h : unwindFrames v m.thrown m.stack m.depth = none) :
    unwind (.user v) m = .error (.dissonance (.user v)) m := by
  rw [unwindUnfold,h]; rfl

theorem clamaTaken {channel : Nat} (at_ : m.control = .value v) (top : m.stack = .clamaK channel :: rest) :
    Taken env m := by
  have thrown : turn env m =
      settle (.error (.dissonance (.user v)) { m.idle with stack := rest, thrown := channel }) := by
    simp only [turn,at_,top]; rfl
  cases h : unwindFrames v channel rest m.depth with
  | none =>
    refine .done (thrown.trans ?_) (.escaped at_ top h)
    simp only [settle,EStateM.run]
    rw [unwindNone (m := { m.idle with stack := rest, thrown := channel }) h]; rfl
  | some p =>
    obtain ⟨c,rest',d⟩ := p
    refine .more (thrown.trans ?_) (.caught at_ top h)
    simp only [settle,EStateM.run]
    rw [unwindSome (m := { m.idle with stack := rest, thrown := channel }) h]; rfl

theorem mitteTaken {i : Nat} (at_ : m.control = .value v) (top : m.stack = .mitteK i :: rest) : Taken env m := by
  cases cell : index m.tower i with
  | error r =>
    obtain ⟨none,rfl⟩ := indexError cell
    exact refusesTaken at_ top (.outside (by simpa using none)) (by intro v h; cases h) (liftError cell)
  | ok l =>
    have found := indexOk cell
    cases l with
    | writer p =>
      cases v with
      | cmd c => exact .more (turnValue at_ top (liftOk cell)) (.mitteK at_ top found rfl)
      | plan more => exact .more (turnValue at_ top (liftOk cell)) (.mitteK at_ top found rfl)
      | _ => exact refusesTaken at_ top (.mitteK found rfl) (fatalOther (by simp)) (liftOk cell)
    | _ => exact refusesTaken at_ top (.layer found (by simp)) (by intro v h; cases h) (liftOk cell)

theorem poneTaken {i : Nat} (at_ : m.control = .value v) (top : m.stack = .poneK i :: rest) : Taken env m := by
  cases cell : index m.tower i with
  | error r =>
    obtain ⟨none,rfl⟩ := indexError cell
    exact refusesTaken at_ top (.poneK (by simpa using none)) (by intro v h; cases h) (liftError cell)
  | ok l =>
    obtain ⟨inside,_⟩ := List.getElem?_eq_some_iff.mp (indexOk cell)
    exact .more (turnValue at_ top (liftOk cell)) (.poneK at_ top inside)

theorem perageTaken (at_ : m.control = .value v) (top : m.stack = .perageK :: rest) : Taken env m := by
  cases v with
  | plan p =>
    cases p with
    | nil => exact refusesTaken at_ top .premature (fatalOther (by simp)) rfl
    | cons c p => exact .done (turnValue at_ top rfl) (.commit at_ top (by simp))
  | _ => exact refusesTaken at_ top (.unconsecrated (by simp)) (fatalOther (by simp)) rfl

theorem valueTaken (at_ : m.control = .value v) (top : m.stack = frame :: rest) : Taken env m := by
  cases frame with
  | appArg a scope => exact answersTaken at_ top (.appArg a scope v) rfl
  | appCall f => exact appliesTaken at_ top rfl (fun c posts => .appCall) (fun r => .appCall)
  | fixK f scope => exact appliesTaken at_ top rfl (fun c posts => .fixK) (fun r => .fixK)
  | ifK t e scope =>
    cases v with
    | bool b =>
      cases b with
      | true => exact answersTaken at_ top (.ifTrue t e scope) rfl
      | false => exact answersTaken at_ top (.ifFalse t e scope) rfl
    | _ => exact refusesTaken at_ top (.ifK (by simp)) (fatalOther (by simp)) rfl
  | bindK name k scope => exact answersTaken at_ top (.bindK name k scope v) rfl
  | returnK => exact .done (turnValue at_ top rfl) (.cadence at_ top)
  | clamaK channel => exact clamaTaken at_ top
  | recipeH name handler scope channel => exact answersTaken at_ top (.recipeH name handler scope channel v) rfl
  | poneK i => exact poneTaken at_ top
  | mitteK i => exact mitteTaken at_ top
  | perageK => exact perageTaken at_ top
  | resolveK name scope =>
    cases v with
    | genus g =>
      cases found : env.resolve name g with
      | ok e => exact answersTaken at_ top (.resolveK found) (liftOk found)
      | error r =>
        refine refusesTaken at_ top (.resolveK found) ?_ (liftError found)
        rw [resolveError found]
        exact fatalOther (by simp)
    | _ => exact refusesTaken at_ top (.genus (by simp)) (fatalOther (by simp)) rfl
  | liftK d => exact .more (turnValue at_ top rfl) (.liftK at_ top)
  | builtinPost post =>
    cases applied : Builtins.applyPost post v with
    | ok r => exact answersTaken at_ top (.builtinPost applied) (liftOk applied)
    | error r => exact refusesTaken at_ top (.builtinPost applied) (plainFatal (Builtins.plainApplyPost _ _ _ applied)) (liftError applied)

end Taken

theorem taken (env : Env) (m : Continuation) : Taken env m := by
  cases at_ : m.control with
  | eval e scope => exact evalTaken env m at_
  | value v =>
    cases top : m.stack with
    | nil => exact .done (by simp only [turn,at_,top]) (.dry at_ top)
    | cons frame rest => exact valueTaken at_ top

theorem turnStep {env : Env} {m m' : Continuation} (h : turn env m = .more m') : Step env m m' := by
  cases taken env m with
  | more same step => rw [same] at h; cases h; exact step
  | done same stop => rw [same] at h; cases h

theorem turnStop {env : Env} {m : Continuation} {r : Verdict} (h : turn env m = .done r) : Stops env m r := by
  cases taken env m with
  | more same step => rw [same] at h; cases h
  | done same stop => rw [same] at h; cases h; exact stop

end Officium
