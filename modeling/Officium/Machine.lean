import Officium.Library.Runs
import Officium.Builtins
import Officium.Env

/-! The explicit-stack evaluator. A method that takes `&mut Continuation` and returns a
`Result` is a state-and-error computation that keeps the continuation on either exit: `unwind`
reads what the failing step left behind. Fuel is counted in `resume` alone. -/
namespace Officium
open Runs (Turn)

abbrev Machine := EStateM Raise Continuation

inductive StepOut where
  | proceed (c : Control)
  | halt (o : VerseOutcome)

def emptyState : Value := .record []

/- `st` seeds the first `State` layer from the top, the empty record every later one. -/
def layersOf (st : Value) : List LayerKind → List Layer
  | [] => []
  | .maybe :: rest => .maybe :: layersOf st rest
  | .except :: rest => .except :: layersOf st rest
  | .state :: rest => .state st :: layersOf emptyState rest
  | .writer :: rest => .writer [] :: layersOf st rest
  | .commit :: rest => .commit :: layersOf st rest

def buildTower (mode : Mode) (st : Value) : List Layer := layersOf st mode.tower

def firstState : List Layer → Value
  | [] => .unit
  | .state v :: _ => v
  | _ :: rest => firstState rest

def firstPlan : List Layer → Plan
  | [] => []
  | .writer p :: _ => p
  | _ :: rest => firstPlan rest

def finish (tower : List Layer) (value : Option Value) (committed : Option Plan) : VerseOutcome :=
  ⟨value,firstState tower,firstPlan tower,committed⟩

namespace Machine

def lift {α : Type} (r : Except Raise α) : Machine α :=
  match r with
  | .ok a => pure a
  | .error e => throw e

def dissonance {α : Type} (d : Dissonance) : Machine α := throw (.dissonance d)

def push (f : Frame) : Machine Unit := modify (fun m => { m with stack := f :: m.stack })

end Machine

open Machine

/- `(depth..tower.len()).find(|i| tower[i].kind() == kind)`. -/
def findLayer (tower : List Layer) (depth : Nat) (kind : LayerKind) : Option Nat :=
  (List.range' depth (tower.length - depth)).find? (fun i => tower[i]?.map Layer.kind == some kind)

def layer (kind : LayerKind) (op : OpKind) : Machine Nat := do
  let m ← get
  match findLayer m.tower m.depth kind with
  | some i => pure i
  | none => dissonance (.wrongMode m.mode op)

/- Pops frames for a raised `User`: a handler of the same channel takes it, a lift frame
restores its depth, every other frame is dropped. -/
def unwindFrames (v : Value) (thrown : Nat) : List Frame → Nat → Option (Control × List Frame × Nat)
  | [], _ => none
  | .recipeH name handler scope channel :: rest, depth =>
    if channel = thrown then some (.eval handler (scope.bind name v),rest,depth)
    else unwindFrames v thrown rest depth
  | .liftK d :: rest, _ => unwindFrames v thrown rest d
  | _ :: rest, depth => unwindFrames v thrown rest depth

def unwind : Dissonance → Machine Control
  | .user v => do
    let m ← get
    match unwindFrames v m.thrown m.stack m.depth with
    | some (c,rest,depth) =>
      set { m with stack := rest, depth := depth }
      pure c
    | none => dissonance (.user v)
  | d => dissonance d

mutual
/- How deep `solve` is nested in the first argument of `solve`. -/
def solveNesting : Value → Nat
  | .builtin _ args => solveNestingHead args
  | _ => 0

def solveNestingHead : List Value → Nat
  | [] => 0
  | v :: _ => solveNesting v + 1
end

/- The native recursion of `apply` cut off after `n` nested calls. -/
def applyWithin : Nat → Value → Value → Machine Control
  | 0, _, _ => throw (.fault .recursion)
  | n+1, fn, arg =>
    match fn with
    | .closure param body env => pure (.eval body (env.bind param arg))
    | .builtin name args => do
      let args := args ++ [arg]
      if args.length < (Builtins.arity name).getD 0 then return .value (.builtin name args)
      match ← lift (Builtins.call name args) with
      | .done v => return .value v
      | .apply f arg post =>
        push (.builtinPost post)
        applyWithin n f arg
    | other => dissonance (.dissonant "closure" other.ty)

def apply (fn arg : Value) : Machine Control := applyWithin (solveNesting fn + 1) fn arg

def lookupVar (env : Env) (scope : Scope) (name : Sym) : Option Value :=
  match scope.lookup name with
  | some v => some v
  | none =>
    match Builtins.value name with
    | some v => some v
    | none => (env.ask name).toOption

def evalStep (env : Env) (e : Expr) (scope : Scope) : Machine Control :=
  match e with
  | .lit v => pure (.value v)
  | .var name =>
    match lookupVar env scope name with
    | some v => pure (.value v)
    | none => dissonance (.unboundVar name)
  | .lam param body => pure (.value (.closure param body scope))
  | .app f a => do
    push (.appArg a scope)
    pure (.eval f scope)
  | .ifE c t e => do
    push (.ifK t e scope)
    pure (.eval c scope)
  | .fix f => do
    push (.fixK f scope)
    pure (.eval f scope)
  | .pure _ e => pure (.eval e scope)
  | .ret _ e => do
    push .returnK
    pure (.eval e scope)
  | .bind _ mval name k => do
    push (.bindK name k scope)
    pure (.eval mval scope)
  | .arg => do
    let m ← get
    pure (.value m.arg)
  | .ask name => do
    let v ← lift (env.ask name)
    pure (.value v)
  | .resolve name genus => do
    push (.resolveK name scope)
    pure (.eval genus scope)
  | .nihil => do
    let _ ← layer .maybe .nihil
    dissonance .silent
  | .clama e => do
    let channel ← layer .except .clama
    push (.clamaK channel)
    pure (.eval e scope)
  | .recipe body name handler => do
    let channel ← layer .except .recipe
    push (.recipeH name handler scope channel)
    pure (.eval body scope)
  | .lege => do
    let i ← layer .state .lege
    let m ← get
    match ← lift (index m.tower i) with
    | .state v => pure (.value v)
    | _ => throw (.fault .unreachable)
  | .pone e => do
    let i ← layer .state .pone
    push (.poneK i)
    pure (.eval e scope)
  | .mitte e => do
    let i ← layer .writer .mitte
    push (.mitteK i)
    pure (.eval e scope)
  | .perage e => do
    let _ ← layer .commit .perage
    push .perageK
    pure (.eval e scope)
  | .lift e => do
    let m ← get
    if m.tower.length < m.depth then throw (.fault .underflow)
    else if m.tower.length - m.depth < 2 then dissonance (.wrongMode m.mode .lift)
    else do
      push (.liftK m.depth)
      modify (fun m => { m with depth := m.depth + 1 })
      pure (.eval e scope)

/- `fix f = f (\x -> (fix f) x)`: the argument re-enters the fixpoint when applied. -/
def selfRef (f : Expr) (scope : Scope) : Value :=
  .closure "$stretto" (.app (.fix f) (.var "$stretto")) scope

def appendPlan (i : Nat) (p : Plan) (more : Plan) : Machine StepOut := do
  modify (fun m => { m with tower := m.tower.set i (.writer (p ++ more)) })
  pure (.proceed (.value .unit))

def valueStep (env : Env) (frame : Frame) (value : Value) : Machine StepOut :=
  match frame with
  | .appArg a scope => do
    push (.appCall value)
    pure (.proceed (.eval a scope))
  | .appCall fn => do
    let c ← apply fn value
    pure (.proceed c)
  | .ifK t e scope =>
    match value with
    | .bool true => pure (.proceed (.eval t scope))
    | .bool false => pure (.proceed (.eval e scope))
    | other => dissonance (.dissonant "bool" other.ty)
  | .bindK name k scope => pure (.proceed (.eval k (scope.bind name value)))
  | .returnK => do
    let m ← get
    pure (.halt (finish m.tower (some value) none))
  | .clamaK channel => do
    modify (fun m => { m with thrown := channel })
    dissonance (.user value)
  | .recipeH _ _ _ _ => pure (.proceed (.value value))
  | .poneK i => do
    let m ← get
    let _ ← lift (index m.tower i)
    set { m with tower := m.tower.set i (.state value) }
    pure (.proceed (.value .unit))
  | .mitteK i => do
    let m ← get
    match ← lift (index m.tower i) with
    | .writer p =>
      match value with
      | .cmd c => appendPlan i p [c]
      | .plan more => appendPlan i p more
      | other => dissonance (.dissonant "cmd" other.ty)
    | _ => throw (.fault .unreachable)
  | .perageK =>
    match value with
    | .plan p =>
      if p.isEmpty then dissonance .premature
      else do
        let m ← get
        pure (.halt (finish m.tower (some .unit) (some p)))
    | _ => dissonance .unconsecrated
  | .resolveK name scope =>
    match value with
    | .genus g => do
      let overload ← lift (env.resolve name g)
      pure (.proceed (.eval overload scope))
    | other => dissonance (.dissonant "genus" other.ty)
  | .fixK f scope => do
    let c ← apply value (selfRef f scope)
    pure (.proceed c)
  | .liftK depth => do
    modify (fun m => { m with depth := depth })
    pure (.proceed (.value value))
  | .builtinPost post => do
    let v ← lift (Builtins.applyPost post value)
    pure (.proceed (.value v))

/- What the loop does with a step's result: a dissonance unwinds, a panic does not. -/
def settle : EStateM.Result Raise Continuation StepOut → Turn Continuation Verdict
  | .ok (.proceed c) m => .more { m with control := c }
  | .ok (.halt o) _ => .done (.ok o)
  | .error (.fault f) _ => .done (.error (.fault f))
  | .error (.dissonance d) m =>
    match (unwind d).run m with
    | .ok c m => .more { m with control := c }
    | .error r _ => .done (.error r)

/- `mem::replace(&mut m.control, Control::Value(Value::Unit))`: what a step finds in its place. -/
def Continuation.idle (m : Continuation) : Continuation := { m with control := .value .unit }

/- One turn of the loop in `resume`, after the fuel test. -/
def turn (env : Env) (m : Continuation) : Turn Continuation Verdict :=
  match m.control with
  | .eval e scope =>
    settle ((StepOut.proceed <$> evalStep env e scope).run m.idle)
  | .value v =>
    match m.stack with
    | [] => .done (.ok (finish m.tower (some v) none))
    | frame :: rest => settle ((valueStep env frame v).run { m.idle with stack := rest })

def resume (env : Env) (m : Continuation) : Nat → Verdict
  | 0 => failure (.outOfFuel m)
  | fuel+1 =>
    match turn env m with
    | .more m => resume env m fuel
    | .done r => r

def initial (mode : Mode) (body : Expr) (arg st : Value) : Continuation :=
  ⟨.eval body .empty,[],buildTower mode st,0,0,mode,arg⟩

def runVerse (env : Env) (mode : Mode) (body : Expr) (arg st : Value) (fuel : Nat) : Verdict :=
  resume env (initial mode body arg st) fuel

end Officium
