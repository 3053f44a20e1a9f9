import Officium.Steps

/-! The reference semantics of a verse: an environment-passing evaluator over the list of
layers, call by value and left to right. It has no stack: a lift is a deeper level for one
operand, a raise is an ending that names its layer, and whatever ends the verse ends it. -/
namespace Officium.Reference

/- How an evaluation ends: with a value, with a raise on an `Except` layer, or with the verse. -/
inductive Ending where
  | value (v : Value)
  | raised (channel : Nat) (v : Value)
  | ended (r : Verdict)

/- `none` where the fuel does not reach. -/
abbrev Result := Option (Ending × List Layer)

def andThen (o : Result) (k : Value → List Layer → Result) : Result :=
  match o with
  | some (.value v,tower) => k v tower
  | other => other

def give (v : Value) (tower : List Layer) : Result := some (.value v,tower)

def stop (r : Raise) (tower : List Layer) : Result := some (.ended (.error r),tower)

def halt (o : VerseOutcome) (tower : List Layer) : Result := some (.ended (.ok o),tower)

def dissonance (d : Dissonance) (tower : List Layer) : Result := stop (.dissonance d) tower

/- The topmost layer of a kind, the first `level` layers hidden. -/
def visible (tower : List Layer) (level : Nat) (kind : LayerKind) : Option Nat :=
  ((tower.drop level).findIdx? (fun l => l.kind == kind)).map (level + ·)

def onLayer (kind : LayerKind) (op : OpKind) (mode : Mode) (level : Nat) (tower : List Layer) (k : Nat → Result) : Result :=
  match visible tower level kind with
  | some i => k i
  | none => dissonance (.wrongMode mode op) tower

def issue (i : Nat) (cs : Plan) (tower : List Layer) : List Layer :=
  tower.modify i (fun
    | .writer p => .writer (p ++ cs)
    | l => l)

/- What `perage` makes of its operand. -/
def commit (v : Value) (tower : List Layer) : Result :=
  match v with
  | .plan [] => dissonance .premature tower
  | .plan p => halt (finish tower (some .unit) (some p)) tower
  | _ => dissonance .unconsecrated tower

/- The operand of the `Fix` a self-reference stands for. -/
def selfOperand (param : Sym) : Expr → Option Expr
  | .app (.fix f) (.var name) => if param = "$stretto" ∧ name = "$stretto" then some f else none
  | _ => none

section Apply
variable (eval : Scope → Expr → List Layer → Result)

/- A self-reference `\y -> (Fix f) y` applies the fixpoint, evaluated anew where the `Fix` stands. -/
def enter (param : Sym) (body : Expr) (env : Scope) (v : Value) (tower : List Layer) : Result :=
  match selfOperand param body with
  | some f => eval env (.app (.fix f) (.lit v)) tower
  | none => eval (env.bind param v) body tower

/- `solve` applies its first argument; the count bounds how deep that is nested. -/
def applyUpTo : Nat → Value → Value → List Layer → Result
  | 0, _, _, _ => none
  | n+1, fn, v, tower =>
    match fn with
    | .closure param body env => enter eval param body env v tower
    | .builtin name args =>
      if args.length + 1 < (Builtins.arity name).getD 0 then give (.builtin name (args ++ [v])) tower
      else
        match Builtins.call name (args ++ [v]) with
        | .ok (.done r) => give r tower
        | .ok (.apply g a post) =>
          andThen (applyUpTo n g a tower) (fun r tower =>
            match Builtins.applyPost post r with
            | .ok r => give r tower
            | .error q => stop q tower)
        | .error r => stop r tower
    | other => dissonance (.dissonant "closure" other.ty) tower

def applyTo (fn v : Value) (tower : List Layer) : Result := applyUpTo eval (solveNesting fn + 1) fn v tower

end Apply

def eval (env : Env) (mode : Mode) (arg : Value) : Nat → Nat → Scope → Expr → List Layer → Result
  | 0, _, _, _, _ => none
  | n+1, level, scope, e, tower =>
    match e with
    | .lit v => give v tower
    | .var name =>
      match lookupVar env scope name with
      | some v => give v tower
      | none => dissonance (.unboundVar name) tower
    | .lam param body => give (.closure param body scope) tower
    | .app f a =>
      andThen (eval env mode arg n level scope f tower) (fun fn tower =>
        andThen (eval env mode arg n level scope a tower) (fun v tower =>
          applyTo (eval env mode arg n level) fn v tower))
    | .ifE c t e =>
      andThen (eval env mode arg n level scope c tower) (fun v tower =>
        match v with
        | .bool true => eval env mode arg n level scope t tower
        | .bool false => eval env mode arg n level scope e tower
        | other => dissonance (.dissonant "bool" other.ty) tower)
    | .fix f =>
      andThen (eval env mode arg n level scope f tower) (fun fn tower =>
        applyTo (eval env mode arg n level) fn (selfRef f scope) tower)
    | .pure _ e => eval env mode arg n level scope e tower
    | .ret _ e =>
      andThen (eval env mode arg n level scope e tower) (fun v tower =>
        halt (finish tower (some v) none) tower)
    | .bind _ m name k =>
      andThen (eval env mode arg n level scope m tower) (fun v tower =>
        eval env mode arg n level (scope.bind name v) k tower)
    | .arg => give arg tower
    | .ask name =>
      match env.ask name with
      | .ok v => give v tower
      | .error r => stop r tower
    | .resolve name genus =>
      andThen (eval env mode arg n level scope genus tower) (fun v tower =>
        match v with
        | .genus g =>
          match env.resolve name g with
          | .ok overload => eval env mode arg n level scope overload tower
          | .error r => stop r tower
        | other => dissonance (.dissonant "genus" other.ty) tower)
    | .nihil => onLayer .maybe .nihil mode level tower (fun _ => dissonance .silent tower)
    | .clama e =>
      onLayer .except .clama mode level tower (fun i =>
        andThen (eval env mode arg n level scope e tower) (fun v tower => some (.raised i v,tower)))
    | .recipe body name handler =>
      onLayer .except .recipe mode level tower (fun i =>
        match eval env mode arg n level scope body tower with
        | some (.raised j v,tower) =>
          if j = i then eval env mode arg n level (scope.bind name v) handler tower
          else some (.raised j v,tower)
        | other => other)
    | .lege => onLayer .state .lege mode level tower (fun _ => give (firstState (tower.drop level)) tower)
    | .pone e =>
      onLayer .state .pone mode level tower (fun i =>
        andThen (eval env mode arg n level scope e tower) (fun v tower =>
          give .unit (tower.set i (.state v))))
    | .mitte e =>
      onLayer .writer .mitte mode level tower (fun i =>
        andThen (eval env mode arg n level scope e tower) (fun v tower =>
          match commands v with
          | some cs => give .unit (issue i cs tower)
          | none => dissonance (.dissonant "cmd" v.ty) tower))
    | .perage e =>
      onLayer .commit .perage mode level tower (fun _ =>
        andThen (eval env mode arg n level scope e tower) commit)
    | .lift e =>
      if level + 1 < tower.length then eval env mode arg n (level+1) scope e tower
      else dissonance (.wrongMode mode .lift) tower

/- What a verse comes to with this much fuel. -/
def verse (env : Env) (mode : Mode) (body : Expr) (arg st : Value) (n : Nat) : Option Verdict :=
  match eval env mode arg n 0 .empty body (buildTower mode st) with
  | none => none
  | some (.value v,tower) => some (.ok (finish tower (some v) none))
  | some (.raised _ v,_) => some (failure (.user v))
  | some (.ended r,_) => some r

end Officium.Reference
