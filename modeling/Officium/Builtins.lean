import Officium.Dissonance

/-! The builtin table. Arguments are read by index as the source does, so a call with too
few of them is a fault here as it is a panic there. -/
namespace Officium.Builtins

def safeForce : Scalar := 1e-3
def solveK : Scalar := 0.5

inductive BuiltinResult where
  | done (v : Value)
  | apply (f arg : Value) (post : PostOp)

def num : Value → Except Raise Scalar
  | .num n => .ok n
  | other => failure (.dissonant "num" other.ty)

def applyPost : PostOp → Value → Except Raise Value
  | .solveDv, .num force => .ok (.num (force * solveK))
  | .solveDv, other => failure (.dissonant "num" other.ty)

def arity (name : Sym) : Option Nat :=
  match name with
  | "add" | "sub" | "mul" | "div" | "eq" | "le" | "lt" => some 2
  | "dist" | "mass" | "genus" | "outgassing" => some 1
  | "safe" => some 2
  | "solve" => some 2
  | "deflect" => some 1
  | "target" | "dv_of" | "at" => some 1
  | "cmd" => some 3
  | "plan_of" => some 1
  | "corpus" => some 4
  | "not" => some 1
  | _ => none

def recordGet (v : Value) (key : Sym) : Except Raise Value :=
  match v with
  | .record fields =>
    match fields.lookup key with
    | some x => .ok x
    | none => failure (.unboundVar key)
  | other => failure (.dissonant "record" other.ty)

def fieldOf : Value → Except Raise Field
  | .field f => .ok f
  | other => failure (.dissonant "field" other.ty)

/- The second argument of `corpus`: a genus, or a string that names one. -/
def genusArg : Value → Except Raise Genus
  | .genus g => .ok g
  | .str s => .ok s
  | other => failure (.dissonant "genus" other.ty)

def makeCorpus (id : UInt64) (genus : Genus) (mass dist : Scalar) : Value :=
  .record (insertField "dist" (.num dist) (insertField "mass" (.num mass)
    (insertField "genus" (.genus genus) (insertField "id" (.num id.toFloat) []))))

def call (name : Sym) (args : List Value) : Except Raise BuiltinResult :=
  match name with
  | "add" => do
    let a ← num (← index args 0)
    let b ← num (← index args 1)
    return .done (.num (a + b))
  | "sub" => do
    let a ← num (← index args 0)
    let b ← num (← index args 1)
    return .done (.num (a - b))
  | "mul" => do
    let a ← num (← index args 0)
    let b ← num (← index args 1)
    return .done (.num (a * b))
  | "div" => do
    let a ← num (← index args 0)
    let b ← num (← index args 1)
    return .done (.num (a / b))
  | "eq" => do
    let a ← index args 0
    let b ← index args 1
    return .done (.bool (a.eq b))
  | "le" => do
    let a ← num (← index args 0)
    let b ← num (← index args 1)
    return .done (.bool (a ≤ b))
  | "lt" => do
    let a ← num (← index args 0)
    let b ← num (← index args 1)
    return .done (.bool (a < b))
  | "not" => do
    match ← index args 0 with
    | .bool b => return .done (.bool (!b))
    | other => failure (.dissonant "bool" other.ty)
  | "dist" => do return .done (← recordGet (← index args 0) "dist")
  | "mass" => do return .done (← recordGet (← index args 0) "mass")
  | "genus" => do return .done (← recordGet (← index args 0) "genus")
  | "outgassing" => do
    match recordGet (← index args 0) "outgassing" with
    | .ok v => return .done v
    | .error _ => return .done (.num 0.1)
  | "safe" => do
    let m ← num (← recordGet (← index args 0) "mass")
    let d ← num (← recordGet (← index args 0) "dist")
    let g ← num (← index args 1)
    return .done (.bool (g * m / (d * d) < safeForce))
  | "solve" => do return .apply (← index args 0) (← index args 1) .solveDv
  | "deflect" => do return .done (.field ⟨1,Vec3.alongX (← num (← index args 0)),0⟩)
  | "target" => do return .done (.num (← fieldOf (← index args 0)).target.toFloat)
  | "dv_of" => do return .done (.num (← fieldOf (← index args 0)).dv.x)
  | "at" => do return .done (.num (← fieldOf (← index args 0)).at_.toFloat)
  | "cmd" => do
    let target ← num (← index args 0)
    let dv ← num (← index args 1)
    let at_ ← num (← index args 2)
    return .done (.cmd ⟨target.toUInt64,Vec3.alongX dv,at_.toUInt64⟩)
  | "plan_of" => do
    let f ← fieldOf (← index args 0)
    return .done (.plan [⟨f.target,f.dv,f.at_⟩])
  | "corpus" => do
    let id ← num (← index args 0)
    let genus ← genusArg (← index args 1)
    let mass ← num (← index args 2)
    let dist ← num (← index args 3)
    return .done (makeCorpus id.toUInt64 genus mass dist)
  | _ => failure (.unboundVar name)

def value (name : Sym) : Option Value := (arity name).map (fun _ => .builtin name [])

/- The errors the table can raise given enough arguments: a value of another shape, a missing name. -/
inductive Plain : Raise → Prop where
  | dissonant (want got) : Plain (.dissonance (.dissonant want got))
  | unboundVar (name) : Plain (.dissonance (.unboundVar name))

def PlainOnly {α : Type} (x : Except Raise α) : Prop := ∀ r, x = .error r → Plain r

/- A record without the field is given a value. -/
theorem callRecord (r : Value) : call "outgassing" [r] =
    match recordGet r "outgassing" with
    | .ok v => .ok (.done v)
    | .error _ => .ok (.done (.num 0.1)) := rfl

section Errors

theorem plainOk {α : Type} (a : α) : PlainOnly (.ok a : Except Raise α) := by
  intro r h; cases h

theorem plainBind {α β : Type} {x : Except Raise α} {f : α → Except Raise β}
    (hx : PlainOnly x) (hf : ∀ a, PlainOnly (f a)) : PlainOnly (x >>= f) := by
  intro r h
  cases x with
  | ok a => exact hf a r h
  | error q => cases h; exact hx _ rfl

theorem plainDissonant {α : Type} (want got : String) : PlainOnly (failure (.dissonant want got) : Except Raise α) := by
  intro r h; cases h; exact .dissonant want got

theorem plainUnbound {α : Type} (name : Sym) : PlainOnly (failure (.unboundVar name) : Except Raise α) := by
  intro r h; cases h; exact .unboundVar name

theorem plainIndex {α : Type} {xs : List α} {i : Nat} (inside : i < xs.length) : PlainOnly (index xs i) := by
  intro r h
  have none := (indexError h).1
  rw [List.getElem?_eq_getElem inside] at none
  cases none

theorem plainNum (v : Value) : PlainOnly (num v) := by
  cases v <;> first | exact plainOk _ | exact plainDissonant _ _

theorem plainFieldOf (v : Value) : PlainOnly (fieldOf v) := by
  cases v <;> first | exact plainOk _ | exact plainDissonant _ _

theorem plainGenusArg (v : Value) : PlainOnly (genusArg v) := by
  cases v <;> first | exact plainOk _ | exact plainDissonant _ _

theorem plainRecordGet (v : Value) (key : Sym) : PlainOnly (recordGet v key) := by
  cases v with
  | record fields =>
    simp only [recordGet]
    split
    · exact plainOk _
    · exact plainUnbound key
  | _ => exact plainDissonant _ _

theorem plainApplyPost (post : PostOp) (v : Value) : PlainOnly (applyPost post v) := by
  cases v <;> first | exact plainOk _ | exact plainDissonant _ _

/- With as many arguments as the arity asks for, no argument is read out of range. -/
theorem plainCall {name : Sym} {args : List Value} (enough : (arity name).getD 0 ≤ args.length) :
    PlainOnly (call name args) := by
  unfold call
  split
  case h_22 => exact plainUnbound name
  case h_8 =>
    have inside : 1 ≤ args.length := enough
    refine plainBind (plainIndex (by omega)) (fun v => ?_)
    cases v <;> first | exact plainOk _ | exact plainDissonant _ _
  case h_12 =>
    have inside : 1 ≤ args.length := enough
    refine plainBind (plainIndex (by omega)) (fun v => ?_)
    split <;> exact plainOk _
  all_goals
    simp only [arity,Option.getD_some] at enough
    repeat first
      | exact plainOk _
      | exact plainIndex (by omega)
      | exact plainNum _
      | exact plainFieldOf _
      | exact plainGenusArg _
      | exact plainRecordGet _ _
      | refine plainBind ?_ (fun _ => ?_)

def DoneOnly (x : Except Raise BuiltinResult) : Prop := ∀ f arg post, x ≠ .ok (.apply f arg post)

theorem doneOk (v : Value) : DoneOnly (.ok (.done v)) := by
  intro f arg post h; cases h

theorem doneFailure (d : Dissonance) : DoneOnly (failure d) := by
  intro f arg post h; cases h

theorem doneBind {α : Type} {x : Except Raise α} {f : α → Except Raise BuiltinResult}
    (hf : ∀ a, DoneOnly (f a)) : DoneOnly (x >>= f) := by
  cases x with
  | ok a => exact hf a
  | error r => intro g arg post h; cases h

/- Only `solve` asks for an application: of its first argument to its second. -/
theorem callApply {name : Sym} {args : List Value} {f arg : Value} {post : PostOp}
    (h : call name args = .ok (.apply f arg post)) :
    name = "solve" ∧ args[0]? = some f ∧ args[1]? = some arg ∧ post = .solveDv := by
  have onlySolve (done : DoneOnly (call name args)) : False := done f arg post h
  by_cases same : name = "solve"
  · subst same
    simp only [call] at h
    cases first : index args 0 with
    | error r => rw [first] at h; cases h
    | ok a =>
      cases second : index args 1 with
      | error r => rw [first,second] at h; cases h
      | ok b =>
        rw [first,second] at h
        cases h
        exact ⟨rfl,indexOk first,indexOk second,rfl⟩
  · refine (onlySolve ?_).elim
    unfold call
    split
    case h_14 => exact absurd rfl same
    all_goals
      repeat first
        | exact doneOk _
        | exact doneFailure _
        | refine doneBind (fun _ => ?_)
        | split

end Errors

end Officium.Builtins
