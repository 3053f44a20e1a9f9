import Officium.Types

/-! The paused machine and everything that can stop it. `OutOfFuel` carries the whole
continuation, so the machine's state comes before the errors. A `Raise` is what ends a Rust
call early: a `Dissonance`, or a panic, which the source never returns as a value. -/
namespace Officium

inductive PostOp where | solveDv
  deriving DecidableEq, Repr

inductive Control where
  | eval (e : Expr) (scope : Scope)
  | value (v : Value)

inductive Layer where
  | maybe
  | except
  | state (v : Value)
  | writer (p : Plan)
  | commit

def Layer.kind : Layer → LayerKind
  | maybe => .maybe
  | except => .except
  | state _ => .state
  | writer _ => .writer
  | commit => .commit

inductive Frame where
  | appArg (a : Expr) (scope : Scope)
  | appCall (f : Value)
  | ifK (t e : Expr) (scope : Scope)
  | bindK (name : Sym) (k : Expr) (scope : Scope)
  | returnK
  | clamaK (channel : Nat)
  | recipeH (name : Sym) (handler : Expr) (scope : Scope) (channel : Nat)
  | poneK (index : Nat)
  | mitteK (index : Nat)
  | perageK
  | resolveK (name : Sym) (scope : Scope)
  | fixK (f : Expr) (scope : Scope)
  | liftK (depth : Nat)
  | builtinPost (post : PostOp)

/- `Vec<Frame>` with its top first. -/
structure Continuation where
  control : Control
  stack : List Frame
  tower : List Layer
  depth : Nat
  thrown : Nat
  mode : Mode
  arg : Value

structure VerseOutcome where
  value : Option Value
  state : Value
  plan : Plan
  committed : Option Plan

inductive Dissonance where
  | wrongMode (mode : Mode) (op : OpKind)
  | unresolved (name : Sym) (genus : Genus)
  | silent
  | user (v : Value)
  | dissonant (want got : String)
  | premature
  | unconsecrated
  | unboundVar (name : Sym)
  | discors (versus : Sym) (msg : String)
  | outOfFuel (cont : Continuation)
  | parse (line : Nat) (msg : String)

inductive Fault where | unreachable | index | underflow | recursion
  deriving DecidableEq, Repr

inductive Raise where
  | dissonance (d : Dissonance)
  | fault (f : Fault)

abbrev Verdict := Except Raise VerseOutcome

/- `v[i]` of a slice. -/
def index {α : Type} (xs : List α) (i : Nat) : Except Raise α :=
  match xs[i]? with
  | some x => .ok x
  | none => .error (.fault .index)

theorem indexOk {α : Type} {xs : List α} {i : Nat} {x : α} (h : index xs i = .ok x) : xs[i]? = some x := by
  unfold index at h
  split at h
  · rename_i y found; cases h; exact found
  · cases h

theorem indexError {α : Type} {xs : List α} {i : Nat} {r : Raise} (h : index xs i = .error r) :
    xs[i]? = none ∧ r = .fault .index := by
  unfold index at h
  split at h
  · cases h
  · rename_i found; cases h; exact ⟨found,rfl⟩

/- A `Result` whose only error is a `Dissonance`. -/
def failure {α : Type} (d : Dissonance) : Except Raise α := .error (.dissonance d)

end Officium
