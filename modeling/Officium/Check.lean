import Officium.Library.Bounded
import Officium.Builtins
import Officium.Env

/-! The static checker. What `infer` changes is the substitution and the deferred predicates;
the program and a verse's own four type variables are fixed when the checker is made. The native
recursion is cut off after `n` nested calls, so a check that runs forever answers at no `n`. -/
namespace Officium
open Bounded (Comp)

/- How `{:?}` prints a mode and an operation. -/
def Mode.debug : Mode → String
  | .dorian => "Dorian"
  | .hypodorian => "Hypodorian"
  | .phrygian => "Phrygian"
  | .hypophrygian => "Hypophrygian"
  | .lydian => "Lydian"
  | .hypolydian => "Hypolydian"
  | .mixolydian => "Mixolydian"
  | .hypomixolydian => "Hypomixolydian"

def OpKind.debug : OpKind → String
  | .nihil => "Nihil"
  | .clama => "Clama"
  | .recipe => "Recipe"
  | .lege => "Lege"
  | .pone => "Pone"
  | .mitte => "Mitte"
  | .perage => "Perage"
  | .lift => "Lift"

namespace Check

inductive Ty where
  | var (i : Nat)
  | num
  | str
  | bool
  | unit
  | genus
  | corpus
  | field
  | plan
  | cmd
  | fn (a r : Ty)
  deriving DecidableEq, Repr

def Ty.hint : Ty → String
  | var _ => "?"
  | num => "num"
  | str => "str"
  | bool => "bool"
  | unit => "unit"
  | genus => "genus"
  | corpus => "record"
  | field => "field"
  | plan => "plan"
  | cmd => "cmd"
  | fn _ _ => "closure"

def fun2 (a b r : Ty) : Ty := .fn a (.fn b r)

structure Pred where
  ty : Ty
  allowed : List String
  want : String

inductive Clash where
  | types (want got : String)
  | infinite
  | unbound (name : Sym)
  | mode (mode : Mode) (op : OpKind)

def Clash.describe : Clash → String
  | types want got => s!"type clash: want {want}, got {got}"
  | infinite => "infinite type (the stretto swallows itself)"
  | unbound n => s!"unbound name '{n}'"
  | mode m op =>
    let m := m.debug
    let op := op.debug
    s!"op {op} is illegal in {m}"

/- The per-verse type variables: the input, the state cell, the thrown value, the cadence. -/
structure Cells where
  arg : Ty
  state : Ty
  throw : Ty
  result : Ty

structure Checker where
  prog : Program
  cells : Cells

/- What checking changes. -/
structure Store where
  subst : List (Option Ty)
  preds : List Pred

inductive Halt where
  | clash (c : Clash)
  | fault (f : Fault)

abbrev CheckM := Comp Store Halt

abbrev Gamma := List (Sym × Ty)

def clash {α : Type} (c : Clash) : CheckM α := .fail (.clash c)

def fresh : CheckM Ty := do
  let c ← Comp.state
  Comp.update (fun c => { c with subst := c.subst ++ [none] })
  pure (.var c.subst.length)

def want (p : Pred) : CheckM Unit := Comp.update (fun c => { c with preds := c.preds ++ [p] })

def bindVar (i : Nat) (t : Ty) : CheckM Unit := Comp.update (fun c => { c with subst := c.subst.set i (some t) })

/- Follow the substitution to the representative of `t`. -/
def shallow : Nat → Ty → CheckM Ty
  | 0, _ => .cut
  | n+1, .var i => do
    let c ← Comp.state
    match c.subst[i]? with
    | none => .fail (.fault .index)
    | some none => pure (.var i)
    | some (some next) => shallow n next
  | _+1, t => pure t

def occurs : Nat → Nat → Ty → CheckM Bool
  | 0, _, _ => .cut
  | n+1, v, t => do
    match ← shallow n t with
    | .var i => pure (i == v)
    | .fn a r => do
      if ← occurs n v a then pure true
      else occurs n v r
    | _ => pure false

/- An unbound variable met by a type that is not itself. -/
def assign (n i : Nat) (t : Ty) : CheckM Unit := do
  if ← occurs n i t then clash .infinite
  else bindVar i t

def unify : Nat → Ty → Ty → CheckM Unit
  | 0, _, _ => .cut
  | n+1, a, b => do
    let a ← shallow n a
    let b ← shallow n b
    match a, b with
    | .var i, .var j => if i = j then pure () else assign n i (.var j)
    | .var i, t => assign n i t
    | t, .var i => assign n i t
    | .fn a1 r1, .fn a2 r2 => do
      unify n a1 a2
      unify n r1 r2
    | x, y => if x = y then pure () else clash (.types x.hint y.hint)

def checkMode (mode : Mode) (op : OpKind) : CheckM Unit :=
  if mode.allows op then pure () else clash (.mode mode op)

def checkPred (n : Nat) (p : Pred) : CheckM Unit := do
  match ← shallow n p.ty with
  | .var _ => pure ()
  | t => if p.allowed.contains t.hint then pure () else clash (.types p.want t.hint)

def checkEach (n : Nat) : List Pred → CheckM Unit
  | [] => pure ()
  | p :: rest => do
    checkPred n p
    checkEach n rest

def checkPreds (n : Nat) : CheckM Unit := do
  let c ← Comp.state
  checkEach n c.preds

def typeOfValue : Value → Ty
  | .unit => .unit
  | .num _ => .num
  | .bool _ => .bool
  | .genus _ => .genus
  | .str _ => .str
  | .cmd _ => .cmd
  | .plan _ => .plan
  | .field _ => .field
  | .record _ => .corpus
  | .closure _ _ _ | .builtin _ _ => .unit

def pedalIn (name : Sym) : List Fugue → Option Ty
  | [] => none
  | f :: rest =>
    match f.pedals.find? (fun p => p.1 == name) with
    | some p => some (typeOfValue p.2)
    | none => pedalIn name rest

def pedal (prog : Program) (name : Sym) : Option Ty := pedalIn name prog.fugues

/- The signatures, one for each name of the builtin table. -/
def builtin (name : Sym) : CheckM (Option Ty) :=
  match name with
  | "add" | "sub" | "mul" | "div" => pure (some (fun2 .num .num .num))
  | "le" | "lt" => pure (some (fun2 .num .num .bool))
  | "eq" => do
    let a ← fresh
    pure (some (fun2 a a .bool))
  | "not" => pure (some (.fn .bool .bool))
  | "dist" | "mass" | "outgassing" => pure (some (.fn .corpus .num))
  | "genus" => pure (some (.fn .corpus .genus))
  | "safe" => pure (some (fun2 .corpus .num .bool))
  | "solve" => do
    let a ← fresh
    pure (some (fun2 (.fn a .num) a .num))
  | "deflect" => pure (some (.fn .num .field))
  | "target" | "dv_of" | "at" => pure (some (.fn .field .num))
  | "cmd" => pure (some (fun2 .num .num (.fn .num .cmd)))
  | "plan_of" => pure (some (.fn .field .plan))
  | "corpus" => do
    let g ← fresh
    want ⟨g,["genus","str"],"genus"⟩
    pure (some (fun2 .num g (fun2 .num .num .corpus)))
  | _ => pure none

def lookup (prog : Program) (gamma : Gamma) (name : Sym) : CheckM Ty := do
  match gamma.find? (fun b => b.1 == name) with
  | some b => pure b.2
  | none =>
    match ← builtin name with
    | some t => pure t
    | none =>
      match pedal prog name with
      | some t => pure t
      | none => clash (.unbound name)

/- The real overloads of each fugue, then its tonal ones, fugue after fugue. -/
def overloads (prog : Program) : List Overload := prog.fugues.flatMap (fun f => f.real ++ f.tonal)

/- Every overload of the name must come to the one type `r`. -/
def fitOverloads (n : Nat) (infer : Expr → CheckM Ty) (name : Sym) (r : Ty) : List Overload → CheckM Unit
  | [] => pure ()
  | o :: rest =>
    if o.1.1 = name then do
      let t ← infer o.2
      unify n t r
      fitOverloads n infer name r rest
    else fitOverloads n infer name r rest

/- One statement of the bind spine: the type of its sung line and the type bound into scope. -/
def inferStmt (cells : Cells) (n : Nat) (infer : Expr → CheckM Ty) (mode : Mode) : Expr → CheckM (Ty × Ty)
  | .pone e => do
    checkMode mode .pone
    let t ← infer e
    unify n t cells.state
    pure (t,.unit)
  | .mitte e => do
    checkMode mode .mitte
    let t ← infer e
    want ⟨t,["cmd","plan"],"cmd"⟩
    pure (t,.unit)
  | other => do
    let t ← infer other
    pure (t,t)

def infer (c : Checker) : Nat → Mode → Gamma → Expr → CheckM Ty
  | 0, _, _, _ => .cut
  | n+1, mode, gamma, e =>
    match e with
    | .lit v => pure (typeOfValue v)
    | .var name => lookup c.prog gamma name
    | .lam x body => do
      let a ← fresh
      let r ← infer c n mode ((x,a) :: gamma) body
      pure (.fn a r)
    | .app f a => do
      let tf ← infer c n mode gamma f
      let ta ← infer c n mode gamma a
      let r ← fresh
      unify n tf (.fn ta r)
      pure r
    | .ifE cond t e => do
      let tc ← infer c n mode gamma cond
      unify n tc .bool
      let tt ← infer c n mode gamma t
      let te ← infer c n mode gamma e
      unify n tt te
      pure tt
    | .fix f => do
      let tf ← infer c n mode gamma f
      let a ← fresh
      unify n tf (.fn a a)
      pure a
    | .pure _ e => infer c n mode gamma e
    | .lift e => do
      checkMode mode .lift
      infer c n (.fromFinal mode.final_ false) gamma e
    | .ret _ e => do
      let t ← infer c n mode gamma e
      unify n t c.cells.result
      fresh
    | .bind _ m x k => do
      let bound ← inferStmt c.cells n (infer c n mode gamma) mode m
      infer c n mode ((x,bound.2) :: gamma) k
    | .arg => pure c.cells.arg
    | .ask name =>
      match pedal c.prog name with
      | some t => pure t
      | none => clash (.unbound name)
    | .resolve name genus => do
      let tg ← infer c n mode gamma genus
      unify n tg .genus
      let r ← fresh
      fitOverloads n (infer c n mode gamma) name r (overloads c.prog)
      pure r
    | .nihil => do
      checkMode mode .nihil
      fresh
    | .clama e => do
      checkMode mode .clama
      let t ← infer c n mode gamma e
      unify n t c.cells.throw
      fresh
    | .recipe body x handler => do
      checkMode mode .recipe
      let tb ← infer c n mode gamma body
      let th ← infer c n mode ((x,c.cells.throw) :: gamma) handler
      unify n tb th
      pure tb
    | .lege => do
      checkMode mode .lege
      pure c.cells.state
    | .pone e => do
      checkMode mode .pone
      let t ← infer c n mode gamma e
      unify n t c.cells.state
      pure .unit
    | .mitte e => do
      checkMode mode .mitte
      let t ← infer c n mode gamma e
      want ⟨t,["cmd","plan"],"cmd"⟩
      pure .unit
    | .perage e => do
      checkMode mode .perage
      let t ← infer c n mode gamma e
      unify n t .plan
      unify n .unit c.cells.result
      fresh

/- `Checker::new`: the four type variables are the first four of the substitution. -/
def Checker.new (prog : Program) : Checker := ⟨prog,⟨.var 0,.var 1,.var 2,.var 3⟩⟩

def Store.new : Store := ⟨[none,none,none,none],[]⟩

/- The bind spine of a sung verse, the type of each line collected on the way. -/
def inferSpine (c : Checker) (n : Nat) (mode : Mode) : Gamma → Expr → CheckM (List Ty)
  | gamma, .bind _ m x k => do
    let line ← inferStmt c.cells n (infer c n mode gamma) mode m
    let rest ← inferSpine c n mode ((x,line.2) :: gamma) k
    pure (line.1 :: rest)
  | gamma, terminal => do
    let _ ← infer c n mode gamma terminal
    pure []

/- The type sung by line `k`, counted from one; the couplet carries the result. -/
def sungType (c : Checker) (lines : List Ty) (k : Nat) : Ty :=
  if 7 ≤ k || lines.length < k then c.cells.result else lines.getD (k-1) c.cells.result

def discors {α : Type} (v : Versus) (describe : Clash → String) (x : CheckM α) : Comp Store Raise α :=
  x.mapError (fun
    | .clash c => .dissonance (.discors v.name (describe c))
    | .fault f => .fault f)

def rhymeClash (i j : Nat) (label : Char) (c : Clash) : String :=
  let why := c.describe
  s!"lines {i} and {j} rhyme on '{label}' but do not unify — {why}"

/- Line `i` against the lines from `j` on. -/
def rhymeWith (v : Versus) (n i : Nat) (label : Char) (a : Ty) (j : Nat) : List (Char × Ty) → Comp Store Raise Unit
  | [] => pure ()
  | (other,b) :: rest =>
    if label = other then do
      discors v (rhymeClash i j label) (unify n a b)
      rhymeWith v n i label a (j+1) rest
    else rhymeWith v n i label a (j+1) rest

def rhymeAll (v : Versus) (n i : Nat) : List (Char × Ty) → Comp Store Raise Unit
  | [] => pure ()
  | (label,a) :: rest => do
    rhymeWith v n i label a (i+1) rest
    rhymeAll v n (i+1) rest

def sungLines (c : Checker) (lines : List Ty) (rhymes : List (Char × String)) : List (Char × Ty) :=
  rhymes.zipIdx.map (fun r => (r.1.1,sungType c lines (r.2 + 1)))

def inferVersus (c : Checker) (n : Nat) (v : Versus) : Comp Store Raise Unit :=
  if v.rhymes.isEmpty then do
    let _ ← discors v Clash.describe (infer c n v.mode [] v.body)
    pure ()
  else do
    let lines ← discors v Clash.describe (inferSpine c n v.mode [] v.body)
    rhymeAll v n 1 (sungLines c lines v.rhymes)

/- `check_versus` up to its result, with the checker's last state still there to be read. -/
def checkVersusIn (prog : Program) (n : Nat) (v : Versus) : Comp Store Raise Unit := do
  inferVersus (Checker.new prog) n v
  discors v Clash.describe (checkPreds n)

def checkVersus (prog : Program) (n : Nat) (v : Versus) : Option (Except Raise Unit) :=
  (checkVersusIn prog n v Store.new).map (fun r => r.map Prod.fst)

def checkEvery (prog : Program) (n : Nat) : List Versus → Option (Except Raise Unit)
  | [] => some (.ok ())
  | v :: rest =>
    match checkVersus prog n v with
    | some (.ok ()) => checkEvery prog n rest
    | other => other

def checkProgram (n : Nat) (prog : Program) : Option (Except Raise Unit) := checkEvery prog n prog.verses

/- `check_program` returns `Ok`. -/
def Accepts (prog : Program) : Prop := ∃ n, checkProgram n prog = some (.ok ())

/- `check_versus` returns `Ok` with its checker in the state `s`. -/
def Checked (prog : Program) (v : Versus) (s : Store) : Prop :=
  ∃ n, Bounded.Returns (checkVersusIn prog n v) Store.new () s

end Check

end Officium
