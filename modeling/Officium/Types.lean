/-! Values, modes and the Core IR. The IR, the runtime values and the lexical scopes
are one mutual family: a literal carries a value, a closure carries code and a scope.
`f64` is Lean's `Float`, `u64` is `UInt64`; a `BTreeMap` is its list of entries in key order. -/
namespace Officium

abbrev Sym := String
abbrev Genus := String
abbrev Scalar := Float
abbrev BodyId := UInt64
abbrev Micros := UInt64

inductive Final where | re | mi | fa | sol
  deriving DecidableEq, Repr

inductive Mode where
  | dorian | hypodorian | phrygian | hypophrygian | lydian | hypolydian | mixolydian | hypomixolydian
  deriving DecidableEq, Repr

inductive OpKind where | nihil | clama | recipe | lege | pone | mitte | perage | lift
  deriving DecidableEq, Repr

inductive LayerKind where | maybe | except | state | writer | commit
  deriving DecidableEq, Repr

namespace Mode

def final_ : Mode → Final
  | dorian | hypodorian => .re
  | phrygian | hypophrygian => .mi
  | lydian | hypolydian => .fa
  | mixolydian | hypomixolydian => .sol

def fromFinal : Final → Bool → Mode
  | .re, false => dorian
  | .re, true => hypodorian
  | .mi, false => phrygian
  | .mi, true => hypophrygian
  | .fa, false => lydian
  | .fa, true => hypolydian
  | .sol, false => mixolydian
  | .sol, true => hypomixolydian

/- The layers of the mode's monad stack, top first. -/
def tower : Mode → List LayerKind
  | dorian => [.maybe]
  | hypodorian => [.maybe,.maybe]
  | phrygian => [.except]
  | hypophrygian => [.except,.except]
  | lydian => [.state]
  | hypolydian => [.state,.state]
  | mixolydian => [.commit]
  | hypomixolydian => [.writer]

def allows (mode : Mode) : OpKind → Bool
  | .nihil => mode.tower.contains .maybe
  | .clama | .recipe => mode.tower.contains .except
  | .lege | .pone => mode.tower.contains .state
  | .mitte => mode.tower.contains .writer
  | .perage => mode.tower.contains .commit
  | .lift => 1 < mode.tower.length

end Mode

structure Vec3 where
  x : Scalar
  y : Scalar
  z : Scalar
  deriving BEq

def Vec3.alongX (x : Scalar) : Vec3 := ⟨x,0,0⟩

structure GravityCmd where
  target : BodyId
  dv : Vec3
  at_ : Micros
  deriving BEq

abbrev Plan := List GravityCmd

structure Field where
  target : BodyId
  dv : Vec3
  at_ : Micros
  deriving BEq

mutual
inductive Expr where
  | var (name : Sym)
  | lam (param : Sym) (body : Expr)
  | app (f a : Expr)
  | lit (v : Value)
  | ifE (c t e : Expr)
  | fix (f : Expr)
  | pure (mode : Mode) (e : Expr)
  | ret (mode : Mode) (e : Expr)
  | bind (mode : Mode) (m : Expr) (name : Sym) (k : Expr)
  | arg
  | ask (name : Sym)
  | resolve (name : Sym) (genus : Expr)
  | nihil
  | clama (e : Expr)
  | recipe (body : Expr) (name : Sym) (handler : Expr)
  | lege
  | pone (e : Expr)
  | mitte (e : Expr)
  | perage (e : Expr)
  | lift (e : Expr)

inductive Value where
  | unit
  | num (n : Scalar)
  | bool (b : Bool)
  | genus (g : Genus)
  | str (s : String)
  | closure (param : Sym) (body : Expr) (env : Scope)
  | builtin (name : Sym) (args : List Value)
  | cmd (c : GravityCmd)
  | plan (p : Plan)
  | field (f : Field)
  | record (fields : List (Sym × Value))

inductive Scope where
  | empty
  | node (name : Sym) (value : Value) (next : Scope)
end

namespace Scope

def bind (scope : Scope) (name : Sym) (value : Value) : Scope := .node name value scope

def lookup : Scope → Sym → Option Value
  | empty, _ => none
  | node name value next, x => if name = x then some value else next.lookup x

/- The bindings in the chain. -/
def length : Scope → Nat
  | empty => 0
  | node _ _ next => next.length + 1

@[simp] theorem lookupEmpty (x : Sym) : empty.lookup x = none := rfl

@[simp] theorem lookupBind (scope : Scope) (name : Sym) (value : Value) (x : Sym) :
    (scope.bind name value).lookup x = if name = x then some value else scope.lookup x := rfl

end Scope

namespace Value

def ty : Value → String
  | unit => "unit"
  | num _ => "num"
  | bool _ => "bool"
  | genus _ => "genus"
  | str _ => "str"
  | closure _ _ _ => "closure"
  | builtin _ _ => "builtin"
  | cmd _ => "cmd"
  | plan _ => "plan"
  | field _ => "field"
  | record _ => "record"

mutual
/- `PartialEq for Value`: structural where it makes sense, never true of a closure or a builtin. -/
def eq : Value → Value → Bool
  | unit, unit => true
  | num a, num b => a == b
  | bool a, bool b => a == b
  | genus a, genus b => a == b
  | str a, str b => a == b
  | cmd a, cmd b => a == b
  | plan a, plan b => a == b
  | field a, field b => a == b
  | record a, record b => eqFields a b
  | _, _ => false

def eqFields : List (Sym × Value) → List (Sym × Value) → Bool
  | [], [] => true
  | (k,v) :: xs, (l,w) :: ys => k == l && eq v w && eqFields xs ys
  | _, _ => false
end

end Value

/- `BTreeMap::insert` on the entries in key order: an equal key is overwritten. -/
def insertField (key : Sym) (value : Value) : List (Sym × Value) → List (Sym × Value)
  | [] => [(key,value)]
  | (k,v) :: rest =>
    if key < k then (key,value) :: (k,v) :: rest
    else if key = k then (key,value) :: rest
    else (k,v) :: insertField key value rest

end Officium
