import Officium.Rules

/-! The types an accepted verse has. Typing knows neither modes nor substitutions: once an
assignment solves the checker's last store, every piece it walked through is typed at the
assigned types, under the same names. -/
namespace Officium.Check
open Bounded (Returns returnsBind returnsPure)

def arrows : List Ty → Ty → Ty
  | [], r => r
  | a :: rest, r => .fn a (arrows rest r)

/- The signatures with their variables filled in. -/
inductive Signature : Sym → List Ty → Ty → Prop where
  | add : Signature "add" [.num,.num] .num
  | sub : Signature "sub" [.num,.num] .num
  | mul : Signature "mul" [.num,.num] .num
  | div : Signature "div" [.num,.num] .num
  | le : Signature "le" [.num,.num] .bool
  | lt : Signature "lt" [.num,.num] .bool
  | eq (a : Ty) : Signature "eq" [a,a] .bool
  | not : Signature "not" [.bool] .bool
  | dist : Signature "dist" [.corpus] .num
  | mass : Signature "mass" [.corpus] .num
  | outgassing : Signature "outgassing" [.corpus] .num
  | genus : Signature "genus" [.corpus] .genus
  | safe : Signature "safe" [.corpus,.num] .bool
  | solve (a : Ty) : Signature "solve" [.fn a .num,a] .num
  | deflect : Signature "deflect" [.num] .field
  | target : Signature "target" [.field] .num
  | dvOf : Signature "dv_of" [.field] .num
  | at_ : Signature "at" [.field] .num
  | cmd : Signature "cmd" [.num,.num,.num] .cmd
  | planOf : Signature "plan_of" [.field] .plan
  | corpus {g : Ty} (named : g = .genus ∨ g = .str) : Signature "corpus" [.num,g,.num,.num] .corpus

theorem signatureArity {name : Sym} {doms : List Ty} {r : Ty} (h : Signature name doms r) :
    Builtins.arity name = some doms.length := by
  cases h <;> rfl

/- What a score can write down as a literal. -/
inductive Literal : Value → Prop where
  | num (n : Scalar) : Literal (.num n)
  | bool (b : Bool) : Literal (.bool b)
  | str (s : String) : Literal (.str s)

/- A value that holds no code and no record. -/
inductive FirstOrder : Value → Prop where
  | unit : FirstOrder .unit
  | num (n : Scalar) : FirstOrder (.num n)
  | bool (b : Bool) : FirstOrder (.bool b)
  | genus (g : Genus) : FirstOrder (.genus g)
  | str (s : String) : FirstOrder (.str s)
  | cmd (c : GravityCmd) : FirstOrder (.cmd c)
  | plan (p : Plan) : FirstOrder (.plan p)
  | field (f : Field) : FirstOrder (.field f)

theorem literalFirst {v : Value} (h : Literal v) : FirstOrder v := by
  cases h <;> constructor

inductive NameTy (prog : Program) (Γ : Gamma) : Sym → Ty → Prop where
  | scope {name b} (found : Γ.find? (fun b => b.1 == name) = some b) : NameTy prog Γ name b.2
  | builtin {name doms r} (free : Γ.find? (fun b => b.1 == name) = none) (sig : Signature name doms r) :
      NameTy prog Γ name (arrows doms r)
  | pedal {name t} (free : Γ.find? (fun b => b.1 == name) = none) (none : Builtins.arity name = none)
      (found : pedal prog name = some t) : NameTy prog Γ name t

/- The rule says at which types the fixpoint of an operand may be taken. -/
inductive HasTyBy (rule : Expr → Ty → Prop) (prog : Program) (cells : Cells) : Gamma → Expr → Ty → Prop where
  | lit {Γ v} (literal : FirstOrder v) : HasTyBy rule prog cells Γ (.lit v) (typeOfValue v)
  | var {Γ name t} (found : NameTy prog Γ name t) : HasTyBy rule prog cells Γ (.var name) t
  | lam {Γ x body a r} (body_ : HasTyBy rule prog cells ((x,a) :: Γ) body r) : HasTyBy rule prog cells Γ (.lam x body) (.fn a r)
  | app {Γ f a t r} (f_ : HasTyBy rule prog cells Γ f (.fn t r)) (a_ : HasTyBy rule prog cells Γ a t) :
      HasTyBy rule prog cells Γ (.app f a) r
  | ifE {Γ c t e r} (c_ : HasTyBy rule prog cells Γ c .bool) (then_ : HasTyBy rule prog cells Γ t r)
      (else_ : HasTyBy rule prog cells Γ e r) : HasTyBy rule prog cells Γ (.ifE c t e) r
  | fix {Γ f a} (f_ : HasTyBy rule prog cells Γ f (.fn a a)) (allowed : rule f a) : HasTyBy rule prog cells Γ (.fix f) a
  | pure {Γ e t} (tag : Mode) (e_ : HasTyBy rule prog cells Γ e t) : HasTyBy rule prog cells Γ (.pure tag e) t
  | lift {Γ e t} (e_ : HasTyBy rule prog cells Γ e t) : HasTyBy rule prog cells Γ (.lift e) t
  | ret {Γ e t} (tag : Mode) (e_ : HasTyBy rule prog cells Γ e cells.result) : HasTyBy rule prog cells Γ (.ret tag e) t
  | bind {Γ m x k b t} (tag : Mode) (m_ : HasTyBy rule prog cells Γ m b) (k_ : HasTyBy rule prog cells ((x,b) :: Γ) k t) :
      HasTyBy rule prog cells Γ (.bind tag m x k) t
  | arg {Γ} : HasTyBy rule prog cells Γ .arg cells.arg
  | ask {Γ name t} (found : pedal prog name = some t) : HasTyBy rule prog cells Γ (.ask name) t
  | resolve {Γ name genus r} (genus_ : HasTyBy rule prog cells Γ genus .genus)
      (each : ∀ o ∈ overloads prog, o.1.1 = name → HasTyBy rule prog cells Γ o.2 r) :
      HasTyBy rule prog cells Γ (.resolve name genus) r
  | nihil {Γ t} : HasTyBy rule prog cells Γ .nihil t
  | clama {Γ e t} (e_ : HasTyBy rule prog cells Γ e cells.throw) : HasTyBy rule prog cells Γ (.clama e) t
  | recipe {Γ body x handler t} (body_ : HasTyBy rule prog cells Γ body t)
      (handler_ : HasTyBy rule prog cells ((x,cells.throw) :: Γ) handler t) : HasTyBy rule prog cells Γ (.recipe body x handler) t
  | lege {Γ} : HasTyBy rule prog cells Γ .lege cells.state
  | pone {Γ e} (e_ : HasTyBy rule prog cells Γ e cells.state) : HasTyBy rule prog cells Γ (.pone e) .unit
  | mitte {Γ e t} (e_ : HasTyBy rule prog cells Γ e t) (issued : t = .cmd ∨ t = .plan) : HasTyBy rule prog cells Γ (.mitte e) .unit
  | perage {Γ e t} (e_ : HasTyBy rule prog cells Γ e .plan) (cadence : cells.result = .unit) :
      HasTyBy rule prog cells Γ (.perage e) t

/- Typed with no fixpoint at all. -/
abbrev HasTy (prog : Program) (cells : Cells) : Gamma → Expr → Ty → Prop := HasTyBy (fun _ _ => False) prog cells

/- The expressions a score can write: no stretto, no handler, literals only of the three kinds. -/
def Surface : Expr → Prop
  | .lit v => Literal v
  | .fix _ | .recipe _ _ _ => False
  | .lam _ e | .pure _ e | .ret _ e | .clama e | .pone e | .mitte e | .perage e | .lift e | .resolve _ e => Surface e
  | .app f a => Surface f ∧ Surface a
  | .ifE c t e => Surface c ∧ Surface t ∧ Surface e
  | .bind _ m _ k => Surface m ∧ Surface k
  | .var _ | .arg | .ask _ | .nihil | .lege => True

/- The literals are first-order, and the rule allows the fixpoint of every operand at every type. -/
def Within (rule : Expr → Ty → Prop) : Expr → Prop
  | .lit v => FirstOrder v
  | .fix f => (∀ a, rule f a) ∧ Within rule f
  | .lam _ e | .pure _ e | .ret _ e | .clama e | .pone e | .mitte e | .perage e | .lift e | .resolve _ e => Within rule e
  | .app f a => Within rule f ∧ Within rule a
  | .ifE c t e => Within rule c ∧ Within rule t ∧ Within rule e
  | .bind _ m _ k => Within rule m ∧ Within rule k
  | .recipe b _ h => Within rule b ∧ Within rule h
  | .var _ | .arg | .ask _ | .nihil | .lege => True

structure Written (prog : Program) : Prop where
  pedals : ∀ f ∈ prog.fugues, ∀ p ∈ f.pedals, Literal p.2
  overloads : ∀ o ∈ overloads prog, Surface o.2
  bodies : ∀ v ∈ prog.verses, Surface v.body

theorem surfaceWithin {rule : Expr → Ty → Prop} {e : Expr} (h : Surface e) : Within rule e := by
  fun_induction Within rule e <;> simp_all [Surface,literalFirst]

def Piece.Surface : Piece → Prop
  | code e => Check.Surface e
  | answers _ rest => ∀ o ∈ rest, Check.Surface o.2

def Piece.HasTy (prog : Program) (cells : Cells) (Γ : Gamma) : Piece → Ty → Prop
  | code e, t => Check.HasTy prog cells Γ e t
  | answers name rest, t => ∀ o ∈ rest, o.1.1 = name → Check.HasTy prog cells Γ o.2 t

section Instances
variable {θ : Assignment} {s s' : Store}

theorem solvesSatisfies (solves : Solves θ s) : Satisfies Met θ s := ⟨solves.bound,solves.preds⟩

/- A predicate that allows two names is met by a type of one of them. -/
theorem hintGenus {t : Ty} (h : t.hint ∈ ["genus","str"]) : t = .genus ∨ t = .str := by
  cases t <;> simp_all [Ty.hint]

theorem hintCmd {t : Ty} (h : t.hint ∈ ["cmd","plan"]) : t = .cmd ∨ t = .plan := by
  cases t <;> simp_all [Ty.hint]

theorem builtinSignature {name : Sym} {t : Ty} (h : BuiltinTy Met name t) : ∃ doms r, Signature name doms r ∧ t = arrows doms r := by
  cases h with
  | arithmetic among =>
    refine ⟨[.num,.num],.num,?_,rfl⟩
    simp only [List.mem_cons,List.not_mem_nil,or_false] at among
    rcases among with rfl | rfl | rfl | rfl <;> constructor
  | compare among =>
    refine ⟨[.num,.num],.bool,?_,rfl⟩
    simp only [List.mem_cons,List.not_mem_nil,or_false] at among
    rcases among with rfl | rfl <;> constructor
  | eq a => exact ⟨_,_,.eq a,rfl⟩
  | not => exact ⟨_,_,.not,rfl⟩
  | measure among =>
    refine ⟨[.corpus],.num,?_,rfl⟩
    simp only [List.mem_cons,List.not_mem_nil,or_false] at among
    rcases among with rfl | rfl | rfl <;> constructor
  | genus => exact ⟨_,_,.genus,rfl⟩
  | safe => exact ⟨_,_,.safe,rfl⟩
  | solve a => exact ⟨_,_,.solve a,rfl⟩
  | deflect => exact ⟨_,_,.deflect,rfl⟩
  | sample among =>
    refine ⟨[.field],.num,?_,rfl⟩
    simp only [List.mem_cons,List.not_mem_nil,or_false] at among
    rcases among with rfl | rfl | rfl <;> constructor
  | cmd => exact ⟨_,_,.cmd,rfl⟩
  | planOf => exact ⟨_,_,.planOf,rfl⟩
  | corpus named => exact ⟨_,_,.corpus (hintGenus named),rfl⟩

theorem namedTy {prog : Program} {Γ : Gamma} {name : Sym} {t : Ty} (h : Named prog Met Γ name t) : NameTy prog Γ name t := by
  cases h with
  | scope found => exact .scope found
  | builtin free sig =>
    obtain ⟨doms,r,signed,rfl⟩ := builtinSignature sig
    exact .builtin free signed
  | pedal free none found => exact .pedal free none found

/- Where the rule is kept the rules of the IR type alike. -/
theorem typesHasTy {rule : Expr → Ty → Prop} {prog : Program} {cells : Cells} {mode : Mode} {Γ : Gamma} {e : Expr} {t : Ty}
    (answers : ∀ o ∈ overloads prog, Within rule o.2) (h : Types prog Met cells mode Γ e t) (within : Within rule e) :
    HasTyBy rule prog cells Γ e t := by
  induction h with
  | lit v => exact .lit within
  | var found => exact .var (namedTy found)
  | lam _ ih => exact .lam (ih within)
  | app _ _ ihf iha => exact .app (ihf within.1) (iha within.2)
  | ifE _ _ _ ihc iht ihe => exact .ifE (ihc within.1) (iht within.2.1) (ihe within.2.2)
  | fix _ ih => exact .fix (ih within.2) (within.1 _)
  | recipe _ _ _ ihb ihh => exact .recipe (ihb within.1) (ihh within.2)
  | pure tag _ ih => exact .pure tag (ih within)
  | lift _ _ ih => exact .lift (ih within)
  | ret tag _ _ ih => exact .ret tag (ih within)
  | bind tag _ _ ihm ihk => exact .bind tag (ihm within.1) (ihk within.2)
  | arg => exact .arg
  | ask found => exact .ask found
  | resolve _ _ ihg ihe => exact .resolve (ihg within) (fun o mem named => ihe o mem named (answers o mem))
  | nihil => exact .nihil
  | clama _ _ _ ih => exact .clama (ih within)
  | lege => exact .lege
  | pone _ _ ih => exact .pone (ih within)
  | mitte _ _ issued ih => exact .mitte (ih within) (hintCmd issued)
  | perage _ _ _ cadence ih => exact .perage (ih within) cadence

/- An assignment that solves the last store types the whole walk. -/
theorem infersTyped {c : Checker} {mode : Mode} {Γ : Gamma} {piece : Piece} {t : Ty}
    (answers : ∀ o ∈ overloads c.prog, Surface o.2) (h : Infers c mode Γ piece s t s') (surface : piece.Surface) :
    Extends s s' ∧ (Solves θ s' → piece.HasTy c.prog (c.cells.inst θ) (instGamma θ Γ) (t.inst θ)) := by
  obtain ⟨extend,typed⟩ := infersTypes Met θ h
  refine ⟨extend,fun solves => ?_⟩
  have all := typed (solvesSatisfies solves)
  cases piece with
  | code e => exact typesHasTy (fun o mem => surfaceWithin (answers o mem)) all (surfaceWithin surface)
  | answers name rest =>
    exact fun o mem named => typesHasTy (fun o mem => surfaceWithin (answers o mem)) (all o mem named) (surfaceWithin (surface o mem))

end Instances

end Officium.Check
