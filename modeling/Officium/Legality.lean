import Officium.Codes
import Officium.Soundness

/-! Which operations a verse's code may use where it is written, and where the machine is when
it comes to them. The checker reads the mode off the place an expression stands at; the machine
compares with the layers below the lift depth, so code that leaves the place it was written at
must not bring a lift of its own into another one. -/
namespace Officium.Check
open Runs (Turn run runInvariant)

/- Legal in the mode of its place: under a lift that is the base mode of the same final. -/
inductive Lawful (prog : Program) : Mode → Expr → Prop where
  | lit (mode v) : Lawful prog mode (.lit v)
  | var (mode name) : Lawful prog mode (.var name)
  | lam {mode body} (x : Sym) (body_ : Lawful prog mode body) : Lawful prog mode (.lam x body)
  | app {mode f a} (f_ : Lawful prog mode f) (a_ : Lawful prog mode a) : Lawful prog mode (.app f a)
  | ifE {mode c t e} (c_ : Lawful prog mode c) (then_ : Lawful prog mode t) (else_ : Lawful prog mode e) :
      Lawful prog mode (.ifE c t e)
  | fix {mode f} (f_ : Lawful prog mode f) : Lawful prog mode (.fix f)
  | pure {mode e} (tag : Mode) (e_ : Lawful prog mode e) : Lawful prog mode (.pure tag e)
  | lift {mode e} (allowed : mode.allows .lift = true) (e_ : Lawful prog (.fromFinal mode.final_ false) e) :
      Lawful prog mode (.lift e)
  | ret {mode e} (tag : Mode) (e_ : Lawful prog mode e) : Lawful prog mode (.ret tag e)
  | bind {mode m k} (tag : Mode) (x : Sym) (m_ : Lawful prog mode m) (k_ : Lawful prog mode k) :
      Lawful prog mode (.bind tag m x k)
  | arg (mode) : Lawful prog mode .arg
  | ask (mode name) : Lawful prog mode (.ask name)
  | resolve {mode name genus} (genus_ : Lawful prog mode genus)
      (each : ∀ o ∈ overloads prog, o.1.1 = name → Lawful prog mode o.2) : Lawful prog mode (.resolve name genus)
  | nihil {mode} (allowed : mode.allows .nihil = true) : Lawful prog mode .nihil
  | clama {mode e} (allowed : mode.allows .clama = true) (e_ : Lawful prog mode e) : Lawful prog mode (.clama e)
  | recipe {mode body handler} (x : Sym) (allowed : mode.allows .recipe = true) (body_ : Lawful prog mode body)
      (handler_ : Lawful prog mode handler) : Lawful prog mode (.recipe body x handler)
  | lege {mode} (allowed : mode.allows .lege = true) : Lawful prog mode .lege
  | pone {mode e} (allowed : mode.allows .pone = true) (e_ : Lawful prog mode e) : Lawful prog mode (.pone e)
  | mitte {mode e} (allowed : mode.allows .mitte = true) (e_ : Lawful prog mode e) : Lawful prog mode (.mitte e)
  | perage {mode e} (allowed : mode.allows .perage = true) (e_ : Lawful prog mode e) : Lawful prog mode (.perage e)

def Piece.Lawful (prog : Program) (mode : Mode) : Piece → Prop
  | code e => Check.Lawful prog mode e
  | answers name rest => ∀ o ∈ rest, o.1.1 = name → Check.Lawful prog mode o.2

theorem infersLawful {c : Checker} {mode : Mode} {Γ : Gamma} {piece : Piece} {s s' : Store} {t : Ty}
    (h : Infers c mode Γ piece s t s') : piece.Lawful c.prog mode := by
  induction h with
  | lit v => exact .lit _ v
  | var => exact .var _ _
  | lam new body_ ih => exact .lam _ ih
  | app f_ a_ new met ihf iha => exact .app ihf iha
  | ifE cond_ test then_ else_ met ihc iht ihe => exact .ifE ihc iht ihe
  | fix f_ new met ih => exact .fix ih
  | pure tag e_ ih => exact .pure tag ih
  | lift allowed e_ ih => exact .lift allowed ih
  | ret tag e_ met new ih => exact .ret tag ih
  | bind tag m_ k_ ihm ihk => exact .bind tag _ ihm ihk
  | arg => exact .arg _
  | ask => exact .ask _ _
  | resolve genus_ met new each ihg ihe => exact .resolve ihg ihe
  | nihil allowed new => exact .nihil allowed
  | clama allowed e_ met new ih => exact .clama allowed ih
  | recipe allowed body_ handler_ met ihb ihh => exact .recipe _ allowed ihb ihh
  | lege allowed => exact .lege allowed
  | pone allowed e_ met ih => exact .pone allowed ih
  | mitte allowed e_ deferred ih => exact .mitte allowed ih
  | perage allowed e_ met cadence new ih => exact .perage allowed ih
  | fitted => exact fun o mem => by cases mem
  | other differs rest_ ih =>
    intro o mem same
    cases mem with
    | head => exact absurd same differs
    | tail _ mem => exact ih o mem same
  | answer o_ met rest_ iho ihr =>
    intro o mem same
    cases mem with
    | head => exact iho
    | tail _ mem => exact ihr o mem same

/- What the base of a final may do, every mode that may lift into it may do. -/
theorem allowsOverBase {mode : Mode} {op : OpKind} (lifts : mode.allows .lift = true)
    (h : (Mode.fromFinal mode.final_ false).allows op = true) : mode.allows op = true := by
  revert lifts h
  cases mode <;> cases op <;> decide

theorem baseNotLift (mode : Mode) : (Mode.fromFinal mode.final_ false).allows .lift = false := by
  cases mode <;> rfl

theorem lawfulOverBase {prog : Program} {mode base : Mode} {e : Expr} (lifts : mode.allows .lift = true)
    (same : base = .fromFinal mode.final_ false) (h : Lawful prog base e) : Lawful prog mode e := by
  induction h with
  | lit _ v => exact .lit _ v
  | var => exact .var _ _
  | lam x body_ ih => exact .lam x (ih same)
  | app f_ a_ ihf iha => exact .app (ihf same) (iha same)
  | ifE c_ t_ e_ ihc iht ihe => exact .ifE (ihc same) (iht same) (ihe same)
  | fix f_ ih => exact .fix (ih same)
  | pure tag e_ ih => exact .pure tag (ih same)
  | lift allowed e_ ih =>
    subst same
    rw [baseNotLift] at allowed
    cases allowed
  | ret tag e_ ih => exact .ret tag (ih same)
  | bind tag x m_ k_ ihm ihk => exact .bind tag x (ihm same) (ihk same)
  | arg => exact .arg _
  | ask => exact .ask _ _
  | resolve genus_ each ihg ihe => exact .resolve (ihg same) (fun o mem name => ihe o mem name same)
  | nihil allowed => exact .nihil (allowsOverBase lifts (same ▸ allowed))
  | clama allowed e_ ih => exact .clama (allowsOverBase lifts (same ▸ allowed)) (ih same)
  | recipe x allowed b_ h_ ihb ihh => exact .recipe x (allowsOverBase lifts (same ▸ allowed)) (ihb same) (ihh same)
  | lege allowed => exact .lege (allowsOverBase lifts (same ▸ allowed))
  | pone allowed e_ ih => exact .pone (allowsOverBase lifts (same ▸ allowed)) (ih same)
  | mitte allowed e_ ih => exact .mitte (allowsOverBase lifts (same ▸ allowed)) (ih same)
  | perage allowed e_ ih => exact .perage (allowsOverBase lifts (same ▸ allowed)) (ih same)

/- No lift outside the λs of the expression: evaluating it in place opens none. -/
def bare : Expr → Bool
  | .lift _ => false
  | .pure _ e | .ret _ e | .clama e | .pone e | .mitte e | .perage e | .resolve _ e | .fix e => bare e
  | .app f a => bare f && bare a
  | .ifE c t e => bare c && bare t && bare e
  | .bind _ m _ k => bare m && bare k
  | .recipe b _ h => bare b && bare h
  | .lam _ _ | .lit _ | .var _ | .arg | .ask _ | .nihil | .lege => true

/- Where no lift is allowed, none was written. -/
theorem lawfulBare {prog : Program} {mode : Mode} {e : Expr} (none : mode.allows .lift = false)
    (h : Lawful prog mode e) : bare e = true := by
  induction h with
  | lift allowed => rw [none] at allowed; cases allowed
  | lam | lit | var | arg | ask | nihil | lege => rfl
  | app f_ a_ ihf iha => simp only [bare,ihf none,iha none,Bool.and_self]
  | ifE c_ t_ e_ ihc iht ihe => simp only [bare,ihc none,iht none,ihe none,Bool.and_self]
  | bind tag x m_ k_ ihm ihk => simp only [bare,ihm none,ihk none,Bool.and_self]
  | recipe x allowed b_ h_ ihb ihh => simp only [bare,ihb none,ihh none,Bool.and_self]
  | resolve genus_ each ihg => exact ihg none
  | fix _ ih | pure _ _ ih | ret _ _ ih | clama _ _ ih | pone _ _ ih | mitte _ _ ih | perage _ _ ih => exact ih none

/- The code of an accepted verse, and of everything it can bring in. -/
def Legal (prog : Program) (mode : Mode) (e : Expr) : Prop := Surface e ∧ Lawful prog mode e

theorem literalCarries {P : Expr → Prop} {v : Value} (h : Literal v) : Carries P v := by
  cases h with
  | num n => exact .num n
  | bool b => exact .bool b
  | str s => exact .str s

theorem pedalCarries {P : Expr → Prop} {prog : Program} {name : Sym} {v : Value} (written : Written prog)
    (held : (Env.fromFugues prog.fugues).ask name = .ok v) : Carries P v := by
  obtain ⟨p,mem,rfl⟩ := Env.askMember held
  rw [(Env.fromFuguesTables prog.fugues).1] at mem
  obtain ⟨f,among,inside⟩ := List.mem_flatMap.mp mem
  exact literalCarries (written.pedals f among p inside)

theorem legalHereditary {prog : Program} (written : Written prog) (mode : Mode) :
    Hereditary (Env.fromFugues prog.fugues) (Legal prog mode) where
  operand := by
    rintro e e' sub ⟨surface,lawful⟩
    cases sub with
    | lam => cases lawful with | lam _ l => exact ⟨surface,l⟩
    | appF => cases lawful with | app l _ => exact ⟨surface.1,l⟩
    | appA => cases lawful with | app _ l => exact ⟨surface.2,l⟩
    | ifC => cases lawful with | ifE l _ _ => exact ⟨surface.1,l⟩
    | ifT => cases lawful with | ifE _ l _ => exact ⟨surface.2.1,l⟩
    | ifE => cases lawful with | ifE _ _ l => exact ⟨surface.2.2,l⟩
    | fix => exact surface.elim
    | pure => cases lawful with | pure _ l => exact ⟨surface,l⟩
    | ret => cases lawful with | ret _ l => exact ⟨surface,l⟩
    | bindM => cases lawful with | bind _ _ l _ => exact ⟨surface.1,l⟩
    | bindK => cases lawful with | bind _ _ _ l => exact ⟨surface.2,l⟩
    | resolve => cases lawful with | resolve l _ => exact ⟨surface,l⟩
    | clama => cases lawful with | clama _ l => exact ⟨surface,l⟩
    | recipeB | recipeH => exact surface.elim
    | pone => cases lawful with | pone _ l => exact ⟨surface,l⟩
    | mitte => cases lawful with | mitte _ l => exact ⟨surface,l⟩
    | perage => cases lawful with | perage _ l => exact ⟨surface,l⟩
    | lift => cases lawful with | lift allowed l => exact ⟨surface,lawfulOverBase allowed rfl l⟩
  literal := by
    rintro v ⟨literal,_⟩
    exact literalCarries literal
  overload := by
    rintro name genus g e ⟨_,lawful⟩ found
    obtain ⟨o,mem,same,rfl⟩ := resolveOverload found
    cases lawful with
    | resolve _ each => exact ⟨written.overloads o mem,each o mem same⟩
  pedal := pedalCarries written
  stretto := by
    rintro f ⟨surface,_⟩
    exact surface.elim

end Officium.Check
