import Officium.Inference

/-! The typing rules of the IR, as one reads them: monomorphic, with the legality of operations in
the mode, and with no substitution. How a type meets a one-of constraint is a parameter. Whatever
assignment satisfies the checker's last store turns its walk into a derivation. -/
namespace Officium.Check
open Bounded (Returns returnsBind returnsPure)

abbrev OneOf := List String → Ty → Prop

/- The type has one of the names. -/
def Met : OneOf := fun allowed t => t.hint ∈ allowed

/- The same, wherever the type is not a variable. -/
def Lax : OneOf := fun allowed t => (∃ i, t = .var i) ∨ t.hint ∈ allowed

inductive BuiltinTy (oneOf : OneOf) : Sym → Ty → Prop where
  | arithmetic {name} (among : name ∈ ["add","sub","mul","div"]) : BuiltinTy oneOf name (fun2 .num .num .num)
  | compare {name} (among : name ∈ ["le","lt"]) : BuiltinTy oneOf name (fun2 .num .num .bool)
  | eq (a : Ty) : BuiltinTy oneOf "eq" (fun2 a a .bool)
  | not : BuiltinTy oneOf "not" (.fn .bool .bool)
  | measure {name} (among : name ∈ ["dist","mass","outgassing"]) : BuiltinTy oneOf name (.fn .corpus .num)
  | genus : BuiltinTy oneOf "genus" (.fn .corpus .genus)
  | safe : BuiltinTy oneOf "safe" (fun2 .corpus .num .bool)
  | solve (a : Ty) : BuiltinTy oneOf "solve" (fun2 (.fn a .num) a .num)
  | deflect : BuiltinTy oneOf "deflect" (.fn .num .field)
  | sample {name} (among : name ∈ ["target","dv_of","at"]) : BuiltinTy oneOf name (.fn .field .num)
  | cmd : BuiltinTy oneOf "cmd" (fun2 .num .num (.fn .num .cmd))
  | planOf : BuiltinTy oneOf "plan_of" (.fn .field .plan)
  | corpus {g : Ty} (named : oneOf ["genus","str"] g) : BuiltinTy oneOf "corpus" (fun2 .num g (fun2 .num .num .corpus))

/- The scope first, then the builtins, then the pedals. -/
inductive Named (prog : Program) (oneOf : OneOf) (Γ : Gamma) : Sym → Ty → Prop where
  | scope {name b} (found : Γ.find? (fun b => b.1 == name) = some b) : Named prog oneOf Γ name b.2
  | builtin {name t} (free : Γ.find? (fun b => b.1 == name) = none) (sig : BuiltinTy oneOf name t) : Named prog oneOf Γ name t
  | pedal {name t} (free : Γ.find? (fun b => b.1 == name) = none) (none : Builtins.arity name = none)
      (found : pedal prog name = some t) : Named prog oneOf Γ name t

inductive Types (prog : Program) (oneOf : OneOf) (cells : Cells) : Mode → Gamma → Expr → Ty → Prop where
  | lit {mode Γ} (v : Value) : Types prog oneOf cells mode Γ (.lit v) (typeOfValue v)
  | var {mode Γ name t} (found : Named prog oneOf Γ name t) : Types prog oneOf cells mode Γ (.var name) t
  | lam {mode Γ x body a r} (body_ : Types prog oneOf cells mode ((x,a) :: Γ) body r) :
      Types prog oneOf cells mode Γ (.lam x body) (.fn a r)
  | app {mode Γ f a t r} (f_ : Types prog oneOf cells mode Γ f (.fn t r)) (a_ : Types prog oneOf cells mode Γ a t) :
      Types prog oneOf cells mode Γ (.app f a) r
  | ifE {mode Γ c t e r} (c_ : Types prog oneOf cells mode Γ c .bool) (then_ : Types prog oneOf cells mode Γ t r)
      (else_ : Types prog oneOf cells mode Γ e r) : Types prog oneOf cells mode Γ (.ifE c t e) r
  | fix {mode Γ f a} (f_ : Types prog oneOf cells mode Γ f (.fn a a)) : Types prog oneOf cells mode Γ (.fix f) a
  | pure {mode Γ e t} (tag : Mode) (e_ : Types prog oneOf cells mode Γ e t) : Types prog oneOf cells mode Γ (.pure tag e) t
  | lift {mode Γ e t} (allowed : mode.allows .lift = true)
      (e_ : Types prog oneOf cells (.fromFinal mode.final_ false) Γ e t) : Types prog oneOf cells mode Γ (.lift e) t
  | ret {mode Γ e} (tag : Mode) (t : Ty) (e_ : Types prog oneOf cells mode Γ e cells.result) :
      Types prog oneOf cells mode Γ (.ret tag e) t
  | bind {mode Γ m x k b t} (tag : Mode) (m_ : Types prog oneOf cells mode Γ m b)
      (k_ : Types prog oneOf cells mode ((x,b) :: Γ) k t) : Types prog oneOf cells mode Γ (.bind tag m x k) t
  | arg {mode Γ} : Types prog oneOf cells mode Γ .arg cells.arg
  | ask {mode Γ name t} (found : pedal prog name = some t) : Types prog oneOf cells mode Γ (.ask name) t
  | resolve {mode Γ name genus r} (genus_ : Types prog oneOf cells mode Γ genus .genus)
      (each : ∀ o ∈ overloads prog, o.1.1 = name → Types prog oneOf cells mode Γ o.2 r) :
      Types prog oneOf cells mode Γ (.resolve name genus) r
  | nihil {mode Γ} (allowed : mode.allows .nihil = true) (t : Ty) : Types prog oneOf cells mode Γ .nihil t
  | clama {mode Γ e} (allowed : mode.allows .clama = true) (t : Ty) (e_ : Types prog oneOf cells mode Γ e cells.throw) :
      Types prog oneOf cells mode Γ (.clama e) t
  | recipe {mode Γ body x handler t} (allowed : mode.allows .recipe = true) (body_ : Types prog oneOf cells mode Γ body t)
      (handler_ : Types prog oneOf cells mode ((x,cells.throw) :: Γ) handler t) :
      Types prog oneOf cells mode Γ (.recipe body x handler) t
  | lege {mode Γ} (allowed : mode.allows .lege = true) : Types prog oneOf cells mode Γ .lege cells.state
  | pone {mode Γ e} (allowed : mode.allows .pone = true) (e_ : Types prog oneOf cells mode Γ e cells.state) :
      Types prog oneOf cells mode Γ (.pone e) .unit
  | mitte {mode Γ e t} (allowed : mode.allows .mitte = true) (e_ : Types prog oneOf cells mode Γ e t)
      (issued : oneOf ["cmd","plan"] t) : Types prog oneOf cells mode Γ (.mitte e) .unit
  | perage {mode Γ e} (allowed : mode.allows .perage = true) (t : Ty) (e_ : Types prog oneOf cells mode Γ e .plan)
      (cadence : cells.result = .unit) : Types prog oneOf cells mode Γ (.perage e) t

/- The statements of the bind spine, each with the type of its sung line and the type it binds. -/
inductive StmtTypes (prog : Program) (oneOf : OneOf) (cells : Cells) (mode : Mode) (Γ : Gamma) : Expr → Ty → Ty → Prop where
  | pone {e} (allowed : mode.allows .pone = true) (e_ : Types prog oneOf cells mode Γ e cells.state) :
      StmtTypes prog oneOf cells mode Γ (.pone e) cells.state .unit
  | mitte {e t} (allowed : mode.allows .mitte = true) (e_ : Types prog oneOf cells mode Γ e t)
      (issued : oneOf ["cmd","plan"] t) : StmtTypes prog oneOf cells mode Γ (.mitte e) t .unit
  | other {m t} (other : ∀ e, m ≠ .pone e ∧ m ≠ .mitte e) (m_ : Types prog oneOf cells mode Γ m t) :
      StmtTypes prog oneOf cells mode Γ m t t

/- The bind spine of a body, with the type of every line. -/
inductive SpineTypes (prog : Program) (oneOf : OneOf) (cells : Cells) (mode : Mode) : Gamma → Expr → List Ty → Prop where
  | line {Γ m x k l b rest} (tag : Mode) (m_ : StmtTypes prog oneOf cells mode Γ m l b)
      (k_ : SpineTypes prog oneOf cells mode ((x,b) :: Γ) k rest) :
      SpineTypes prog oneOf cells mode Γ (.bind tag m x k) (l :: rest)
  | last {Γ e t} (last : ∀ tag m x k, e ≠ .bind tag m x k) (e_ : Types prog oneOf cells mode Γ e t) :
      SpineTypes prog oneOf cells mode Γ e []

/- Lines of one label have one type. -/
def Rhymes (prog : Program) (cells : Cells) (lines : List Ty) (rhymes : List (Char × String)) : Prop :=
  ∀ i j a b, rhymes[i]? = some a → rhymes[j]? = some b → a.1 = b.1 →
    sungType ⟨prog,cells⟩ lines (i+1) = sungType ⟨prog,cells⟩ lines (j+1)

/- Some assignment of types to the verse satisfies the rules and the rhymes. -/
def Typable (prog : Program) (oneOf : OneOf) (v : Versus) : Prop :=
  ∃ cells lines, SpineTypes prog oneOf cells v.mode [] v.body lines ∧ Rhymes prog cells lines v.rhymes

def Cells.inst (θ : Assignment) (c : Cells) : Cells :=
  ⟨c.arg.inst θ,c.state.inst θ,c.throw.inst θ,c.result.inst θ⟩

def instGamma (θ : Assignment) (Γ : Gamma) : Gamma := Γ.map (fun b => (b.1,b.2.inst θ))

/- The assignment respects the store, and every deferred predicate is met. -/
structure Satisfies (oneOf : OneOf) (θ : Assignment) (s : Store) : Prop where
  bound : Respects θ s
  preds : ∀ p ∈ s.preds, oneOf p.allowed (p.ty.inst θ)

section Spines
variable {prog : Program} {oneOf : OneOf} {cells : Cells} {mode : Mode} {Γ : Gamma} {e m : Expr} {l b t : Ty}

theorem stmtTyped (h : StmtTypes prog oneOf cells mode Γ m l b) : Types prog oneOf cells mode Γ m b := by
  cases h with
  | pone allowed e_ => exact .pone allowed e_
  | mitte allowed e_ issued => exact .mitte allowed e_ issued
  | other _ m_ => exact m_

theorem typedStmt (h : Types prog oneOf cells mode Γ m b) : ∃ l, StmtTypes prog oneOf cells mode Γ m l b := by
  cases h with
  | pone allowed e_ => exact ⟨_,.pone allowed e_⟩
  | mitte allowed e_ issued => exact ⟨_,.mitte allowed e_ issued⟩
  | lit v => exact ⟨_,.other (fun _ => ⟨nofun,nofun⟩) (.lit v)⟩
  | _ => exact ⟨_,.other (fun _ => ⟨nofun,nofun⟩) (by constructor <;> assumption)⟩

theorem spineTyped {lines : List Ty} (h : SpineTypes prog oneOf cells mode Γ e lines) : ∃ t, Types prog oneOf cells mode Γ e t := by
  induction h with
  | line tag m_ _ ih =>
    obtain ⟨t,k_⟩ := ih
    exact ⟨t,.bind tag (stmtTyped m_) k_⟩
  | last _ e_ => exact ⟨_,e_⟩

theorem typedSpine (h : Types prog oneOf cells mode Γ e t) : ∃ lines, SpineTypes prog oneOf cells mode Γ e lines := by
  induction h with
  | bind tag m_ _ _ ihk =>
    obtain ⟨l,line⟩ := typedStmt m_
    obtain ⟨lines,spine⟩ := ihk
    exact ⟨l :: lines,.line tag line spine⟩
  | ret tag t e_ => exact ⟨[],.last (fun _ _ _ _ => nofun) (.ret tag t e_)⟩
  | nihil allowed t => exact ⟨[],.last (fun _ _ _ _ => nofun) (.nihil allowed t)⟩
  | clama allowed t e_ => exact ⟨[],.last (fun _ _ _ _ => nofun) (.clama allowed t e_)⟩
  | perage allowed t e_ cadence => exact ⟨[],.last (fun _ _ _ _ => nofun) (.perage allowed t e_ cadence)⟩
  | _ => exact ⟨[],.last (fun _ _ _ _ => nofun) (by constructor <;> assumption)⟩

end Spines

def Piece.Types (prog : Program) (oneOf : OneOf) (cells : Cells) (mode : Mode) (Γ : Gamma) : Piece → Ty → Prop
  | code e, t => Check.Types prog oneOf cells mode Γ e t
  | answers name rest, t => ∀ o ∈ rest, o.1.1 = name → Check.Types prog oneOf cells mode Γ o.2 t

section Instances
variable {θ : Assignment} {oneOf : OneOf} {s s' : Store}

theorem satisfiesBefore (h : Extends s s') (satisfies : Satisfies oneOf θ s') : Satisfies oneOf θ s :=
  ⟨respectsBefore h satisfies.bound,fun p mem => satisfies.preds p (h.preds p mem)⟩

theorem unifiesAgree (θ : Assignment) {a b : Ty} (h : Unifies s a b s') : Extends s s' ∧ (Respects θ s' → a.inst θ = b.inst θ) := by
  obtain ⟨n,met⟩ := h
  obtain ⟨extend,agree⟩ := unifyReturns met
  exact ⟨extend,agree θ⟩

theorem instValue (v : Value) : (typeOfValue v).inst θ = typeOfValue v := by
  cases v <;> rfl

theorem findInst (θ : Assignment) (Γ : Gamma) (name : Sym) :
    (instGamma θ Γ).find? (fun b => b.1 == name) =
      (Γ.find? (fun b => b.1 == name)).map (fun b => (b.1,b.2.inst θ)) := by
  unfold instGamma
  rw [List.find?_map]
  rfl

/- A signature's own variable is made on the spot; the name of a body may be looked at later. -/
theorem builtinReturns {name : Sym} {t : Ty} (h : Returns (builtin name) s (some t) s') :
    Extends s s' ∧ (Satisfies oneOf θ s' → BuiltinTy oneOf name (t.inst θ)) := by
  unfold builtin at h
  split at h
  case h_7 =>
    obtain ⟨a,s₁,new,h⟩ := returnsBind.mp h
    obtain ⟨rest,rfl⟩ := returnsPure.mp h
    cases rest
    exact ⟨freshExtends new,fun _ => .eq _⟩
  case h_14 =>
    obtain ⟨a,s₁,new,h⟩ := returnsBind.mp h
    obtain ⟨rest,rfl⟩ := returnsPure.mp h
    cases rest
    exact ⟨freshExtends new,fun _ => .solve _⟩
  case h_21 =>
    obtain ⟨g,s₁,new,h⟩ := returnsBind.mp h
    obtain ⟨_,s₂,deferred,h⟩ := returnsBind.mp h
    obtain ⟨rest,rfl⟩ := returnsPure.mp h
    cases rest
    obtain ⟨extend,among⟩ := wantReturns deferred
    exact ⟨extendsTrans (freshExtends new) extend,fun satisfies => .corpus (satisfies.preds _ among)⟩
  case h_22 => cases (returnsPure.mp h).1
  all_goals
    obtain ⟨rest,rfl⟩ := returnsPure.mp h
    cases rest
    refine ⟨extendsRefl _,fun _ => ?_⟩
    first
      | exact .not | exact .genus | exact .safe | exact .deflect | exact .cmd | exact .planOf
      | exact .arithmetic (by simp) | exact .compare (by simp) | exact .measure (by simp) | exact .sample (by simp)

theorem builtinNone {name : Sym} (h : Returns (builtin name) s none s') : s' = s ∧ Builtins.arity name = none := by
  unfold builtin at h
  split at h
  case h_7 | h_14 =>
    obtain ⟨a,s₁,new,h⟩ := returnsBind.mp h
    cases (returnsPure.mp h).1
  case h_21 =>
    obtain ⟨g,s₁,new,h⟩ := returnsBind.mp h
    obtain ⟨_,s₂,deferred,h⟩ := returnsBind.mp h
    cases (returnsPure.mp h).1
  case h_22 =>
    refine ⟨(returnsPure.mp h).2.symm,?_⟩
    unfold Builtins.arity
    split
    all_goals first | rfl | contradiction
  all_goals cases (returnsPure.mp h).1

/- The first fugue that holds the pedal is where the joined table finds it. -/
theorem pedalFind (name : Sym) (fugues : List Fugue) :
    pedalIn name fugues =
      ((fugues.flatMap Fugue.pedals).find? (fun p => p.1 == name)).map (fun p => typeOfValue p.2) := by
  induction fugues with
  | nil => rfl
  | cons f rest ih =>
    rw [List.flatMap_cons,List.find?_append]
    unfold pedalIn
    split
    · rename_i p found
      rw [found]; rfl
    · rename_i free
      rw [free,Option.none_or,ih]

theorem pedalInst {prog : Program} {name : Sym} {t : Ty} (h : pedal prog name = some t) : t.inst θ = t := by
  obtain ⟨p,_,rfl⟩ := Option.map_eq_some_iff.mp ((pedalFind name prog.fugues).symm.trans h)
  exact instValue p.2

theorem lookupReturns {prog : Program} {Γ : Gamma} {name : Sym} {t : Ty} (h : Returns (lookup prog Γ name) s t s') :
    Extends s s' ∧ (Satisfies oneOf θ s' → Named prog oneOf (instGamma θ Γ) name (t.inst θ)) := by
  have inst := findInst θ Γ name
  unfold lookup at h
  split at h
  · rename_i b found
    obtain ⟨rfl,rfl⟩ := returnsPure.mp h
    rw [found] at inst
    exact ⟨extendsRefl _,fun _ => .scope inst⟩
  · rename_i free
    rw [free] at inst
    obtain ⟨answer,s₁,table,last⟩ := returnsBind.mp h
    split at last
    · obtain ⟨rfl,rfl⟩ := returnsPure.mp last
      obtain ⟨extend,signed⟩ := builtinReturns table
      exact ⟨extend,fun satisfies => .builtin inst (signed satisfies)⟩
    · obtain ⟨rfl,none⟩ := builtinNone table
      split at last
      · rename_i found
        obtain ⟨rfl,rfl⟩ := returnsPure.mp last
        refine ⟨extendsRefl _,fun _ => ?_⟩
        rw [pedalInst found]
        exact .pedal inst none found
      · exact (Bounded.returnsFail last).elim

/- The last store knows what every earlier one knew, so one assignment types the whole walk. -/
theorem infersTypes (oneOf : OneOf) (θ : Assignment) {c : Checker} {mode : Mode} {Γ : Gamma} {piece : Piece} {t : Ty}
    (h : Infers c mode Γ piece s t s') :
    Extends s s' ∧ (Satisfies oneOf θ s' → piece.Types c.prog oneOf (c.cells.inst θ) mode (instGamma θ Γ) (t.inst θ)) := by
  induction h with
  | lit v =>
    refine ⟨extendsRefl _,fun _ => ?_⟩
    rw [instValue]
    exact .lit v
  | var found =>
    obtain ⟨extend,named⟩ := lookupReturns found
    exact ⟨extend,fun satisfies => .var (named satisfies)⟩
  | lam new body_ ih =>
    obtain ⟨extend,typed⟩ := ih
    exact ⟨extendsTrans (freshExtends new) extend,fun satisfies => .lam (typed satisfies)⟩
  | app f_ a_ new met ihf iha =>
    obtain ⟨extendF,typedF⟩ := ihf
    obtain ⟨extendA,typedA⟩ := iha
    obtain ⟨extendU,agree⟩ := unifiesAgree θ met
    have extendR := extendsTrans (freshExtends new) extendU
    refine ⟨extendsTrans extendF (extendsTrans extendA extendR),fun satisfies => ?_⟩
    have beforeA := satisfiesBefore extendR satisfies
    have f_ := typedF (satisfiesBefore extendA beforeA)
    unfold Piece.Types at f_
    rw [agree satisfies.bound] at f_
    exact .app f_ (typedA beforeA)
  | ifE cond_ test then_ else_ met ihc iht ihe =>
    obtain ⟨extendC,typedC⟩ := ihc
    obtain ⟨extendT,agreeT⟩ := unifiesAgree θ test
    obtain ⟨extendA,typedA⟩ := iht
    obtain ⟨extendE,typedE⟩ := ihe
    obtain ⟨extendU,agree⟩ := unifiesAgree θ met
    refine ⟨extendsTrans extendC (extendsTrans extendT (extendsTrans extendA (extendsTrans extendE extendU))),
      fun satisfies => ?_⟩
    have beforeE := satisfiesBefore extendU satisfies
    have beforeA := satisfiesBefore extendE beforeE
    have beforeT := satisfiesBefore extendA beforeA
    have c_ := typedC (satisfiesBefore extendT beforeT)
    have e_ := typedE beforeE
    unfold Piece.Types at c_ e_
    rw [agreeT beforeT.bound] at c_
    rw [← agree satisfies.bound] at e_
    exact .ifE c_ (typedA beforeA) e_
  | fix f_ new met ih =>
    obtain ⟨extend,typed⟩ := ih
    obtain ⟨extendU,agree⟩ := unifiesAgree θ met
    have extendR := extendsTrans (freshExtends new) extendU
    refine ⟨extendsTrans extend extendR,fun satisfies => ?_⟩
    have f_ := typed (satisfiesBefore extendR satisfies)
    unfold Piece.Types at f_
    rw [agree satisfies.bound] at f_
    exact .fix f_
  | pure tag e_ ih =>
    obtain ⟨extend,typed⟩ := ih
    exact ⟨extend,fun satisfies => .pure tag (typed satisfies)⟩
  | lift allowed e_ ih =>
    obtain ⟨extend,typed⟩ := ih
    exact ⟨extend,fun satisfies => .lift allowed (typed satisfies)⟩
  | ret tag e_ met new ih =>
    obtain ⟨extend,typed⟩ := ih
    obtain ⟨extendU,agree⟩ := unifiesAgree θ met
    have extendF := freshExtends new
    refine ⟨extendsTrans extend (extendsTrans extendU extendF),fun satisfies => ?_⟩
    have before := satisfiesBefore extendF satisfies
    have e_ := typed (satisfiesBefore extendU before)
    unfold Piece.Types at e_
    rw [agree before.bound] at e_
    exact .ret tag _ e_
  | bind tag m_ k_ ihm ihk =>
    obtain ⟨extendM,typedM⟩ := ihm
    obtain ⟨extendK,typedK⟩ := ihk
    exact ⟨extendsTrans extendM extendK,fun satisfies =>
      .bind tag (typedM (satisfiesBefore extendK satisfies)) (typedK satisfies)⟩
  | arg => exact ⟨extendsRefl _,fun _ => .arg⟩
  | ask found =>
    refine ⟨extendsRefl _,fun _ => ?_⟩
    rw [pedalInst found]
    exact .ask found
  | resolve genus_ met new each ihg ihe =>
    obtain ⟨extendG,typedG⟩ := ihg
    obtain ⟨extendU,agree⟩ := unifiesAgree θ met
    obtain ⟨extendE,typedE⟩ := ihe
    have extendF := freshExtends new
    refine ⟨extendsTrans extendG (extendsTrans extendU (extendsTrans extendF extendE)),fun satisfies => ?_⟩
    have before := satisfiesBefore extendF (satisfiesBefore extendE satisfies)
    have g_ := typedG (satisfiesBefore extendU before)
    unfold Piece.Types at g_
    rw [agree before.bound] at g_
    exact .resolve g_ (typedE satisfies)
  | nihil allowed new => exact ⟨freshExtends new,fun _ => .nihil allowed _⟩
  | clama allowed e_ met new ih =>
    obtain ⟨extend,typed⟩ := ih
    obtain ⟨extendU,agree⟩ := unifiesAgree θ met
    have extendF := freshExtends new
    refine ⟨extendsTrans extend (extendsTrans extendU extendF),fun satisfies => ?_⟩
    have before := satisfiesBefore extendF satisfies
    have e_ := typed (satisfiesBefore extendU before)
    unfold Piece.Types at e_
    rw [agree before.bound] at e_
    exact .clama allowed _ e_
  | recipe allowed body_ handler_ met ihb ihh =>
    obtain ⟨extendB,typedB⟩ := ihb
    obtain ⟨extendH,typedH⟩ := ihh
    obtain ⟨extendU,agree⟩ := unifiesAgree θ met
    refine ⟨extendsTrans extendB (extendsTrans extendH extendU),fun satisfies => ?_⟩
    have before := satisfiesBefore extendU satisfies
    have h_ := typedH before
    unfold Piece.Types at h_
    rw [← agree satisfies.bound] at h_
    exact .recipe allowed (typedB (satisfiesBefore extendH before)) h_
  | lege allowed => exact ⟨extendsRefl _,fun _ => .lege allowed⟩
  | pone allowed e_ met ih =>
    obtain ⟨extend,typed⟩ := ih
    obtain ⟨extendU,agree⟩ := unifiesAgree θ met
    refine ⟨extendsTrans extend extendU,fun satisfies => ?_⟩
    have e_ := typed (satisfiesBefore extendU satisfies)
    unfold Piece.Types at e_
    rw [agree satisfies.bound] at e_
    exact .pone allowed e_
  | mitte allowed e_ deferred ih =>
    obtain ⟨extend,typed⟩ := ih
    obtain ⟨extendW,among⟩ := wantReturns deferred
    exact ⟨extendsTrans extend extendW,fun satisfies =>
      .mitte allowed (typed (satisfiesBefore extendW satisfies)) (satisfies.preds _ among)⟩
  | perage allowed e_ met cadence new ih =>
    obtain ⟨extend,typed⟩ := ih
    obtain ⟨extendU,agree⟩ := unifiesAgree θ met
    obtain ⟨extendC,ends⟩ := unifiesAgree θ cadence
    have extendF := freshExtends new
    refine ⟨extendsTrans extend (extendsTrans extendU (extendsTrans extendC extendF)),fun satisfies => ?_⟩
    have beforeC := satisfiesBefore extendF satisfies
    have before := satisfiesBefore extendC beforeC
    have e_ := typed (satisfiesBefore extendU before)
    unfold Piece.Types at e_
    rw [agree before.bound] at e_
    exact .perage allowed _ e_ (ends beforeC.bound).symm
  | fitted => exact ⟨extendsRefl _,fun _ o mem => by cases mem⟩
  | other differs rest_ ih =>
    obtain ⟨extend,typed⟩ := ih
    refine ⟨extend,fun satisfies o mem same => ?_⟩
    cases mem with
    | head => exact absurd same differs
    | tail _ mem => exact typed satisfies o mem same
  | answer o_ met rest_ iho ihr =>
    obtain ⟨extendO,typedO⟩ := iho
    obtain ⟨extendU,agree⟩ := unifiesAgree θ met
    obtain ⟨extendR,typedR⟩ := ihr
    refine ⟨extendsTrans extendO (extendsTrans extendU extendR),fun satisfies o mem same => ?_⟩
    have before := satisfiesBefore extendR satisfies
    have o_ := typedO (satisfiesBefore extendU before)
    unfold Piece.Types at o_
    rw [agree before.bound] at o_
    cases mem with
    | head => exact o_
    | tail _ mem => exact typedR satisfies o mem same

end Instances

end Officium.Check
