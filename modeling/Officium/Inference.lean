import Officium.Unify

/-! What a successful walk of the checker has done, as a derivation: one rule for each branch
of `infer`, and one chain of rules for the overloads a `resolve` brings in. Every property of an
accepted verse is read off this derivation. -/
namespace Officium.Check
open Bounded (Comp Returns returnsBind returnsPure)

/- What is inferred in one go: an expression, or the overloads left to fit at a `resolve` site. -/
inductive Piece where
  | code (e : Expr)
  | answers (name : Sym) (rest : List Overload)

def Unifies (s : Store) (a b : Ty) (s' : Store) : Prop := ∃ n, Returns (unify n a b) s () s'

inductive Infers (c : Checker) : Mode → Gamma → Piece → Store → Ty → Store → Prop where
  | lit {mode Γ s} (v : Value) : Infers c mode Γ (.code (.lit v)) s (typeOfValue v) s
  | var {mode Γ name s t s'} (found : Returns (lookup c.prog Γ name) s t s') :
      Infers c mode Γ (.code (.var name)) s t s'
  | lam {mode Γ x body s a s₁ r s'} (new : Returns fresh s a s₁)
      (body_ : Infers c mode ((x,a) :: Γ) (.code body) s₁ r s') :
      Infers c mode Γ (.code (.lam x body)) s (.fn a r) s'
  | app {mode Γ f a s tf s₁ ta s₂ r s₃ s'} (f_ : Infers c mode Γ (.code f) s tf s₁)
      (a_ : Infers c mode Γ (.code a) s₁ ta s₂) (new : Returns fresh s₂ r s₃)
      (met : Unifies s₃ tf (.fn ta r) s') : Infers c mode Γ (.code (.app f a)) s r s'
  | ifE {mode Γ cond t e s tc s₁ s₂ tt s₃ te s₄ s'} (cond_ : Infers c mode Γ (.code cond) s tc s₁)
      (test : Unifies s₁ tc .bool s₂) (then_ : Infers c mode Γ (.code t) s₂ tt s₃)
      (else_ : Infers c mode Γ (.code e) s₃ te s₄) (met : Unifies s₄ tt te s') :
      Infers c mode Γ (.code (.ifE cond t e)) s tt s'
  | fix {mode Γ f s tf s₁ a s₂ s'} (f_ : Infers c mode Γ (.code f) s tf s₁) (new : Returns fresh s₁ a s₂)
      (met : Unifies s₂ tf (.fn a a) s') : Infers c mode Γ (.code (.fix f)) s a s'
  | pure {mode Γ e s t s'} (tag : Mode) (e_ : Infers c mode Γ (.code e) s t s') :
      Infers c mode Γ (.code (.pure tag e)) s t s'
  | lift {mode Γ e s t s'} (allowed : mode.allows .lift = true)
      (e_ : Infers c (.fromFinal mode.final_ false) Γ (.code e) s t s') :
      Infers c mode Γ (.code (.lift e)) s t s'
  | ret {mode Γ e s t s₁ s₂ r s'} (tag : Mode) (e_ : Infers c mode Γ (.code e) s t s₁)
      (met : Unifies s₁ t c.cells.result s₂) (new : Returns fresh s₂ r s') :
      Infers c mode Γ (.code (.ret tag e)) s r s'
  | bind {mode Γ m x k s b s₁ t s'} (tag : Mode) (m_ : Infers c mode Γ (.code m) s b s₁)
      (k_ : Infers c mode ((x,b) :: Γ) (.code k) s₁ t s') :
      Infers c mode Γ (.code (.bind tag m x k)) s t s'
  | arg {mode Γ s} : Infers c mode Γ (.code .arg) s c.cells.arg s
  | ask {mode Γ name s t} (found : pedal c.prog name = some t) : Infers c mode Γ (.code (.ask name)) s t s
  | resolve {mode Γ name genus s tg s₁ s₂ r s₃ s'} (genus_ : Infers c mode Γ (.code genus) s tg s₁)
      (met : Unifies s₁ tg .genus s₂) (new : Returns fresh s₂ r s₃)
      (each : Infers c mode Γ (.answers name (overloads c.prog)) s₃ r s') :
      Infers c mode Γ (.code (.resolve name genus)) s r s'
  | nihil {mode Γ s r s'} (allowed : mode.allows .nihil = true) (new : Returns fresh s r s') :
      Infers c mode Γ (.code .nihil) s r s'
  | clama {mode Γ e s t s₁ s₂ r s'} (allowed : mode.allows .clama = true)
      (e_ : Infers c mode Γ (.code e) s t s₁) (met : Unifies s₁ t c.cells.throw s₂) (new : Returns fresh s₂ r s') :
      Infers c mode Γ (.code (.clama e)) s r s'
  | recipe {mode Γ body x handler s tb s₁ th s₂ s'} (allowed : mode.allows .recipe = true)
      (body_ : Infers c mode Γ (.code body) s tb s₁)
      (handler_ : Infers c mode ((x,c.cells.throw) :: Γ) (.code handler) s₁ th s₂)
      (met : Unifies s₂ tb th s') : Infers c mode Γ (.code (.recipe body x handler)) s tb s'
  | lege {mode Γ s} (allowed : mode.allows .lege = true) : Infers c mode Γ (.code .lege) s c.cells.state s
  | pone {mode Γ e s t s₁ s'} (allowed : mode.allows .pone = true) (e_ : Infers c mode Γ (.code e) s t s₁)
      (met : Unifies s₁ t c.cells.state s') : Infers c mode Γ (.code (.pone e)) s .unit s'
  | mitte {mode Γ e s t s₁ s'} (allowed : mode.allows .mitte = true) (e_ : Infers c mode Γ (.code e) s t s₁)
      (deferred : Returns (want ⟨t,["cmd","plan"],"cmd"⟩) s₁ () s') : Infers c mode Γ (.code (.mitte e)) s .unit s'
  | perage {mode Γ e s t s₁ s₂ s₃ r s'} (allowed : mode.allows .perage = true)
      (e_ : Infers c mode Γ (.code e) s t s₁) (met : Unifies s₁ t .plan s₂)
      (cadence : Unifies s₂ .unit c.cells.result s₃) (new : Returns fresh s₃ r s') :
      Infers c mode Γ (.code (.perage e)) s r s'
  | fitted {mode Γ name r s} : Infers c mode Γ (.answers name []) s r s
  | other {mode Γ name r o rest s s'} (differs : o.1.1 ≠ name)
      (rest_ : Infers c mode Γ (.answers name rest) s r s') : Infers c mode Γ (.answers name (o :: rest)) s r s'
  | answer {mode Γ r} {o : Overload} {rest s t s₁ s₂ s'} (o_ : Infers c mode Γ (.code o.2) s t s₁)
      (met : Unifies s₁ t r s₂) (rest_ : Infers c mode Γ (.answers o.1.1 rest) s₂ r s') :
      Infers c mode Γ (.answers o.1.1 (o :: rest)) s r s'

section Walk
variable {c : Checker} {mode : Mode} {Γ : Gamma} {s s' : Store} {n : Nat}

theorem fitReturns {name : Sym} {r : Ty} {os : List Overload} {u : Unit}
    (walk : ∀ {e s t s'}, Returns (infer c n mode Γ e) s t s' → Infers c mode Γ (.code e) s t s')
    (h : Returns (fitOverloads n (infer c n mode Γ) name r os) s u s') :
    Infers c mode Γ (.answers name os) s r s' := by
  induction os generalizing s with
  | nil =>
    obtain ⟨_,rfl⟩ := returnsPure.mp h
    exact .fitted
  | cons o rest ih =>
    unfold fitOverloads at h
    split at h
    · rename_i same
      subst same
      obtain ⟨t,s₁,o_,h⟩ := returnsBind.mp h
      obtain ⟨_,s₂,met,rest_⟩ := returnsBind.mp h
      exact .answer (walk o_) ⟨n,met⟩ (ih rest_)
    · rename_i differs
      exact .other differs (ih h)

/- A statement binds what its expression comes to; only the type it sings may differ. -/
theorem stmtReturns {m : Expr} {b : Ty × Ty}
    (walk : ∀ {e s t s'}, Returns (infer c n mode Γ e) s t s' → Infers c mode Γ (.code e) s t s')
    (h : Returns (inferStmt c.cells n (infer c n mode Γ) mode m) s b s') :
    Infers c mode Γ (.code m) s b.2 s' := by
  unfold inferStmt at h
  split at h
  · obtain ⟨allowed,h⟩ := checkModeThen h
    obtain ⟨t,s₂,e_,h⟩ := returnsBind.mp h
    obtain ⟨_,s₃,met,h⟩ := returnsBind.mp h
    obtain ⟨rfl,rfl⟩ := returnsPure.mp h
    exact .pone allowed (walk e_) ⟨n,met⟩
  · obtain ⟨allowed,h⟩ := checkModeThen h
    obtain ⟨t,s₂,e_,h⟩ := returnsBind.mp h
    obtain ⟨_,s₃,deferred,h⟩ := returnsBind.mp h
    obtain ⟨rfl,rfl⟩ := returnsPure.mp h
    exact .mitte allowed (walk e_) deferred
  · obtain ⟨t,s₁,m_,h⟩ := returnsBind.mp h
    obtain ⟨rfl,rfl⟩ := returnsPure.mp h
    exact walk m_

theorem inferReturns {e : Expr} {t : Ty} (h : Returns (infer c n mode Γ e) s t s') :
    Infers c mode Γ (.code e) s t s' := by
  induction n generalizing mode Γ e s t s' with
  | zero => exact (Bounded.returnsCut h).elim
  | succ n ih =>
    cases e with
    | lit v =>
      obtain ⟨rfl,rfl⟩ := returnsPure.mp h
      exact .lit v
    | var name => exact .var h
    | lam x body =>
      obtain ⟨a,s₁,new,h⟩ := returnsBind.mp h
      obtain ⟨r,s₂,body_,h⟩ := returnsBind.mp h
      obtain ⟨rfl,rfl⟩ := returnsPure.mp h
      exact .lam new (ih body_)
    | app f a =>
      obtain ⟨tf,s₁,f_,h⟩ := returnsBind.mp h
      obtain ⟨ta,s₂,a_,h⟩ := returnsBind.mp h
      obtain ⟨r,s₃,new,h⟩ := returnsBind.mp h
      obtain ⟨_,s₄,met,h⟩ := returnsBind.mp h
      obtain ⟨rfl,rfl⟩ := returnsPure.mp h
      exact .app (ih f_) (ih a_) new ⟨n,met⟩
    | ifE cond t e =>
      obtain ⟨tc,s₁,cond_,h⟩ := returnsBind.mp h
      obtain ⟨_,s₂,test,h⟩ := returnsBind.mp h
      obtain ⟨tt,s₃,then_,h⟩ := returnsBind.mp h
      obtain ⟨te,s₄,else_,h⟩ := returnsBind.mp h
      obtain ⟨_,s₅,met,h⟩ := returnsBind.mp h
      obtain ⟨rfl,rfl⟩ := returnsPure.mp h
      exact .ifE (ih cond_) ⟨n,test⟩ (ih then_) (ih else_) ⟨n,met⟩
    | fix f =>
      obtain ⟨tf,s₁,f_,h⟩ := returnsBind.mp h
      obtain ⟨a,s₂,new,h⟩ := returnsBind.mp h
      obtain ⟨_,s₃,met,h⟩ := returnsBind.mp h
      obtain ⟨rfl,rfl⟩ := returnsPure.mp h
      exact .fix (ih f_) new ⟨n,met⟩
    | pure tag e => exact .pure tag (ih h)
    | lift e =>
      obtain ⟨allowed,h⟩ := checkModeThen h
      exact .lift allowed (ih h)
    | ret tag e =>
      obtain ⟨t,s₁,e_,h⟩ := returnsBind.mp h
      obtain ⟨_,s₂,met,new⟩ := returnsBind.mp h
      exact .ret tag (ih e_) ⟨n,met⟩ new
    | bind tag m x k =>
      obtain ⟨b,s₁,m_,k_⟩ := returnsBind.mp h
      exact .bind tag (stmtReturns ih m_) (ih k_)
    | arg =>
      obtain ⟨rfl,rfl⟩ := returnsPure.mp h
      exact .arg
    | ask name =>
      unfold infer at h
      dsimp only at h
      split at h
      · rename_i found
        obtain ⟨rfl,rfl⟩ := returnsPure.mp h
        exact .ask found
      · exact (Bounded.returnsFail h).elim
    | resolve name genus =>
      obtain ⟨tg,s₁,genus_,h⟩ := returnsBind.mp h
      obtain ⟨_,s₂,met,h⟩ := returnsBind.mp h
      obtain ⟨r,s₃,new,h⟩ := returnsBind.mp h
      obtain ⟨_,s₄,each,h⟩ := returnsBind.mp h
      obtain ⟨rfl,rfl⟩ := returnsPure.mp h
      exact .resolve (ih genus_) ⟨n,met⟩ new (fitReturns ih each)
    | nihil =>
      obtain ⟨allowed,new⟩ := checkModeThen h
      exact .nihil allowed new
    | clama e =>
      obtain ⟨allowed,h⟩ := checkModeThen h
      obtain ⟨t,s₂,e_,h⟩ := returnsBind.mp h
      obtain ⟨_,s₃,met,new⟩ := returnsBind.mp h
      exact .clama allowed (ih e_) ⟨n,met⟩ new
    | recipe body x handler =>
      obtain ⟨allowed,h⟩ := checkModeThen h
      obtain ⟨tb,s₂,body_,h⟩ := returnsBind.mp h
      obtain ⟨th,s₃,handler_,h⟩ := returnsBind.mp h
      obtain ⟨_,s₄,met,h⟩ := returnsBind.mp h
      obtain ⟨rfl,rfl⟩ := returnsPure.mp h
      exact .recipe allowed (ih body_) (ih handler_) ⟨n,met⟩
    | lege =>
      obtain ⟨allowed,h⟩ := checkModeThen h
      obtain ⟨rfl,rfl⟩ := returnsPure.mp h
      exact .lege allowed
    | pone e =>
      obtain ⟨allowed,h⟩ := checkModeThen h
      obtain ⟨t,s₂,e_,h⟩ := returnsBind.mp h
      obtain ⟨_,s₃,met,h⟩ := returnsBind.mp h
      obtain ⟨rfl,rfl⟩ := returnsPure.mp h
      exact .pone allowed (ih e_) ⟨n,met⟩
    | mitte e =>
      obtain ⟨allowed,h⟩ := checkModeThen h
      obtain ⟨t,s₂,e_,h⟩ := returnsBind.mp h
      obtain ⟨_,s₃,deferred,h⟩ := returnsBind.mp h
      obtain ⟨rfl,rfl⟩ := returnsPure.mp h
      exact .mitte allowed (ih e_) deferred
    | perage e =>
      obtain ⟨allowed,h⟩ := checkModeThen h
      obtain ⟨t,s₂,e_,h⟩ := returnsBind.mp h
      obtain ⟨_,s₃,met,h⟩ := returnsBind.mp h
      obtain ⟨_,s₄,cadence,new⟩ := returnsBind.mp h
      exact .perage allowed (ih e_) ⟨n,met⟩ ⟨n,cadence⟩ new

/- The walk along a sung verse's spine is the inference of its whole body. -/
theorem spineReturns {e : Expr} {lines : List Ty} (h : Returns (inferSpine c n mode Γ e) s lines s') :
    ∃ t, Infers c mode Γ (.code e) s t s' := by
  fun_induction inferSpine c n mode Γ e generalizing s lines with
  | case1 Γ tag m x k ih =>
    obtain ⟨b,s₁,m_,h⟩ := returnsBind.mp h
    obtain ⟨rest,s₂,k_,h⟩ := returnsBind.mp h
    obtain ⟨_,rfl⟩ := returnsPure.mp h
    obtain ⟨t,k_⟩ := ih b k_
    exact ⟨t,.bind tag (stmtReturns inferReturns m_) k_⟩
  | case2 Γ e terminal =>
    obtain ⟨t,s₁,e_,h⟩ := returnsBind.mp h
    obtain ⟨_,rfl⟩ := returnsPure.mp h
    exact ⟨t,inferReturns e_⟩

end Walk

section Verses
variable {prog : Program} {v : Versus} {n : Nat} {s s' : Store}

theorem rhymeWithExtends {i j : Nat} {label : Char} {a : Ty} {lines : List (Char × Ty)} {u : Unit}
    (h : Returns (rhymeWith v n i label a j lines) s u s') : Extends s s' := by
  induction lines generalizing j s with
  | nil =>
    obtain ⟨_,rfl⟩ := returnsPure.mp h
    exact extendsRefl _
  | cons line rest ih =>
    unfold rhymeWith at h
    split at h
    · obtain ⟨_,s₁,met,h⟩ := returnsBind.mp h
      exact extendsTrans (unifyReturns (Bounded.returnsMapError.mp met)).1 (ih h)
    · exact ih h

theorem rhymeAllExtends {i : Nat} {lines : List (Char × Ty)} {u : Unit}
    (h : Returns (rhymeAll v n i lines) s u s') : Extends s s' := by
  induction lines generalizing i s with
  | nil =>
    obtain ⟨_,rfl⟩ := returnsPure.mp h
    exact extendsRefl _
  | cons line rest ih =>
    obtain ⟨_,s₁,met,h⟩ := returnsBind.mp h
    exact extendsTrans (rhymeWithExtends met) (ih h)

theorem checkEachReturns {preds : List Pred} {u : Unit} (h : Returns (checkEach n preds) s u s') : s' = s := by
  induction preds generalizing s with
  | nil => exact (returnsPure.mp h).2.symm
  | cons p rest ih =>
    obtain ⟨_,s₁,one,others⟩ := returnsBind.mp h
    obtain ⟨t,s₂,found,last⟩ := returnsBind.mp one
    obtain ⟨rfl,_,_⟩ := shallowReturns found
    have kept : s₁ = s₂ := by
      split at last
      · exact (returnsPure.mp last).2.symm
      · split at last
        · exact (returnsPure.mp last).2.symm
        · exact (Bounded.returnsFail last).elim
    exact (ih others).trans kept

theorem inferVersusReturns {c : Checker} {u : Unit} (h : Returns (inferVersus c n v) s u s') :
    ∃ t s₁, Infers c v.mode [] (.code v.body) s t s₁ ∧ Extends s₁ s' := by
  unfold inferVersus at h
  split at h
  · obtain ⟨t,s₁,body_,h⟩ := returnsBind.mp h
    obtain ⟨_,rfl⟩ := returnsPure.mp h
    exact ⟨t,_,inferReturns (Bounded.returnsMapError.mp body_),extendsRefl _⟩
  · obtain ⟨lines,s₁,body_,rhymes⟩ := returnsBind.mp h
    obtain ⟨t,body_⟩ := spineReturns (Bounded.returnsMapError.mp body_)
    exact ⟨t,s₁,body_,rhymeAllExtends rhymes⟩

theorem checkedInfers (h : Checked prog v s) :
    ∃ t s₁, Infers (Checker.new prog) v.mode [] (.code v.body) Store.new t s₁ ∧ Extends s₁ s := by
  obtain ⟨n,h⟩ := h
  obtain ⟨_,s₁,walk,preds⟩ := returnsBind.mp h
  obtain ⟨c,s₂,read,each⟩ := returnsBind.mp (Bounded.returnsMapError.mp preds)
  obtain ⟨rfl,rfl⟩ := Bounded.returnsState.mp read
  cases checkEachReturns each
  exact inferVersusReturns walk

theorem everyChecked {verses : List Versus} (h : checkEvery prog n verses = some (.ok ())) :
    ∀ v ∈ verses, ∃ s, Checked prog v s := by
  induction verses with
  | nil => intro v mem; cases mem
  | cons w rest ih =>
    intro v mem
    rw [checkEvery] at h
    split at h
    · rename_i checked
      cases mem with
      | head =>
        obtain ⟨r,found,same⟩ := Option.map_eq_some_iff.mp checked
        cases r with
        | error e => cases same
        | ok p => exact ⟨p.2,n,found⟩
      | tail _ mem => exact ih h v mem
    · rename_i other
      exact absurd h other

theorem acceptsChecked (h : Accepts prog) : ∀ v ∈ prog.verses, ∃ s, Checked prog v s := by
  obtain ⟨n,h⟩ := h
  exact everyChecked h

end Verses

section Tests

/- Acceptance within a bound. -/
def accepts (n : Nat) (prog : Program) : Bool :=
  match checkProgram n prog with
  | some (.ok ()) => true
  | _ => false

theorem acceptsOf {n : Nat} {prog : Program} (h : accepts n prog = true) : Accepts prog := by
  unfold accepts at h
  split at h
  · rename_i found
    exact ⟨n,found⟩
  · cases h

/- The last store of a verse's check within a bound: one type solves it, put for every variable. -/
def solvedBy (n : Nat) (prog : Program) (v : Versus) (t : Ty) : Bool :=
  match checkVersusIn prog n v Store.new with
  | some (.ok ((),s)) => s.preds.isEmpty && s.subst.all (fun b => (b.map (Ty.inst (fun _ => t))).getD t == t)
  | _ => false

theorem solvedByOf {n : Nat} {prog : Program} {v : Versus} {t : Ty} (h : solvedBy n prog v t = true) :
    ∃ s, Checked prog v s ∧ Solves (fun _ => t) s := by
  unfold solvedBy at h
  split at h
  · rename_i s found
    rw [Bool.and_eq_true,List.all_eq_true] at h
    refine ⟨s,⟨n,found⟩,fun i u bound => ?_,fun p mem => ?_⟩
    · exact (beq_iff_eq.mp (h.2 (some u) (List.mem_of_getElem? bound))).symm
    · rw [List.isEmpty_iff.mp h.1] at mem
      cases mem
  · cases h

end Tests

end Officium.Check
