import Officium.Lockstep
import Officium.Bases
import Officium.Slicing

/-! The monad laws of the machine, in any scope, at any lift depth and over any pending stack.
The first operand runs over two bases that treat a value alike and a raise alike; from there
left identity and associativity go on in scopes that differ at a name nothing reads. -/
namespace Officium
open Runs (Turn run Ends Forever)

/- Given enough fuel both runs end and their verdicts agree, or neither ever ends. -/
def BehavesAs (agree : Verdict → Verdict → Prop) (env : Env) (s t : Continuation) : Prop :=
  (∀ fuel, ∃ c d, resume env s fuel = failure (.outOfFuel c) ∧ resume env t fuel = failure (.outOfFuel d)) ∨
  ∃ r q enough, agree r q ∧ ∀ fuel, enough ≤ fuel → resume env s fuel = r ∧ resume env t fuel = q

/- The same in terms of turns. -/
def Alike (agree : Verdict → Verdict → Prop) (env : Env) (s t : Continuation) : Prop :=
  (Forever (turn env) s ∧ Forever (turn env) t) ∨
  ∃ r q, Ends (turn env) s r ∧ Ends (turn env) t q ∧ agree r q

section Alike
variable {agree : Verdict → Verdict → Prop} {env : Env} {s s' t t' : Continuation}

theorem behavesAlike (h : Alike agree env s t) : BehavesAs agree env s t := by
  rcases h with ⟨fs,ft⟩ | ⟨r,q,⟨i,hi⟩,⟨j,hj⟩,same⟩
  · refine .inl (fun fuel => ?_)
    obtain ⟨c,hc⟩ := fs fuel
    obtain ⟨d,hd⟩ := ft fuel
    exact ⟨c,d,pausedRun.mpr hc,pausedRun.mpr hd⟩
  · refine .inr ⟨r,q,max i j,same,fun fuel enough => ⟨?_,?_⟩⟩
    · rw [resumeRun,Runs.doneStable hi (Nat.le_trans (Nat.le_max_left i j) enough)]
    · rw [resumeRun,Runs.doneStable hj (Nat.le_trans (Nat.le_max_right i j) enough)]

theorem alikeAfter {i j : Nat} (hs : run (turn env) i s = .more s') (ht : run (turn env) j t = .more t')
    (h : Alike agree env s' t') : Alike agree env s t := by
  rcases h with ⟨fs,ft⟩ | ⟨r,q,er,eq,same⟩
  · exact .inl ⟨Runs.foreverThrough hs fs,Runs.foreverThrough ht ft⟩
  · exact .inr ⟨r,q,Runs.endsThrough hs er,Runs.endsThrough ht eq,same⟩

theorem alikeSame (same : turn env s = turn env t) (refl : ∀ r, Ends (turn env) s r → agree r r) :
    Alike agree env s t := by
  have runs (n : Nat) : run (turn env) (n+1) s = run (turn env) (n+1) t := by simp only [run,same]
  rcases Runs.foreverOrEnds (turn env) s with fs | ⟨r,n,hn⟩
  · refine .inl ⟨fs,fun n => ?_⟩
    obtain ⟨c,hc⟩ := fs (n+1)
    rw [runs] at hc
    exact Runs.moreBefore hc (Nat.le_succ n)
  · refine .inr ⟨r,r,⟨n,hn⟩,⟨n+1,?_⟩,refl r ⟨n,hn⟩⟩
    rw [← runs]
    exact Runs.doneStable hn (Nat.le_succ n)

end Alike

section Bases
variable {agree : Verdict → Verdict → Prop} {env : Env} {start : Continuation} {base base' : List Frame}

/- Runs over two bases that go on alike from a value and unwind alike. -/
theorem alikeBases (refl : ∀ t r, Ends (turn env) t r → agree r r)
    (unwinds : ∀ v thrown depth, unwindFrames v thrown base depth = unwindFrames v thrown base' depth)
    (delivers : ∀ k (m : Continuation) (v : Value), run (turn env) k start = .more m → m.control = .value v → m.stack = [] →
      Alike agree env (m.upon base) (m.upon base')) :
    Alike agree env (start.upon base) (start.upon base') := by
  rcases Runs.foreverOrEnds (turn env) start with fs | ⟨r,n,hn⟩
  · exact .inl ⟨foreverOver fs base,foreverOver fs base'⟩
  · obtain ⟨k,m,_,hk,last⟩ := Runs.lastTurn hn
    refine alikeAfter (runOver hk base) (runOver hk base') ?_
    cases stopsLeaves (turnStop last) with
    | dry at_ top => exact delivers k m _ hk at_ top
    | ends h =>
      have one (b : List Frame) : Ends (turn env) (m.upon b) r := ⟨1,(Runs.runOne _).trans (stopTurn (h b))⟩
      exact .inr ⟨r,r,one base,one base',refl _ r (one base)⟩
    | @escaped v channel rest at_ top none =>
      refine alikeSame ?_ (refl _)
      have topOver (b : List Frame) : (m.upon b).stack = .clamaK channel :: (rest ++ b) := by
        simp only [Continuation.upon,top,List.cons_append]
      have past := unwinds v channel (depthUnder rest m.depth)
      rw [← unwindPast none base,← unwindPast none base'] at past
      cases found : unwindFrames v channel (rest ++ base) m.depth with
      | none =>
        rw [found] at past
        rw [stopTurn (.escaped (m := m.upon base) at_ (topOver base) found),
          stopTurn (.escaped (m := m.upon base') at_ (topOver base') past.symm)]
      | some p =>
        obtain ⟨c,below,d⟩ := p
        rw [found] at past
        rw [stepTurn (.caught (m := m.upon base) at_ (topOver base) found),
          stepTurn (.caught (m := m.upon base') at_ (topOver base') past.symm)]
        rfl

end Bases

section Reflexive
variable {x : Sym} {env : Env}

theorem valueRefl (v : Value) : Akin x anyOperand v v := akinRefl v (valueTidy v)

theorem scopeSelf (e : Expr) (s : Scope) : ScopeAkin x anyOperand e s s := scopeRefl (scopeTidy s) e

theorem frameRefl (f : Frame) : FrameAkin x anyOperand f f := by
  cases f with
  | appArg a scope => exact .appArg (exprTidy a) (scopeSelf a scope)
  | appCall f => exact .appCall (valueRefl f)
  | ifK t e scope => exact .ifK (exprTidy t) (exprTidy e) (scopeSelf t scope) (scopeSelf e scope)
  | bindK name k scope => exact .bindK (exprTidy k) (scopeSelf _ scope)
  | recipeH name handler scope channel => exact .recipeH (exprTidy handler) (scopeSelf _ scope)
  | resolveK name scope => exact .resolveK (scopeSelf _ scope)
  | fixK f scope => exact .fixK (exprTidy _) (scopeSelf f scope)
  | _ => exact .still rfl

theorem stackRefl (stack : List Frame) : List.Forall₂ (FrameAkin x anyOperand) stack stack :=
  List.forall₂_same.mpr (fun f _ => frameRefl f)

theorem layerRefl (l : Layer) : LayerAkin x anyOperand l l := by
  cases l with
  | state v => exact .state (valueRefl v)
  | _ => exact .same (by simp [Layer.kind])

theorem towerRefl (tower : List Layer) : List.Forall₂ (LayerAkin x anyOperand) tower tower :=
  List.forall₂_same.mpr (fun l _ => layerRefl l)

theorem stateRefl {m : Continuation} {c c' : Control} {stack stack' : List Frame}
    (control : ControlAkin x anyOperand c c') (frames : List.Forall₂ (FrameAkin x anyOperand) stack stack') :
    StateAkin x anyOperand { m with control := c, stack := stack } { m with control := c', stack := stack' } :=
  ⟨control,frames,towerRefl m.tower,rfl,rfl,rfl,valueRefl m.arg⟩

theorem verdictRefl {t : Continuation} {r : Verdict} (h : Ends (turn env) t r) : VerdictAkin x anyOperand r r := by
  obtain ⟨n,hn⟩ := h
  obtain ⟨k,m,_,_,last⟩ := Runs.lastTurn hn
  cases turnStop last with
  | dry | cadence | commit => exact finishAkin (towerRefl _) (.some (valueRefl _)) _
  | escaped => exact .user (valueRefl _)
  | fails at_ h => exact .same _ (failsFatal h)
  | refuses at_ top h => exact .same _ (refusesFatal h)

end Reflexive

def Continuation.enter (m : Continuation) (e : Expr) (scope : Scope) : Continuation :=
  { m with control := .eval e scope }

def Continuation.bare (m : Continuation) : Continuation := { m with stack := [] }

section Laws
variable {env : Env} {mode mode' : Mode} {x y : Sym} {scope : Scope} {m : Continuation} {v : Value}

theorem hygienic (unused : ∀ o ∈ env.real ++ env.tonal, o.2.free x = false) : Hygienic x anyOperand env := by
  refine ⟨fun {_ _ e} found => ⟨exprTidy e,?_⟩,fun _ => valueTidy _⟩
  have mem := Env.resolveMember found
  exact unused _ mem

/- A value handed to `x <- pure a; f x` and to `f a` for a λ-expression `f`. -/
theorem leftDelivers {param : Sym} {body : Expr} {base : List Frame} (hyg : Hygienic x anyOperand env)
    (fresh : (Expr.lam param body).free x = false) (at_ : m.control = .value v) (top : m.stack = []) :
    Alike (VerdictAkin x anyOperand) env
      (m.upon (.bindK x (.app (.lam param body) (.var x)) scope :: base))
      (m.upon (.appCall (.closure param body scope) :: base)) := by
  have bound : (scope.bind x v).lookup x = some v := by rw [Scope.lookupBind,if_pos rfl]
  have found : lookupVar env (scope.bind x v) x = some v := by simp only [lookupVar,bound]
  have left : run (turn env) 6 (m.upon (.bindK x (.app (.lam param body) (.var x)) scope :: base)) =
      .more { m with control := .eval body ((scope.bind x v).bind param v), stack := base } := by
    refine moreStep (.answers at_ (by simp only [Continuation.upon,top]; rfl) (.bindK x _ scope v)) ?_
    refine moreStep (.opens rfl (.app _ _)) ?_
    refine moreStep (.yields rfl (.lam param body)) ?_
    refine moreStep (.answers rfl rfl (.appArg _ _ _)) ?_
    refine moreStep (.yields rfl (.var found)) ?_
    exact moreStep (.answers rfl rfl (.appCall (.closure param body _ v))) rfl
  have right : run (turn env) 1 (m.upon (.appCall (.closure param body scope) :: base)) =
      .more { m with control := .eval body (scope.bind param v), stack := base } :=
    moreStep (.answers at_ (by simp only [Continuation.upon,top]; rfl) (.appCall (.closure param body scope v))) rfl
  have agree : ScopeAkin x anyOperand body ((scope.bind x v).bind param v) (scope.bind param v) :=
    scopeEnter (scopeUnseen (scopeSelf _ scope) fresh) (valueRefl v)
  exact alikeAfter left right (lockstep hyg (stateRefl (.eval (exprTidy body) agree) (stackRefl base)))

theorem leftIdentity (env : Env) (mode mode' : Mode) (a : Expr) (x param : Sym) (body : Expr) (scope : Scope)
    (m : Continuation) (fresh : (Expr.lam param body).free x = false)
    (unused : ∀ o ∈ env.real ++ env.tonal, o.2.free x = false) :
    BehavesAs (VerdictAkin x anyOperand) env
      (m.enter (.bind mode (.pure mode' a) x (.app (.lam param body) (.var x))) scope)
      (m.enter (.app (.lam param body) a) scope) := by
  have left : run (turn env) 2 (m.enter (.bind mode (.pure mode' a) x (.app (.lam param body) (.var x))) scope) =
      .more ((m.bare.enter a scope).upon (.bindK x (.app (.lam param body) (.var x)) scope :: m.stack)) :=
    moreStep (.opens rfl (.bind mode _ x _)) (moreStep (.pure rfl) rfl)
  have right : run (turn env) 3 (m.enter (.app (.lam param body) a) scope) =
      .more ((m.bare.enter a scope).upon (.appCall (.closure param body scope) :: m.stack)) :=
    moreStep (.opens rfl (.app _ a)) (moreStep (.yields rfl (.lam param body))
      (moreStep (.answers rfl rfl (.appArg a scope _)) rfl))
  refine behavesAlike (alikeAfter left right (alikeBases (fun _ _ => verdictRefl) (fun _ _ _ => rfl) ?_))
  exact fun _ n v _ at_ top => leftDelivers (hygienic unused) fresh at_ top

theorem rightIdentity (env : Env) (mode mode' : Mode) (a : Expr) (x : Sym) (scope : Scope) (m : Continuation) :
    BehavesAs Eq env (m.enter (.bind mode a x (.pure mode' (.var x))) scope) (m.enter a scope) := by
  have left : run (turn env) 1 (m.enter (.bind mode a x (.pure mode' (.var x))) scope) =
      .more ((m.bare.enter a scope).upon (.bindK x (.pure mode' (.var x)) scope :: m.stack)) :=
    moreStep (.opens rfl (.bind mode _ x _)) rfl
  have right : run (turn env) 0 (m.enter a scope) = .more ((m.bare.enter a scope).upon m.stack) := rfl
  refine behavesAlike (alikeAfter left right (alikeBases (fun _ _ _ => rfl) (fun _ _ _ => rfl) ?_))
  intro _ n v _ at_ top
  have bound : (scope.bind x v).lookup x = some v := by rw [Scope.lookupBind,if_pos rfl]
  have found : lookupVar env (scope.bind x v) x = some v := by simp only [lookupVar,bound]
  have back : run (turn env) 3 (n.upon (.bindK x (.pure mode' (.var x)) scope :: m.stack)) =
      .more (n.upon m.stack) := by
    refine moreStep (.answers at_ (by simp only [Continuation.upon,top]; rfl) (.bindK x _ scope v)) ?_
    refine moreStep (.pure rfl) ?_
    refine moreStep (.yields rfl (.var found)) ?_
    simp only [Continuation.upon,top,List.nil_append,Runs.runZero,at_]
  exact alikeAfter (j := 0) back rfl (alikeSame rfl (fun _ _ => rfl))

theorem associativity (env : Env) (mode mode' mode₁ mode₂ : Mode) (a f g : Expr) (x y : Sym) (scope : Scope)
    (m : Continuation) (fresh : g.free x = false) (unused : ∀ o ∈ env.real ++ env.tonal, o.2.free x = false) :
    BehavesAs (VerdictAkin x anyOperand) env
      (m.enter (.bind mode (.bind mode' a x f) y g) scope)
      (m.enter (.bind mode₁ a x (.bind mode₂ f y g)) scope) := by
  have left : run (turn env) 2 (m.enter (.bind mode (.bind mode' a x f) y g) scope) =
      .more ((m.bare.enter a scope).upon (.bindK x f scope :: .bindK y g scope :: m.stack)) :=
    moreStep (.opens rfl (.bind mode _ y g)) (moreStep (.opens rfl (.bind mode' a x f)) rfl)
  have right : run (turn env) 1 (m.enter (.bind mode₁ a x (.bind mode₂ f y g)) scope) =
      .more ((m.bare.enter a scope).upon (.bindK x (.bind mode₂ f y g) scope :: m.stack)) :=
    moreStep (.opens rfl (.bind mode₁ a x _)) rfl
  refine behavesAlike (alikeAfter left right (alikeBases (fun _ _ => verdictRefl) (fun _ _ _ => rfl) ?_))
  intro _ n v _ at_ top
  have left : run (turn env) 1 (n.upon (.bindK x f scope :: .bindK y g scope :: m.stack)) =
      .more { n with control := .eval f (scope.bind x v), stack := .bindK y g scope :: m.stack } :=
    moreStep (.answers at_ (by simp only [Continuation.upon,top]; rfl) (.bindK x f scope v)) rfl
  have right : run (turn env) 2 (n.upon (.bindK x (.bind mode₂ f y g) scope :: m.stack)) =
      .more { n with control := .eval f (scope.bind x v), stack := .bindK y g (scope.bind x v) :: m.stack } :=
    moreStep (.answers at_ (by simp only [Continuation.upon,top]; rfl) (.bindK x _ scope v))
      (moreStep (.opens rfl (.bind mode₂ f y g)) rfl)
  have apart : (Expr.lam y g).free x = false := by simp [Expr.free,fresh]
  have agree : ScopeAkin x anyOperand (.lam y g) scope (scope.bind x v) := scopeUnseenRight (scopeSelf _ scope) apart
  exact alikeAfter left right (lockstep (hygienic unused)
    (stateRefl (.eval (exprTidy f) (scopeSelf f _)) (.cons (.bindK (exprTidy g) agree) (stackRefl m.stack))))

end Laws

/- In any scope and continuation; the modes written at the nodes are of no account. -/
theorem monadLaws (env : Env) (scope : Scope) (m : Continuation) (x : Sym) :
    (∀ mode mode' a param body, (Expr.lam param body).free x = false →
      (∀ o ∈ env.real ++ env.tonal, o.2.free x = false) →
      BehavesAs (VerdictAkin x anyOperand) env
        (m.enter (.bind mode (.pure mode' a) x (.app (.lam param body) (.var x))) scope)
        (m.enter (.app (.lam param body) a) scope)) ∧
    (∀ mode mode' a,
      BehavesAs Eq env (m.enter (.bind mode a x (.pure mode' (.var x))) scope) (m.enter a scope)) ∧
    (∀ mode mode' mode₁ mode₂ a f y g, g.free x = false →
      (∀ o ∈ env.real ++ env.tonal, o.2.free x = false) →
      BehavesAs (VerdictAkin x anyOperand) env
        (m.enter (.bind mode (.bind mode' a x f) y g) scope)
        (m.enter (.bind mode₁ a x (.bind mode₂ f y g)) scope)) :=
  ⟨fun mode mode' a param body => leftIdentity env mode mode' a x param body scope m,
    fun mode mode' a => rightIdentity env mode mode' a x scope m,
    fun mode mode' mode₁ mode₂ a f y g => associativity env mode mode' mode₁ mode₂ a f g x y scope m⟩

/- A throwing operand under a handler, with a resolved overload in both continuations. -/
theorem monadLawsThrowing :
    BehavesAs (VerdictAkin "x" anyOperand) { Env.default with real := [(("o","g"),.var "add")] }
      ((initial .phrygian .arg .unit emptyState).enter (.bind .phrygian (.pure .phrygian (.clama (.lit .unit))) "x"
        (.app (.lam "y" (.resolve "o" (.lit (.genus "g")))) (.var "x"))) .empty)
      ((initial .phrygian .arg .unit emptyState).enter
        (.app (.lam "y" (.resolve "o" (.lit (.genus "g")))) (.clama (.lit .unit))) .empty) ∧
    BehavesAs (VerdictAkin "x" anyOperand) { Env.default with real := [(("o","g"),.var "add")] }
      ((initial .phrygian .arg .unit emptyState).enter (.bind .phrygian (.bind .phrygian (.lit .unit) "x" (.var "x")) "y"
        (.clama (.var "y"))) .empty)
      ((initial .phrygian .arg .unit emptyState).enter (.bind .phrygian (.lit .unit) "x"
        (.bind .phrygian (.var "x") "y" (.clama (.var "y")))) .empty) :=
  ⟨(monadLaws _ .empty _ "x").1 _ _ _ _ _ (by decide) (by decide),
    (monadLaws _ .empty _ "x").2.2 _ _ _ _ _ _ _ _ (by decide) (by decide)⟩

end Officium
