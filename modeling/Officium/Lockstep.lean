import Officium.Akin
import Officium.Turns

/-! Two runs of the machine that differ in nothing their code can see stay so, turn by turn,
and end alike. The environment is shared: its overloads are run in scopes of either side, so
`x` must not be free in them. -/
namespace Officium
open Runs (Turn run Ends Forever Paced)

structure Hygienic (x : Sym) (rule : Expr → Prop) (env : Env) : Prop where
  overload : ∀ {name g e}, env.resolve name g = .ok e → e.tidy rule ∧ e.free x = false
  pedal : ∀ {name v}, env.ask name = .ok v → v.tidy rule

section Relation
variable (x : Sym) (rule : Expr → Prop)

inductive ControlAkin : Control → Control → Prop where
  | eval {e s s'} (tidy : e.tidy rule) (agree : ScopeAkin x rule e s s') : ControlAkin (.eval e s) (.eval e s')
  | value {v v'} (h : Akin x rule v v') : ControlAkin (.value v) (.value v')

/- A frame that holds no code and no value. -/
def Frame.still : Frame → Bool
  | .returnK | .clamaK _ | .poneK _ | .mitteK _ | .perageK | .liftK _ | .builtinPost _ => true
  | _ => false

inductive FrameAkin : Frame → Frame → Prop where
  | still {f} (h : f.still = true) : FrameAkin f f
  | appArg {a s s'} (tidy : a.tidy rule) (agree : ScopeAkin x rule a s s') :
      FrameAkin (.appArg a s) (.appArg a s')
  | appCall {f f'} (h : Akin x rule f f') : FrameAkin (.appCall f) (.appCall f')
  | ifK {t e s s'} (tidyT : t.tidy rule) (tidyE : e.tidy rule) (agreeT : ScopeAkin x rule t s s')
      (agreeE : ScopeAkin x rule e s s') : FrameAkin (.ifK t e s) (.ifK t e s')
  | bindK {name k s s'} (tidy : k.tidy rule) (agree : ScopeAkin x rule (.lam name k) s s') :
      FrameAkin (.bindK name k s) (.bindK name k s')
  | recipeH {name handler s s' channel} (tidy : handler.tidy rule)
      (agree : ScopeAkin x rule (.lam name handler) s s') :
      FrameAkin (.recipeH name handler s channel) (.recipeH name handler s' channel)
  | resolveK {name s s'} (agree : ScopeAkin x rule .arg s s') : FrameAkin (.resolveK name s) (.resolveK name s')
  | fixK {f s s'} (tidy : (Expr.fix f).tidy rule) (agree : ScopeAkin x rule f s s') :
      FrameAkin (.fixK f s) (.fixK f s')

inductive LayerAkin : Layer → Layer → Prop where
  | same {l} (other : l.kind ≠ .state) : LayerAkin l l
  | state {v v'} (h : Akin x rule v v') : LayerAkin (.state v) (.state v')

structure StateAkin (m m' : Continuation) : Prop where
  control : ControlAkin x rule m.control m'.control
  stack : List.Forall₂ (FrameAkin x rule) m.stack m'.stack
  tower : List.Forall₂ (LayerAkin x rule) m.tower m'.tower
  depth : m.depth = m'.depth
  thrown : m.thrown = m'.thrown
  mode : m.mode = m'.mode
  arg : Akin x rule m.arg m'.arg

inductive VerdictAkin : Verdict → Verdict → Prop where
  | ok {o o' : VerseOutcome} (value : OptAkin x rule o.value o'.value) (state : Akin x rule o.state o'.state)
      (plan : o.plan = o'.plan) (committed : o.committed = o'.committed) : VerdictAkin (.ok o) (.ok o')
  | user {v v'} (h : Akin x rule v v') : VerdictAkin (failure (.user v)) (failure (.user v'))
  | same (r) (fatal : Fatal r) : VerdictAkin (.error r) (.error r)

end Relation

section Layers
variable {x : Sym} {rule : Expr → Prop} {tower tower' : List Layer}

theorem layerKind {l l' : Layer} (h : LayerAkin x rule l l') : l.kind = l'.kind := by
  cases h <;> rfl

theorem towerAt (h : List.Forall₂ (LayerAkin x rule) tower tower') (i : Nat) :
    (tower[i]? = none ∧ tower'[i]? = none) ∨
      ∃ l l', tower[i]? = some l ∧ tower'[i]? = some l' ∧ LayerAkin x rule l l' := by
  induction h generalizing i with
  | nil => exact .inl ⟨rfl,rfl⟩
  | @cons l l' _ _ head tail ih =>
    cases i with
    | zero => exact .inr ⟨l,l',rfl,rfl,head⟩
    | succ i => exact ih i

theorem towerSet (h : List.Forall₂ (LayerAkin x rule) tower tower') {l l' : Layer} (hl : LayerAkin x rule l l') (i : Nat) :
    List.Forall₂ (LayerAkin x rule) (tower.set i l) (tower'.set i l') := by
  induction h generalizing i with
  | nil => exact .nil
  | cons head tail ih =>
    cases i with
    | zero => exact .cons hl tail
    | succ i => exact .cons head (ih i)

theorem findLayerAkin (h : List.Forall₂ (LayerAkin x rule) tower tower') (depth : Nat) (kind : LayerKind) :
    findLayer tower depth kind = findLayer tower' depth kind := by
  unfold findLayer
  rw [h.length_eq]
  congr 1
  funext i
  rcases towerAt h i with ⟨none,none'⟩ | ⟨l,l',some_,some_',same⟩
  · rw [none,none']
  · rw [some_,some_']
    simp only [Option.map_some,layerKind same]

theorem stateAt (h : List.Forall₂ (LayerAkin x rule) tower tower') {i : Nat} {v : Value}
    (cell : tower[i]? = some (.state v)) : ∃ v', tower'[i]? = some (.state v') ∧ Akin x rule v v' := by
  rcases towerAt h i with ⟨none,_⟩ | ⟨l,l',some_,some_',same⟩
  · rw [cell] at none; cases none
  · rw [cell] at some_
    cases some_
    cases same with
    | same other => exact absurd rfl other
    | state h => exact ⟨_,some_',h⟩

theorem writerAt (h : List.Forall₂ (LayerAkin x rule) tower tower') {i : Nat} {p : Plan}
    (cell : tower[i]? = some (.writer p)) : tower'[i]? = some (.writer p) := by
  rcases towerAt h i with ⟨none,_⟩ | ⟨l,l',some_,some_',same⟩
  · rw [cell] at none; cases none
  · rw [cell] at some_
    cases some_
    cases same with
    | same => exact some_'

theorem firstStateAkin (h : List.Forall₂ (LayerAkin x rule) tower tower') :
    Akin x rule (firstState tower) (firstState tower') := by
  induction h with
  | nil => exact .flat rfl
  | @cons l _ _ _ head tail ih =>
    cases head with
    | state h => exact h
    | same other => cases l <;> first | exact ih | exact absurd rfl other

theorem firstPlanAkin (h : List.Forall₂ (LayerAkin x rule) tower tower') : firstPlan tower = firstPlan tower' := by
  induction h with
  | nil => rfl
  | @cons l _ _ _ head tail ih =>
    cases head with
    | state h => exact ih
    | same other => cases l <;> first | exact ih | rfl

theorem finishAkin (h : List.Forall₂ (LayerAkin x rule) tower tower') {v v' : Option Value} (value : OptAkin x rule v v')
    (committed : Option Plan) :
    VerdictAkin x rule (.ok (finish tower v committed)) (.ok (finish tower' v' committed)) :=
  .ok value (firstStateAkin h) (firstPlanAkin h) rfl

theorem layersAkin {st st' : Value} (h : Akin x rule st st') (kinds : List LayerKind) :
    List.Forall₂ (LayerAkin x rule) (layersOf st kinds) (layersOf st' kinds) := by
  induction kinds generalizing st st' with
  | nil => exact .nil
  | cons kind rest ih =>
    cases kind with
    | state => exact .cons (.state h) (ih (.record .nil))
    | _ => exact .cons (.same (by simp [Layer.kind])) (ih h)

end Layers

section Scopes
variable {x : Sym} {rule : Expr → Prop} {s s' : Scope} {v v' : Value} {name : Sym} {e k : Expr}

/- Anything that does not read `x` agrees wherever anything does. -/
theorem scopeWithout (h : ScopeAkin x rule e s s') (unused : k.free x = false) : ScopeAkin x rule k s s' :=
  scopeNarrow h (fun free => by rw [unused] at free; cases free)

theorem scopeEnter (h : ScopeAkin x rule (.lam name k) s s') (value : Akin x rule v v') :
    ScopeAkin x rule k (s.bind name v) (s'.bind name v') := by
  refine scopeUnder h value (fun free => ?_)
  by_cases same : name = x
  · exact .inl same
  · exact .inr (by simp [Expr.free,same,free])

end Scopes

section Application
variable {x : Sym} {rule : Expr → Prop} {f f' v v' : Value} {c : Control} {posts : List PostOp} {r : Raise}

theorem bothOk {α : Type} {rel : α → α → Prop} {p q : Except Raise α} {a : α} (h : Both rel p q) (same : p = .ok a) :
    ∃ b, q = .ok b ∧ rel a b := by
  subst same
  cases h with
  | ok h => exact ⟨_,rfl,h⟩

theorem bothError {α : Type} {rel : α → α → Prop} {p q : Except Raise α} (h : Both rel p q) (same : p = .error r) :
    q = .error r := by
  subst same
  cases h with
  | error r => rfl

theorem entersAkin (h : Enters f v c posts) (hf : Akin x rule f f') (hv : Akin x rule v v') :
    ∃ c', Enters f' v' c' posts ∧ ControlAkin x rule c c' := by
  induction h generalizing f' v' with
  | closure param body env v =>
    cases hf with
    | flat flat => cases flat
    | closure tidy agree => exact ⟨_,.closure _ _ _ _,.eval tidy (scopeEnter agree hv)⟩
  | short few =>
    cases hf with
    | flat flat => cases flat
    | builtin args => exact ⟨_,.short (by rw [← args.length_eq]; exact few),.value (.builtin (argsAkinPush args hv))⟩
  | @done name args v r full called =>
    cases hf with
    | flat flat => cases flat
    | builtin args =>
      obtain ⟨r',called',same⟩ := bothOk (bothCall (argsAkinPush args hv) name) called
      cases same with
      | done h => exact ⟨_,.done (by rw [← args.length_eq]; exact full) called',.value h⟩
  | @apply name args v g a post c posts full called inner ih =>
    cases hf with
    | flat flat => cases flat
    | builtin args =>
      obtain ⟨r',called',same⟩ := bothOk (bothCall (argsAkinPush args hv) name) called
      cases same with
      | apply hg ha =>
        obtain ⟨c',entered,control⟩ := ih hg ha
        exact ⟨c',.apply (by rw [← args.length_eq]; exact full) called' entered,control⟩

theorem rejectsAkin (h : Rejects f v r) (hf : Akin x rule f f') (hv : Akin x rule v v') : Rejects f' v' r := by
  induction h generalizing f' v' with
  | other v closure builtin =>
    rw [akinTy hf]
    cases hf with
    | flat flat => exact .other _ closure builtin
    | closure tidy agree => exact absurd rfl (closure _ _ _)
    | builtin args => exact absurd rfl (builtin _ _)
    | record fields => exact .other _ (by simp) (by simp)
  | @call name args v r full called =>
    cases hf with
    | flat flat => cases flat
    | builtin args =>
      exact .call (by rw [← args.length_eq]; exact full) (bothError (bothCall (argsAkinPush args hv) name) called)
  | @inner name args v g a post r full called inner ih =>
    cases hf with
    | flat flat => cases flat
    | builtin args =>
      obtain ⟨r',called',same⟩ := bothOk (bothCall (argsAkinPush args hv) name) called
      cases same with
      | apply hg ha => exact .inner (by rw [← args.length_eq]; exact full) called' (ih hg ha)

theorem selfRefAkin {g : Expr} {s s' : Scope} (tidy : (Expr.fix g).tidy rule) (agree : ScopeAkin x rule g s s') :
    Akin x rule (selfRef g s) (selfRef g s') := by
  refine .closure ?_ (fun y sees => agree y (fun same => ?_))
  · unfold Expr.tidy
    exact ⟨tidy,by unfold Expr.tidy; trivial⟩
  · have free := sees same
    simp only [Expr.free,Bool.and_eq_true,bne_iff_ne,Bool.or_eq_true,beq_iff_eq] at free
    rcases free.2 with used | named
    · exact used
    · exact absurd named free.1

end Application

section Turns
variable {x : Sym} {rule : Expr → Prop} {env : Env} {m m' : Continuation} {s s' : Scope} {v v' : Value}

theorem lookupVarAkin (hyg : Hygienic x rule env) {name : Sym} (agree : ScopeAkin x rule (.var name) s s') :
    OptAkin x rule (lookupVar env s name) (lookupVar env s' name) := by
  have found := agree name (fun same => by simp [Expr.free,same])
  unfold lookupVar
  generalize s.lookup name = a at found ⊢
  generalize s'.lookup name = b at found ⊢
  cases found with
  | some h => exact .some h
  | none =>
    cases value : Builtins.value name with
    | some b =>
      obtain ⟨n,_,rfl⟩ := Option.map_eq_some_iff.mp value
      exact .some (.builtin .nil)
    | none =>
      cases asked : env.ask name with
      | ok w => exact .some (akinRefl w (hyg.pedal asked))
      | error r => exact .none

theorem lookupSome (hyg : Hygienic x rule env) {name : Sym} (agree : ScopeAkin x rule (.var name) s s')
    (found : lookupVar env s name = some v) : ∃ v', lookupVar env s' name = some v' ∧ Akin x rule v v' := by
  have both := lookupVarAkin hyg agree
  rw [found] at both
  generalize lookupVar env s' name = b at both ⊢
  cases both with
  | some h => exact ⟨_,rfl,h⟩

theorem lookupNone (hyg : Hygienic x rule env) {name : Sym} (agree : ScopeAkin x rule (.var name) s s')
    (unbound : lookupVar env s name = none) : lookupVar env s' name = none := by
  have both := lookupVarAkin hyg agree
  rw [unbound] at both
  generalize lookupVar env s' name = b at both ⊢
  cases both with
  | none => rfl

variable (hyg : Hygienic x rule env) (akin : StateAkin x rule m m')
include akin

theorem visibleAkin (kind : LayerKind) : findLayer m.tower m.depth kind = findLayer m'.tower m'.depth kind := by
  rw [findLayerAkin akin.tower,akin.depth]

include hyg in
theorem yieldsAkin {e : Expr} (tidy : e.tidy rule) (agree : ScopeAkin x rule e s s') (h : Yields env m s e v) :
    ∃ v', Yields env m' s' e v' ∧ Akin x rule v v' := by
  cases h with
  | lit v => exact ⟨v,.lit v,akinRefl v (by unfold Expr.tidy at tidy; exact tidy)⟩
  | var found =>
    obtain ⟨v',found',h⟩ := lookupSome hyg agree found
    exact ⟨v',.var found',h⟩
  | lam param body => exact ⟨_,.lam param body,.closure (by unfold Expr.tidy at tidy; exact tidy) agree⟩
  | arg => exact ⟨_,.arg,akin.arg⟩
  | ask found => exact ⟨v,.ask found,akinRefl v (hyg.pedal found)⟩
  | lege visible cell =>
    obtain ⟨v',cell',h⟩ := stateAt akin.tower cell
    rw [visibleAkin akin] at visible
    exact ⟨v',.lege visible cell',h⟩

theorem opensAkin {e e' : Expr} {f : Frame} (tidy : e.tidy rule) (agree : ScopeAkin x rule e s s')
    (h : Opens m s e e' f) :
    ∃ f', Opens m' s' e e' f' ∧ FrameAkin x rule f f' ∧ e'.tidy rule ∧ ScopeAkin x rule e' s s' := by
  have visible' {kind : LayerKind} {i : Nat} (visible : findLayer m.tower m.depth kind = some i) :
      findLayer m'.tower m'.depth kind = some i := by rw [← visibleAkin akin]; exact visible
  cases h with
  | app f a =>
    unfold Expr.tidy at tidy
    exact ⟨_,.app _ a,.appArg tidy.2 (scopeNarrow agree (by simp [Expr.free]; tauto)),tidy.1,
      scopeNarrow agree (by simp [Expr.free]; tauto)⟩
  | ifE c t e =>
    unfold Expr.tidy at tidy
    exact ⟨_,.ifE _ t e,.ifK tidy.2.1 tidy.2.2 (scopeNarrow agree (by simp [Expr.free]; tauto))
      (scopeNarrow agree (by simp [Expr.free]; tauto)),tidy.1,scopeNarrow agree (by simp [Expr.free]; tauto)⟩
  | fix f =>
    refine ⟨_,.fix _,.fixK tidy agree,?_,agree⟩
    unfold Expr.tidy at tidy
    exact tidy.2
  | ret mode e =>
    unfold Expr.tidy at tidy
    exact ⟨_,.ret mode e',.still rfl,tidy,agree⟩
  | bind mode mval name k =>
    unfold Expr.tidy at tidy
    exact ⟨_,.bind mode e' name k,.bindK tidy.2 (scopeNarrow agree (by simp [Expr.free]; tauto)),tidy.1,
      scopeNarrow agree (by simp [Expr.free]; tauto)⟩
  | resolve name genus =>
    unfold Expr.tidy at tidy
    exact ⟨_,.resolve name e',.resolveK (scopeWithout agree rfl),tidy,agree⟩
  | clama visible =>
    unfold Expr.tidy at tidy
    exact ⟨_,.clama (visible' visible),.still rfl,tidy,agree⟩
  | recipe visible =>
    unfold Expr.tidy at tidy
    exact ⟨_,.recipe (visible' visible),.recipeH tidy.2 (scopeNarrow agree (by simp [Expr.free]; tauto)),tidy.1,
      scopeNarrow agree (by simp [Expr.free]; tauto)⟩
  | pone visible =>
    unfold Expr.tidy at tidy
    exact ⟨_,.pone (visible' visible),.still rfl,tidy,agree⟩
  | mitte visible =>
    unfold Expr.tidy at tidy
    exact ⟨_,.mitte (visible' visible),.still rfl,tidy,agree⟩
  | perage visible =>
    unfold Expr.tidy at tidy
    exact ⟨_,.perage (visible' visible),.still rfl,tidy,agree⟩

include hyg in
theorem failsAkin {e : Expr} {r : Raise} (agree : ScopeAkin x rule e s s') (h : Fails env m s e r) :
    Fails env m' s' e r := by
  cases h with
  | var unbound => exact .var (lookupNone hyg agree unbound)
  | ask unbound => exact .ask unbound
  | nihil visible =>
    rw [visibleAkin akin] at visible
    exact .nihil visible
  | hidden need none =>
    rw [akin.mode]
    rw [visibleAkin akin] at none
    exact .hidden need none
  | bottom e inside room =>
    rw [akin.depth,akin.tower.length_eq] at inside room
    rw [akin.mode]
    exact .bottom e inside room
  | below e outside =>
    rw [akin.depth,akin.tower.length_eq] at outside
    exact .below e outside

omit akin

include hyg in
theorem answersAkin {f f' : Frame} {c : Control} {pushed : List Frame} (h : Answers env f v c pushed)
    (hf : FrameAkin x rule f f') (hv : Akin x rule v v') :
    ∃ c' pushed', Answers env f' v' c' pushed' ∧ ControlAkin x rule c c' ∧
      List.Forall₂ (FrameAkin x rule) pushed pushed' := by
  have posts (posts : List PostOp) :
      List.Forall₂ (FrameAkin x rule) (posts.map .builtinPost) (posts.map .builtinPost) := by
    induction posts with
    | nil => exact .nil
    | cons post posts ih => exact .cons (.still rfl) ih
  cases h with
  | appArg a scope v =>
    cases hf with
    | still h => cases h
    | appArg tidy agree => exact ⟨_,_,.appArg _ _ _,.eval tidy agree,.cons (.appCall hv) .nil⟩
  | appCall enters =>
    cases hf with
    | still h => cases h
    | appCall hf =>
      obtain ⟨c',enters',same⟩ := entersAkin enters hf hv
      exact ⟨c',_,.appCall enters',same,posts _⟩
  | fixK enters =>
    cases hf with
    | still h => cases h
    | fixK tidy agree =>
      obtain ⟨c',enters',same⟩ := entersAkin enters hv (selfRefAkin tidy agree)
      exact ⟨c',_,.fixK enters',same,posts _⟩
  | ifTrue t e scope =>
    cases hv with
    | flat h => cases hf with
      | still h => cases h
      | ifK tidyT tidyE agreeT agreeE => exact ⟨_,_,.ifTrue _ _ _,.eval tidyT agreeT,.nil⟩
  | ifFalse t e scope =>
    cases hv with
    | flat h => cases hf with
      | still h => cases h
      | ifK tidyT tidyE agreeT agreeE => exact ⟨_,_,.ifFalse _ _ _,.eval tidyE agreeE,.nil⟩
  | bindK name k scope v =>
    cases hf with
    | still h => cases h
    | bindK tidy agree => exact ⟨_,_,.bindK _ _ _ _,.eval tidy (scopeEnter agree hv),.nil⟩
  | recipeH name handler scope channel v =>
    cases hf with
    | still h => cases h
    | recipeH tidy agree => exact ⟨_,_,.recipeH _ _ _ _ _,.value hv,.nil⟩
  | resolveK found =>
    cases hv with
    | flat h => cases hf with
      | still h => cases h
      | resolveK agree =>
        obtain ⟨tidy,unused⟩ := hyg.overload found
        exact ⟨_,_,.resolveK found,.eval tidy (scopeWithout agree unused),.nil⟩
  | @builtinPost post v r applied =>
    obtain ⟨r',applied',same⟩ := bothOk (bothApplyPost post hv) applied
    cases hf with
    | still h => exact ⟨_,_,.builtinPost applied',.value same,.nil⟩

theorem commandsAkin (h : Akin x rule v v') : commands v = commands v' := by
  cases h <;> rfl

include akin in
theorem refusesAkin {f f' : Frame} {r : Raise} (h : Refuses env m f v r) (hf : FrameAkin x rule f f')
    (hv : Akin x rule v v') : Refuses env m' f' v' r := by
  have ty := akinTy hv
  cases h with
  | appCall h =>
    cases hf with
    | still h => cases h
    | appCall hf => exact .appCall (rejectsAkin h hf hv)
  | fixK h =>
    cases hf with
    | still h => cases h
    | fixK tidy agree => exact .fixK (rejectsAkin h hv (selfRefAkin tidy agree))
  | ifK other =>
    rw [ty]
    cases hf with
    | still h => cases h
    | ifK => exact .ifK (fun b same => by cases hv <;> first | exact other b same | cases same)
  | poneK outside =>
    rw [akin.tower.length_eq] at outside
    cases hf with
    | still => exact .poneK outside
  | mitteK plan other =>
    rw [ty]
    cases hf with
    | still => exact .mitteK (writerAt akin.tower plan) (by rw [← commandsAkin hv]; exact other)
  | outside outside =>
    rw [akin.tower.length_eq] at outside
    cases hf with
    | still => exact .outside outside
  | @layer i v l found other =>
    cases hf with
    | still =>
      rcases towerAt akin.tower i with ⟨none,_⟩ | ⟨k,k',some_,some_',same⟩
      · rw [found] at none; cases none
      · rw [found] at some_
        cases some_
        refine .layer some_' (fun p writer => ?_)
        subst writer
        cases same with
        | same => exact other p rfl
  | premature =>
    cases hf with
    | still => cases hv with
      | flat => exact .premature
  | unconsecrated other =>
    cases hf with
    | still => exact .unconsecrated (fun p same => by cases hv <;> first | exact other p same | cases same)
  | resolveK unresolved =>
    cases hv with
    | flat => cases hf with
      | still h => cases h
      | resolveK => exact .resolveK unresolved
  | genus other =>
    rw [ty]
    cases hf with
    | still h => cases h
    | resolveK => exact .genus (fun g same => by cases hv <;> first | exact other g same | cases same)
  | @builtinPost post v r h =>
    cases hf with
    | still => exact .builtinPost (bothError (bothApplyPost post hv) h)

end Turns

section Unwinding
variable {x : Sym} {rule : Expr → Prop} {v v' : Value} {stack stack' : List Frame}

theorem unwindAkin (hv : Akin x rule v v') (h : List.Forall₂ (FrameAkin x rule) stack stack') (thrown depth : Nat) :
    (unwindFrames v thrown stack depth = none ∧ unwindFrames v' thrown stack' depth = none) ∨
      ∃ c c' rest rest' d, unwindFrames v thrown stack depth = some (c,rest,d) ∧
        unwindFrames v' thrown stack' depth = some (c',rest',d) ∧ ControlAkin x rule c c' ∧
        List.Forall₂ (FrameAkin x rule) rest rest' := by
  induction h generalizing depth with
  | nil => exact .inl ⟨rfl,rfl⟩
  | @cons f f' _ _ head tail ih =>
    cases head with
    | still still => cases f with
      | liftK d => exact ih d
      | recipeH => cases still
      | _ => exact ih depth
    | @recipeH name handler s s' channel tidy agree =>
      unfold unwindFrames
      by_cases same : channel = thrown
      · rw [if_pos same,if_pos same]
        exact .inr ⟨_,_,_,_,_,rfl,rfl,.eval tidy (scopeEnter agree hv),tail⟩
      · rw [if_neg same,if_neg same]
        exact ih depth
    | _ => exact ih depth

end Unwinding

section Lockstep
variable {x : Sym} {rule : Expr → Prop} {env : Env} {m m' n : Continuation}

theorem atEval {e : Expr} {s : Scope} (akin : StateAkin x rule m m') (at_ : m.control = .eval e s) :
    ∃ s', m'.control = .eval e s' ∧ e.tidy rule ∧ ScopeAkin x rule e s s' := by
  have control := akin.control
  rw [at_] at control
  generalize c' : m'.control = d at control
  cases control with
  | eval tidy agree => exact ⟨_,rfl,tidy,agree⟩

theorem atValue {v : Value} (akin : StateAkin x rule m m') (at_ : m.control = .value v) :
    ∃ v', m'.control = .value v' ∧ Akin x rule v v' := by
  have control := akin.control
  rw [at_] at control
  generalize c' : m'.control = d at control
  cases control with
  | value h => exact ⟨_,rfl,h⟩

theorem atFrame {f : Frame} {rest : List Frame} (akin : StateAkin x rule m m') (top : m.stack = f :: rest) :
    ∃ f' rest', m'.stack = f' :: rest' ∧ FrameAkin x rule f f' ∧ List.Forall₂ (FrameAkin x rule) rest rest' := by
  have stack := akin.stack
  rw [top] at stack
  generalize c' : m'.stack = d at stack
  cases stack with
  | cons head tail => exact ⟨_,_,rfl,head,tail⟩

theorem atStill {f : Frame} {rest : List Frame} (akin : StateAkin x rule m m') (top : m.stack = f :: rest)
    (still : f.still = true) : ∃ rest', m'.stack = f :: rest' ∧ List.Forall₂ (FrameAkin x rule) rest rest' := by
  obtain ⟨f',rest',top',head,tail⟩ := atFrame akin top
  cases head with
  | still => exact ⟨rest',top',tail⟩
  | _ => cases still

theorem stepAkin (hyg : Hygienic x rule env) (akin : StateAkin x rule m m') (step : Step env m n) :
    ∃ n', Step env m' n' ∧ StateAkin x rule n n' := by
  obtain ⟨_,stack,tower,depth,thrown,mode,arg⟩ := akin
  have akin : StateAkin x rule m m' := ⟨‹_›,stack,tower,depth,thrown,mode,arg⟩
  cases step with
  | yields at_ h =>
    obtain ⟨s',at_',tidy,agree⟩ := atEval akin at_
    obtain ⟨v',h',same⟩ := yieldsAkin hyg akin tidy agree h
    exact ⟨_,.yields at_' h',.value same,stack,tower,depth,thrown,mode,arg⟩
  | opens at_ h =>
    obtain ⟨s',at_',tidy,agree⟩ := atEval akin at_
    obtain ⟨f',h',frame,tidy',agree'⟩ := opensAkin akin tidy agree h
    exact ⟨_,.opens at_' h',.eval tidy' agree',.cons frame stack,tower,depth,thrown,mode,arg⟩
  | pure at_ =>
    obtain ⟨s',at_',tidy,agree⟩ := atEval akin at_
    unfold Expr.tidy at tidy
    exact ⟨_,.pure at_',.eval tidy agree,stack,tower,depth,thrown,mode,arg⟩
  | lift at_ room =>
    obtain ⟨s',at_',tidy,agree⟩ := atEval akin at_
    unfold Expr.tidy at tidy
    rw [depth,tower.length_eq] at room
    refine ⟨_,.lift at_' room,.eval tidy agree,?_,tower,?_,thrown,mode,arg⟩
    · rw [depth]
      exact .cons (.still rfl) stack
    · change m.depth + 1 = m'.depth + 1
      rw [depth]
  | answers at_ top h =>
    obtain ⟨v',at_',value⟩ := atValue akin at_
    obtain ⟨f',rest',top',head,tail⟩ := atFrame akin top
    obtain ⟨c',pushed',h',control,pushed⟩ := answersAkin hyg h head value
    exact ⟨_,.answers at_' top' h',control,List.rel_append pushed tail,tower,depth,thrown,mode,arg⟩
  | @poneK v i rest at_ top inside =>
    obtain ⟨v',at_',value⟩ := atValue akin at_
    obtain ⟨rest',top',tail⟩ := atStill akin top rfl
    rw [tower.length_eq] at inside
    exact ⟨_,.poneK at_' top' inside,.value (.flat rfl),tail,towerSet tower (.state value) i,depth,thrown,mode,arg⟩
  | @mitteK v i rest p cs at_ top plan issued =>
    obtain ⟨v',at_',value⟩ := atValue akin at_
    obtain ⟨rest',top',tail⟩ := atStill akin top rfl
    rw [commandsAkin value] at issued
    exact ⟨_,.mitteK at_' top' (writerAt tower plan) issued,.value (.flat rfl),tail,
      towerSet tower (.same (by simp [Layer.kind])) i,depth,thrown,mode,arg⟩
  | liftK at_ top =>
    obtain ⟨v',at_',value⟩ := atValue akin at_
    obtain ⟨rest',top',tail⟩ := atStill akin top rfl
    exact ⟨_,.liftK at_' top',.value value,tail,tower,rfl,thrown,mode,arg⟩
  | @caught v channel rest c below d at_ top h =>
    obtain ⟨v',at_',value⟩ := atValue akin at_
    obtain ⟨rest',top',tail⟩ := atStill akin top rfl
    rcases unwindAkin value tail channel m.depth with ⟨none,_⟩ | ⟨_,c',_,below',_,some_,some_',control,under⟩
    · rw [h] at none; cases none
    · rw [h] at some_
      cases some_
      rw [depth] at some_'
      exact ⟨_,.caught at_' top' some_',control,under,tower,rfl,rfl,mode,arg⟩

theorem failsFatal {s : Scope} {e : Expr} {r : Raise} (h : Fails env m s e r) : Fatal r := by
  cases h with
  | ask unbound => rw [askError unbound]; exact fatalOther (by simp)
  | below => intro v same; cases same
  | _ => exact fatalOther (by simp)

theorem refusesFatal {f : Frame} {v : Value} {r : Raise} (h : Refuses env m f v r) : Fatal r := by
  cases h with
  | appCall h | fixK h => exact rejectsFatal h
  | resolveK unresolved => rw [resolveError unresolved]; exact fatalOther (by simp)
  | builtinPost h => exact plainFatal (Builtins.plainApplyPost _ _ _ h)
  | poneK | outside | layer => intro v same; cases same
  | _ => exact fatalOther (by simp)

theorem stopsAkin (hyg : Hygienic x rule env) (akin : StateAkin x rule m m') {r : Verdict} (stop : Stops env m r) :
    ∃ r', Stops env m' r' ∧ VerdictAkin x rule r r' := by
  cases stop with
  | dry at_ top =>
    obtain ⟨v',at_',value⟩ := atValue akin at_
    have stack := akin.stack
    rw [top] at stack
    refine ⟨_,.dry at_' ?_,finishAkin akin.tower (.some value) none⟩
    generalize m'.stack = d at stack
    cases stack
    rfl
  | cadence at_ top =>
    obtain ⟨v',at_',value⟩ := atValue akin at_
    obtain ⟨rest',top',_⟩ := atStill akin top rfl
    exact ⟨_,.cadence at_' top',finishAkin akin.tower (.some value) none⟩
  | commit at_ top nonempty =>
    obtain ⟨v',at_',value⟩ := atValue akin at_
    obtain ⟨rest',top',_⟩ := atStill akin top rfl
    cases value with
    | flat => exact ⟨_,.commit at_' top' nonempty,finishAkin akin.tower (.some (.flat rfl)) _⟩
  | @escaped v channel rest at_ top h =>
    obtain ⟨v',at_',value⟩ := atValue akin at_
    obtain ⟨rest',top',tail⟩ := atStill akin top rfl
    rcases unwindAkin value tail channel m.depth with ⟨_,none⟩ | ⟨_,_,_,_,_,some_,_⟩
    · rw [akin.depth] at none
      exact ⟨_,.escaped at_' top' none,.user value⟩
    · rw [h] at some_; cases some_
  | fails at_ h =>
    obtain ⟨s',at_',tidy,agree⟩ := atEval akin at_
    exact ⟨_,.fails at_' (failsAkin hyg akin agree h),.same _ (failsFatal h)⟩
  | refuses at_ top h =>
    obtain ⟨v',at_',value⟩ := atValue akin at_
    obtain ⟨f',rest',top',head,_⟩ := atFrame akin top
    exact ⟨_,.refuses at_' top' (refusesAkin akin h head value),.same _ (refusesFatal h)⟩

/- Related states keep pace turn by turn: they run forever together or end alike. -/
theorem lockstep (hyg : Hygienic x rule env) (akin : StateAkin x rule m m') :
    (Forever (turn env) m ∧ Forever (turn env) m') ∨
      ∃ r r', Ends (turn env) m r ∧ Ends (turn env) m' r' ∧ VerdictAkin x rule r r' := by
  refine Runs.pacedAgree (StateAkin x rule) (fun s t same => ?_) akin
  cases h : turn env s with
  | more s' =>
    obtain ⟨t',step,next⟩ := stepAkin hyg same (turnStep h)
    exact .inl ⟨0,0,s',t',(Runs.runOne s).trans h,(Runs.runOne t).trans (stepTurn step),next⟩
  | done r =>
    obtain ⟨r',stop,agree⟩ := stopsAkin hyg same (turnStop h)
    exact .inr ⟨r,r',⟨1,(Runs.runOne s).trans h⟩,⟨1,(Runs.runOne t).trans (stopTurn stop)⟩,agree⟩

end Lockstep

end Officium
