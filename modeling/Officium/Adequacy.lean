import Officium.Lockstep
import Officium.WellFormed
import Officium.Reference

/-! The machine computes the reference semantics. Where the reference comes to an ending, the
machine over any pending stack comes to a state that ending describes; where its fuel gives out
the machine is still running after as many turns. Values are compared up to the binding of
`$stretto`, which only the machine makes. -/
namespace Officium.Reference
open Runs (Turn run Ends Forever runInvariant)

def stretto : Sym := "$stretto"

def noStretto (operand : Expr) : Prop := operand.free stretto = false

abbrev Same := Akin stretto noStretto

section Layers
variable {tower : List Layer}

theorem findFrom (kind : LayerKind) (before rest : List Layer) :
    (List.range' before.length rest.length).find? (fun i => (before ++ rest)[i]?.map Layer.kind == some kind) =
      (rest.findIdx? (fun l => l.kind == kind)).map (before.length + ·) := by
  induction rest generalizing before with
  | nil => rfl
  | cons l rest ih =>
    have here : (before ++ l :: rest)[before.length]? = some l := by simp
    have tail := ih (before ++ [l])
    rw [List.length_append,List.length_singleton,List.append_assoc] at tail
    rw [List.length_cons,List.range'_succ,List.find?_cons,here,List.findIdx?_cons]
    by_cases same : l.kind = kind
    · simp [same]
    · have other : (l.kind == kind) = false := by simp [same]
      have other' : (Option.map Layer.kind (some l) == some kind) = false := by simp [same]
      rw [other,other']
      simp only [Bool.false_eq_true,↓reduceIte,Option.map_map]
      refine tail.trans ?_
      congr 1
      funext i
      simp only [Function.comp]
      omega

theorem visibleFind {level : Nat} (inside : level ≤ tower.length) (kind : LayerKind) :
    visible tower level kind = findLayer tower level kind := by
  have split := List.take_append_drop level tower
  have found := findFrom kind (tower.take level) (tower.drop level)
  rw [split,List.length_take,Nat.min_eq_left inside,List.length_drop] at found
  exact found.symm

theorem firstStateAt {rest : List Layer} {j : Nat} {v : Value}
    (found : rest.findIdx? (fun l => l.kind == .state) = some j) (cell : rest[j]? = some (.state v)) :
    firstState rest = v := by
  induction rest generalizing j with
  | nil => cases cell
  | cons l rest ih =>
    rw [List.findIdx?_cons] at found
    split at found
    · cases found
      cases cell
      rfl
    · rename_i other
      obtain ⟨k,found',rfl⟩ := Option.map_eq_some_iff.mp found
      have skip := ih found' cell
      cases l with
      | state w => exact absurd rfl other
      | _ => exact skip

theorem legible {level i : Nat} {v : Value} (inside : level ≤ tower.length) (h : findLayer tower level .state = some i)
    (cell : tower[i]? = some (.state v)) : firstState (tower.drop level) = v := by
  rw [← visibleFind inside] at h
  obtain ⟨j,found,rfl⟩ := Option.map_eq_some_iff.mp h
  rw [← List.getElem?_drop] at cell
  exact firstStateAt found cell

theorem issueSet {i : Nat} {p : Plan} (cell : tower[i]? = some (.writer p)) (cs : Plan) :
    issue i cs tower = tower.set i (.writer (p ++ cs)) := by
  unfold issue
  refine List.ext_getElem? (fun j => ?_)
  rw [List.getElem?_modify,List.getElem?_set]
  by_cases same : i = j
  · subst same
    obtain ⟨inside,here⟩ := List.getElem?_eq_some_iff.mp cell
    simp [inside,here]
  · simp [same]

end Layers

/- A machine state at a level of the tower the reference threads. -/
structure Models (mode : Mode) (arg : Value) (m : Continuation) (level : Nat) (tower : List Layer) : Prop where
  formed : WellFormed m
  tower : List.Forall₂ (LayerAkin stretto noStretto) tower m.tower
  depth : m.depth = level
  mode : m.mode = mode
  arg : Same arg m.arg

/- The machine state over `base` that an ending describes. A raise has reached its `clama`
frame, and nothing between it and the base takes it. -/
inductive Landed (env : Env) (mode : Mode) (arg : Value) (level : Nat) (base : List Frame) :
    Ending × List Layer → Continuation → Prop where
  | value {v v' tower m} (models : Models mode arg m level tower) (at_ : m.control = .value v')
      (top : m.stack = base) (same : Same v v') : Landed env mode arg level base (.value v,tower) m
  | raised {channel v v' tower m} (rest : List Frame) (models : Models mode arg m m.depth tower) (at_ : m.control = .value v')
      (top : m.stack = .clamaK channel :: (rest ++ base)) (same : Same v v')
      (passes : ∀ w under, unwindFrames w channel (rest ++ under) m.depth = unwindFrames w channel under level) :
      Landed env mode arg level base (.raised channel v,tower) m
  | ended {r q tower m} (ends : turn env m = .done q) (same : VerdictAkin stretto noStretto r q) :
      Landed env mode arg level base (.ended r,tower) m

/- With this much fuel the machine reaches what the result describes, or is still running. -/
def Follows (env : Env) (mode : Mode) (arg : Value) (n : Nat) (o : Result) (m : Continuation) (level : Nat)
    (base : List Frame) : Prop :=
  match o with
  | none => ∃ t, run (turn env) n m = .more t
  | some out => ∃ k t, run (turn env) k m = .more t ∧ Landed env mode arg level base out t

section Follow
variable {env : Env} {mode : Mode} {arg : Value} {n level : Nat} {o : Result} {m t : Continuation}
  {base : List Frame} {tower : List Layer}

theorem followsThrough {k : Nat} (h : run (turn env) k m = .more t) (f : Follows env mode arg n o t level base) :
    Follows env mode arg n o m level base := by
  cases o with
  | none =>
    obtain ⟨u,hu⟩ := f
    exact Runs.moreBefore (by rw [Runs.runThrough h]; exact hu) (Nat.le_add_left n k)
  | some out =>
    obtain ⟨j,u,hu,landed⟩ := f
    exact ⟨k+j,u,by rw [Runs.runThrough h]; exact hu,landed⟩

theorem followsStep (step : Step env m t) (f : Follows env mode arg n o t level base) :
    Follows env mode arg (n+1) o m level base := by
  have one := stepTurn step
  cases o with
  | none =>
    obtain ⟨u,hu⟩ := f
    exact ⟨u,by rw [Runs.runMore one]; exact hu⟩
  | some out =>
    obtain ⟨j,u,hu,landed⟩ := f
    exact ⟨j+1,u,by rw [Runs.runMore one]; exact hu,landed⟩

theorem followsLess {k : Nat} (f : Follows env mode arg n o m level base) (le : k ≤ n) :
    Follows env mode arg k o m level base := by
  cases o with
  | none =>
    obtain ⟨u,hu⟩ := f
    exact Runs.moreBefore hu le
  | some out => exact f

theorem followsHere {out : Ending × List Layer} (landed : Landed env mode arg level base out m) :
    Follows env mode arg n (some out) m level base := ⟨0,m,rfl,landed⟩

theorem followsStop {r : Raise} (stops : Stops env m (.error r)) (fatal : Fatal r) :
    Follows env mode arg n (stop r tower) m level base :=
  followsHere (.ended (stopTurn stops) (.same r fatal))

theorem followsFails {e : Expr} {s : Scope} {r : Raise} (at_ : m.control = .eval e s) (h : Fails env m s e r) :
    Follows env mode arg n (stop r tower) m level base := followsStop (.fails at_ h) (failsFatal h)

theorem followsRefuses {v : Value} {frame : Frame} {rest : List Frame} {r : Raise} (at_ : m.control = .value v)
    (top : m.stack = frame :: rest) (h : Refuses env m frame v r) :
    Follows env mode arg n (stop r tower) m level base := followsStop (.refuses at_ top h) (refusesFatal h)

theorem modelsStep {t : Continuation} {tower' : List Layer} (models : Models mode arg m level tower) (step : Step env m t)
    (same : List.Forall₂ (LayerAkin stretto noStretto) tower' t.tower) : Models mode arg t t.depth tower' :=
  ⟨wellFormedStep models.formed step,same,rfl,(stepMode step).trans models.mode,by rw [stepArg step]; exact models.arg⟩

theorem modelsStay {t : Continuation} (models : Models mode arg m level tower) (step : Step env m t)
    (same : t.tower = m.tower) (depth : t.depth = m.depth) : Models mode arg t level tower := by
  have next : Models mode arg t t.depth tower := modelsStep models step (by rw [same]; exact models.tower)
  rw [depth,models.depth] at next
  exact next

/- An operand evaluated under one frame: its value goes to the frame, a raise passes it. -/
theorem followsBind {inner : Nat} {frame : Frame} {k : Value → List Layer → Result}
    (f : Follows env mode arg n o m inner (frame :: base))
    (passes : ∀ w channel under, unwindFrames w channel (frame :: under) inner = unwindFrames w channel under level)
    (next : ∀ v v' tower t, Models mode arg t inner tower → t.control = .value v' → t.stack = frame :: base →
      Same v v' → Follows env mode arg n (k v tower) t level base) :
    Follows env mode arg n (andThen o k) m level base := by
  cases o with
  | none => exact f
  | some out =>
    obtain ⟨j,t,hj,landed⟩ := f
    cases landed with
    | value models at_ top same => exact followsThrough hj (next _ _ _ t models at_ top same)
    | @raised channel v v' tower _ rest models at_ top same through =>
      refine ⟨j,t,hj,.raised (rest ++ [frame]) models at_ ?_ same (fun w under => ?_)⟩
      · rw [top,List.append_assoc]
        rfl
      · rw [List.append_assoc]
        exact (through w (frame :: under)).trans (passes w channel under)
    | ended ends same => exact ⟨j,t,hj,.ended ends same⟩

/- A control answered at once. -/
theorem followsYields {e : Expr} {s : Scope} {v v' : Value} (models : Models mode arg m level tower)
    (at_ : m.control = .eval e s) (top : m.stack = base) (h : Yields env m s e v') (same : Same v v') :
    Follows env mode arg (n+1) (give v tower) m level base := by
  have step := Step.yields at_ h
  exact followsStep step (followsHere (.value (modelsStay models step rfl rfl) rfl top same))

/- An operand opened under one frame and evaluated at the same level. -/
theorem followsOpens {e e' : Expr} {s : Scope} {frame : Frame} {k : Value → List Layer → Result}
    (models : Models mode arg m level tower) (at_ : m.control = .eval e s) (top : m.stack = base)
    (h : Opens m s e e' frame)
    (passes : ∀ w channel under, unwindFrames w channel (frame :: under) level = unwindFrames w channel under level)
    (operand : ∀ t, Models mode arg t level tower → t.control = .eval e' s → t.stack = frame :: base →
      Follows env mode arg n o t level (frame :: base))
    (next : ∀ v v' tower t, Models mode arg t level tower → t.control = .value v' → t.stack = frame :: base →
      Same v v' → Follows env mode arg n (k v tower) t level base) :
    Follows env mode arg (n+1) (andThen o k) m level base := by
  have step : Step env m { m with control := .eval e' s, stack := frame :: m.stack } := .opens at_ h
  exact followsStep step (followsBind (operand _ (modelsStay models step rfl rfl) rfl (by rw [top])) passes next)

/- A value taken by the frame on top. -/
theorem followsAnswers {v : Value} {frame : Frame} {rest pushed : List Frame} {c : Control}
    (models : Models mode arg m level tower) (at_ : m.control = .value v) (top : m.stack = frame :: rest)
    (h : Answers env frame v c pushed)
    (next : ∀ t, Models mode arg t level tower → t.control = c → t.stack = pushed ++ rest →
      Follows env mode arg n o t level base) : Follows env mode arg n o m level base := by
  have step : Step env m { m with control := c, stack := pushed ++ rest } := .answers at_ top h
  exact followsLess (followsStep step (next _ (modelsStay models step rfl rfl) rfl rfl)) (Nat.le_succ n)

end Follow

section Main
variable (env : Env) (mode : Mode) (arg : Value)

def EvalFollows (n : Nat) : Prop := ∀ {level e s s' m base tower}, Expr.tidy noStretto e →
  ScopeAkin stretto noStretto e s s' → Models mode arg m level tower → m.control = .eval e s' → m.stack = base →
  Follows env mode arg n (eval env mode arg n level s e tower) m level base

/- The machine's self-reference evaluates its `Fix` with the argument bound to `$stretto`. -/
def SelfFollows (n : Nat) : Prop := ∀ {level f s s' v v' m base tower}, (Expr.fix f).tidy noStretto →
  ScopeAkin stretto noStretto (.fix f) s s' → Same v v' → Models mode arg m level tower →
  m.control = .eval (.app (.fix f) (.var stretto)) (s'.bind stretto v') → m.stack = base →
  Follows env mode arg n (eval env mode arg n level s (.app (.fix f) (.lit v)) tower) m level base

def ApplyFollows (n : Nat) : Prop := ∀ {count level fn fn' v v' m base tower}, solveNesting fn < count →
  Same fn fn' → Same v v' → Models mode arg m level tower →
  (∀ c posts, Enters fn' v' c posts → Step env m { m with control := c, stack := posts.map .builtinPost ++ base }) →
  (∀ r, Rejects fn' v' r → Stops env m (.error r)) →
  Follows env mode arg n (applyUpTo (eval env mode arg n level) count fn v tower) m level base

end Main

section Apply
variable {env : Env} {mode : Mode} {arg : Value} {n : Nat}

theorem selfOperandSome {param : Sym} {body f : Expr} (h : selfOperand param body = some f) :
    param = stretto ∧ body = .app (.fix f) (.var stretto) := by
  unfold selfOperand at h
  split at h
  · split at h
    · rename_i both
      cases h
      obtain ⟨rfl,rfl⟩ := both
      exact ⟨rfl,rfl⟩
    · cases h
  · cases h

theorem enterFollows (evals : EvalFollows env mode arg n) (selfs : SelfFollows env mode arg n)
    {level : Nat} {param : Sym} {body : Expr} {s s' : Scope} {v v' : Value} {m : Continuation} {base : List Frame}
    {tower : List Layer} (tidy : body.tidy noStretto) (agree : ScopeAkin stretto noStretto (.lam param body) s s')
    (same : Same v v') (models : Models mode arg m level tower)
    (at_ : m.control = .eval body (s'.bind param v')) (top : m.stack = base) :
    Follows env mode arg n (enter (eval env mode arg n level) param body s v tower) m level base := by
  unfold enter
  cases self : selfOperand param body with
  | none => exact evals tidy (scopeEnter agree same) models at_ top
  | some f =>
    obtain ⟨rfl,rfl⟩ := selfOperandSome self
    unfold Expr.tidy at tidy
    have clean : f.free stretto = false := by
      have fixTidy := tidy.1
      unfold Expr.tidy at fixTidy
      exact fixTidy.1
    exact selfs tidy.1 (scopeWithout agree (by simpa [Expr.free] using clean)) same models at_ top

theorem applyFollows (evals : EvalFollows env mode arg n) (selfs : SelfFollows env mode arg n) :
    ApplyFollows env mode arg n := by
  intro count
  induction count with
  | zero => intro level fn fn' v v' m base tower few; omega
  | succ count ih =>
    intro level fn fn' v v' m base tower few sameFn same models enters rejects
    unfold applyUpTo
    cases sameFn with
    | flat flat =>
      have other : Rejects fn v' (.dissonance (.dissonant "closure" fn.ty)) :=
        .other v' (by intro p b s eq; subst eq; cases flat) (by intro name as eq; subst eq; cases flat)
      cases fn <;> first | exact followsStop (rejects _ other) (fatalOther (by simp)) | cases flat
    | record fields => exact followsStop (rejects _ (.other v' (by simp) (by simp))) (fatalOther (by simp))
    | closure tidy agree =>
      have step := enters _ _ (.closure _ _ _ v')
      have entered := enterFollows evals selfs tidy agree same (modelsStay models step rfl rfl) rfl rfl
      exact followsLess (followsStep step entered) (Nat.le_succ n)
    | @builtin name args args' h =>
      have called := bothCall (argsAkinPush h same) name
      simp only
      by_cases short : args.length + 1 < (Builtins.arity name).getD 0
      · rw [if_pos short]
        have step := enters _ _ (.short (by rw [← h.length_eq]; exact short))
        exact ⟨1,_,(Runs.runOne m).trans (stepTurn step),
          .value (modelsStay models step rfl rfl) rfl rfl (.builtin (argsAkinPush h same))⟩
      · rw [if_neg short]
        have full : ¬ args'.length + 1 < (Builtins.arity name).getD 0 := by rw [← h.length_eq]; exact short
        cases mine : Builtins.call name (args ++ [v]) with
        | error r =>
          rw [mine] at called
          have theirs := bothError (r := r) called rfl
          have rejected := Rejects.call full theirs
          exact followsStop (rejects _ rejected) (rejectsFatal rejected)
        | ok r =>
          rw [mine] at called
          obtain ⟨r',theirs,results⟩ := bothOk called rfl
          cases results with
          | done sameR =>
            have step := enters _ _ (.done full theirs)
            exact ⟨1,_,(Runs.runOne m).trans (stepTurn step),.value (modelsStay models step rfl rfl) rfl rfl sameR⟩
          | @apply g g' a a' sameG sameA post =>
            have nested := applyNested mine
            have inner := ih (m := m) (by omega) sameG sameA models
              (fun c posts entered => by
                have step := enters c (posts ++ [post]) (.apply full theirs entered)
                rw [List.map_append,List.append_assoc] at step
                exact step)
              (fun q rejected => rejects q (.inner full theirs rejected))
            refine followsBind inner (fun _ _ _ => rfl) (fun w w' tower' t models' at_ top sameW => ?_)
            have applied := bothApplyPost post sameW
            cases done : Builtins.applyPost post w with
            | ok u =>
              rw [done] at applied
              obtain ⟨u',theirs',sameU⟩ := bothOk applied rfl
              exact followsAnswers models' at_ top (.builtinPost theirs') (fun t models at_ top =>
                followsHere (.value models at_ top sameU))
            | error q =>
              rw [done] at applied
              exact followsRefuses at_ top (.builtinPost (bothError (r := q) applied rfl))

end Apply

section Eval
variable {env : Env} {mode : Mode} {arg : Value} {n level : Nat} {m : Continuation} {base : List Frame}
  {tower : List Layer} {s s' : Scope}

/- Both sides look for the layer an operation acts on, and agree on it. -/
theorem followsLayer {e : Expr} {kind : LayerKind} {op : OpKind} {k : Nat → Result}
    (models : Models mode arg m level tower) (at_ : m.control = .eval e s') (need : needs e = some (kind,op))
    (found : ∀ i, findLayer m.tower m.depth kind = some i → Follows env mode arg n (k i) m level base) :
    Follows env mode arg n (onLayer kind op mode level tower k) m level base := by
  have inside : level ≤ tower.length := by
    rw [models.tower.length_eq,← models.depth]
    exact Nat.le_of_lt models.formed.room
  unfold onLayer
  rw [visibleFind inside,findLayerAkin models.tower,← models.depth]
  cases h : findLayer m.tower m.depth kind with
  | none =>
    rw [← models.mode]
    exact followsFails at_ (.hidden need h)
  | some i => exact models.depth ▸ found i h

theorem appFollows (applies : ApplyFollows env mode arg n) {f a : Expr} {o : Result} {p : List Layer → Result}
    (models : Models mode arg m level tower) (at_ : m.control = .eval (.app f a) s') (top : m.stack = base)
    (function : ∀ t, Models mode arg t level tower → t.control = .eval f s' → t.stack = .appArg a s' :: base →
      Follows env mode arg n o t level (.appArg a s' :: base))
    (operand : ∀ t frame tower, Models mode arg t level tower → t.control = .eval a s' → t.stack = frame :: base →
      Follows env mode arg n (p tower) t level (frame :: base)) :
    Follows env mode arg (n+1) (andThen o (fun fn tower => andThen (p tower) (fun v tower =>
      applyTo (eval env mode arg n level) fn v tower))) m level base := by
  refine followsOpens models at_ top (.app f a) (fun _ _ _ => rfl) function ?_
  intro fn fn' tower t models at_ top sameFn
  refine followsAnswers models at_ top (.appArg a s' fn') (fun t models at_ top => ?_)
  refine followsBind (operand t _ tower models at_ top) (fun _ _ _ => rfl) ?_
  intro v v' tower t models at_ top same
  exact applies (Nat.lt_succ_self _) sameFn same models
    (fun c posts entered => .answers at_ top (.appCall entered)) (fun r rejected => .refuses at_ top (.appCall rejected))

theorem selfFollows (evals : EvalFollows env mode arg n) (applies : ApplyFollows env mode arg n) :
    SelfFollows env mode arg (n+1) := by
  intro level f s s' v v' m base tower tidy agree same models at_ top
  have clean : (Expr.fix f).free stretto = false := by
    unfold Expr.tidy at tidy
    exact tidy.1
  have bound : (s'.bind stretto v').lookup stretto = some v' := by rw [Scope.lookupBind,if_pos rfl]
  have found : lookupVar env (s'.bind stretto v') stretto = some v' := by simp only [lookupVar,bound]
  refine appFollows applies models at_ top ?_ ?_
  · exact fun t models at_ top => evals tidy (scopeUnseenRight agree clean) models at_ top
  · intro t frame tower models at_ top
    cases n with
    | zero => exact ⟨t,rfl⟩
    | succ n => exact followsYields models at_ top (.var found) same

theorem recipeFollows (evals : EvalFollows env mode arg n) {body handler : Expr} {name : Sym} {i : Nat}
    (tidy : (Expr.recipe body name handler).tidy noStretto)
    (agree : ScopeAkin stretto noStretto (.recipe body name handler) s s') (models : Models mode arg m level tower)
    (at_ : m.control = .eval (.recipe body name handler) s') (top : m.stack = base)
    (visible : findLayer m.tower m.depth .except = some i) :
    Follows env mode arg (n+1) (match eval env mode arg n level s body tower with
      | some (.raised j v,tower) =>
        if j = i then eval env mode arg n level (s.bind name v) handler tower else some (.raised j v,tower)
      | other => other) m level base := by
  unfold Expr.tidy at tidy
  have step : Step env m { m with control := .eval body s', stack := .recipeH name handler s' i :: m.stack } :=
    .opens at_ (.recipe visible)
  have under : { m with control := .eval body s', stack := .recipeH name handler s' i :: m.stack }.stack =
      .recipeH name handler s' i :: base := by rw [top]
  have inner := evals tidy.1 (scopeNarrow agree (by simp [Expr.free]; tauto)) (modelsStay models step rfl rfl) rfl under
  refine followsStep step ?_
  generalize eval env mode arg n level s body tower = o at inner
  cases o with
  | none => exact inner
  | some out =>
    obtain ⟨j,t,hj,landed⟩ := inner
    cases landed with
    | ended ends same => exact ⟨j,t,hj,.ended ends same⟩
    | value models at_ top same =>
      exact followsThrough hj (followsAnswers models at_ top (.recipeH name handler s' i _)
        (fun t models at_ top => followsHere (.value models at_ top same)))
    | @raised channel v v' tower _ rest models at_ top same passes =>
      simp only
      have through := passes v' (.recipeH name handler s' i :: base)
      by_cases mine : channel = i
      · rw [if_pos mine]
        subst mine
        simp only [unwindFrames,if_true] at through
        have caught : Step env t _ := .caught at_ top through
        have models' := modelsStep models caught models.tower
        refine followsThrough hj (followsLess (followsStep caught (evals tidy.2 ?_ models' rfl rfl)) (Nat.le_succ n))
        exact scopeEnter (scopeNarrow agree (by simp [Expr.free]; tauto)) same
      · rw [if_neg mine]
        refine ⟨j,t,hj,.raised (rest ++ [.recipeH name handler s' i]) models at_ ?_ same (fun w under => ?_)⟩
        · rw [top,List.append_assoc]
          rfl
        · rw [List.append_assoc]
          refine (passes w (.recipeH name handler s' i :: under)).trans ?_
          simp only [unwindFrames]
          exact if_neg (fun eq : i = channel => mine eq.symm)

theorem liftFollows (evals : EvalFollows env mode arg n) {e : Expr} (tidy : e.tidy noStretto)
    (agree : ScopeAkin stretto noStretto e s s') (models : Models mode arg m level tower)
    (at_ : m.control = .eval (.lift e) s') (top : m.stack = base) :
    Follows env mode arg (n+1) (if level + 1 < tower.length then eval env mode arg n (level+1) s e tower
      else dissonance (.wrongMode mode .lift) tower) m level base := by
  have depth := models.depth
  by_cases room : level + 1 < tower.length
  · rw [if_pos room]
    rw [models.tower.length_eq,← depth] at room
    have step : Step env m _ := .lift at_ room
    have models' := modelsStep models step models.tower
    simp only [depth,top] at step models'
    have inner := evals tidy agree models' rfl rfl
    have under := followsBind (k := give) inner (fun _ _ _ => rfl) (by
      intro v v' tower t models at_ top same
      have back : Step env t _ := .liftK at_ top
      have models' := modelsStep models back models.tower
      exact followsLess (followsStep back (followsHere (.value models' rfl rfl same))) (Nat.le_succ n))
    have unit (o : Result) : andThen o give = o := by
      cases o with
      | none => rfl
      | some out => obtain ⟨ending,tower⟩ := out; cases ending <;> rfl
    rw [unit] at under
    exact followsStep step under
  · rw [if_neg room]
    have room' : ¬ m.depth + 1 < m.tower.length := by rw [depth,← models.tower.length_eq]; exact room
    rw [← models.mode]
    exact followsFails at_ (.bottom e (Nat.le_of_lt models.formed.room) room')

/- A frame that writes one layer and answers unit. -/
theorem followsWrites {i : Nat} {l l' : Layer} (models : Models mode arg m level tower)
    (step : Step env m { m with control := .value .unit, stack := base, tower := m.tower.set i l' })
    (same : LayerAkin stretto noStretto l l') :
    Follows env mode arg n (give .unit (tower.set i l)) m level base := by
  have models' := modelsStep models step (towerSet models.tower same i)
  refine followsLess (followsStep step (followsHere (.value ?_ rfl rfl (.flat rfl)))) (Nat.le_succ n)
  rw [← models.depth]
  exact models'

theorem placedTop {frame : Frame} (models : Models mode arg m level tower) (top : m.stack = frame :: base) :
    Placed (m.tower.map Layer.kind) frame := models.formed.placed frame (by rw [top]; exact List.mem_cons_self)

theorem poneFollows {v v' : Value} {i : Nat} (models : Models mode arg m level tower) (at_ : m.control = .value v')
    (top : m.stack = .poneK i :: base) (same : Same v v') :
    Follows env mode arg n (give .unit (tower.set i (.state v))) m level base := by
  obtain ⟨inside,_⟩ := List.getElem?_eq_some_iff.mp (placedTop models top)
  rw [List.length_map] at inside
  exact followsWrites models (.poneK at_ top inside) (.state same)

theorem mitteFollows {v v' : Value} {i : Nat} (models : Models mode arg m level tower) (at_ : m.control = .value v')
    (top : m.stack = .mitteK i :: base) (same : Same v v') :
    Follows env mode arg n (match commands v with
      | some cs => give .unit (issue i cs tower)
      | none => dissonance (.dissonant "cmd" v.ty) tower) m level base := by
  have kind : (m.tower.map Layer.kind)[i]? = some .writer := placedTop models top
  rw [List.getElem?_map] at kind
  obtain ⟨l,cell,writer⟩ := Option.map_eq_some_iff.mp kind
  cases l with
  | writer p =>
    have here : tower[i]? = some (.writer p) := by
      rcases towerAt models.tower i with ⟨_,none⟩ | ⟨k,k',some_,some_',sameL⟩
      · rw [cell] at none; cases none
      · rw [cell] at some_'
        cases some_'
        cases sameL
        exact some_
    cases issued : commands v with
    | some cs =>
      simp only
      rw [issueSet here]
      exact followsWrites models (.mitteK at_ top cell ((commandsAkin same).symm.trans issued))
        (.same (by simp [Layer.kind]))
    | none =>
      have refused : Refuses env m (.mitteK i) v' _ := .mitteK cell ((commandsAkin same).symm.trans issued)
      rw [← akinTy same] at refused
      exact followsRefuses at_ top refused
  | _ => cases writer

theorem perageFollows {v v' : Value} (models : Models mode arg m level tower) (at_ : m.control = .value v')
    (top : m.stack = .perageK :: base) (same : Same v v') :
    Follows env mode arg n (commit v tower) m level base := by
  cases same with
  | flat flat =>
    cases v with
    | plan p =>
      cases p with
      | nil => exact followsRefuses at_ top .premature
      | cons c p =>
        have ends : turn env m = _ := stopTurn (.commit at_ top (by simp))
        exact followsHere (.ended ends (finishAkin models.tower (.some (.flat rfl)) _))
    | _ => exact followsRefuses at_ top (.unconsecrated (by simp))
  | _ => exact followsRefuses at_ top (.unconsecrated (by simp))

theorem evalStepFollows (evals : EvalFollows env mode arg n) (selfs : SelfFollows env mode arg n)
    (hyg : Hygienic stretto noStretto env) : EvalFollows env mode arg (n+1) := by
  intro level e s s' m base tower tidy agree models at_ top
  have applies : ApplyFollows env mode arg n := applyFollows evals selfs
  cases e with
  | lit v =>
    unfold Expr.tidy at tidy
    exact followsYields models at_ top (.lit v) (akinRefl v tidy)
  | var name =>
    cases found : lookupVar env s name with
    | some v =>
      obtain ⟨v',found',same⟩ := lookupSome hyg agree found
      simp only [eval,found]
      exact followsYields models at_ top (.var found') same
    | none =>
      simp only [eval,found]
      exact followsFails at_ (.var (lookupNone hyg agree found))
  | lam param body =>
    unfold Expr.tidy at tidy
    exact followsYields models at_ top (.lam param body) (.closure tidy agree)
  | app f a =>
    unfold Expr.tidy at tidy
    exact appFollows applies models at_ top
      (fun t models at_ top => evals tidy.1 (scopeNarrow agree (by simp [Expr.free]; tauto)) models at_ top)
      (fun t frame tower models at_ top => evals tidy.2 (scopeNarrow agree (by simp [Expr.free]; tauto)) models at_ top)
  | ifE c t e =>
    unfold Expr.tidy at tidy
    refine followsOpens models at_ top (.ifE c t e) (fun _ _ _ => rfl)
      (fun u models at_ top => evals tidy.1 (scopeNarrow agree (by simp [Expr.free]; tauto)) models at_ top) ?_
    intro v v' tower u models at_ top same
    have ty := akinTy same
    cases same with
    | flat flat =>
      cases v with
      | bool b =>
        cases b with
        | true =>
          exact followsAnswers models at_ top (.ifTrue t e s') (fun u models at_ top =>
            evals tidy.2.1 (scopeNarrow agree (by simp [Expr.free]; tauto)) models at_ top)
        | false =>
          exact followsAnswers models at_ top (.ifFalse t e s') (fun u models at_ top =>
            evals tidy.2.2 (scopeNarrow agree (by simp [Expr.free]; tauto)) models at_ top)
      | _ => exact followsRefuses at_ top (.ifK (by simp))
    | _ => exact followsRefuses at_ top (.ifK (by simp))
  | fix f =>
    have tidy' := tidy
    unfold Expr.tidy at tidy'
    refine followsOpens models at_ top (.fix f) (fun _ _ _ => rfl)
      (fun u models at_ top => evals tidy'.2 agree models at_ top) ?_
    intro fn fn' tower u models at_ top same
    exact followsLess (applies (Nat.lt_succ_self _) same (selfRefAkin tidy agree) models
      (fun c posts entered => .answers at_ top (.fixK entered)) (fun r rejected => .refuses at_ top (.fixK rejected)))
      (Nat.le_refl n)
  | pure mode' e =>
    unfold Expr.tidy at tidy
    have step : Step env m _ := .pure at_
    exact followsStep step (evals tidy agree (modelsStay models step rfl rfl) rfl top)
  | ret mode' e =>
    unfold Expr.tidy at tidy
    refine followsOpens models at_ top (.ret mode' e) (fun _ _ _ => rfl)
      (fun u models at_ top => evals tidy agree models at_ top) ?_
    intro v v' tower u models at_ top same
    exact followsHere (.ended (stopTurn (.cadence at_ top)) (finishAkin models.tower (.some same) none))
  | bind mode' mval name k =>
    unfold Expr.tidy at tidy
    refine followsOpens models at_ top (.bind mode' mval name k) (fun _ _ _ => rfl)
      (fun u models at_ top => evals tidy.1 (scopeNarrow agree (by simp [Expr.free]; tauto)) models at_ top) ?_
    intro v v' tower u models at_ top same
    exact followsAnswers models at_ top (.bindK name k s' v') (fun u models at_ top =>
      evals tidy.2 (scopeEnter (scopeNarrow agree (by simp [Expr.free]; tauto)) same) models at_ top)
  | arg => exact followsYields models at_ top .arg models.arg
  | ask name =>
    cases found : env.ask name with
    | ok v =>
      simp only [eval,found]
      exact followsYields models at_ top (.ask found) (akinRefl v (hyg.pedal found))
    | error r =>
      simp only [eval,found]
      exact followsFails at_ (.ask found)
  | resolve name genus =>
    unfold Expr.tidy at tidy
    refine followsOpens models at_ top (.resolve name genus) (fun _ _ _ => rfl)
      (fun u models at_ top => evals tidy agree models at_ top) ?_
    intro v v' tower u models at_ top same
    cases same with
    | flat flat =>
      cases v with
      | genus g =>
        simp only
        cases found : env.resolve name g with
        | ok overload =>
          obtain ⟨tidy',unused⟩ := hyg.overload found
          exact followsAnswers models at_ top (.resolveK found) (fun u models at_ top =>
            evals tidy' (scopeWithout agree unused) models at_ top)
        | error r => exact followsRefuses at_ top (.resolveK found)
      | _ => exact followsRefuses at_ top (.genus (by simp))
    | _ => exact followsRefuses at_ top (.genus (by simp))
  | nihil => exact followsLayer models at_ rfl (fun i visible => followsFails at_ (.nihil visible))
  | clama e =>
    unfold Expr.tidy at tidy
    refine followsLayer models at_ rfl (fun i visible => ?_)
    refine followsOpens models at_ top (.clama visible) (fun _ _ _ => rfl)
      (fun u models at_ top => evals tidy agree models at_ top) ?_
    intro v v' tower u models at_ top same
    exact followsHere (.raised [] (models.depth.symm ▸ models) at_ top same (fun w under => by rw [models.depth]; rfl))
  | recipe body name handler =>
    exact followsLayer models at_ rfl (fun i visible => recipeFollows evals tidy agree models at_ top visible)
  | lege =>
    refine followsLayer models at_ rfl (fun i visible => ?_)
    obtain ⟨l,cell',kind,_⟩ := findLayerSome visible
    cases l with
    | state v' =>
      rcases towerAt models.tower i with ⟨_,none⟩ | ⟨k,k',cell,some_,same⟩
      · rw [cell'] at none; cases none
      · rw [cell'] at some_
        cases some_
        cases same with
        | same other => exact absurd rfl other
        | state same =>
          have inside : level ≤ tower.length := by
            rw [models.tower.length_eq,← models.depth]
            exact Nat.le_of_lt models.formed.room
          have visible' := visible
          rw [← findLayerAkin models.tower,models.depth] at visible'
          rw [legible inside visible' cell]
          exact followsYields models at_ top (.lege visible cell') same
    | _ => cases kind
  | pone e =>
    unfold Expr.tidy at tidy
    refine followsLayer models at_ rfl (fun i visible => ?_)
    refine followsOpens models at_ top (.pone visible) (fun _ _ _ => rfl)
      (fun u models at_ top => evals tidy agree models at_ top) ?_
    exact fun v v' tower u models at_ top same => poneFollows models at_ top same
  | mitte e =>
    unfold Expr.tidy at tidy
    refine followsLayer models at_ rfl (fun i visible => ?_)
    refine followsOpens models at_ top (.mitte visible) (fun _ _ _ => rfl)
      (fun u models at_ top => evals tidy agree models at_ top) ?_
    exact fun v v' tower u models at_ top same => mitteFollows models at_ top same
  | perage e =>
    unfold Expr.tidy at tidy
    refine followsLayer models at_ rfl (fun i visible => ?_)
    refine followsOpens models at_ top (.perage visible) (fun _ _ _ => rfl)
      (fun u models at_ top => evals tidy agree models at_ top) ?_
    exact fun v v' tower u models at_ top same => perageFollows models at_ top same
  | lift e =>
    unfold Expr.tidy at tidy
    exact liftFollows evals tidy agree models at_ top

theorem evalFollows (hyg : Hygienic stretto noStretto env) (n : Nat) :
    EvalFollows env mode arg n ∧ SelfFollows env mode arg n := by
  induction n with
  | zero => exact ⟨fun {_ _ _ _ m _ _} _ _ _ _ _ => ⟨m,rfl⟩,fun {_ _ _ _ _ _ m _ _} _ _ _ _ _ _ => ⟨m,rfl⟩⟩
  | succ n ih => exact ⟨evalStepFollows ih.1 ih.2 hyg,selfFollows ih.1 (applyFollows ih.1 ih.2)⟩

end Eval


/- Where `$stretto` would be seen: free in an overload, or in an operand of a `Fix`, of the body
or of the code the other values hold. -/
structure Strettoless (env : Env) (body : Expr) (arg st : Value) : Prop where
  body : body.tidy noStretto
  overloads : ∀ o ∈ env.real ++ env.tonal, o.2.tidy noStretto ∧ o.2.free stretto = false
  pedals : ∀ p ∈ env.pedals, p.2.tidy noStretto
  arg : arg.tidy noStretto
  state : st.tidy noStretto

/- The machine ends as the reference does for every large enough fuel, and is paused under
every fuel where the reference comes to nothing. -/
def Agrees (env : Env) (mode : Mode) (body : Expr) (arg st : Value) : Prop :=
  (∀ n r, verse env mode body arg st n = some r →
    ∃ q enough, VerdictAkin stretto noStretto r q ∧ ∀ fuel, enough ≤ fuel → runVerse env mode body arg st fuel = q) ∧
  ((∀ n, verse env mode body arg st n = none) → ∀ fuel, ∃ c, runVerse env mode body arg st fuel = failure (.outOfFuel c))

section Verse
variable {env : Env} {mode : Mode} {body : Expr} {arg st : Value}

theorem strettolessHygienic (clean : Strettoless env body arg st) : Hygienic stretto noStretto env := by
  refine ⟨fun found => ?_,fun found => ?_⟩
  · have mem := Env.resolveMember found
    exact clean.overloads _ mem
  · obtain ⟨p,mem,rfl⟩ := Env.askMember found
    exact clean.pedals p mem

theorem verseFollows (mode : Mode) (clean : Strettoless env body arg st) (n : Nat) :
    Follows env mode arg n (eval env mode arg n 0 .empty body (buildTower mode st)) (initial mode body arg st) 0 [] := by
  refine (evalFollows (strettolessHygienic clean) n).1 clean.body (fun y _ => .none) ?_ rfl rfl
  exact ⟨wellFormedInitial mode body arg st,layersAkin (akinRefl st clean.state) _,rfl,rfl,akinRefl arg clean.arg⟩

theorem landedEnds {out : Ending × List Layer} {m : Continuation} (landed : Landed env mode arg 0 [] out m) :
    ∃ r q, turn env m = .done q ∧ VerdictAkin stretto noStretto r q ∧
      (match out with
        | (.value v,tower) => .ok (finish tower (some v) none)
        | (.raised _ v,_) => failure (.user v)
        | (.ended r,_) => r) = r := by
  cases landed with
  | value models at_ top same =>
    exact ⟨_,_,stopTurn (.dry at_ top),finishAkin models.tower (.some same) none,rfl⟩
  | raised rest models at_ top same passes =>
    exact ⟨_,_,stopTurn (.escaped at_ top (passes _ [])),.user same,rfl⟩
  | ended ends same => exact ⟨_,_,ends,same,rfl⟩

theorem runVerseAdequate (clean : Strettoless env body arg st) : Agrees env mode body arg st := by
  refine ⟨fun n r h => ?_,fun h fuel => ?_⟩
  · have follows := verseFollows mode clean n
    unfold verse at h
    generalize eval env mode arg n 0 .empty body (buildTower mode st) = o at h follows
    cases o with
    | none => cases h
    | some out =>
      obtain ⟨k,t,hk,landed⟩ := follows
      obtain ⟨r',q,ends,same,shape⟩ := landedEnds landed
      have finished : r' = r := by
        obtain ⟨ending,tower⟩ := out
        cases ending <;> exact shape.symm.trans (Option.some.inj h)
      subst finished
      refine ⟨q,k+1,same,fun fuel enough => ?_⟩
      have last : run (turn env) (k+1) (initial mode body arg st) = .done q := by
        rw [Runs.runLast hk,Runs.runOne,ends]
      change resume env (initial mode body arg st) fuel = q
      rw [resumeRun,Runs.doneStable last enough]
  · have follows := verseFollows mode clean fuel
    have nothing := h fuel
    unfold verse at nothing
    generalize eval env mode arg fuel 0 .empty body (buildTower mode st) = o at nothing follows
    cases o with
    | none =>
      obtain ⟨t,ht⟩ := follows
      exact ⟨t,pausedRun.mpr ht⟩
    | some out => obtain ⟨ending,tower⟩ := out; cases ending <;> cases nothing

end Verse

def cadencesBool : Verdict → Bool
  | .ok ⟨some (.bool _),_,_,_⟩ => true
  | _ => false

theorem cadencesBoolAkin {x : Sym} {rule : Expr → Prop} {r q : Verdict} (h : VerdictAkin x rule r q) :
    cadencesBool r = cadencesBool q := by
  cases h with
  | @ok o o' value =>
    obtain ⟨v,st,p,c⟩ := o
    obtain ⟨v',st',p',c'⟩ := o'
    cases value with
    | none => rfl
    | @some v _ h => cases h with
      | flat flat => cases v <;> rfl
      | _ => rfl
  | _ => rfl

theorem disagrees {env : Env} {mode : Mode} {body : Expr} {arg st : Value} (n fuel : Nat)
    (reference : (verse env mode body arg st n).map cadencesBool = some false)
    (machine : cadencesBool (runVerse env mode body arg st fuel) = true) : ¬ Agrees env mode body arg st := by
  intro agrees
  obtain ⟨r,found,not_⟩ := Option.map_eq_some_iff.mp reference
  obtain ⟨q,enough,same,all⟩ := agrees.1 n r found
  have ended : ∀ c, runVerse env mode body arg st fuel ≠ failure (.outOfFuel c) := by
    intro c paused
    rw [paused] at machine
    cases machine
  have far := all (max enough fuel) (Nat.le_max_left _ _)
  have near := resumeStable (k := max enough fuel) rfl ended (Nat.le_max_right _ _)
  have here : cadencesBool q = true := by
    rw [← far]
    exact (congrArg cadencesBool near).trans machine
  rw [← cadencesBoolAkin same,not_] at here
  cases here

/- A fixpoint that calls itself once and then goes on with `e`. -/
def onceMore (e : Expr) : Expr :=
  .app (.fix (.lam "s" (.lam "n" (.ifE (.var "n") (.app (.var "s") (.lit (.bool false))) e)))) (.lit (.bool true))

/- Its code has `$stretto` free in an operand of a `Fix`, bound outside of it. -/
def echo : Value := .closure "$stretto" (onceMore (.var "$stretto")) .empty

def echoOverload : Env := { Env.default with real := [(("o","g"),.var "$stretto")] }

def echoPedal : Env := { Env.default with pedals := [("p",echo)] }

/- The name is in no body below, yet the machine's binding of it is read: by an overload, and by
the code of a closure that comes from a pedal, the argument or the state. -/
theorem strettoSeen :
    ¬ Agrees echoOverload .dorian (onceMore (.resolve "o" (.lit (.genus "g")))) .unit emptyState ∧
    ¬ Agrees echoPedal .dorian (.app (.ask "p") (.lit .unit)) .unit emptyState ∧
    ¬ Agrees .default .dorian (.app .arg (.lit .unit)) echo emptyState ∧
    ¬ Agrees .default .lydian (.app .lege (.lit .unit)) .unit echo := by
  refine ⟨disagrees 20 60 ?_ ?_,disagrees 20 60 ?_ ?_,
    disagrees 20 60 ?_ ?_,disagrees 20 60 ?_ ?_⟩
  all_goals decide +kernel

theorem runVerseAdequateOnce : Agrees .default .dorian (onceMore (.var "n")) .unit emptyState :=
  runVerseAdequate ⟨by simp [onceMore,Expr.tidy,Value.tidy,noStretto,Expr.free,stretto],
    by simp [Env.default],by simp [Env.default],trivial,trivial⟩

end Officium.Reference
