import Officium.WellFormed

/-! The code a machine holds. A property of expressions that passes to the operands a turn may go
on with, to the overloads a `resolve` may bring in and to the values of the program's own literals
and pedals holds of every piece of code in every continuation of a run it held of at the start. -/
namespace Officium
open Runs (Turn run runInvariant)

/- The immediate subexpressions. -/
inductive Operand : Expr → Expr → Prop where
  | lam (x e) : Operand e (.lam x e)
  | appF (f a) : Operand f (.app f a)
  | appA (f a) : Operand a (.app f a)
  | ifC (c t e) : Operand c (.ifE c t e)
  | ifT (c t e) : Operand t (.ifE c t e)
  | ifE (c t e) : Operand e (.ifE c t e)
  | fix (f) : Operand f (.fix f)
  | pure (tag e) : Operand e (.pure tag e)
  | ret (tag e) : Operand e (.ret tag e)
  | bindM (tag m x k) : Operand m (.bind tag m x k)
  | bindK (tag m x k) : Operand k (.bind tag m x k)
  | resolve (name e) : Operand e (.resolve name e)
  | clama (e) : Operand e (.clama e)
  | recipeB (b x h) : Operand b (.recipe b x h)
  | recipeH (b x h) : Operand h (.recipe b x h)
  | pone (e) : Operand e (.pone e)
  | mitte (e) : Operand e (.mitte e)
  | perage (e) : Operand e (.perage e)
  | lift (e) : Operand e (.lift e)

section Carrying
variable (env : Env) (R : Expr → Nat → Prop) (C : Sym → Expr → Nat → Prop)

mutual
/- Every closure in the value, over a scope of so many bindings, has the property. -/
inductive CarriesBy : Value → Prop where
  | unit : CarriesBy .unit
  | num (n : Scalar) : CarriesBy (.num n)
  | bool (b : Bool) : CarriesBy (.bool b)
  | genus (g : Genus) : CarriesBy (.genus g)
  | str (s : String) : CarriesBy (.str s)
  | cmd (c : GravityCmd) : CarriesBy (.cmd c)
  | plan (p : Plan) : CarriesBy (.plan p)
  | field (f : Field) : CarriesBy (.field f)
  | closure {param body scope} (code : C param body scope.length) (scope_ : ScopeCarriesBy scope) :
      CarriesBy (.closure param body scope)
  | builtin (name : Sym) {args} (args_ : ∀ v ∈ args, CarriesBy v) : CarriesBy (.builtin name args)
  | record {fields} (fields_ : ∀ p ∈ fields, CarriesBy p.2) : CarriesBy (.record fields)

inductive ScopeCarriesBy : Scope → Prop where
  | empty : ScopeCarriesBy .empty
  | node (name : Sym) {value next} (value_ : CarriesBy value) (next_ : ScopeCarriesBy next) :
      ScopeCarriesBy (.node name value next)
end

/- Code in a scope of so many bindings. -/
inductive ControlCarriesBy : Control → Prop where
  | eval {e scope} (code : R e scope.length) (scope_ : ScopeCarriesBy C scope) : ControlCarriesBy (.eval e scope)
  | value {v} (value_ : CarriesBy C v) : ControlCarriesBy (.value v)

inductive FrameCarriesBy : Frame → Prop where
  | appArg {a scope} (code : R a scope.length) (scope_ : ScopeCarriesBy C scope) : FrameCarriesBy (.appArg a scope)
  | appCall {f} (value_ : CarriesBy C f) : FrameCarriesBy (.appCall f)
  | ifK {t e scope} (then_ : R t scope.length) (else_ : R e scope.length) (scope_ : ScopeCarriesBy C scope) :
      FrameCarriesBy (.ifK t e scope)
  | bindK (name : Sym) {k scope} (code : R k (scope.length + 1)) (scope_ : ScopeCarriesBy C scope) :
      FrameCarriesBy (.bindK name k scope)
  | returnK : FrameCarriesBy .returnK
  | clamaK (channel : Nat) : FrameCarriesBy (.clamaK channel)
  | recipeH (name : Sym) {handler scope} (channel : Nat) (code : R handler (scope.length + 1))
      (scope_ : ScopeCarriesBy C scope) : FrameCarriesBy (.recipeH name handler scope channel)
  | poneK (i : Nat) : FrameCarriesBy (.poneK i)
  | mitteK (i : Nat) : FrameCarriesBy (.mitteK i)
  | perageK : FrameCarriesBy .perageK
  | resolveK {name genus scope} (code : R (.resolve name genus) scope.length) (scope_ : ScopeCarriesBy C scope) :
      FrameCarriesBy (.resolveK name scope)
  | fixK {f scope} (code : R (.fix f) scope.length) (scope_ : ScopeCarriesBy C scope) : FrameCarriesBy (.fixK f scope)
  | liftK (depth : Nat) : FrameCarriesBy (.liftK depth)
  | builtinPost (post : PostOp) : FrameCarriesBy (.builtinPost post)

structure StateCarriesBy (m : Continuation) : Prop where
  control : ControlCarriesBy R C m.control
  stack : ∀ f ∈ m.stack, FrameCarriesBy R C f
  cells : ∀ v, .state v ∈ m.tower → CarriesBy C v
  arg : CarriesBy C m.arg

/- What the properties of code and of closures must do for a turn to keep them. -/
structure HereditaryBy : Prop where
  operand : ∀ {e e' n}, Operand e e' → R e' n → R e n
  closes : ∀ {x e n}, R (.lam x e) n → C x e n
  binds : ∀ {tag m x k n}, R (.bind tag m x k) n → R k (n + 1)
  handles : ∀ {b x h n}, R (.recipe b x h) n → R h (n + 1)
  literal : ∀ {v n}, R (.lit v) n → CarriesBy C v
  overload : ∀ {name genus g e n}, R (.resolve name genus) n → env.resolve name g = .ok e → R e n
  pedal : ∀ {name v}, env.ask name = .ok v → CarriesBy C v
  stretto : ∀ {f n}, R (.fix f) n → C "$stretto" (.app (.fix f) (.var "$stretto")) n

end Carrying

/- What the answer to a frame applies, and to what. -/
inductive Applies : Frame → Value → Value → Value → Prop where
  | call (f v) : Applies (.appCall f) v f v
  | fixpoint (f scope v) : Applies (.fixK f scope) v v (selfRef f scope)

/- The body of a closure that the answer enters is fit for the scope it is entered in. -/
def Ready (R : Expr → Nat → Prop) (C : Sym → Expr → Nat → Prop) (frame : Frame) (v : Value) : Prop :=
  ∀ {f w param body a scope posts}, Applies frame v f w → Enters f w (.eval body (.node param a scope)) posts →
    C param body scope.length → R body (scope.length + 1)

section Plain
variable (P : Expr → Prop)

/- Properties of the code alone. -/
abbrev Carries : Value → Prop := CarriesBy (fun _ e _ => P e)
abbrev ControlCarries : Control → Prop := ControlCarriesBy (fun e _ => P e) (fun _ e _ => P e)
abbrev FrameCarries : Frame → Prop := FrameCarriesBy (fun e _ => P e) (fun _ e _ => P e)
abbrev StateCarries : Continuation → Prop := StateCarriesBy (fun e _ => P e) (fun _ e _ => P e)

structure Hereditary (env : Env) (P : Expr → Prop) : Prop where
  operand : ∀ {e e'}, Operand e e' → P e' → P e
  literal : ∀ {v}, P (.lit v) → Carries P v
  overload : ∀ {name genus g e}, P (.resolve name genus) → env.resolve name g = .ok e → P e
  pedal : ∀ {name v}, env.ask name = .ok v → Carries P v
  stretto : ∀ {f}, P (.fix f) → P (.app (.fix f) (.var "$stretto"))

end Plain

theorem hereditaryBy {env : Env} {P : Expr → Prop} (her : Hereditary env P) :
    HereditaryBy env (fun e _ => P e) (fun _ e _ => P e) where
  operand := her.operand
  closes := her.operand (.lam _ _)
  binds := her.operand (.bindK _ _ _ _)
  handles := her.operand (.recipeH _ _ _)
  literal := her.literal
  overload := her.overload
  pedal := her.pedal
  stretto := her.stretto

mutual
theorem carriesMono {C D : Sym → Expr → Nat → Prop} (imp : ∀ x e n, C x e n → D x e n) : ∀ {v : Value}, CarriesBy C v → CarriesBy D v
  | _, .unit => .unit
  | _, .num n => .num n
  | _, .bool b => .bool b
  | _, .genus g => .genus g
  | _, .str s => .str s
  | _, .cmd c => .cmd c
  | _, .plan p => .plan p
  | _, .field f => .field f
  | _, .closure code scope_ => .closure (imp _ _ _ code) (scopeMono imp scope_)
  | _, .builtin name args_ => .builtin name (fun v mem => carriesMono imp (args_ v mem))
  | _, .record fields_ => .record (fun p mem => carriesMono imp (fields_ p mem))

theorem scopeMono {C D : Sym → Expr → Nat → Prop} (imp : ∀ x e n, C x e n → D x e n) :
    ∀ {scope : Scope}, ScopeCarriesBy C scope → ScopeCarriesBy D scope
  | _, .empty => .empty
  | _, .node name value_ next_ => .node name (carriesMono imp value_) (scopeMono imp next_)
end

section Results
variable {C : Sym → Expr → Nat → Prop}

/- A call answers with a value that carries nothing its arguments did not. -/
def AnswersCarried (C : Sym → Expr → Nat → Prop) (x : Except Raise Builtins.BuiltinResult) : Prop := ∀ v, x = .ok (.done v) → CarriesBy C v

theorem carriedOk {v : Value} (h : CarriesBy C v) : AnswersCarried C (.ok (.done v)) := by
  intro w same; cases same; exact h

theorem carriedError (r : Raise) : AnswersCarried C (.error r) := by
  intro w same; cases same

theorem carriedBind {α : Type} {x : Except Raise α} {f : α → Except Raise Builtins.BuiltinResult}
    (h : ∀ a, x = .ok a → AnswersCarried C (f a)) : AnswersCarried C (x >>= f) := by
  cases x with
  | ok a => exact h a rfl
  | error r => exact carriedError r

theorem lookupMember {fields : List (Sym × Value)} {key : Sym} {v : Value} (h : fields.lookup key = some v) :
    ∃ p ∈ fields, p.2 = v := by
  induction fields with
  | nil => cases h
  | cons p rest ih =>
    rw [List.lookup_cons] at h
    split at h
    · exact ⟨p,List.mem_cons_self,Option.some.inj h⟩
    · obtain ⟨q,mem,same⟩ := ih h
      exact ⟨q,List.mem_cons_of_mem _ mem,same⟩

theorem recordGetCarried {w v : Value} {key : Sym} (carries : CarriesBy C w) (h : Builtins.recordGet w key = .ok v) :
    CarriesBy C v := by
  cases carries with
  | record fields_ =>
    unfold Builtins.recordGet at h
    dsimp only at h
    split at h
    · rename_i found
      cases h
      obtain ⟨p,mem,rfl⟩ := lookupMember found
      exact fields_ p mem
    · cases h
  | _ => cases h

theorem insertCarried {fields : List (Sym × Value)} {key : Sym} {v : Value} (value_ : CarriesBy C v)
    (fields_ : ∀ p ∈ fields, CarriesBy C p.2) : ∀ p ∈ insertField key v fields, CarriesBy C p.2 := by
  induction fields with
  | nil =>
    intro p mem
    cases List.mem_singleton.mp mem
    exact value_
  | cons q rest ih =>
    obtain ⟨k,w⟩ := q
    have tail := ih (fun p mem => fields_ p (List.mem_cons_of_mem _ mem))
    intro p mem
    unfold insertField at mem
    split at mem
    · cases mem with
      | head => exact value_
      | tail _ mem => exact fields_ p mem
    · split at mem
      · cases mem with
        | head => exact value_
        | tail _ mem => exact fields_ p (List.mem_cons_of_mem _ mem)
      · cases mem with
        | head => exact fields_ _ List.mem_cons_self
        | tail _ mem => exact tail p mem

theorem corpusCarried (id : UInt64) (g : Genus) (mass dist : Scalar) : CarriesBy C (Builtins.makeCorpus id g mass dist) :=
  .record (insertCarried (.num _) (insertCarried (.num _) (insertCarried (.genus _) (insertCarried (.num _)
    (fun p mem => by cases mem)))))

theorem indexCarried {args : List Value} {i : Nat} {v : Value} (args_ : ∀ v ∈ args, CarriesBy C v)
    (h : index args i = .ok v) : CarriesBy C v := args_ v (List.mem_of_getElem? (indexOk h))

theorem callCarried {name : Sym} {args : List Value} (args_ : ∀ v ∈ args, CarriesBy C v) :
    AnswersCarried C (Builtins.call name args) := by
  unfold Builtins.call
  split
  case h_9 | h_10 | h_11 =>
    exact carriedBind (fun w given => carriedBind (fun v read =>
      carriedOk (recordGetCarried (indexCarried args_ given) read)))
  case h_12 =>
    refine carriedBind (fun w given => ?_)
    split
    · rename_i read
      exact carriedOk (recordGetCarried (indexCarried args_ given) read)
    · exact carriedOk (.num _)
  case h_8 =>
    refine carriedBind (fun w given => ?_)
    split
    · exact carriedOk (.bool _)
    · exact carriedError _
  case h_14 =>
    exact carriedBind (fun f _ => carriedBind (fun a _ v same => by cases same))
  case h_22 => exact carriedError _
  all_goals
    repeat first
      | exact carriedOk (.num _)
      | exact carriedOk (.bool _)
      | exact carriedOk (.field _)
      | exact carriedOk (.cmd _)
      | exact carriedOk (.plan _)
      | exact carriedOk (corpusCarried _ _ _ _)
      | refine carriedBind (fun _ _ => ?_)

end Results

section Keeps
variable {env : Env} {R : Expr → Nat → Prop} {C : Sym → Expr → Nat → Prop} {m m' : Continuation}

theorem entersCarried {f v : Value} {c : Control} {posts : List PostOp} (h : Enters f v c posts) (f_ : CarriesBy C f)
    (v_ : CarriesBy C v)
    (ready : ∀ {param body w scope}, c = .eval body (.node param w scope) → C param body scope.length → R body (scope.length + 1)) :
    ControlCarriesBy R C c := by
  have more {name : Sym} {args : List Value} {v : Value} (f_ : CarriesBy C (.builtin name args)) (v_ : CarriesBy C v) :
      ∀ w ∈ args ++ [v], CarriesBy C w := by
    cases f_ with
    | builtin _ args_ =>
      intro w mem
      rcases List.mem_append.mp mem with given | last
      · exact args_ w given
      · cases List.mem_singleton.mp last
        exact v_
  induction h with
  | closure param body scope v =>
    cases f_ with
    | closure code scope_ => exact .eval (ready rfl code) (.node param v_ scope_)
  | short few => exact .value (.builtin _ (more f_ v_))
  | done full called => exact .value (callCarried (more f_ v_) _ called)
  | apply full called inner ih =>
    obtain ⟨_,first,second,_⟩ := Builtins.callApply called
    exact ih (more f_ v_ _ (List.mem_of_getElem? first)) (more f_ v_ _ (List.mem_of_getElem? second)) ready

theorem lookupCarried : (scope : Scope) → ScopeCarriesBy C scope → ∀ {name : Sym} {v : Value},
    scope.lookup name = some v → CarriesBy C v
  | .empty, _, _, _, h => by cases h
  | .node x value next, scope_, name, v, h => by
    cases scope_ with
    | node _ value_ next_ =>
      unfold Scope.lookup at h
      split at h
      · cases h
        exact value_
      · exact lookupCarried next next_ h

theorem varCarried (her : HereditaryBy env R C) {scope : Scope} {name : Sym} {v : Value} (scope_ : ScopeCarriesBy C scope)
    (h : lookupVar env scope name = some v) : CarriesBy C v := by
  unfold lookupVar at h
  split at h
  · rename_i bound
    cases h
    exact lookupCarried scope scope_ bound
  · split at h
    · rename_i table
      cases h
      obtain ⟨n,_,same⟩ := Option.map_eq_some_iff.mp table
      subst same
      exact .builtin name (fun w mem => by cases mem)
    · cases held : env.ask name with
      | error r => rw [held] at h; cases h
      | ok w =>
        rw [held] at h
        cases h
        exact her.pedal held

theorem yieldsCarried (her : HereditaryBy env R C) (state : StateCarriesBy R C m) {scope : Scope} {e : Expr} {v : Value}
    (code : R e scope.length) (scope_ : ScopeCarriesBy C scope) (h : Yields env m scope e v) : CarriesBy C v := by
  cases h with
  | lit v => exact her.literal code
  | var found => exact varCarried her scope_ found
  | lam param body => exact .closure (her.closes code) scope_
  | arg => exact state.arg
  | ask found => exact her.pedal found
  | lege visible cell => exact state.cells _ (List.mem_of_getElem? cell)

theorem opensCarried (her : HereditaryBy env R C) {scope : Scope} {e e' : Expr} {f : Frame} (code : R e scope.length)
    (scope_ : ScopeCarriesBy C scope) (h : Opens m scope e e' f) : R e' scope.length ∧ FrameCarriesBy R C f := by
  cases h with
  | app f a => exact ⟨her.operand (.appF _ _) code,.appArg (her.operand (.appA _ _) code) scope_⟩
  | ifE c t e =>
    exact ⟨her.operand (.ifC _ _ _) code,.ifK (her.operand (.ifT _ _ _) code) (her.operand (.ifE _ _ _) code) scope_⟩
  | fix f => exact ⟨her.operand (.fix _) code,.fixK code scope_⟩
  | ret tag e => exact ⟨her.operand (.ret _ _) code,.returnK⟩
  | bind tag mval name k =>
    exact ⟨her.operand (.bindM _ _ _ _) code,.bindK _ (her.binds code) scope_⟩
  | resolve name genus =>
    exact ⟨her.operand (.resolve _ _) code,.resolveK code scope_⟩
  | clama visible => exact ⟨her.operand (.clama _) code,.clamaK _⟩
  | recipe visible =>
    exact ⟨her.operand (.recipeB _ _ _) code,.recipeH _ _ (her.handles code) scope_⟩
  | pone visible => exact ⟨her.operand (.pone _) code,.poneK _⟩
  | mitte visible => exact ⟨her.operand (.mitte _) code,.mitteK _⟩
  | perage visible => exact ⟨her.operand (.perage _) code,.perageK⟩

theorem selfRefCarried (her : HereditaryBy env R C) {f : Expr} {scope : Scope} (code : R (.fix f) scope.length)
    (scope_ : ScopeCarriesBy C scope) : CarriesBy C (selfRef f scope) := .closure (her.stretto code) scope_

theorem applyPostCarried {post : PostOp} {v w : Value} (h : Builtins.applyPost post v = .ok w) : CarriesBy C w := by
  cases post
  cases v <;> cases h
  exact .num _

theorem answersCarried (her : HereditaryBy env R C) {f : Frame} {v : Value} {c : Control} {pushed : List Frame}
    (ready : Ready R C f v) (f_ : FrameCarriesBy R C f) (v_ : CarriesBy C v) (h : Answers env f v c pushed) :
    ControlCarriesBy R C c ∧ ∀ g ∈ pushed, FrameCarriesBy R C g := by
  have posted {posts : List PostOp} : ∀ g ∈ posts.map Frame.builtinPost, FrameCarriesBy R C g := by
    intro g mem
    obtain ⟨post,_,rfl⟩ := List.mem_map.mp mem
    exact .builtinPost post
  have bare : ∀ g ∈ ([] : List Frame), FrameCarriesBy R C g := fun g mem => by cases mem
  cases h with
  | appArg a scope v =>
    cases f_ with
    | appArg code scope_ =>
      refine ⟨.eval code scope_,fun g mem => ?_⟩
      cases List.mem_singleton.mp mem
      exact .appCall v_
  | appCall enters =>
    cases f_ with
    | appCall f_ => exact ⟨entersCarried enters f_ v_ (fun same => ready (.call _ _) (same ▸ enters)),posted⟩
  | fixK enters =>
    cases f_ with
    | fixK code scope_ => exact ⟨entersCarried enters v_ (selfRefCarried her code scope_) (fun same => ready (.fixpoint _ _ _) (same ▸ enters)),posted⟩
  | ifTrue t e scope =>
    cases f_ with
    | ifK then_ else_ scope_ => exact ⟨.eval then_ scope_,bare⟩
  | ifFalse t e scope =>
    cases f_ with
    | ifK then_ else_ scope_ => exact ⟨.eval else_ scope_,bare⟩
  | bindK name k scope v =>
    cases f_ with
    | bindK _ code scope_ => exact ⟨.eval code (.node name v_ scope_),bare⟩
  | recipeH name handler scope channel v => exact ⟨.value v_,bare⟩
  | resolveK found =>
    cases f_ with
    | resolveK code scope_ => exact ⟨.eval (her.overload code found) scope_,bare⟩
  | builtinPost applied => exact ⟨.value (applyPostCarried applied),bare⟩

theorem carriesStepBy (her : HereditaryBy env R C) (state : StateCarriesBy R C m)
    (ready : ∀ v frame rest, m.control = .value v → m.stack = frame :: rest → Ready R C frame v) (step : Step env m m') :
    StateCarriesBy R C m' := by
  have under {f : Frame} {rest : List Frame} (top : m.stack = f :: rest) :
      FrameCarriesBy R C f ∧ ∀ g ∈ rest, FrameCarriesBy R C g :=
    ⟨state.stack f (top ▸ List.mem_cons_self),fun g mem => state.stack g (top ▸ List.mem_cons_of_mem _ mem)⟩
  have control := state.control
  cases step with
  | yields at_ h =>
    rw [at_] at control
    cases control with
    | eval code scope_ =>
      exact ⟨.value (yieldsCarried her state code scope_ h),state.stack,state.cells,state.arg⟩
  | opens at_ h =>
    rw [at_] at control
    cases control with
    | eval code scope_ =>
      obtain ⟨inner,frame⟩ := opensCarried her code scope_ h
      exact ⟨.eval inner scope_,List.forall_mem_cons.mpr ⟨frame,state.stack⟩,state.cells,state.arg⟩
  | pure at_ =>
    rw [at_] at control
    cases control with
    | eval code scope_ => exact ⟨.eval (her.operand (.pure _ _) code) scope_,state.stack,state.cells,state.arg⟩
  | lift at_ room =>
    rw [at_] at control
    cases control with
    | eval code scope_ =>
      exact ⟨.eval (her.operand (.lift _) code) scope_,List.forall_mem_cons.mpr ⟨.liftK _,state.stack⟩,
        state.cells,state.arg⟩
  | answers at_ top h =>
    rw [at_] at control
    obtain ⟨f_,rest_⟩ := under top
    cases control with
    | value v_ =>
      obtain ⟨c_,pushed⟩ := answersCarried her (ready _ _ _ at_ top) f_ v_ h
      exact ⟨c_,fun g mem => (List.mem_append.mp mem).elim (pushed g) (rest_ g),state.cells,state.arg⟩
  | poneK at_ top inside =>
    rw [at_] at control
    obtain ⟨_,rest_⟩ := under top
    cases control with
    | value v_ =>
      refine ⟨.value .unit,rest_,fun w mem => ?_,state.arg⟩
      rcases List.mem_or_eq_of_mem_set mem with before | now
      · exact state.cells w before
      · cases now
        exact v_
  | mitteK at_ top plan issued =>
    obtain ⟨_,rest_⟩ := under top
    refine ⟨.value .unit,rest_,fun w mem => ?_,state.arg⟩
    rcases List.mem_or_eq_of_mem_set mem with before | now
    · exact state.cells w before
    · cases now
  | liftK at_ top =>
    rw [at_] at control
    exact ⟨control,(under top).2,state.cells,state.arg⟩
  | caught at_ top h =>
    rw [at_] at control
    obtain ⟨name,handler,scope,rfl,suffix⟩ := unwoundHandler h
    have below := fun g mem => (under top).2 g (suffix.subset mem)
    cases control with
    | value v_ =>
      cases below _ List.mem_cons_self with
      | recipeH _ _ code scope_ =>
        exact ⟨.eval code (.node name v_ scope_),fun g mem => below g (List.mem_cons_of_mem _ mem),
          state.cells,state.arg⟩

end Keeps

theorem carriesStep {env : Env} {P : Expr → Prop} {m m' : Continuation} (her : Hereditary env P) (state : StateCarries P m)
    (step : Step env m m') : StateCarries P m' :=
  carriesStepBy (hereditaryBy her) state (fun _ _ _ _ _ _ _ _ _ _ _ _ _ _ code => code) step

theorem layersCells {st v : Value} {kinds : List LayerKind} (h : .state v ∈ layersOf st kinds) :
    v = st ∨ v = emptyState := by
  induction kinds generalizing st with
  | nil => cases h
  | cons kind rest ih =>
    cases kind with
    | state =>
      cases h with
      | head => exact .inl rfl
      | tail _ h => exact .inr ((ih h).elim id id)
    | _ =>
      cases h with
      | tail _ h => exact ih h

theorem initialCarries {R : Expr → Nat → Prop} {C : Sym → Expr → Nat → Prop} {mode : Mode} {body : Expr} {arg st : Value}
    (body_ : R body 0) (arg_ : CarriesBy C arg) (st_ : CarriesBy C st) : StateCarriesBy R C (initial mode body arg st) := by
  refine ⟨.eval body_ .empty,fun f mem => (by cases mem),fun v mem => ?_,arg_⟩
  rcases layersCells mem with same | same
  · exact same ▸ st_
  · exact same ▸ .record (fun p mem => by cases mem)

/- Every piece of code a run comes to hold has the property the verse's own code had. -/
theorem carriesRun {env : Env} {P : Expr → Prop} (her : Hereditary env P) {mode : Mode} {body : Expr} {arg st : Value}
    (body_ : P body) (arg_ : Carries P arg) (st_ : Carries P st) {n : Nat} {m : Continuation}
    (h : run (turn env) n (initial mode body arg st) = .more m) : StateCarries P m :=
  runInvariant (StateCarries P) (fun _ _ state one => carriesStep her state (turnStep one)) (initialCarries body_ arg_ st_) h

end Officium
