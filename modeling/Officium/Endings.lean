import Officium.Demands
import Officium.Soundness

/-! What a verse can be run without an end for. A value of a function type is reducible when whatever
it is applied to comes to an answer or stops the verse; whatever is typed under reducible names comes
to a reducible value or stops the verse, wherever nothing is caught and no cell keeps a function. -/
namespace Officium.Check
open Runs (Turn run Ends Comes comesHere comesTurn comesThen)

/- No frame takes a thrown value. -/
def Uncaught (base : List Frame) : Prop := ∀ v channel depth, unwindFrames v channel base depth = none

/- What no turn of a verse changes. -/
structure Steady (mode : Mode) (arg : Value) (m : Continuation) : Prop where
  wf : WellFormed m
  mode : m.mode = mode
  arg : m.arg = arg

/- A value stands where what was pushed over the base has gone. -/
structure Answered (mode : Mode) (arg : Value) (base : List Frame) (good : Value → Prop) (m : Continuation) : Prop where
  value : ∃ v, m.control = .value v ∧ good v
  stack : m.stack = base
  steady : Steady mode arg m

def Reducible (env : Env) (mode : Mode) (arg : Value) : Ty → Value → Prop
  | .fn a r, f => ∀ v c posts m base, Reducible env mode arg a v → Enters f v c posts → m.control = c →
      m.stack = posts.map .builtinPost ++ base → Uncaught base → Steady mode arg m →
        Comes (turn env) (Answered mode arg base (fun w => Reducible env mode arg r w)) m
  | _, _ => True

/- The names of the context are bound to reducible values, and no others are. -/
structure Supplied (env : Env) (mode : Mode) (arg : Value) (Γ : Gamma) (scope : Scope) : Prop where
  found : ∀ name b, Γ.find? (fun b => b.1 == name) = some b → ∃ v, scope.lookup name = some v ∧ Reducible env mode arg b.2 v
  free : ∀ name, Γ.find? (fun b => b.1 == name) = none → scope.lookup name = none

def catches : Frame → Bool
  | .recipeH _ _ _ _ => true
  | _ => false

/- The turns from an expression: the control it goes on with and what it pushes. -/
inductive Evaluates (env : Env) (m : Continuation) (scope : Scope) : Expr → Control → List Frame → Prop where
  | yields {e v} (h : Yields env m scope e v) : Evaluates env m scope e (.value v) []
  | opens {e e' f} (h : Opens m scope e e' f) : Evaluates env m scope e (.eval e' scope) [f]
  | pure {tag e} : Evaluates env m scope (.pure tag e) (.eval e scope) []
  | lift {e} : Evaluates env m scope (.lift e) (.eval e scope) [.liftK m.depth]

/- The turns from a value under a frame, where nothing is caught. -/
inductive Receives (env : Env) : Frame → Value → Control → List Frame → Prop where
  | answers {f v c pushed} (h : Answers env f v c pushed) : Receives env f v c pushed
  | poneK {i v} : Receives env (.poneK i) v (.value .unit) []
  | mitteK {i v} : Receives env (.mitteK i) v (.value .unit) []
  | liftK {d v} : Receives env (.liftK d) v (.value v) []

section Frames
variable {base : List Frame} {f : Frame} {m m' : Continuation} {env : Env} {mode : Mode} {arg : Value}

theorem uncaughtPush (h : Uncaught base) (other : catches f = false) : Uncaught (f :: base) := by
  intro v channel depth
  cases f with
  | recipeH => cases other
  | liftK d => exact h v channel d
  | _ => exact h v channel depth

theorem steadyStep (steady : Steady mode arg m) (step : Step env m m') : Steady mode arg m' :=
  ⟨wellFormedStep steady.wf step,(stepMode step).trans steady.mode,(stepArg step).trans steady.arg⟩

theorem evalSteps {e : Expr} {scope : Scope} (at_ : m.control = .eval e scope) (step : Step env m m') :
    ∃ c pushed, Evaluates env m scope e c pushed ∧ m'.control = c ∧ m'.stack = pushed ++ m.stack := by
  cases step with
  | yields at' h => cases at_.symm.trans at'; exact ⟨_,_,.yields h,rfl,rfl⟩
  | opens at' h => cases at_.symm.trans at'; exact ⟨_,_,.opens h,rfl,rfl⟩
  | pure at' => cases at_.symm.trans at'; exact ⟨_,_,.pure,rfl,rfl⟩
  | lift at' room => cases at_.symm.trans at'; exact ⟨_,_,.lift,rfl,rfl⟩
  | answers at' | poneK at' | mitteK at' | liftK at' | caught at' => cases at_.symm.trans at'

theorem valueSteps {v : Value} (uncaught : Uncaught base) (at_ : m.control = .value v) (top : m.stack = f :: base) (step : Step env m m') :
    ∃ c pushed, Receives env f v c pushed ∧ m'.control = c ∧ m'.stack = pushed ++ base := by
  cases step with
  | yields at' | opens at' | pure at' | lift at' => cases at_.symm.trans at'
  | answers at' top' h => cases at_.symm.trans at'; cases top.symm.trans top'; exact ⟨_,_,.answers h,rfl,rfl⟩
  | poneK at' top' => cases top.symm.trans top'; exact ⟨_,_,.poneK,rfl,rfl⟩
  | mitteK at' top' => cases top.symm.trans top'; exact ⟨_,_,.mitteK,rfl,rfl⟩
  | liftK at' top' => cases at_.symm.trans at'; cases top.symm.trans top'; exact ⟨_,_,.liftK,rfl,rfl⟩
  | caught at' top' h =>
    cases top.symm.trans top'
    cases (uncaught _ _ _).symm.trans h

end Frames

section Values
variable {env : Env} {mode : Mode} {arg v : Value} {t : Ty} {Γ : Gamma} {scope : Scope} {m : Continuation} {base : List Frame}
variable {goal : Continuation → Prop}

theorem evalComes {e : Expr} (steady : Steady mode arg m) (at_ : m.control = .eval e scope)
    (next : ∀ c pushed m', Evaluates env m scope e c pushed → Steady mode arg m' → m'.control = c → m'.stack = pushed ++ m.stack →
      Comes (turn env) goal m') : Comes (turn env) goal m := by
  refine comesTurn fun m' one => ?_
  obtain ⟨c,pushed,evaluates,control,stack⟩ := evalSteps at_ (turnStep one)
  exact next c pushed m' evaluates (steadyStep steady (turnStep one)) control stack

theorem valueComes {f : Frame} (uncaught : Uncaught base) (steady : Steady mode arg m) (at_ : m.control = .value v) (top : m.stack = f :: base)
    (next : ∀ c pushed m', Receives env f v c pushed → Steady mode arg m' → m'.control = c → m'.stack = pushed ++ base →
      Comes (turn env) goal m') : Comes (turn env) goal m := by
  refine comesTurn fun m' one => ?_
  obtain ⟨c,pushed,receives,control,stack⟩ := valueSteps uncaught at_ top (turnStep one)
  exact next c pushed m' receives (steadyStep steady (turnStep one)) control stack

/- No type but a function's asks anything of its values. -/
theorem flatReducible (flat : ∀ a r, t ≠ .fn a r) : Reducible env mode arg t v := by
  unfold Reducible
  split
  · exact absurd rfl (flat _ _)
  · trivial

/- A value that nothing can be applied to stops the verse where it is. -/
theorem inertReducible (closure : ∀ p b s, v ≠ .closure p b s) (builtin : ∀ n a, v ≠ .builtin n a) : Reducible env mode arg t v := by
  cases t with
  | fn a r =>
    unfold Reducible
    intro w c posts m base w_ enters
    cases enters with
    | closure => exact absurd rfl (closure _ _ _)
    | short | done | apply => exact absurd rfl (builtin _ _)
  | _ => exact flatReducible nofun

theorem typeOfValueFlat (v : Value) (a r : Ty) : typeOfValue v ≠ .fn a r := by cases v <;> nofun

theorem suppliedNone : Supplied env mode arg [] .empty where
  found := fun _ _ h => by cases h
  free := fun _ _ => rfl

theorem suppliedBind {x : Sym} (supplied : Supplied env mode arg Γ scope) (v_ : Reducible env mode arg t v) :
    Supplied env mode arg ((x,t) :: Γ) (scope.bind x v) where
  found := by
    intro name b h
    rw [List.find?_cons] at h
    rw [Scope.lookupBind]
    split at h
    · rename_i same
      cases h
      exact ⟨v,if_pos (beq_iff_eq.mp same),v_⟩
    · rename_i other
      rw [if_neg (fun same => by simp [same] at other)]
      exact supplied.found name b h
  free := by
    intro name h
    rw [List.find?_cons] at h
    rw [Scope.lookupBind]
    split at h
    · cases h
    · rename_i other
      rw [if_neg (fun same => by simp [same] at other)]
      exact supplied.free name h

/- Applied to a reducible argument, a reducible function comes to an answer below its frame. -/
theorem appliedComes {f : Value} {a r : Ty} (f_ : Reducible env mode arg (.fn a r) f) (v_ : Reducible env mode arg a v)
    (uncaught : Uncaught base) (steady : Steady mode arg m) (at_ : m.control = .value v) (top : m.stack = .appCall f :: base) :
    Comes (turn env) (Answered mode arg base (Reducible env mode arg r)) m := by
  refine valueComes uncaught steady at_ top fun c pushed m' receives steady control stack => ?_
  cases receives with
  | answers h => cases h with
    | appCall enters =>
      unfold Reducible at f_
      exact f_ v c _ m' base v_ enters control stack uncaught steady

/- What `solve` leaves behind turns an answer into a number or stops the verse. -/
theorem postComes {post : PostOp} {good : Value → Prop} (uncaught : Uncaught base) (h : Answered mode arg (.builtinPost post :: base) good m)
    (flat : ∀ a r, t ≠ .fn a r) : Comes (turn env) (Answered mode arg base (Reducible env mode arg t)) m := by
  obtain ⟨v,at_,_⟩ := h.value
  refine valueComes uncaught h.steady at_ h.stack fun c pushed m' receives steady control stack => ?_
  cases receives with
  | answers h => cases h with
    | builtinPost applied => exact comesHere ⟨⟨_,control,flatReducible flat⟩,stack,steady⟩

end Values

section Table
variable {env : Env} {mode : Mode} {arg : Value} {oneOf : OneOf} {name : Sym} {t : Ty}

/- A signature of the table: as many domains as the arity, no function for a result, and a function in the
first domain of `solve`. -/
structure Sig (name : Sym) (doms : List Ty) (r : Ty) : Prop where
  arity : Builtins.arity name = some doms.length
  flat : ∀ a b, r ≠ .fn a b
  solve : name = "solve" → ∃ a, doms = [.fn a .num,a]

theorem builtinSig (h : BuiltinTy oneOf name t) : ∃ doms r, t = arrows doms r ∧ Sig name doms r := by
  cases h with
  | arithmetic among =>
    simp only [List.mem_cons,List.not_mem_nil,or_false] at among
    rcases among with rfl | rfl | rfl | rfl <;> exact ⟨[.num,.num],.num,rfl,rfl,nofun,nofun⟩
  | compare among =>
    simp only [List.mem_cons,List.not_mem_nil,or_false] at among
    rcases among with rfl | rfl <;> exact ⟨[.num,.num],.bool,rfl,rfl,nofun,nofun⟩
  | eq a => exact ⟨[a,a],.bool,rfl,rfl,nofun,nofun⟩
  | not => exact ⟨[.bool],.bool,rfl,rfl,nofun,nofun⟩
  | measure among =>
    simp only [List.mem_cons,List.not_mem_nil,or_false] at among
    rcases among with rfl | rfl | rfl <;> exact ⟨[.corpus],.num,rfl,rfl,nofun,nofun⟩
  | genus => exact ⟨[.corpus],.genus,rfl,rfl,nofun,nofun⟩
  | safe => exact ⟨[.corpus,.num],.bool,rfl,rfl,nofun,nofun⟩
  | solve a => exact ⟨[.fn a .num,a],.num,rfl,rfl,nofun,fun _ => ⟨a,rfl⟩⟩
  | deflect => exact ⟨[.num],.field,rfl,rfl,nofun,nofun⟩
  | sample among =>
    simp only [List.mem_cons,List.not_mem_nil,or_false] at among
    rcases among with rfl | rfl | rfl <;> exact ⟨[.field],.num,rfl,rfl,nofun,nofun⟩
  | cmd => exact ⟨[.num,.num,.num],.cmd,rfl,rfl,nofun,nofun⟩
  | planOf => exact ⟨[.field],.plan,rfl,rfl,nofun,nofun⟩
  | @corpus g named => exact ⟨[.num,g,.num,.num],.corpus,rfl,rfl,nofun,nofun⟩

/- A builtin that holds reducible arguments is reducible at the rest of its signature: on the arguments left. -/
theorem partialReducible {doms given rest : List Ty} {r : Ty} {args : List Value} (sig : Sig name doms r) (split_ : doms = given ++ rest)
    (args_ : List.Forall₂ (Reducible env mode arg) given args) : Reducible env mode arg (arrows rest r) (.builtin name args) := by
  induction rest generalizing given args with
  | nil => exact flatReducible sig.flat
  | cons a rest ih =>
    have more : doms.length = given.length + (rest.length + 1) := by rw [split_,List.length_append,List.length_cons]
    have held : given.length = args.length := args_.length_eq
    have arity : (Builtins.arity name).getD 0 = args.length + (rest.length + 1) := by rw [sig.arity,Option.getD_some,more,held]
    unfold arrows Reducible
    intro v c posts m base v_ enters control stack uncaught steady
    cases enters with
    | short few =>
      have next : List.Forall₂ (Reducible env mode arg) (given ++ [a]) (args ++ [v]) :=
        List.rel_append args_ (.cons v_ .nil)
      exact comesHere ⟨⟨_,control,ih (by rw [split_,List.append_assoc]; rfl) next⟩,stack,steady⟩
    | done full called =>
      -- the last argument: what is left of the signature is its result
      have last : rest = [] := List.eq_nil_of_length_eq_zero (by omega)
      subst last
      exact comesHere ⟨⟨_,control,flatReducible sig.flat⟩,stack,steady⟩
    | @apply _ _ _ f b post _ posts full called inner =>
      have last : rest = [] := List.eq_nil_of_length_eq_zero (by omega)
      subst last
      obtain ⟨named,first,second,_⟩ := Builtins.callApply called
      obtain ⟨d,whole⟩ := sig.solve named
      obtain ⟨rfl,same⟩ : given = [.fn d .num] ∧ [a] = [d] := List.append_inj' (whole ▸ split_).symm rfl
      cases same
      obtain ⟨g,_,f_,none_,rfl⟩ := List.forall₂_cons_left_iff.mp args_
      cases none_
      cases first
      cases second
      rw [List.map_append,List.append_assoc] at stack
      unfold Reducible at f_
      have below : Uncaught (.builtinPost post :: base) := uncaughtPush uncaught rfl
      exact comesThen (f_ v c posts m _ v_ inner control stack below steady) fun m₁ answered => postComes uncaught answered sig.flat

end Table

section Code
variable {prog : Program} {oneOf : OneOf} {cells : Cells} {mode sung : Mode} {arg : Value} {Γ : Gamma} {e : Expr} {t : Ty}

theorem pedalFlat {name : Sym} (h : pedal prog name = some t) (a r : Ty) : t ≠ .fn a r := by
  obtain ⟨p,_,rfl⟩ := Option.map_eq_some_iff.mp ((pedalFind name prog.fugues).symm.trans h)
  exact typeOfValueFlat p.2 a r

theorem namedReducible {env : Env} {scope : Scope} {name : Sym} {v : Value} (supplied : Supplied env mode arg Γ scope)
    (named : Named prog oneOf Γ name t) (found : lookupVar env scope name = some v) : Reducible env mode arg t v := by
  unfold lookupVar at found
  cases named with
  | scope here =>
    obtain ⟨w,bound,w_⟩ := supplied.found _ _ here
    rw [bound] at found
    cases found
    exact w_
  | builtin free sig =>
    obtain ⟨doms,r,rfl,signed⟩ := builtinSig sig
    have table : Builtins.value name = some (.builtin name []) := by rw [Builtins.value,signed.arity]; rfl
    rw [supplied.free _ free,table] at found
    cases found
    exact partialReducible signed rfl .nil
  | pedal free none here => exact flatReducible (pedalFlat here)

/- A state about to take a value over the base comes to a reducible value. -/
abbrev ComesTo (prog : Program) (mode : Mode) (arg : Value) (base : List Frame) (t : Ty) : Continuation → Prop :=
  Comes (turn (Env.fromFugues prog.fugues)) (Answered mode arg base (Reducible (Env.fromFugues prog.fugues) mode arg t))

/- Code that comes to a reducible value wherever its names are bound to such. -/
def Good (prog : Program) (mode : Mode) (arg : Value) (Γ : Gamma) (e : Expr) (t : Ty) : Prop :=
  ∀ scope m base, Supplied (Env.fromFugues prog.fugues) mode arg Γ scope → Uncaught base → Steady mode arg m →
    m.control = .eval e scope → m.stack = base → ComesTo prog mode arg base t m

/- An operand under a frame of its own, and what the frame makes of its value. -/
theorem operandComes {u : Ty} {scope : Scope} {f : Frame} {base : List Frame} {m : Continuation} (good : Good prog mode arg Γ e u)
    (supplied : Supplied (Env.fromFugues prog.fugues) mode arg Γ scope) (uncaught : Uncaught base) (other : catches f = false)
    (steady : Steady mode arg m) (at_ : m.control = .eval e scope) (top : m.stack = f :: base)
    (frame : ∀ m v c pushed, Reducible (Env.fromFugues prog.fugues) mode arg u v → Receives (Env.fromFugues prog.fugues) f v c pushed →
      Steady mode arg m → m.control = c → m.stack = pushed ++ base → ComesTo prog mode arg base t m) : ComesTo prog mode arg base t m := by
  refine comesThen (good scope m _ supplied (uncaughtPush uncaught other) steady at_ top) fun m₁ answered => ?_
  obtain ⟨v,control,v_⟩ := answered.value
  exact valueComes uncaught answered.steady control answered.stack fun c pushed m' receives => frame m' v c pushed v_ receives

theorem lamGood {x : Sym} {body : Expr} {a r : Ty} (body_ : Good prog mode arg ((x,a) :: Γ) body r) : Good prog mode arg Γ (.lam x body) (.fn a r) := by
  rintro scope m base supplied uncaught steady at_ rfl
  refine evalComes steady at_ fun c pushed m' evaluates steady control stack => ?_
  cases evaluates with
  | opens h => cases h
  | yields h =>
    cases h
    refine comesHere ⟨⟨_,control,?_⟩,stack,steady⟩
    unfold Reducible
    intro v c posts m base v_ enters control stack uncaught steady
    cases enters
    exact body_ _ m base (suppliedBind supplied v_) uncaught steady control stack

theorem appGood {f a : Expr} {u : Ty} (f_ : Good prog mode arg Γ f (.fn u t)) (a_ : Good prog mode arg Γ a u) : Good prog mode arg Γ (.app f a) t := by
  rintro scope m base supplied uncaught steady at_ rfl
  refine evalComes steady at_ fun c pushed m' evaluates steady control stack => ?_
  cases evaluates with
  | yields h => cases h
  | opens h =>
    cases h
    refine operandComes f_ supplied uncaught rfl steady control stack fun m v c pushed v_ receives steady control stack => ?_
    cases receives with
    | answers h =>
      cases h
      have argument := a_ _ m _ supplied (uncaughtPush uncaught rfl) steady control stack
      refine comesThen argument fun m₁ answered => ?_
      obtain ⟨w,at_,w_⟩ := answered.value
      exact appliedComes v_ w_ uncaught answered.steady at_ answered.stack

theorem ifGood {c th el : Expr} (c_ : Good prog mode arg Γ c .bool) (then_ : Good prog mode arg Γ th t) (else_ : Good prog mode arg Γ el t) :
    Good prog mode arg Γ (.ifE c th el) t := by
  rintro scope m base supplied uncaught steady at_ rfl
  refine evalComes steady at_ fun c pushed m' evaluates steady control stack => ?_
  cases evaluates with
  | yields h => cases h
  | opens h =>
    cases h
    refine operandComes c_ supplied uncaught rfl steady control stack fun m v c pushed v_ receives steady control stack => ?_
    cases receives with
    | answers h => cases h with
      | ifTrue => exact then_ _ m _ supplied uncaught steady control stack
      | ifFalse => exact else_ _ m _ supplied uncaught steady control stack

theorem bindGood {tag : Mode} {x : Sym} {b k : Expr} {u : Ty} (b_ : Good prog mode arg Γ b u) (k_ : Good prog mode arg ((x,u) :: Γ) k t) :
    Good prog mode arg Γ (.bind tag b x k) t := by
  rintro scope m base supplied uncaught steady at_ rfl
  refine evalComes steady at_ fun c pushed m' evaluates steady control stack => ?_
  cases evaluates with
  | yields h => cases h
  | opens h =>
    cases h
    refine operandComes b_ supplied uncaught rfl steady control stack fun m v c pushed v_ receives steady control stack => ?_
    cases receives with
    | answers h =>
      cases h
      exact k_ _ m _ (suppliedBind supplied v_) uncaught steady control stack

theorem resolveGood {name : Sym} {genus : Expr} (genus_ : Good prog mode arg Γ genus .genus)
    (each : ∀ o ∈ overloads prog, o.1.1 = name → Good prog mode arg Γ o.2 t) : Good prog mode arg Γ (.resolve name genus) t := by
  rintro scope m base supplied uncaught steady at_ rfl
  refine evalComes steady at_ fun c pushed m' evaluates steady control stack => ?_
  cases evaluates with
  | yields h => cases h
  | opens h =>
    cases h
    refine operandComes genus_ supplied uncaught rfl steady control stack fun m v c pushed v_ receives steady control stack => ?_
    cases receives with
    | answers h => cases h with
      | resolveK found =>
        obtain ⟨o,mem,same,rfl⟩ := resolveOverload found
        exact each o mem same _ m _ supplied uncaught steady control stack

/- A read of a cell, where no cell keeps a function. -/
theorem legeGood (cell : mode.tower.contains .state = true → ∀ a r, t ≠ .fn a r) : Good prog mode arg Γ .lege t := by
  rintro scope m base supplied uncaught steady at_ rfl
  have tower : m.tower.map Layer.kind = mode.tower := steady.mode ▸ steady.wf.tower
  refine evalComes steady at_ fun c pushed m' evaluates steady control stack => ?_
  cases evaluates with
  | opens h => cases h
  | yields h => cases h with
    | lege visible found =>
      have among : mode.tower.contains .state = true := by
        rw [← tower,List.contains_iff_mem]
        exact List.mem_of_getElem? (kindAt found)
      exact comesHere ⟨⟨_,control,flatReducible (cell among)⟩,stack,steady⟩

/- Code that is answered at once. -/
theorem atomGood (atom : ∀ m scope c pushed, Supplied (Env.fromFugues prog.fugues) mode arg Γ scope → Steady mode arg m →
      Evaluates (Env.fromFugues prog.fugues) m scope e c pushed →
        pushed = [] ∧ ∃ v, c = .value v ∧ Reducible (Env.fromFugues prog.fugues) mode arg t v) : Good prog mode arg Γ e t := by
  rintro scope m base supplied uncaught steady at_ rfl
  refine evalComes steady at_ fun c pushed m' evaluates steady' control stack => ?_
  obtain ⟨rfl,v,rfl,v_⟩ := atom m scope c pushed supplied steady evaluates
  exact comesHere ⟨⟨v,control,v_⟩,stack,steady'⟩

/- Code that makes nothing of its operand's value but a value of no function's type, if anything. -/
theorem closesGood {u : Ty} {e' : Expr} (operand : Good prog mode arg Γ e' u)
    (opens : ∀ m scope c pushed, Evaluates (Env.fromFugues prog.fugues) m scope e c pushed → c = .eval e' scope ∧ ∃ f, pushed = [f] ∧
      catches f = false ∧ ∀ v c pushed, Receives (Env.fromFugues prog.fugues) f v c pushed →
        pushed = [] ∧ (∃ w, c = .value w) ∧ ∀ a r, t ≠ .fn a r) : Good prog mode arg Γ e t := by
  rintro scope m base supplied uncaught steady at_ rfl
  refine evalComes steady at_ fun c pushed m' evaluates steady control stack => ?_
  obtain ⟨rfl,f,rfl,other,closes⟩ := opens m scope c pushed evaluates
  refine operandComes operand supplied uncaught other steady control stack fun m v c pushed v_ receives steady control stack => ?_
  obtain ⟨rfl,⟨w,rfl⟩,flat⟩ := closes v c pushed receives
  exact comesHere ⟨⟨w,control,flatReducible flat⟩,stack,steady⟩

theorem typesGood (written : ∀ o ∈ overloads prog, Surface o.2) (inert : ∀ t, Reducible (Env.fromFugues prog.fugues) mode arg t arg)
    (cell : mode.tower.contains .state = true → ∀ a r, cells.state ≠ .fn a r) (typed : Types prog oneOf cells sung Γ e t)
    (surface : Surface e) : Good prog mode arg Γ e t := by
  induction typed with
  | lit v =>
    refine atomGood fun m scope c pushed supplied steady h => ?_
    cases h with
    | yields h =>
      cases h
      exact ⟨rfl,v,rfl,flatReducible (typeOfValueFlat v)⟩
    | opens h => cases h
  | var named =>
    refine atomGood fun m scope c pushed supplied steady h => ?_
    cases h with
    | yields h => cases h with
      | var found => exact ⟨rfl,_,rfl,namedReducible supplied named found⟩
    | opens h => cases h
  | lam body_ ih => exact lamGood (ih surface)
  | app f_ a_ ihf iha => exact appGood (ihf surface.1) (iha surface.2)
  | ifE c_ then_ else_ ihc iht ihe => exact ifGood (ihc surface.1) (iht surface.2.1) (ihe surface.2.2)
  | fix | recipe => exact surface.elim
  | pure tag e_ ih =>
    rintro scope m base supplied uncaught steady at_ rfl
    refine evalComes steady at_ fun c pushed m' evaluates steady control stack => ?_
    cases evaluates with
    | yields h | opens h => cases h
    | pure => exact ih surface _ m' _ supplied uncaught steady control stack
  | lift allowed e_ ih =>
    rintro scope m base supplied uncaught steady at_ rfl
    refine evalComes steady at_ fun c pushed m' evaluates steady control stack => ?_
    cases evaluates with
    | yields h | opens h => cases h
    | lift =>
      refine operandComes (ih surface) supplied uncaught rfl steady control stack fun m v c pushed v_ receives steady control stack => ?_
      cases receives with
      | answers h => cases h
      | liftK => exact comesHere ⟨⟨v,control,v_⟩,stack,steady⟩
  | bind tag m_ k_ ihm ihk => exact bindGood (ihm surface.1) (ihk surface.2)
  | arg =>
    refine atomGood fun m scope c pushed supplied steady h => ?_
    cases h with
    | yields h =>
      cases h
      exact ⟨rfl,_,rfl,steady.arg ▸ inert _⟩
    | opens h => cases h
  | ask found =>
    refine atomGood fun m scope c pushed supplied steady h => ?_
    cases h with
    | yields h =>
      cases h
      exact ⟨rfl,_,rfl,flatReducible (pedalFlat found)⟩
    | opens h => cases h
  | resolve genus_ each ihg ihe => exact resolveGood (ihg surface) fun o mem same => ihe o mem same (written o mem)
  | nihil allowed t =>
    refine atomGood fun m scope c pushed supplied steady h => ?_
    cases h with
    | yields h | opens h => cases h
  | lege allowed => exact legeGood cell
  -- a cadence and a thrown value end the verse: there is no turn from their frames
  | ret tag t e_ ih | clama allowed t e_ ih | perage allowed t e_ cadence ih =>
    refine closesGood (ih surface) fun m scope c pushed h => ?_
    cases h with
    | yields h => cases h
    | opens h =>
      cases h
      refine ⟨rfl,_,rfl,rfl,fun v c pushed receives => ?_⟩
      cases receives with
      | answers h => cases h
  | pone allowed e_ ih =>
    refine closesGood (ih surface) fun m scope c pushed h => ?_
    cases h with
    | yields h => cases h
    | opens h =>
      cases h
      refine ⟨rfl,_,rfl,rfl,fun v c pushed receives => ?_⟩
      cases receives with
      | answers h => cases h
      | poneK => exact ⟨rfl,⟨_,rfl⟩,nofun⟩
  | mitte allowed e_ issued ih =>
    refine closesGood (ih surface) fun m scope c pushed h => ?_
    cases h with
    | yields h => cases h
    | opens h =>
      cases h
      refine ⟨rfl,_,rfl,rfl,fun v c pushed receives => ?_⟩
      cases receives with
      | answers h => cases h
      | mitteK => exact ⟨rfl,⟨_,rfl⟩,nofun⟩

end Code

section Verses
variable {prog : Program} {v : Versus} {s : Store} {arg : Value}

/- A value nothing can be applied to. -/
def Inert (v : Value) : Prop := (∀ p b s, v ≠ .closure p b s) ∧ ∀ n a, v ≠ .builtin n a

theorem boundWithin {i : Nat} {t : Ty} (tidy : Tidy s) (found : s.subst[i]? = some (some t)) : t.Within s.subst.length := by
  obtain ⟨T,resolved⟩ := tidy.vars i (List.getElem?_eq_some_iff.mp found).1
  cases resolved with
  | free unbound => cases unbound.symm.trans found
  | bound found' next => cases found.symm.trans found'; exact resolvesWithin next
  | flat flat => cases flat

/- The types a check left its variables at, those it left open as they are. -/
theorem checkedLeft (checked : Checked prog v s) : ∃ θ, Satisfies Lax θ s ∧ ∀ i a r, θ i = .fn a r → Resolves s.subst (.var i) (.fn a r) := by
  have tidy := checkedTidy (checkedFounded checked) checked
  obtain ⟨θ,respects,free⟩ := tidyAssignment tidy
  -- a variable the store has no place for is left open too
  let left : Assignment := fun i => if i < s.subst.length then θ i else .var i
  have inside {i : Nat} {t : Option Ty} (found : s.subst[i]? = some t) : left i = θ i := if_pos (List.getElem?_eq_some_iff.mp found).1
  have same {t : Ty} (within : t.Within s.subst.length) : t.inst left = t.inst θ := by
    induction t with
    | var i => exact if_pos within
    | fn a r iha ihr => rw [Ty.inst,Ty.inst,iha within.1,ihr within.2]
    | _ => rfl
  have respects' : Respects left s := fun i t found => (inside found).trans ((respects i t found).trans (same (boundWithin tidy found)).symm)
  refine ⟨left,checkedLax checked respects' fun i unbound => (inside unbound).trans (free i unbound),fun i a r function => ?_⟩
  by_cases place : i < s.subst.length
  · obtain ⟨T,resolved⟩ := tidy.vars i place
    have settled : θ i = T := resolvesFreely respects free resolved
    have chosen : left i = θ i := if_pos place
    rw [← function,chosen,settled]
    exact resolved
  · have chosen : left i = .var i := if_neg place
    rw [chosen] at function
    cases function

/- An accepted verse ends whatever it is run on, where the argument is no function and the type the check left
the cells at, if the mode has any, is none. -/
theorem verseEnds {src : String} (parsed : Parser.Parses src prog) (among : v ∈ prog.verses) (checked : Checked prog v s) (inert : Inert arg)
    (cell : v.mode.tower.contains .state = true → ∀ a r, ¬Resolves s.subst (Checker.new prog).cells.state (.fn a r)) (st : Value) :
    ∃ enough r, (∀ c, r ≠ failure (.outOfFuel c)) ∧
      ∀ fuel, enough ≤ fuel → runVerse (Env.fromFugues prog.fugues) v.mode v.body arg st fuel = r := by
  have written := Parser.parsesWritten parsed
  obtain ⟨θ,lax,left⟩ := checkedLeft checked
  obtain ⟨t,s₁,walk,extend⟩ := checkedInfers checked
  have typed := (infersTypes Lax θ walk).2 (satisfiesBefore extend lax)
  have good : Good prog v.mode arg [] v.body (t.inst θ) :=
    typesGood written.overloads (fun _ => inertReducible inert.1 inert.2) (fun has a r function => cell has a r (left 1 a r function)) typed
      (written.bodies v among)
  have steady : Steady v.mode arg (initial v.mode v.body arg st) := ⟨wellFormedInitial _ _ _ _,rfl,rfl⟩
  have comes := good .empty (initial v.mode v.body arg st) [] suppliedNone (fun _ _ _ => rfl) steady rfl rfl
  obtain ⟨r,n,ended⟩ : ∃ r, Ends (turn (Env.fromFugues prog.fugues)) (initial v.mode v.body arg st) r := by
    rcases comes with ends | ⟨n,m,reached,answered⟩
    · exact ends
    · obtain ⟨w,at_,_⟩ := answered.value
      exact ⟨_,Runs.endsThrough reached ⟨1,Runs.runDone (stopTurn (.dry at_ answered.stack)) 0⟩⟩
  obtain ⟨k,m,_,_,last⟩ := Runs.lastTurn ended
  refine ⟨n,r,fun c paused => stopsNotPaused (paused ▸ turnStop last),fun fuel enough => ?_⟩
  rw [runVerse,resumeRun,Runs.doneStable ended enough]

def bettered : String := "versus x in Fa \x7b\n pone arg\n y <- solve (\\v -> v + lege) 2\n amen y\n\x7d"

def countsInCell (prog : Program) (v : Versus) : Bool :=
  match checkVersusIn prog 60 v Store.new with
  | some (.ok (_,s)) => s.subst[1]? == some (some .num)
  | _ => false

theorem countsFlat (h : countsInCell prog v = true) : ∃ s, Checked prog v s ∧ ∀ a r, ¬Resolves s.subst (.var 1) (.fn a r) := by
  unfold countsInCell at h
  split at h
  · rename_i found
    refine ⟨_,⟨60,found⟩,fun a r resolved => ?_⟩
    cases resolved with
    | bound found' next =>
      cases (beq_iff_eq.mp h).symm.trans found'
      cases next
  · cases h

/- The cell keeps a number, and a function made of a read of it is handed to `solve`. -/
theorem verseEndsBettered : ∃ prog v, Parser.Parses bettered prog ∧ v ∈ prog.verses ∧ ∀ n st, ∃ enough r, (∀ c, r ≠ failure (.outOfFuel c)) ∧
    ∀ fuel, enough ≤ fuel → runVerse (Env.fromFugues prog.fugues) v.mode v.body (.num n) st fuel = r := by
  have test : Parser.reads 60 bettered (fun prog => prog.verses.any (countsInCell prog)) = true := by decide +kernel
  obtain ⟨prog,parsed,good⟩ := Parser.readsParses test
  obtain ⟨v,among,counts⟩ := List.any_eq_true.mp good
  obtain ⟨s,checked,flat⟩ := countsFlat counts
  have inert (n : Scalar) : Inert (.num n) := ⟨fun _ _ _ same => (by cases same),fun _ _ same => by cases same⟩
  exact ⟨prog,v,parsed,among,fun n st => verseEnds parsed among checked (inert n) (fun _ => flat) st⟩

/- A cell that keeps a function that reads the cell. -/
def knot : String := "versus x in Fa \x7b\n pone (\\x -> lege x)\n amen (lege 1)\n\x7d"

def knotted (v : Versus) : Bool :=
  match v.mode, v.body with
  | .lydian, .bind _ (.pone (.lam "x" (.app .lege (.var "x")))) _ (.ret _ (.app .lege (.lit (.num _)))) => true
  | _, _ => false

/- Where the function has just been entered. -/
def entered (arg : Value) (n : Scalar) : Continuation :=
  ⟨.eval (.app .lege (.var "x")) (.node "x" (.num n) .empty),[.returnK],[.state (.closure "x" (.app .lege (.var "x")) .empty)],0,0,.lydian,arg⟩

theorem enteredAgain (env : Env) (n : Scalar) : run (turn env) 5 (entered arg n) = .more (entered arg n) := by
  have found : lookupVar env (.node "x" (.num n) .empty) "x" = some (.num n) := by
    unfold lookupVar Scope.lookup
    rw [if_pos rfl]
  refine moreStep (.opens rfl (.app _ _)) ?_
  refine moreStep (.yields rfl (.lege (i := 0) rfl rfl)) ?_
  refine moreStep (.answers rfl rfl (.appArg _ _ _)) ?_
  refine moreStep (.yields rfl (.var found)) ?_
  exact moreStep (.answers rfl rfl (.appCall (.closure _ _ _ _))) rfl

theorem knottedEnters (env : Env) (arg st : Value) (tied : knotted v = true) :
    ∃ n, run (turn env) 11 (initial v.mode v.body arg st) = .more (entered arg n) := by
  unfold knotted at tied
  split at tied
  · rename_i tag name tag' n lydian body
    rw [lydian,body]
    refine ⟨n,?_⟩
    refine moreStep (.opens rfl (.bind _ _ _ _)) ?_
    refine moreStep (.opens rfl (.pone (i := 0) rfl)) ?_
    refine moreStep (.yields rfl (.lam _ _)) ?_
    refine moreStep (.poneK rfl rfl Nat.one_pos) ?_
    refine moreStep (.answers rfl rfl (.bindK _ _ _ _)) ?_
    refine moreStep (.opens rfl (.ret _ _)) ?_
    refine moreStep (.opens rfl (.app _ _)) ?_
    refine moreStep (.yields rfl (.lege (i := 0) rfl rfl)) ?_
    refine moreStep (.answers rfl rfl (.appArg _ _ _)) ?_
    refine moreStep (.yields rfl (.lit _)) ?_
    exact moreStep (.answers rfl rfl (.appCall (.closure _ _ _ _))) rfl
  · cases tied

/- Nothing else keeps an accepted verse going: with a function in its cell one need not end. -/
theorem knotEndless : ∃ prog v, Parser.Parses knot prog ∧ v ∈ prog.verses ∧ (∃ s, Checked prog v s) ∧
    ∀ arg st, Runs.Forever (turn (Env.fromFugues prog.fugues)) (initial v.mode v.body arg st) := by
  have test : Parser.reads 60 knot (fun prog => accepts 60 prog && prog.verses.any knotted) = true := by decide +kernel
  obtain ⟨prog,parsed,good⟩ := Parser.readsParses test
  rw [Bool.and_eq_true,List.any_eq_true] at good
  obtain ⟨accepted,v,among,tied⟩ := good
  refine ⟨prog,v,parsed,among,acceptsChecked (acceptsOf accepted) v among,fun arg st => ?_⟩
  obtain ⟨n,enters⟩ := knottedEnters (Env.fromFugues prog.fugues) arg st tied
  exact Runs.foreverThrough enters (Runs.foreverAround (enteredAgain _ n))

end Verses

end Officium.Check
