import Officium.Cells
import Officium.Akin

/-! The checker's rule for a fixpoint and what the machine makes of one. The operand of `Fix f` is typed
`a -> a` at any type, and the machine always hands it a closure: the two agree where `a` is a type of
functions, and where nothing the closure goes through again reads the name the machine binds in it. -/
namespace Officium.Check
open Runs (Turn run runInvariantAt)

/- Literals first-order, and nothing lifted. -/
def Plain (e : Expr) : Prop := Within (fun _ _ => True) e ∧ liftFree e = true

structure PlainProgram (prog : Program) : Prop where
  bodies : ∀ v ∈ prog.verses, Plain v.body
  overloads : ∀ o ∈ overloads prog, Plain o.2
  pedals : FirstOrderPedals prog

/- In the run from this state the operand of `Fix f` is handed its self-reference. -/
def Hands (env : Env) (start : Continuation) (f : Expr) : Prop :=
  ∃ n m w scope rest, run (turn env) n start = .more m ∧ m.control = .value w ∧ m.stack = .fixK f scope :: rest

/- The types the machine's closure has: a type left open, or one of functions where neither the operand nor an
overload reads the name the machine binds. -/
inductive Eta (prog : Program) (f : Expr) : Ty → Prop where
  | open_ (i : Nat) : Eta prog f (.var i)
  | function {t r} (operand : f.free "$stretto" = false) (overloads : ∀ o ∈ overloads prog, o.2.free "$stretto" = false) :
      Eta prog f (.fn t r)

/- Wherever the run hands a self-reference over, the fixpoint is at such a type. -/
def Straightly (prog : Program) (start : Continuation) (f : Expr) (a : Ty) : Prop :=
  Hands (Env.fromFugues prog.fugues) start f → Eta prog f a

/- At the types the check found for the verse, the verse, its argument and its state can be typed so. -/
structure Straight (prog : Program) (θ : Assignment) (v : Versus) (arg st : Value) : Prop where
  body : ∃ t, HasTyBy (Straightly prog (initial v.mode v.body arg st)) prog (assigned prog θ) [] v.body t
  argument : ValTyBy (Straightly prog (initial v.mode v.body arg st)) prog (assigned prog θ) arg (assigned prog θ).arg
  cell : ValTyBy (Straightly prog (initial v.mode v.body arg st)) prog (assigned prog θ) st (assigned prog θ).state

/- Under any budgets the run does not end on a value of the wrong shape, and every operand of a fixpoint is handed a
self-reference of the type it takes. -/
structure NeverTorn (prog : Program) (θ : Assignment) (start : Continuation) : Prop where
  verdict : ∀ budgets want got, sliced (Env.fromFugues prog.fugues) budgets start ≠ failure (.dissonant want got)
  handed : ∀ n m w f scope rest, run (turn (Env.fromFugues prog.fugues)) n start = .more m → m.control = .value w →
    m.stack = .fixK f scope :: rest → ∃ a, ValTyBy (Straightly prog start) prog (assigned prog θ) w (.fn a a) ∧
      ValTyBy (Straightly prog start) prog (assigned prog θ) (selfRef f scope) a

section Agreeing
variable {rule : Expr → Ty → Prop} {prog : Program} {cells : Cells} {Γ Γ' : Gamma} {e : Expr} {t a : Ty} {x y : Sym}

/- Both contexts say the same of the name. -/
def Same (Γ Γ' : Gamma) (y : Sym) : Prop := Γ.find? (fun b => b.1 == y) = Γ'.find? (fun b => b.1 == y)

theorem sameUnder (h : x ≠ y → Same Γ Γ' y) : Same ((x,a) :: Γ) ((x,a) :: Γ') y := by
  unfold Same
  rw [List.find?_cons,List.find?_cons]
  split
  · rfl
  · rename_i differs
    exact h (fun same => by simp [same] at differs)

theorem sameBinder {e k : Expr} (h : ∀ y, (e.free y || (x != y && k.free y)) = true → Same Γ Γ' y) (y : Sym) (free : k.free y = true) :
    Same ((x,a) :: Γ) ((x,a) :: Γ') y :=
  sameUnder (fun differs => h y (by simp [free,differs]))

theorem nameAgree (h : NameTy prog Γ x t) (same : Same Γ Γ' x) : NameTy prog Γ' x t := by
  cases h with
  | scope found => exact .scope (same.symm.trans found)
  | builtin free sig => exact .builtin (same.symm.trans free) sig
  | pedal free none found => exact .pedal (same.symm.trans free) none found

/- An expression is typed alike where the names it reads, and those of the overloads, are. -/
theorem typedAgree (h : HasTyBy rule prog cells Γ e t) (agree : ∀ y, e.free y = true → Same Γ Γ' y)
    (answers : ∀ o ∈ overloads prog, ∀ y, o.2.free y = true → Same Γ Γ' y) : HasTyBy rule prog cells Γ' e t := by
  induction h generalizing Γ' with
  | lit literal => exact .lit literal
  | var found => exact .var (nameAgree found (agree _ (beq_self_eq_true _)))
  | lam _ ih =>
    exact .lam (ih (fun y free => sameUnder (fun differs => agree y (by simp [Expr.free,free,differs])))
      (fun o mem y free => sameUnder (fun _ => answers o mem y free)))
  | app _ _ ihf iha =>
    exact .app (ihf (fun y free => agree y (by simp [Expr.free,free])) answers) (iha (fun y free => agree y (by simp [Expr.free,free])) answers)
  | ifE _ _ _ ihc iht ihe =>
    exact .ifE (ihc (fun y free => agree y (by simp [Expr.free,free])) answers) (iht (fun y free => agree y (by simp [Expr.free,free])) answers)
      (ihe (fun y free => agree y (by simp [Expr.free,free])) answers)
  | fix _ allowed ih => exact .fix (ih agree answers) allowed
  | pure tag _ ih => exact .pure tag (ih agree answers)
  | lift _ ih => exact .lift (ih agree answers)
  | ret tag _ ih => exact .ret tag (ih agree answers)
  | bind tag _ _ ihm ihk =>
    exact .bind tag (ihm (fun y free => agree y (by simp [Expr.free,free])) answers)
      (ihk (sameBinder agree) (fun o mem y free => sameUnder (fun _ => answers o mem y free)))
  | arg => exact .arg
  | ask found => exact .ask found
  | resolve _ each ihg ihe => exact .resolve (ihg agree answers) (fun o mem named => ihe o mem named (answers o mem) answers)
  | nihil => exact .nihil
  | clama _ ih => exact .clama (ih agree answers)
  | recipe _ _ ihb ihh =>
    exact .recipe (ihb (fun y free => agree y (by simp [Expr.free,free])) answers)
      (ihh (sameBinder agree) (fun o mem y free => sameUnder (fun _ => answers o mem y free)))
  | lege => exact .lege
  | pone _ ih => exact .pone (ih agree answers)
  | mitte _ issued ih => exact .mitte (ih agree answers) issued
  | perage _ cadence ih => exact .perage (ih agree answers) cadence

/- The self-reference has the fixpoint's own type. -/
theorem selfRefTyped {f : Expr} {scope : Scope} (scope_ : ScopeTyBy rule prog cells scope Γ) (f_ : HasTyBy rule prog cells Γ f (.fn a a))
    (allowed : rule f a) (eta : Eta prog f a) : ValTyBy rule prog cells (selfRef f scope) a := by
  cases eta with
  | open_ i => exact .any _ i
  | @function t r operand overloads_ =>
    have apart {e : Expr} (unread : e.free "$stretto" = false) (y : Sym) (free : e.free y = true) : Same Γ (("$stretto",t) :: Γ) y := by
      unfold Same
      rw [List.find?_cons_of_neg]
      intro same
      rw [← beq_iff_eq.mp same,unread] at free
      cases free
    have again := typedAgree f_ (apart operand) (fun o mem => apart (overloads_ o mem))
    have bound : NameTy prog (("$stretto",t) :: Γ) "$stretto" t := NameTy.scope (b := ("$stretto",t)) rfl
    exact .closure scope_ (.app (.fix again allowed) (.var bound))

end Agreeing

section Runs
variable {prog : Program} {θ : Assignment} {v : Versus} {arg st : Value}

theorem firstOrderCarries {P : Expr → Prop} {w : Value} (h : FirstOrder w) : Carries P w := by
  cases h <;> constructor

theorem plainHereditary (plain : PlainProgram prog) : Hereditary (Env.fromFugues prog.fugues) Plain where
  operand := by
    intro e e' sub code
    obtain ⟨within,free⟩ := code
    cases sub <;> simp only [Within,liftFree,Bool.and_eq_true] at within free <;> simp_all [Plain]
  literal := fun code => firstOrderCarries code.1
  overload := by
    intro name genus g e _ found
    obtain ⟨o,mem,_,rfl⟩ := resolveOverload found
    exact plain.overloads o mem
  pedal := by
    intro name w held
    obtain ⟨p,mem,rfl⟩ := Env.askMember held
    rw [(Env.fromFuguesTables prog.fugues).1] at mem
    obtain ⟨f,among,inside⟩ := List.mem_flatMap.mp mem
    exact firstOrderCarries (plain.pedals f among p inside)
  stretto := by
    rintro _ code
    exact ⟨⟨code.1,trivial⟩,by simpa [liftFree] using code.2⟩

/- A state of such a run: typed, over plain code, on the top layer. -/
structure Kept (prog : Program) (θ : Assignment) (rule : Expr → Ty → Prop) (m : Continuation) : Prop where
  wf : WellFormed m
  code : StateCarries Plain m
  depth : m.depth = 0
  sound : ∃ settled : Nat → Prop, settled 0 ∧ SoundBy rule prog (assigned prog θ) settled m

theorem handsTies {start m : Continuation} {n : Nat} {cells : Cells} (h : run (turn (Env.fromFugues prog.fugues)) n start = .more m) :
    Ties (Straightly prog start) prog cells m :=
  fun w _ scope rest _ _ at_ top scope_ f_ allowed => selfRefTyped scope_ f_ allowed (allowed ⟨n,m,w,scope,rest,h,at_,top⟩)

theorem keptStep {rule : Expr → Ty → Prop} {m m' : Continuation} (plain : PlainProgram prog) (kept : Kept prog θ rule m)
    (ties : Ties rule prog (assigned prog θ) m) (step : Step (Env.fromFugues prog.fugues) m m') : Kept prog θ rule m' := by
  obtain ⟨settled,top,sound⟩ := kept.sound
  exact ⟨wellFormedStep kept.wf step,carriesStep (plainHereditary plain) kept.code step,
    unliftedStep (fun _ code => code.2) kept.code kept.wf step kept.depth,
    ⟨_,.inl top,soundStep plain.pedals ties sound (sungReadable kept.wf kept.depth top) step⟩⟩

theorem keptInitial (plain : PlainProgram prog) (among : v ∈ prog.verses) (arg_ : Carries Plain arg) (st_ : Carries Plain st)
    (straight : Straight prog θ v arg st) :
    Kept prog θ (Straightly prog (initial v.mode v.body arg st)) (initial v.mode v.body arg st) := by
  obtain ⟨t,body_⟩ := straight.body
  refine ⟨wellFormedInitial v.mode v.body arg st,carriesRun (plainHereditary plain) (plain.bodies v among) arg_ st_ (Runs.runZero _),
    rfl,⟨fun i => i = 0,rfl,⟨⟨t,.eval .empty body_,.nil t⟩,straight.argument,fun i w cell known => ?_,fun i w cell unknown => ?_⟩⟩⟩
  · rcases initialCell cell with ⟨_,same⟩ | ⟨other,_⟩
    · exact same ▸ straight.cell
    · exact absurd known other
  · exact (initialCell cell).elim (fun here => absurd here.1 unknown) (fun below => below.2)

theorem keptRun (plain : PlainProgram prog) (among : v ∈ prog.verses) (arg_ : Carries Plain arg) (st_ : Carries Plain st)
    (straight : Straight prog θ v arg st) {n : Nat} {m : Continuation}
    (h : run (turn (Env.fromFugues prog.fugues)) n (initial v.mode v.body arg st) = .more m) :
    Kept prog θ (Straightly prog (initial v.mode v.body arg st)) m :=
  runInvariantAt (fun _ => Kept prog θ _) (keptInitial plain among arg_ st_ straight)
    (fun _ _ _ reached kept next => keptStep plain kept (handsTies reached) (turnStep next)) h

theorem neverTorn (plain : PlainProgram prog) (among : v ∈ prog.verses) (arg_ : Carries Plain arg) (st_ : Carries Plain st)
    (straight : Straight prog θ v arg st) : NeverTorn prog θ (initial v.mode v.body arg st) where
  verdict := by
    intro budgets want got torn
    obtain ⟨k,m,hk,last,wf,_⟩ := lastState torn (fun c same => by cases same)
    obtain ⟨settled,_,sound⟩ := (keptRun plain among arg_ st_ straight hk).sound
    rcases stopsTyped plain.pedals (handsTies hk) sound wf (turnStop last) with good | ⟨op,same⟩
    · cases good
    · cases same
  handed := by
    intro n m w f scope rest hn at_ top
    obtain ⟨settled,_,sound⟩ := (keptRun plain among arg_ st_ straight hn).sound
    obtain ⟨t,control,stack⟩ := sound.flow
    rw [at_] at control
    rw [top] at stack
    cases control with
    | value w_ =>
      cases stack with
      | cons f_ rest_ =>
        cases f_ with
        | fixK scope_ f_ allowed => exact ⟨_,w_,selfRefTyped scope_ f_ allowed (allowed ⟨n,m,w,scope,rest,hn,at_,top⟩)⟩

/- What the check accepts is typed under any rule its fixpoints keep. -/
theorem checkedTyped {rule : Expr → Ty → Prop} {s : Store} (checked : Checked prog v s) (solves : Solves θ s)
    (answers : ∀ o ∈ overloads prog, Within rule o.2) (body_ : Within rule v.body) :
    ∃ t, HasTyBy rule prog (assigned prog θ) [] v.body t := by
  obtain ⟨t,s₁,walk,extend⟩ := checkedInfers checked
  have typed := (infersTypes Met θ walk).2 (solvesSatisfies (solvesBefore extend solves))
  exact ⟨t.inst θ,typesHasTy answers typed body_⟩

end Runs

/- The check types the body with its fixpoints at any type; the run is sound where they are at the types of the closures
it hands over. -/
theorem strettoSound {prog : Program} (plain : PlainProgram prog) :
    ∀ v ∈ prog.verses, ∀ s θ, Checked prog v s → Solves θ s →
      (∃ t, HasTyBy (fun _ _ => True) prog (assigned prog θ) [] v.body t) ∧
      ∀ arg st, Carries Plain arg → Carries Plain st → Straight prog θ v arg st →
        NeverTorn prog θ (initial v.mode v.body arg st) := by
  intro v among s θ checked solves
  refine ⟨checkedTyped checked solves (fun o mem => (plain.overloads o mem).1) (plain.bodies v among).1,?_⟩
  exact fun arg st arg_ st_ straight => neverTorn plain among arg_ st_ straight

/- The last store of a verse's check within a bound, solved by an assignment. -/
def solvedUnder (n : Nat) (prog : Program) (v : Versus) (θ : Assignment) : Bool :=
  match checkVersusIn prog n v Store.new with
  | some (.ok ((),s)) => s.preds.isEmpty && s.subst.zipIdx.all (fun b => (b.1.map (Ty.inst θ)).getD (θ b.2) == θ b.2)
  | _ => false

theorem solvedUnderOf {n : Nat} {prog : Program} {v : Versus} {θ : Assignment} (h : solvedUnder n prog v θ = true) :
    ∃ s, Checked prog v s ∧ Solves θ s := by
  unfold solvedUnder at h
  split at h
  · rename_i s found
    rw [Bool.and_eq_true,List.all_eq_true] at h
    refine ⟨s,⟨n,found⟩,fun i u bound => ?_,fun p mem => ?_⟩
    · exact (beq_iff_eq.mp (h.2 (some u,i) (List.mk_mem_zipIdx_iff_getElem?.mpr bound))).symm
    · rw [List.isEmpty_iff.mp h.1] at mem
      cases mem
  · cases h

/- `fix (\self n -> if n <= 0 then 0 else self (n - 1))`, taken at the argument. -/
def countdown : Versus where
  name := "countdown"
  mode := .lydian
  body := .ret .lydian (.app (.fix (.lam "self" (.lam "n" (.ifE (.app (.app (.var "le") (.var "n")) (.lit (.num 0))) (.lit (.num 0))
    (.app (.var "self") (.app (.app (.var "sub") (.var "n")) (.lit (.num 1)))))))) .arg)
  rhymes := []

def countdownTypes : Assignment
  | 4 | 8 | 11 => .fn .num .num
  | 6 => .fn .num .bool
  | 7 => .bool
  | _ => .num

/- `fix (\x -> x + 1)`, where a number is expected of the closure. -/
def clashing : Versus where
  name := "clashing"
  mode := .lydian
  body := .ret .lydian (.fix (.lam "x" (.app (.app (.var "add") (.var "x")) (.lit (.num 1)))))
  rhymes := []

def clashingTypes : Assignment
  | 5 => .fn .num .num
  | _ => .num

theorem plainAlone {v : Versus} (body_ : Plain v.body) : PlainProgram ⟨[],[v]⟩ where
  bodies := by simpa using body_
  overloads := by simp [overloads]
  pedals := by simp [FirstOrderPedals]

theorem countdownTyped {rule : Expr → Ty → Prop} {prog : Program} {cells : Cells} (arg_ : cells.arg = .num) (result : cells.result = .num)
    (functions : ∀ f t r, f.free "$stretto" = false → rule f (.fn t r)) : HasTyBy rule prog cells [] countdown.body .num := by
  have var {name : Sym} {t : Ty} (found : NameTy prog [("n",.num),("self",.fn .num .num)] name t) :
      HasTyBy rule prog cells [("n",.num),("self",.fn .num .num)] (.var name) t := .var found
  have lit (n : Scalar) : HasTyBy rule prog cells [("n",.num),("self",.fn .num .num)] (.lit (.num n)) .num := .lit (.num n)
  have n : HasTyBy rule prog cells _ (.var "n") .num := var (NameTy.scope (b := ("n",.num)) rfl)
  have self : HasTyBy rule prog cells _ (.var "self") (.fn .num .num) := var (NameTy.scope (b := ("self",.fn .num .num)) rfl)
  have test := HasTyBy.app (.app (var (.builtin rfl .le)) n) (lit 0)
  have again := HasTyBy.app self (.app (.app (var (.builtin rfl .sub)) n) (lit 1))
  have loop := HasTyBy.fix (.lam (.lam (.ifE test (lit 0) again))) (functions _ _ _ rfl)
  have given : HasTyBy rule prog cells [] .arg .num := arg_ ▸ HasTyBy.arg
  exact .ret .lydian (by rw [result]; exact .app loop given)

/- A recursion on numbers. -/
theorem strettoSoundCountdown : NeverTorn ⟨[],[countdown]⟩ countdownTypes (initial .lydian countdown.body (.num 3) (.num 0)) := by
  have solved : solvedUnder 60 ⟨[],[countdown]⟩ countdown countdownTypes = true := by decide +kernel
  obtain ⟨s,checked,solves⟩ := solvedUnderOf solved
  have plain : Plain countdown.body := by simp [Plain,countdown,Within,liftFree,FirstOrder.num]
  have sound := (strettoSound (plainAlone plain) countdown List.mem_cons_self s countdownTypes checked solves).2
  exact sound (.num 3) (.num 0) (.num 3) (.num 0)
    ⟨⟨.num,countdownTyped rfl rfl (fun _ _ _ unread _ => .function unread (by simp [overloads]))⟩,.num 3,.num 0⟩

/- A fixpoint of a number: accepted, and torn by the closure it is handed. -/
theorem strettoTorn : ∃ s want got, PlainProgram ⟨[],[clashing]⟩ ∧ Checked ⟨[],[clashing]⟩ clashing s ∧ Solves clashingTypes s ∧
    Inhabits (.num 1) (assigned ⟨[],[clashing]⟩ clashingTypes).arg ∧ Inhabits (.num 1) (assigned ⟨[],[clashing]⟩ clashingTypes).state ∧
    runVerse (Env.fromFugues []) .lydian clashing.body (.num 1) (.num 1) 20 = failure (.dissonant want got) := by
  have solved : solvedUnder 60 ⟨[],[clashing]⟩ clashing clashingTypes = true := by decide +kernel
  obtain ⟨s,checked,solves⟩ := solvedUnderOf solved
  have plain : Plain clashing.body := by simp [Plain,clashing,Within,liftFree,FirstOrder.num]
  obtain ⟨want,got,same⟩ := misfitsOf
    (show misfits (runVerse (Env.fromFugues []) .lydian clashing.body (.num 1) (.num 1) 20) = true by decide +kernel)
  exact ⟨s,want,got,plainAlone plain,checked,solves,.num 1,.num 1,same⟩

end Officium.Check
