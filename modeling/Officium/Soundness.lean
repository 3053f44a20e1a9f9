import Officium.TypedValues
import Officium.WellFormed

/-! Typed states of the machine. Every turn keeps a state typed, provided a read of a state cell
finds a value of the cell's type, and no typed state stops on a value of the wrong shape or on
a missing name. -/
namespace Officium.Check
open Runs (Turn run)

/- The cells that are settled hold a value of the cell's type; the others still hold the record
they were seeded with. -/
structure SoundBy (rule : Expr → Ty → Prop) (prog : Program) (cells : Cells) (settled : Nat → Prop) (m : Continuation) : Prop where
  flow : ∃ t, ControlTyBy rule prog cells m.control t ∧ StackTyBy rule prog cells m.stack t
  arg : ValTyBy rule prog cells m.arg cells.arg
  typed : ∀ (i : Nat) (v : Value), m.tower[i]? = some (.state v) → settled i → ValTyBy rule prog cells v cells.state
  seeded : ∀ (i : Nat) (v : Value), m.tower[i]? = some (.state v) → ¬ settled i → v = emptyState

abbrev Sound (prog : Program) (cells : Cells) : (Nat → Prop) → Continuation → Prop := SoundBy (fun _ _ => False) prog cells

/- The turn about to be made writes cell `i`. -/
def Writes (m : Continuation) (i : Nat) : Prop := ∃ v rest, m.control = .value v ∧ m.stack = .poneK i :: rest

/- The turn about to be made reads cell `i`. -/
def Reads (m : Continuation) (i : Nat) : Prop :=
  ∃ scope, m.control = .eval .lege scope ∧ findLayer m.tower m.depth .state = some i

/- A read finds a settled cell, or the seed is a value of the cell's type. -/
def Readable (prog : Program) (cells : Cells) (settled : Nat → Prop) (m : Continuation) : Prop :=
  ∀ i, Reads m i → settled i ∨ ValTy prog cells emptyState cells.state

/- Wherever the operand of a fixpoint is done, the self-reference it is handed has the type it takes. -/
def Ties (rule : Expr → Ty → Prop) (prog : Program) (cells : Cells) (m : Continuation) : Prop :=
  ∀ v f scope rest Γ a, m.control = .value v → m.stack = .fixK f scope :: rest → ScopeTyBy rule prog cells scope Γ →
    HasTyBy rule prog cells Γ f (.fn a a) → rule f a → ValTyBy rule prog cells (selfRef f scope) a

def FirstOrderPedals (prog : Program) : Prop := ∀ f ∈ prog.fugues, ∀ p ∈ f.pedals, FirstOrder p.2

theorem writtenPedals {prog : Program} (written : Written prog) : FirstOrderPedals prog :=
  fun f mem p inside => literalFirst (written.pedals f mem p inside)

theorem tiesNever (prog : Program) (cells : Cells) (m : Continuation) : Ties (fun _ _ => False) prog cells m :=
  fun _ _ _ _ _ _ _ _ _ _ => False.elim

section Names
variable {rule : Expr → Ty → Prop} {prog : Program} {cells : Cells} {scope : Scope} {Γ : Gamma} {name : Sym}

theorem scopeFound {b : Sym × Ty} (h : ScopeTyBy rule prog cells scope Γ) (found : Γ.find? (fun b => b.1 == name) = some b) :
    ∃ v, scope.lookup name = some v ∧ ValTyBy rule prog cells v b.2 := by
  induction Γ generalizing scope with
  | nil => cases found
  | cons c Γ ih =>
    cases h with
    | @node x v next a _ value next_ =>
      rw [List.find?_cons] at found
      unfold Scope.lookup
      split at found
      · rename_i same
        cases found
        exact ⟨v,if_pos (beq_iff_eq.mp same),value⟩
      · rename_i differs
        rw [if_neg (fun same => by simp [same] at differs)]
        exact ih next_ found

theorem scopeFree (h : ScopeTyBy rule prog cells scope Γ) (free : Γ.find? (fun b => b.1 == name) = none) :
    scope.lookup name = none := by
  induction Γ generalizing scope with
  | nil => cases h; rfl
  | cons c Γ ih =>
    cases h with
    | @node x v next a _ value next_ =>
      rw [List.find?_cons] at free
      unfold Scope.lookup
      split at free
      · cases free
      · rename_i differs
        rw [if_neg (fun same => by simp [same] at differs)]
        exact ih next_ free

theorem literalTyped {v : Value} (h : FirstOrder v) : ValTyBy rule prog cells v (typeOfValue v) := by
  cases h <;> constructor

/- The empty record is a value of no type but an open one. -/
theorem emptyTyped {t : Ty} (h : ValTy prog cells emptyState t) : ∃ k, t = .var k := by
  cases h with
  | any _ k => exact ⟨k,rfl⟩
  | record corpus =>
    obtain ⟨g,found⟩ := corpus.genus
    cases found

theorem askTyped {t : Ty} (pedals : FirstOrderPedals prog) (h : pedal prog name = some t) :
    ∃ v, (Env.fromFugues prog.fugues).ask name = .ok v ∧ ValTyBy rule prog cells v t := by
  obtain ⟨p,found,same⟩ := Option.map_eq_some_iff.mp ((pedalFind name prog.fugues).symm.trans h)
  obtain ⟨f,mem,inside⟩ := List.mem_flatMap.mp (List.mem_of_find?_eq_some found)
  subst same
  refine ⟨p.2,?_,literalTyped (pedals f mem p inside)⟩
  unfold Env.ask
  rw [(Env.fromFuguesTables prog.fugues).1,found]

theorem signatureValue {doms : List Ty} {r : Ty} (sig : Signature name doms r) :
    ∃ v, Builtins.value name = some v ∧ ValTyBy rule prog cells v (arrows doms r) := by
  refine ⟨.builtin name [],?_,?_⟩
  · unfold Builtins.value
    rw [signatureArity sig]; rfl
  · cases doms with
    | nil => cases sig
    | cons a rest => exact .builtin sig (.nil _)

theorem nameTyped {t : Ty} (pedals : FirstOrderPedals prog) (scope_ : ScopeTyBy rule prog cells scope Γ) (h : NameTy prog Γ name t) :
    ∃ v, lookupVar (Env.fromFugues prog.fugues) scope name = some v ∧ ValTyBy rule prog cells v t := by
  cases h with
  | scope found =>
    obtain ⟨v,bound,v_⟩ := scopeFound scope_ found
    exact ⟨v,by simp only [lookupVar,bound],v_⟩
  | builtin free sig =>
    obtain ⟨v,table,v_⟩ := signatureValue sig
    exact ⟨v,by simp only [lookupVar,scopeFree scope_ free,table],v_⟩
  | pedal free none found =>
    obtain ⟨v,held,v_⟩ := askTyped pedals found
    have table : Builtins.value name = Option.none := by rw [Builtins.value,none]; rfl
    exact ⟨v,by simp only [lookupVar,scopeFree scope_ free,table,held]; rfl,v_⟩

theorem resolveOverload {g : Genus} {e : Expr} (h : (Env.fromFugues prog.fugues).resolve name g = .ok e) :
    ∃ o ∈ overloads prog, o.1.1 = name ∧ o.2 = e := by
  obtain ⟨_,real,tonal⟩ := Env.fromFuguesTables prog.fugues
  refine ⟨((name,g),e),?_,rfl,rfl⟩
  have mem := Env.resolveMember h
  rw [real,tonal] at mem
  unfold overloads
  rcases List.mem_append.mp mem with inside | inside
  · obtain ⟨f,mem,inside⟩ := List.mem_flatMap.mp inside
    exact List.mem_flatMap.mpr ⟨f,mem,List.mem_append_left _ inside⟩
  · obtain ⟨f,mem,inside⟩ := List.mem_flatMap.mp inside
    exact List.mem_flatMap.mpr ⟨f,mem,List.mem_append_right _ inside⟩

end Names

section Turns
variable {rule : Expr → Ty → Prop} {prog : Program} {cells : Cells} {settled : Nat → Prop} {m m' : Continuation}

theorem yieldsTyped {scope : Scope} {Γ : Gamma} {e : Expr} {v : Value} {t : Ty} (pedals : FirstOrderPedals prog)
    (sound : SoundBy rule prog cells settled m) (readable : Readable prog cells settled m) (at_ : m.control = .eval e scope)
    (h : Yields (Env.fromFugues prog.fugues) m scope e v) (scope_ : ScopeTyBy rule prog cells scope Γ)
    (e_ : HasTyBy rule prog cells Γ e t) : ValTyBy rule prog cells v t := by
  cases h with
  | lit v =>
    cases e_ with
    | lit literal => exact literalTyped literal
  | var found =>
    cases e_ with
    | var named =>
      obtain ⟨w,found',w_⟩ := nameTyped pedals scope_ named
      rw [found] at found'
      cases found'
      exact w_
  | lam param body =>
    cases e_ with
    | lam body_ => exact .closure scope_ body_
  | arg =>
    cases e_ with
    | arg => exact sound.arg
  | ask found =>
    cases e_ with
    | ask held =>
      obtain ⟨w,found',w_⟩ := askTyped pedals held
      rw [found] at found'
      cases found'
      exact w_
  | @lege i v visible cell =>
    cases e_ with
    | lege =>
      by_cases known : settled i
      · exact sound.typed i v cell known
      · have seed := sound.seeded i v cell known
        rcases readable i ⟨scope,at_,visible⟩ with known' | seeded
        · exact absurd known' known
        · obtain ⟨k,isOpen⟩ := emptyTyped seeded
          exact isOpen ▸ .any v k

theorem opensTyped {scope : Scope} {Γ : Gamma} {e e' : Expr} {frame : Frame} {t : Ty} (h : Opens m scope e e' frame)
    (scope_ : ScopeTyBy rule prog cells scope Γ) (e_ : HasTyBy rule prog cells Γ e t) :
    ∃ u, HasTyBy rule prog cells Γ e' u ∧ FrameTyBy rule prog cells frame u t := by
  cases h with
  | app f a =>
    cases e_ with
    | app f_ a_ => exact ⟨_,f_,.appArg scope_ a_⟩
  | ifE c t e =>
    cases e_ with
    | ifE c_ then_ else_ => exact ⟨_,c_,.ifK scope_ then_ else_⟩
  | fix f =>
    cases e_ with
    | fix f_ allowed => exact ⟨_,f_,.fixK scope_ f_ allowed⟩
  | ret tag e =>
    cases e_ with
    | ret _ e_ => exact ⟨_,e_,.returnK _⟩
  | bind tag mval name k =>
    cases e_ with
    | bind _ m_ k_ => exact ⟨_,m_,.bindK scope_ k_⟩
  | resolve name genus =>
    cases e_ with
    | resolve genus_ each => exact ⟨_,genus_,.resolveK scope_ each⟩
  | clama visible =>
    cases e_ with
    | clama e_ => exact ⟨_,e_,.clamaK _ _⟩
  | recipe visible =>
    cases e_ with
    | recipe body_ handler_ => exact ⟨_,body_,.recipeH _ scope_ handler_⟩
  | pone visible =>
    cases e_ with
    | pone e_ => exact ⟨_,e_,.poneK _⟩
  | mitte visible =>
    cases e_ with
    | mitte e_ issued => exact ⟨_,e_,.mitteK _ issued⟩
  | perage visible =>
    cases e_ with
    | perage e_ cadence => exact ⟨_,e_,.perageK _ cadence⟩

theorem answersTyped {f : Frame} {v : Value} {c : Control} {rest pushed : List Frame} {t r : Ty} (ties : Ties rule prog cells m)
    (at_ : m.control = .value v) (top : m.stack = f :: rest) (h : Answers (Env.fromFugues prog.fugues) f v c pushed) (f_ : FrameTyBy rule prog cells f t r)
    (v_ : ValTyBy rule prog cells v t) :
    ∃ u, ControlTyBy rule prog cells c u ∧ ∀ rest, StackTyBy rule prog cells rest r → StackTyBy rule prog cells (pushed ++ rest) u := by
  cases h with
  | appArg a scope v =>
    cases f_ with
    | appArg scope_ a_ => exact ⟨_,.eval scope_ a_,fun rest h => .cons (.appCall v_) h⟩
  | appCall enters =>
    cases f_ with
    | appCall f_ => exact entersTyped enters f_ v_
  | fixK enters =>
    cases f_ with
    | fixK scope_ f_ allowed => exact entersTyped enters v_ (ties _ _ _ _ _ _ at_ top scope_ f_ allowed)
  | ifTrue t e scope =>
    cases f_ with
    | ifK scope_ then_ else_ => exact ⟨_,.eval scope_ then_,fun rest h => h⟩
  | ifFalse t e scope =>
    cases f_ with
    | ifK scope_ then_ else_ => exact ⟨_,.eval scope_ else_,fun rest h => h⟩
  | bindK name k scope v =>
    cases f_ with
    | bindK scope_ k_ => exact ⟨_,.eval (.node v_ scope_) k_,fun rest h => h⟩
  | recipeH name handler scope channel v =>
    cases f_ with
    | recipeH _ scope_ handler_ => exact ⟨_,.value v_,fun rest h => h⟩
  | resolveK found =>
    cases f_ with
    | resolveK scope_ each =>
      obtain ⟨o,mem,same,rfl⟩ := resolveOverload found
      exact ⟨_,.eval scope_ (each o mem same),fun rest h => h⟩
  | builtinPost applied =>
    cases f_ with
    | builtinPost =>
      cases v_ with
      | num n => cases applied; exact ⟨_,.value (.num _),fun rest h => h⟩

theorem suffixTyped {stack below : List Frame} {t : Ty} (h : StackTyBy rule prog cells stack t) (on : below <:+ stack) :
    ∃ u, StackTyBy rule prog cells below u := by
  induction stack generalizing t with
  | nil =>
    have same := List.eq_nil_of_suffix_nil on
    exact ⟨t,same ▸ h⟩
  | cons f rest ih =>
    rcases List.suffix_cons_iff.mp on with same | inside
    · exact ⟨t,same ▸ h⟩
    · cases h with
      | cons f_ rest_ => exact ih rest_ inside

/- What a turn leaves in a cell was there before, or is the value it wrote. -/
theorem stepCell {env : Env} {i : Nat} {v : Value} (step : Step env m m') (h : m'.tower[i]? = some (.state v)) :
    (m.tower[i]? = some (.state v) ∧ ¬ Writes m i) ∨ ∃ rest, m.control = .value v ∧ m.stack = .poneK i :: rest := by
  cases step with
  | yields at_ | opens at_ | pure at_ | lift at_ =>
    refine .inl ⟨h,?_⟩
    rintro ⟨w,rest,at_',_⟩
    rw [at_] at at_'
    cases at_'
  | answers at_ top answers =>
    refine .inl ⟨h,?_⟩
    rintro ⟨w,rest,_,top'⟩
    rw [top] at top'
    cases top'
    cases answers
  | @poneK w j rest at_ top inside =>
    by_cases same : j = i
    · subst same
      rw [List.getElem?_set_self inside] at h
      cases h
      exact .inr ⟨rest,at_,top⟩
    · rw [List.getElem?_set_ne same] at h
      refine .inl ⟨h,?_⟩
      rintro ⟨_,rest',_,top'⟩
      rw [top] at top'
      cases top'
      exact same rfl
  | @mitteK w j rest p cs at_ top plan issued =>
    have inside := (List.getElem?_eq_some_iff.mp plan).1
    by_cases same : j = i
    · subst same
      rw [List.getElem?_set_self inside] at h
      cases h
    · rw [List.getElem?_set_ne same] at h
      refine .inl ⟨h,?_⟩
      rintro ⟨_,rest',_,top'⟩
      rw [top] at top'
      cases top'
  | liftK at_ top | caught at_ top =>
    refine .inl ⟨h,?_⟩
    rintro ⟨w,rest,_,top'⟩
    rw [top] at top'
    cases top'

theorem flowStep (pedals : FirstOrderPedals prog) (ties : Ties rule prog cells m) (sound : SoundBy rule prog cells settled m) (readable : Readable prog cells settled m)
    (step : Step (Env.fromFugues prog.fugues) m m') :
    ∃ t, ControlTyBy rule prog cells m'.control t ∧ StackTyBy rule prog cells m'.stack t := by
  obtain ⟨t,control,stack⟩ := sound.flow
  cases step with
  | yields at_ h =>
    rw [at_] at control
    cases control with
    | eval scope_ e_ => exact ⟨t,.value (yieldsTyped pedals sound readable at_ h scope_ e_),stack⟩
  | opens at_ h =>
    rw [at_] at control
    cases control with
    | eval scope_ e_ =>
      obtain ⟨u,e_,frame⟩ := opensTyped h scope_ e_
      exact ⟨u,.eval scope_ e_,.cons frame stack⟩
  | pure at_ =>
    rw [at_] at control
    cases control with
    | eval scope_ e_ =>
      cases e_ with
      | pure _ e_ => exact ⟨t,.eval scope_ e_,stack⟩
  | lift at_ room =>
    rw [at_] at control
    cases control with
    | eval scope_ e_ =>
      cases e_ with
      | lift e_ => exact ⟨t,.eval scope_ e_,.cons (.liftK _ _) stack⟩
  | answers at_ top h =>
    rw [at_] at control
    rw [top] at stack
    cases control with
    | value v_ =>
      cases stack with
      | cons f_ rest_ =>
        obtain ⟨u,c_,chain⟩ := answersTyped ties at_ top h f_ v_
        exact ⟨u,c_,chain _ rest_⟩
  | poneK at_ top inside =>
    rw [top] at stack
    cases stack with
    | cons f_ rest_ =>
      cases f_ with
      | poneK => exact ⟨_,.value .unit,rest_⟩
  | mitteK at_ top plan issued =>
    rw [top] at stack
    cases stack with
    | cons f_ rest_ =>
      cases f_ with
      | mitteK => exact ⟨_,.value .unit,rest_⟩
  | liftK at_ top =>
    rw [at_] at control
    rw [top] at stack
    cases stack with
    | cons f_ rest_ =>
      cases f_ with
      | liftK => exact ⟨_,control,rest_⟩
  | caught at_ top h =>
    rw [at_] at control
    rw [top] at stack
    cases stack with
    | cons f_ rest_ =>
      cases f_ with
      | clamaK =>
        cases control with
        | value v_ =>
          obtain ⟨name,handler,scope,rfl,suffix⟩ := unwoundHandler h
          obtain ⟨u,below⟩ := suffixTyped rest_ suffix
          cases below with
          | cons f_ below =>
            cases f_ with
            | recipeH _ scope_ handler_ => exact ⟨_,.eval (.node v_ scope_) handler_,below⟩

/- One turn, after which the cell it wrote is settled too. -/
theorem soundStep (pedals : FirstOrderPedals prog) (ties : Ties rule prog cells m) (sound : SoundBy rule prog cells settled m) (readable : Readable prog cells settled m)
    (step : Step (Env.fromFugues prog.fugues) m m') :
    SoundBy rule prog cells (fun i => settled i ∨ Writes m i) m' := by
  refine ⟨flowStep pedals ties sound readable step,?_,fun i v cell known => ?_,fun i v cell unknown => ?_⟩
  · rw [stepArg step]
    exact sound.arg
  · rcases stepCell step cell with ⟨before,unwritten⟩ | ⟨rest,at_,top⟩
    · exact sound.typed i v before (known.resolve_right unwritten)
    · obtain ⟨t,control,stack⟩ := sound.flow
      rw [at_] at control
      rw [top] at stack
      cases stack with
      | cons f_ rest_ =>
        cases f_ with
        | poneK =>
          cases control with
          | value v_ => exact v_
  · rcases stepCell step cell with ⟨before,_⟩ | ⟨rest,at_,top⟩
    · exact sound.seeded i v before (fun known => unknown (.inl known))
    · exact absurd (.inr ⟨v,rest,at_,top⟩) unknown

/- Everything that may stand in a cadence's place. -/
inductive Permitted : Verdict → Prop where
  | cadence (o : VerseOutcome) : Permitted (.ok o)
  | silent : Permitted (failure .silent)
  | user (v : Value) : Permitted (failure (.user v))
  | unresolved (name : Sym) (g : Genus) : Permitted (failure (.unresolved name g))
  | premature : Permitted (failure .premature)
  | outOfFuel (c : Continuation) : Permitted (failure (.outOfFuel c))

theorem failsTyped {scope : Scope} {Γ : Gamma} {e : Expr} {r : Raise} {t : Ty} (pedals : FirstOrderPedals prog)
    (wf : WellFormed m) (h : Fails (Env.fromFugues prog.fugues) m scope e r) (scope_ : ScopeTyBy rule prog cells scope Γ)
    (e_ : HasTyBy rule prog cells Γ e t) :
    Permitted (.error r) ∨ ∃ op, r = .dissonance (.wrongMode m.mode op) := by
  cases h with
  | var unbound =>
    cases e_ with
    | var named =>
      obtain ⟨v,found,_⟩ := nameTyped pedals scope_ named
      rw [unbound] at found
      cases found
  | ask unbound =>
    cases e_ with
    | ask held =>
      have answered := @askTyped rule prog cells _ _ pedals held
      obtain ⟨v,found,_⟩ := answered
      rw [unbound] at found
      cases found
  | nihil visible => exact .inl .silent
  | hidden need none => exact .inr ⟨_,rfl⟩
  | bottom e inside room => exact .inr ⟨_,rfl⟩
  | below e outside => exact absurd outside (Nat.not_lt_of_lt wf.room)

theorem refusesTyped {f : Frame} {rest : List Frame} {v : Value} {r : Raise} {t u : Ty} (ties : Ties rule prog cells m)
    (wf : WellFormed m) (at_ : m.control = .value v) (top : m.stack = f :: rest) (h : Refuses (Env.fromFugues prog.fugues) m f v r) (f_ : FrameTyBy rule prog cells f t u)
    (v_ : ValTyBy rule prog cells v t) : Permitted (.error r) := by
  have safe := refusesNotFault wf top h
  cases h with
  | appCall h =>
    cases f_ with
    | appCall f_ => exact (rejectsTyped h f_ v_).elim
  | fixK h =>
    cases f_ with
    | fixK scope_ f_ allowed => exact (rejectsTyped h v_ (ties _ _ _ _ _ _ at_ top scope_ f_ allowed)).elim
  | ifK other =>
    cases f_ with
    | ifK =>
      cases v_ with
      | bool b => exact absurd rfl (other b)
  | poneK | outside | layer => exact absurd rfl (safe _)
  | mitteK plan other =>
    cases f_ with
    | mitteK _ issued =>
      rcases issued with rfl | rfl <;> cases v_ <;> cases other
  | premature => exact .premature
  | unconsecrated other =>
    cases f_ with
    | perageK =>
      cases v_ with
      | plan p => exact absurd rfl (other p)
  | resolveK unresolved =>
    rw [resolveError unresolved]
    exact .unresolved _ _
  | genus other =>
    cases f_ with
    | resolveK =>
      cases v_ with
      | genus g => exact absurd rfl (other g)
  | builtinPost h =>
    cases f_ with
    | builtinPost =>
      cases v_ with
      | num n => cases h

/- A typed state never stops on a value of the wrong shape, an unconsecrated commit or a missing name. -/
theorem stopsTyped {r : Verdict} (pedals : FirstOrderPedals prog) (ties : Ties rule prog cells m) (sound : SoundBy rule prog cells settled m) (wf : WellFormed m)
    (h : Stops (Env.fromFugues prog.fugues) m r) :
    Permitted r ∨ ∃ op, r = failure (.wrongMode m.mode op) := by
  obtain ⟨t,control,stack⟩ := sound.flow
  cases h with
  | dry | cadence | commit => exact .inl (.cadence _)
  | escaped => exact .inl (.user _)
  | fails at_ h =>
    rw [at_] at control
    cases control with
    | eval scope_ e_ =>
      rcases failsTyped pedals wf h scope_ e_ with good | ⟨op,same⟩
      · exact .inl good
      · exact .inr ⟨op,by rw [same]; rfl⟩
  | refuses at_ top h =>
    rw [at_] at control
    rw [top] at stack
    cases control with
    | value v_ =>
      cases stack with
      | cons f_ rest_ => exact .inl (refusesTyped ties wf at_ top h f_ v_)

end Turns

section Verses
variable {prog : Program} {v : Versus} {s : Store} {θ : Assignment}

/- The types `check_versus` gave the verse's four variables, under an assignment of the rest. -/
def assigned (prog : Program) (θ : Assignment) : Cells := (Checker.new prog).cells.inst θ

theorem bodyTyped (written : Written prog) (among : v ∈ prog.verses) (checked : Checked prog v s) (solves : Solves θ s) :
    ∃ t, HasTy prog (assigned prog θ) [] v.body t := by
  obtain ⟨t,s₁,walk,extend⟩ := checkedInfers checked
  have typed := (infersTyped written.overloads walk (written.bodies v among)).2
    (solvesBefore extend solves)
  exact ⟨t.inst θ,typed⟩

/- The seeds of the tower: the initial state on top, the empty record in every cell below. -/
theorem initialCell {mode : Mode} {body : Expr} {arg st w : Value} {i : Nat}
    (h : (initial mode body arg st).tower[i]? = some (.state w)) : (i = 0 ∧ w = st) ∨ (i ≠ 0 ∧ w = emptyState) := by
  change (layersOf st mode.tower)[i]? = _ at h
  cases mode with
  | lydian =>
    match i,h with
    | 0, h => cases h; exact .inl ⟨rfl,rfl⟩
  | hypolydian =>
    match i,h with
    | 0, h => cases h; exact .inl ⟨rfl,rfl⟩
    | 1, h => cases h; exact .inr ⟨by decide,rfl⟩
  | _ =>
    match i,h with
    | 0, h | 1, h => cases h

end Verses

end Officium.Check
