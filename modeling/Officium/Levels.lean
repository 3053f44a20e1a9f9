import Officium.Legality
import Officium.Written

/-! The lift depth code is evaluated at. Inside a lift the machine stands one layer down, and
code written there has no lift of its own; but a λ or an overload entered there brings in
code written elsewhere. As long as none of that has a lift outside its λs, every operation finds
its layer. -/
namespace Officium.Check
open Runs (Turn run runInvariantAt)
open Officium.Parser (Parses parsesWritten)

def bareFrame : Frame → Bool
  | .appArg a _ => bare a
  | .ifK t e _ => bare t && bare e
  | .bindK _ k _ => bare k
  | .recipeH _ h _ _ => bare h
  | .fixK f _ => bare f
  | _ => true

/- What was left to do inside a lift is bare. -/
def Grounded : List Frame → Prop
  | [] => True
  | f :: rest => (liftDepths rest ≠ [] → bareFrame f = true) ∧ Grounded rest

structure Level (m : Continuation) : Prop where
  control : 0 < m.depth → ∀ e scope, m.control = .eval e scope → bare e = true
  stack : Grounded m.stack

/- Inside a lift, the λ or the overload about to be entered opens no lift of its own. -/
structure EntersBare (env : Env) (m : Continuation) : Prop where
  closure : 0 < m.depth → ∀ f v rest e scope posts, m.control = .value v → m.stack = .appCall f :: rest →
    Enters f v (.eval e scope) posts → bare e = true
  overload : 0 < m.depth → ∀ name scope g rest e, m.control = .value (.genus g) →
    m.stack = .resolveK name scope :: rest → env.resolve name g = .ok e → bare e = true

section Steps
variable {env : Env} {m m' : Continuation}

theorem liftedInside {stack : List Frame} {depth : Nat} (h : Lifted stack depth) : 0 < depth ↔ liftDepths stack ≠ [] := by
  rw [liftedCount h]
  exact List.length_pos_iff

theorem groundedAppend {pushed rest : List Frame} (h : ∀ g ∈ pushed, bareFrame g = true) (rest_ : Grounded rest) :
    Grounded (pushed ++ rest) := by
  induction pushed with
  | nil => exact rest_
  | cons g pushed ih =>
    exact ⟨fun _ => h g List.mem_cons_self,ih (fun f mem => h f (List.mem_cons_of_mem _ mem))⟩

theorem groundedSuffix {stack below : List Frame} (h : Grounded stack) (on : below <:+ stack) : Grounded below := by
  induction stack with
  | nil => exact List.eq_nil_of_suffix_nil on ▸ h
  | cons f rest ih =>
    rcases List.suffix_cons_iff.mp on with same | inside
    · exact same ▸ h
    · exact ih h.2 inside

theorem opensBare {scope : Scope} {e e' : Expr} {f : Frame} (h : Opens m scope e e' f) (bare_ : bare e = true) :
    bare e' = true ∧ bareFrame f = true := by
  cases h with
  | app | bind | recipe =>
    simp only [bare,Bool.and_eq_true] at bare_
    exact bare_
  | ifE =>
    simp only [bare,Bool.and_eq_true] at bare_
    exact ⟨bare_.1.1,by simp only [bareFrame,bare_.1.2,bare_.2,Bool.and_self]⟩
  | fix => exact ⟨bare_,bare_⟩
  | _ => exact ⟨bare_,rfl⟩

theorem answersBare {prog : Program} {mode : Mode} {f : Frame} {v : Value} {c : Control} {pushed : List Frame}
    {rest : List Frame} (h : Answers env f v c pushed) (f_ : FrameCarries (Legal prog mode) f)
    (enters : EntersBare env m) (at_ : m.control = .value v) (top : m.stack = f :: rest)
    (inside : 0 < m.depth) (bare_ : bareFrame f = true) : ∀ e scope, c = .eval e scope → bare e = true := by
  intro e scope same
  cases h with
  | appArg a => cases same; exact bare_
  | appCall entered => subst same; exact enters.closure inside _ _ _ _ _ _ at_ top entered
  | fixK =>
    cases f_ with
    | fixK code => exact code.1.elim
  | ifTrue => cases same; exact (Bool.and_eq_true_iff.mp bare_).1
  | ifFalse => cases same; exact (Bool.and_eq_true_iff.mp bare_).2
  | bindK => cases same; exact bare_
  | recipeH => cases same
  | resolveK found => cases same; exact enters.overload inside _ _ _ _ _ at_ top found
  | builtinPost => cases same

theorem answersPushed {f : Frame} {v : Value} {c : Control} {pushed : List Frame} (h : Answers env f v c pushed) :
    ∀ g ∈ pushed, bareFrame g = true := by
  intro g mem
  cases h with
  | appArg => cases List.mem_singleton.mp mem; rfl
  | appCall | fixK =>
    obtain ⟨post,_,rfl⟩ := List.mem_map.mp mem
    rfl
  | _ => cases mem

theorem answersOver {f : Frame} {v : Value} {c : Control} {pushed rest : List Frame} (h : Answers env f v c pushed) :
    liftDepths (f :: rest) = liftDepths rest := by
  cases h <;> rfl

theorem levelStep {prog : Program} {mode : Mode} (state : StateCarries (Legal prog mode) m) (wf : WellFormed m)
    (level : Level m) (enters : EntersBare env m) (step : Step env m m') : Level m' := by
  have after := wellFormedStep wf step
  cases step with
  | yields at_ h => exact ⟨fun _ e scope same => (by cases same),level.stack⟩
  | opens at_ h =>
    refine ⟨fun inside e scope same => ?_,fun inside => ?_,level.stack⟩
    · cases same
      exact (opensBare h (level.control inside _ _ at_)).1
    · exact (opensBare h (level.control ((liftedInside wf.lifted).mpr inside) _ _ at_)).2
  | pure at_ =>
    refine ⟨fun inside e scope same => ?_,level.stack⟩
    cases same
    have bare_ := level.control inside _ _ at_
    exact bare_
  | lift at_ room =>
    refine ⟨fun _ e scope same => ?_,fun _ => rfl,level.stack⟩
    cases same
    have control := state.control
    rw [at_] at control
    cases control with
    | eval code =>
      cases code.2 with
      | lift _ inner => exact lawfulBare (baseNotLift mode) inner
  | answers at_ top h =>
    have stack := level.stack
    rw [top] at stack
    refine ⟨fun inside => ?_,groundedAppend (answersPushed h) stack.2⟩
    -- a lift frame is not answered, so the depth is the depth under this frame
    have lifted := (liftedInside wf.lifted).mp inside
    rw [top,answersOver h] at lifted
    exact answersBare h (state.stack _ (top ▸ List.mem_cons_self)) enters at_ top inside (stack.1 lifted)
  | poneK at_ top | mitteK at_ top | liftK at_ top =>
    have stack := level.stack
    rw [top] at stack
    exact ⟨fun _ e scope same => (by cases same),stack.2⟩
  | caught at_ top h =>
    have stack := level.stack
    rw [top] at stack
    obtain ⟨name,handler,scope,rfl,suffix⟩ := unwoundHandler h
    have below := groundedSuffix stack.2 suffix
    refine ⟨fun inside e scope same => ?_,below.2⟩
    cases same
    exact below.1 ((liftedInside after.lifted).mp inside)

/- An allowed operation finds its layer. -/
theorem layerVisible {e : Expr} {kind : LayerKind} {op : OpKind} (wf : WellFormed m) (need : needs e = some (kind,op))
    (allowed : m.mode.allows op = true) : findLayer m.tower m.depth kind ≠ none := by
  have among : m.mode.tower.contains kind = true := by
    cases e <;> cases need <;> exact allowed
  rw [layerAtDepth wf (List.contains_iff_mem.mp among)]
  exact Option.some_ne_none _

theorem lawfulAllows {prog : Program} {mode : Mode} {e : Expr} {kind : LayerKind} {op : OpKind}
    (h : Lawful prog mode e) (need : needs e = some (kind,op)) : mode.allows op = true := by
  cases h <;> cases need <;> assumption

theorem plainNotMode {r : Raise} (h : Builtins.Plain r) (mode : Mode) (op : OpKind) : r ≠ .dissonance (.wrongMode mode op) := by
  cases h <;> intro same <;> cases same

theorem rejectsNotMode {f v : Value} {r : Raise} (h : Rejects f v r) (mode : Mode) (op : OpKind) :
    r ≠ .dissonance (.wrongMode mode op) := by
  induction h with
  | other => intro same; cases same
  | call full called => exact plainNotMode (Builtins.plainCall (by simpa using full) _ called) mode op
  | inner full called inner ih => exact ih

theorem stopsLegal {prog : Program} {r : Verdict} (state : StateCarries (Legal prog m.mode) m) (wf : WellFormed m)
    (level : Level m) (h : Stops env m r) (mode : Mode) (op : OpKind) : r ≠ failure (.wrongMode mode op) := by
  intro same
  subst same
  cases h with
  | fails at_ h =>
    have control := state.control
    rw [at_] at control
    cases control with
    | eval code =>
      cases h with
      | ask unbound => have same := askError unbound; cases same
      | hidden need none => exact layerVisible wf need (lawfulAllows code.2 need) none
      | bottom e inside room =>
        cases code.2 with
        | lift allowed =>
          have above : ¬ 0 < m.depth := fun inside => by
            have bare_ := level.control inside _ _ at_
            cases bare_
          have two : 1 < m.mode.tower.length := of_decide_eq_true allowed
          have len := congrArg List.length wf.tower
          rw [List.length_map] at len
          omega
  | refuses at_ top h =>
    cases h with
    | appCall h => exact rejectsNotMode h _ _ rfl
    | fixK h => exact rejectsNotMode h _ _ rfl
    | resolveK unresolved => have same := resolveError unresolved; cases same
    | builtinPost h => exact plainNotMode (Builtins.plainApplyPost _ _ _ h) _ _ rfl

end Steps

/- No closure anywhere in the value; builtins, which hold no code, may be. -/
def ClosureFree (v : Value) : Prop := Carries (fun _ => False) v

section Verses
variable {prog : Program} {v : Versus} {arg st : Value}

theorem bodyLegal {s : Store} (written : Written prog) (among : v ∈ prog.verses) (checked : Checked prog v s) :
    Legal prog v.mode v.body := by
  obtain ⟨t,s₁,walk,_⟩ := checkedInfers checked
  exact ⟨written.bodies v among,infersLawful walk⟩

/- Everything a run passes through holds legal code only. -/
theorem legalRun (written : Written prog) (legal : Legal prog v.mode v.body) (arg_ : ClosureFree arg)
    (st_ : ClosureFree st) {n : Nat} {m : Continuation}
    (h : run (turn (Env.fromFugues prog.fugues)) n (initial v.mode v.body arg st) = .more m) :
    StateCarries (Legal prog m.mode) m := by
  rw [(wellFormedRun h).2]
  exact carriesRun (legalHereditary written v.mode) legal (carriesMono (fun _ _ _ none => none.elim) arg_)
    (carriesMono (fun _ _ _ none => none.elim) st_) h

/- As long as every λ and overload entered inside a lift was bare, no mode is broken. -/
theorem legalVerdict (written : Written prog) (legal : Legal prog v.mode v.body) (arg_ : ClosureFree arg)
    (st_ : ClosureFree st) {fuel : Nat}
    (enters : ∀ j m, j < fuel → run (turn (Env.fromFugues prog.fugues)) j (initial v.mode v.body arg st) = .more m →
      EntersBare (Env.fromFugues prog.fugues) m) (mode : Mode) (op : OpKind) :
    runVerse (Env.fromFugues prog.fugues) v.mode v.body arg st fuel ≠ failure (.wrongMode mode op) := by
  intro broken
  obtain ⟨k,m,before,hk,last⟩ := Runs.lastTurn (endedRun broken (fun c same => by cases same))
  have start : Level (initial v.mode v.body arg st) := ⟨fun inside => absurd inside (Nat.lt_irrefl 0),trivial⟩
  have level : k ≤ fuel → Level m := by
    refine runInvariantAt (fun j t => j ≤ fuel → Level t) (fun _ => start)
      (fun j t t' ht keeps next within => ?_) hk
    exact levelStep (legalRun written legal arg_ st_ ht) (wellFormedRun ht).1 (keeps (Nat.le_of_succ_le within))
      (enters j t within ht) (turnStep next)
  exact stopsLegal (legalRun written legal arg_ st_ hk) (wellFormedRun hk).1 (level (Nat.le_of_lt before))
    (turnStop last) mode op rfl

end Verses

/- In a run that inside a lift enters bare code only, no operation of an accepted verse is illegal. -/
theorem liftLegal {src : String} {prog : Program} (parsed : Parses src prog) (accepted : Accepts prog) {v : Versus}
    (among : v ∈ prog.verses) {arg st : Value} (arg_ : ClosureFree arg) (st_ : ClosureFree st) {fuel : Nat}
    (enters : ∀ j m, j < fuel → run (turn (Env.fromFugues prog.fugues)) j (initial v.mode v.body arg st) = .more m →
      EntersBare (Env.fromFugues prog.fugues) m) :
    ∀ mode op, runVerse (Env.fromFugues prog.fugues) v.mode v.body arg st fuel ≠ failure (.wrongMode mode op) := by
  obtain ⟨s,checked⟩ := acceptsChecked accepted v among
  have written := parsesWritten parsed
  exact legalVerdict written (bodyLegal written among checked) arg_ st_ enters

def breaksMode : Verdict → Bool
  | .error (.dissonance (.wrongMode _ _)) => true
  | _ => false

theorem breaksModeOf {r : Verdict} (h : breaksMode r = true) : ∃ mode op, r = failure (.wrongMode mode op) := by
  unfold breaksMode at h
  split at h
  · exact ⟨_,_,rfl⟩
  · cases h

/- A λ written outside the lift, with a lift in its body, applied inside one. -/
theorem liftLegalBroken : ∃ prog v mode op,
    Parses "versus x in fa \x7b\n f <- pure (\\y -> leva lege)\n a <- leva (f arg)\n amen a\n\x7d" prog ∧
      Accepts prog ∧ v ∈ prog.verses ∧ ClosureFree (.num 0) ∧ ClosureFree emptyState ∧
      runVerse (Env.fromFugues prog.fugues) v.mode v.body (.num 0) emptyState 40 = failure (.wrongMode mode op) := by
  have test : Parser.reads 60 "versus x in fa \x7b\n f <- pure (\\y -> leva lege)\n a <- leva (f arg)\n amen a\n\x7d"
      (fun prog => accepts 60 prog && prog.verses.any (fun v =>
        breaksMode (runVerse (Env.fromFugues prog.fugues) v.mode v.body (.num 0) emptyState 40))) = true := by
    decide +kernel
  obtain ⟨prog,parsed,good⟩ := Parser.readsParses test
  simp only [Bool.and_eq_true,List.any_eq_true] at good
  obtain ⟨accepted,v,among,broken⟩ := good
  obtain ⟨mode,op,same⟩ := breaksModeOf broken
  exact ⟨prog,v,mode,op,parsed,acceptsOf accepted,among,.num 0,.record (fun p mem => by cases mem),same⟩

/- The λ about to be entered, where it is one at once; `solve` may enter another. -/
def entersBareTest (env : Env) (m : Continuation) : Bool :=
  match m.control,m.stack with
  | .value _,.appCall (.closure _ body _) :: _ => bare body
  | .value _,.appCall (.builtin name _) :: _ => name != "solve"
  | .value (.genus g),.resolveK name _ :: _ =>
    match env.resolve name g with
    | .ok e => bare e
    | .error _ => true
  | _,_ => true

theorem entersBareOf {env : Env} {m : Continuation} (h : entersBareTest env m = true) : EntersBare env m := by
  refine ⟨fun _ f v rest e scope posts at_ top enters => ?_,fun _ name scope g rest e at_ top found => ?_⟩
  · unfold entersBareTest at h
    rw [at_,top] at h
    cases enters with
    | closure => exact h
    | apply full called =>
      have same := (Builtins.callApply called).1
      subst same
      cases h
  · unfold entersBareTest at h
    rw [at_,top] at h
    simp only [found] at h
    exact h

/- The same with a λ that reads its cell without a lift of its own. -/
theorem liftLegalBare : ∃ prog v,
    Parses "versus x in fa \x7b\n f <- pure (\\y -> lege)\n a <- leva (f arg)\n amen a\n\x7d" prog ∧ v ∈ prog.verses ∧
      ∀ mode op, runVerse (Env.fromFugues prog.fugues) v.mode v.body (.num 0) emptyState 40 ≠ failure (.wrongMode mode op) := by
  have test : Parser.reads 60 "versus x in fa \x7b\n f <- pure (\\y -> lege)\n a <- leva (f arg)\n amen a\n\x7d"
      (fun prog => accepts 60 prog && prog.verses.any (fun v => Runs.along (turn (Env.fromFugues prog.fugues))
        (entersBareTest (Env.fromFugues prog.fugues)) 40 (initial v.mode v.body (.num 0) emptyState))) = true := by
    decide +kernel
  obtain ⟨prog,parsed,good⟩ := Parser.readsParses test
  simp only [Bool.and_eq_true,List.any_eq_true] at good
  obtain ⟨accepted,v,among,each⟩ := good
  exact ⟨prog,v,parsed,among,liftLegal parsed (acceptsOf accepted) among (.num 0) (.record (fun p mem => by cases mem))
    (fun j m within reached => entersBareOf (Runs.alongEach each within reached))⟩

end Officium.Check
