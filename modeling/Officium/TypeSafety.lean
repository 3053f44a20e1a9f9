import Officium.Levels
import Officium.Written

/-! Type soundness of the checker for verses that never lift: a verse that was accepted, run on
values of the types the checker inferred for its argument and its state, is never stopped by a
value of the wrong shape, a missing name, a mode broken or an unconsecrated commit. -/
namespace Officium.Check
open Runs (Turn run runInvariant runInvariantAt)
open Officium.Parser (Parses parsesWritten)

/- A value of a type the checker can be left with; a variable it left open stands for any type. -/
inductive Inhabits : Value → Ty → Prop where
  | any (v : Value) (i : Nat) : Inhabits v (.var i)
  | unit : Inhabits .unit .unit
  | num (n : Scalar) : Inhabits (.num n) .num
  | bool (b : Bool) : Inhabits (.bool b) .bool
  | genus (g : Genus) : Inhabits (.genus g) .genus
  | str (s : String) : Inhabits (.str s) .str
  | cmd (c : GravityCmd) : Inhabits (.cmd c) .cmd
  | plan (p : Plan) : Inhabits (.plan p) .plan
  | field (f : Field) : Inhabits (.field f) .field
  | corpus {fields : List (Sym × Value)} (body : IsCorpus fields) : Inhabits (.record fields) .corpus

theorem inhabitsTyped {rule : Expr → Ty → Prop} {prog : Program} {cells : Cells} {v : Value} {t : Ty} (h : Inhabits v t) :
    ValTyBy rule prog cells v t := by
  cases h with
  | any v i => exact .any v i
  | unit => exact .unit
  | num n => exact .num n
  | bool b => exact .bool b
  | genus g => exact .genus g
  | str s => exact .str s
  | cmd c => exact .cmd c
  | plan p => exact .plan p
  | field f => exact .field f
  | corpus body => exact .record body

def liftFree : Expr → Bool
  | .lift _ => false
  | .lam _ e | .pure _ e | .ret _ e | .clama e | .pone e | .mitte e | .perage e | .resolve _ e | .fix e => liftFree e
  | .app f a => liftFree f && liftFree a
  | .ifE c t e => liftFree c && liftFree t && liftFree e
  | .bind _ m _ k => liftFree m && liftFree k
  | .recipe b _ h => liftFree b && liftFree h
  | .lit _ | .var _ | .arg | .ask _ | .nihil | .lege => true

/- No `leva` in anything a verse can run. -/
structure LevaFree (prog : Program) : Prop where
  bodies : ∀ v ∈ prog.verses, liftFree v.body = true
  overloads : ∀ o ∈ overloads prog, liftFree o.2 = true

def Unlifted (e : Expr) : Prop := Surface e ∧ liftFree e = true

theorem unliftedBare {e : Expr} (h : liftFree e = true) : bare e = true := by
  fun_induction bare e <;> simp_all [liftFree]

theorem unliftedHereditary {prog : Program} (written : Written prog) (levaFree : LevaFree prog) :
    Hereditary (Env.fromFugues prog.fugues) Unlifted where
  operand := by
    rintro e e' sub ⟨surface,free⟩
    cases sub <;> simp only [Surface,liftFree,Bool.and_eq_true] at surface free <;>
      simp_all [Unlifted]
  literal := by
    rintro v ⟨literal,_⟩
    exact literalCarries literal
  overload := by
    rintro name genus g e _ found
    obtain ⟨o,mem,_,rfl⟩ := resolveOverload found
    exact ⟨written.overloads o mem,levaFree.overloads o mem⟩
  pedal := pedalCarries written
  stretto := by
    rintro f ⟨surface,_⟩
    exact surface.elim

/- Nothing a machine without lifts enters opens one. -/
theorem unliftedEnters {env : Env} {m : Continuation} (her : Hereditary env Unlifted) (state : StateCarries Unlifted m) :
    EntersBare env m := by
  have control := state.control
  refine ⟨fun _ f v rest e scope posts at_ top enters => ?_,fun _ name scope g rest e at_ top found => ?_⟩
  · rw [at_] at control
    cases control with
    | value v_ =>
      cases state.stack _ (top ▸ List.mem_cons_self) with
      | appCall f_ =>
        have entered : ControlCarries Unlifted (.eval e scope) := entersCarried enters f_ v_ (fun _ code => code)
        cases entered with
        | eval code => exact unliftedBare code.2
  · cases state.stack _ (top ▸ List.mem_cons_self) with
    | resolveK code => exact unliftedBare (her.overload code found).2

theorem unliftedStep {P : Expr → Prop} {env : Env} {m m' : Continuation} (free : ∀ e, P e → liftFree e = true)
    (state : StateCarries P m) (wf : WellFormed m) (step : Step env m m') (top_ : m.depth = 0) : m'.depth = 0 := by
  cases step with
  | yields | opens | pure | answers | poneK | mitteK => exact top_
  | lift at_ =>
    have control := state.control
    rw [at_] at control
    cases control with
    | eval code => cases free _ code
  | liftK at_ top =>
    have lifted := wf.lifted
    rw [top,top_] at lifted
    cases (liftedPop lifted).1
  | caught at_ top h =>
    have lifted := wf.lifted
    rw [top] at lifted
    exact Nat.le_zero.mp (top_ ▸ (unwoundLifted h lifted).2)

section Verses
variable {prog : Program} {v : Versus} {arg st : Value} {s : Store} {θ : Assignment}

/- What a state of such a run is like: typed, with the cell on top settled, and on the top layer. -/
structure Sung (prog : Program) (θ : Assignment) (m : Continuation) : Prop where
  wf : WellFormed m
  code : StateCarries Unlifted m
  depth : m.depth = 0
  sound : ∃ settled : Nat → Prop, settled 0 ∧ Sound prog (assigned prog θ) settled m

theorem sungReadable {m : Continuation} (wf : WellFormed m) (depth : m.depth = 0) {settled : Nat → Prop} (top : settled 0) :
    Readable prog (assigned prog θ) settled m := by
  rintro i ⟨scope,_,visible⟩
  have among : LayerKind.state ∈ m.mode.tower := by
    rw [← wf.tower]
    exact List.mem_of_getElem? (findKind visible)
  rw [layerAtDepth wf among,depth] at visible
  cases visible
  exact .inl top

theorem sungStep (written : Written prog) {m m' : Continuation} (sung : Sung prog θ m)
    (levaFree : LevaFree prog) (step : Step (Env.fromFugues prog.fugues) m m') : Sung prog θ m' := by
  obtain ⟨settled,top,sound⟩ := sung.sound
  exact ⟨wellFormedStep sung.wf step,carriesStep (unliftedHereditary written levaFree) sung.code step,
    unliftedStep (fun _ code => code.2) sung.code sung.wf step sung.depth,
    ⟨_,.inl top,soundStep (writtenPedals written) (tiesNever _ _ _) sound (sungReadable sung.wf sung.depth top) step⟩⟩

theorem sungInitial (written : Written prog) (levaFree : LevaFree prog) (among : v ∈ prog.verses)
    (checked : Checked prog v s) (solves : Solves θ s) (arg_ : ClosureFree arg) (st_ : ClosureFree st)
    (argTy : Inhabits arg (assigned prog θ).arg) (stTy : Inhabits st (assigned prog θ).state) :
    Sung prog θ (initial v.mode v.body arg st) := by
  obtain ⟨t,body_⟩ := bodyTyped written among checked solves
  refine ⟨wellFormedInitial v.mode v.body arg st,?_,rfl,⟨fun i => i = 0,rfl,?_⟩⟩
  · exact carriesRun (unliftedHereditary written levaFree) ⟨written.bodies v among,levaFree.bodies v among⟩
      (carriesMono (fun _ _ _ none => none.elim) arg_) (carriesMono (fun _ _ _ none => none.elim) st_) (Runs.runZero _)
  · refine ⟨⟨t,.eval .empty body_,.nil t⟩,inhabitsTyped argTy,fun i w cell known => ?_,fun i w cell unknown => ?_⟩
    · rcases initialCell cell with ⟨_,same⟩ | ⟨other,_⟩
      · exact same ▸ inhabitsTyped stTy
      · exact absurd known other
    · exact (initialCell cell).elim (fun here => absurd here.1 unknown) (fun below => below.2)

end Verses

/- Whatever takes the place of a cadence is the verse's own word: a silence, a thrown value, a
genus without an overload, a commit of an empty plan, or the end of the fuel. -/
theorem checkedSound {src : String} {prog : Program} (parsed : Parses src prog) (levaFree : LevaFree prog)
    (accepted : Accepts prog) : ∀ v ∈ prog.verses, (∃ s, Checked prog v s) ∧
      ∀ s θ, Checked prog v s → Solves θ s → ∀ arg st, ClosureFree arg → ClosureFree st →
        Inhabits arg (assigned prog θ).arg → Inhabits st (assigned prog θ).state →
        ∀ budgets, Permitted (sliced (Env.fromFugues prog.fugues) budgets (initial v.mode v.body arg st)) := by
  intro v among
  have written := parsesWritten parsed
  refine ⟨acceptsChecked accepted v among,fun s θ checked solves arg st arg_ st_ argTy stTy budgets => ?_⟩
  rw [slicedSum]
  rcases pausedOrEnded (resume (Env.fromFugues prog.fugues) (initial v.mode v.body arg st) budgets.sum) with
    ⟨c,paused⟩ | ended
  · rw [paused]
    exact .outOfFuel c
  · obtain ⟨k,m,_,hk,last⟩ := Runs.lastTurn (endedRun rfl ended)
    have start := sungInitial written levaFree among checked solves arg_ st_ argTy stTy
    have sung {n : Nat} {t : Continuation}
        (h : run (turn (Env.fromFugues prog.fugues)) n (initial v.mode v.body arg st) = .more t) : Sung prog θ t :=
      runInvariant (Sung prog θ) (fun _ _ good next => sungStep written good levaFree (turnStep next)) start h
    obtain ⟨settled,_,sound⟩ := (sung hk).sound
    rcases stopsTyped (writtenPedals written) (tiesNever _ _ _) sound (sung hk).wf (turnStop last) with good | ⟨op,broken⟩
    · exact good
    · exact absurd broken (legalVerdict written (bodyLegal written among checked) arg_ st_
        (fun j t _ ht => unliftedEnters (unliftedHereditary written levaFree) (sung ht).code) m.mode op)

/- A Lydian verse whose argument and cell are booleans, run from both. -/
theorem checkedSoundNegates : ∃ prog v,
    Parses "versus x in Fa \x7b\n pone (not arg)\n b <- lege\n amen (not b)\n\x7d" prog ∧ v ∈ prog.verses ∧
      ∀ budgets, Permitted (sliced (Env.fromFugues prog.fugues) budgets (initial v.mode v.body (.bool true) (.bool false))) := by
  have test : Parser.reads 60 "versus x in Fa \x7b\n pone (not arg)\n b <- lege\n amen (not b)\n\x7d" (fun prog =>
      (prog.verses.any (fun v => solvedBy 60 prog v .bool)) && prog.verses.all (fun v => liftFree v.body) &&
      (overloads prog).all (fun o => liftFree o.2) && accepts 60 prog) = true := by decide +kernel
  obtain ⟨prog,parsed,good⟩ := Parser.readsParses test
  simp only [Bool.and_eq_true,List.any_eq_true,List.all_eq_true] at good
  obtain ⟨⟨⟨⟨v,among,solved⟩,bodies⟩,answers⟩,accepted⟩ := good
  obtain ⟨s,checked,solves⟩ := solvedByOf solved
  have sound := (checkedSound parsed ⟨bodies,answers⟩ (acceptsOf accepted) v among).2 s _ checked solves
  exact ⟨prog,v,parsed,among,fun budgets => sound (.bool true) (.bool false) (.bool true) (.bool false) (.bool true)
    (.bool false) budgets⟩

end Officium.Check
