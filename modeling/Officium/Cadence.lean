import Mathlib.Logic.Relation
import Officium.Codes
import Officium.Written

/-! Every parsed verse cadences. Its spine ends in a cadence on every path, so the bottom frame of
a run is always one that leads to a cadence: a value never meets an empty stack, and the run is
over at the first `returnK` or `perageK` that takes one. -/
namespace Officium
open Runs (Turn run runInvariant)
open Relation (ReflTransGen)

/- Down the spine every path ends in a cadence. -/
def Cadences : Expr → Prop
  | .ret _ _ | .nihil | .clama _ | .perage _ => True
  | .bind _ _ _ k => Cadences k
  | .ifE _ t e => Cadences t ∧ Cadences e
  | _ => False

/- Every bind and every return in the expression carries the mode. -/
def Tagged (mode : Mode) (e : Expr) : Prop := ∀ e', ReflTransGen Operand e' e →
  (∀ tag m x k, e' = .bind tag m x k → tag = mode) ∧ ∀ tag a, e' = .ret tag a → tag = mode

section Shape
variable {mode : Mode} {e : Expr}

theorem taggedOf (parts : ∀ e', Operand e' e → Tagged mode e') (bound : ∀ tag m x k, e = .bind tag m x k → tag = mode)
    (ended : ∀ tag a, e = .ret tag a → tag = mode) : Tagged mode e := by
  intro e' path
  rcases ReflTransGen.cases_tail path with same | ⟨c,below,part⟩
  · subst same
    exact ⟨bound,ended⟩
  · exact parts c part e' below

/- An expression that is no statement of its own is tagged as its operands are. -/
theorem taggedPlain (parts : ∀ e', Operand e' e → Tagged mode e') (bound : ∀ tag m x k, e ≠ .bind tag m x k)
    (ended : ∀ tag a, e ≠ .ret tag a) : Tagged mode e :=
  taggedOf parts (fun tag m x k same => absurd same (bound tag m x k)) (fun tag a same => absurd same (ended tag a))

theorem taggedBuilt (mode : Mode) : Parser.Built (Tagged mode) where
  num := fun _ => taggedPlain (fun _ part => by cases part) (fun _ _ _ _ => nofun) (fun _ _ => nofun)
  str := fun _ => taggedPlain (fun _ part => by cases part) (fun _ _ _ _ => nofun) (fun _ _ => nofun)
  bool := fun _ => taggedPlain (fun _ part => by cases part) (fun _ _ _ _ => nofun) (fun _ _ => nofun)
  var := fun _ => taggedPlain (fun _ part => by cases part) (fun _ _ _ _ => nofun) (fun _ _ => nofun)
  arg := taggedPlain (fun _ part => by cases part) (fun _ _ _ _ => nofun) (fun _ _ => nofun)
  lege := taggedPlain (fun _ part => by cases part) (fun _ _ _ _ => nofun) (fun _ _ => nofun)
  ask := fun _ => taggedPlain (fun _ part => by cases part) (fun _ _ _ _ => nofun) (fun _ _ => nofun)
  lam := fun h => taggedPlain (fun _ part => by cases part; exact h) (fun _ _ _ _ => nofun) (fun _ _ => nofun)
  app := fun hf ha => taggedPlain (fun _ part => by cases part <;> assumption) (fun _ _ _ _ => nofun) (fun _ _ => nofun)
  resolve := fun h => taggedPlain (fun _ part => by cases part; exact h) (fun _ _ _ _ => nofun) (fun _ _ => nofun)
  pure := fun h => taggedPlain (fun _ part => by cases part; exact h) (fun _ _ _ _ => nofun) (fun _ _ => nofun)
  lift := fun h => taggedPlain (fun _ part => by cases part; exact h) (fun _ _ _ _ => nofun) (fun _ _ => nofun)
  pone := fun h => taggedPlain (fun _ part => by cases part; exact h) (fun _ _ _ _ => nofun) (fun _ _ => nofun)

/- What the parser makes of a block. -/
structure Sings (mode : Mode) (e : Expr) : Prop where
  tagged : Tagged mode e
  cadences : Cadences e

theorem taggedBind {m k : Expr} {name : Sym} (m_ : Tagged mode m) (k_ : Tagged mode k) :
    Tagged mode (.bind mode m name k) :=
  taggedOf (fun _ part => by cases part <;> assumption) (fun _ _ _ _ same => by cases same; rfl) (fun _ _ => nofun)

theorem singsSpun (mode : Mode) : Parser.Spun (Tagged mode) (Sings mode) mode where
  ret := fun h => ⟨taggedOf (fun _ part => by cases part; exact h) (fun _ _ _ _ => nofun)
    (fun _ _ same => by cases same; rfl),trivial⟩
  nihil := ⟨taggedPlain (fun _ part => by cases part) (fun _ _ _ _ => nofun) (fun _ _ => nofun),trivial⟩
  clama := fun h => ⟨taggedPlain (fun _ part => by cases part; exact h) (fun _ _ _ _ => nofun) (fun _ _ => nofun),trivial⟩
  perage := fun h => ⟨taggedPlain (fun _ part => by cases part; exact h) (fun _ _ _ _ => nofun) (fun _ _ => nofun),trivial⟩
  ifE := by
    intro c t e c_ t_ e_
    refine ⟨taggedPlain (fun _ part => ?_) (fun _ _ _ _ => nofun) (fun _ _ => nofun),t_.cadences,e_.cadences⟩
    cases part with
    | ifC => exact c_
    | ifT => exact t_.tagged
    | ifE => exact e_.tagged
  pone := fun h k_ => ⟨taggedBind ((taggedBuilt mode).pone h) k_.tagged,k_.cadences⟩
  mitte := fun h k_ => ⟨taggedBind (taggedPlain (fun _ part => by cases part; exact h) (fun _ _ _ _ => nofun)
    (fun _ _ => nofun)) k_.tagged,k_.cadences⟩
  bound := fun h k_ => ⟨taggedBind h k_.tagged,k_.cadences⟩

end Shape

/- A frame whose answer leads to a cadence, or is one. -/
inductive Bottom : Frame → Prop where
  | returnK : Bottom .returnK
  | perageK : Bottom .perageK
  | clamaK (channel : Nat) : Bottom (.clamaK channel)
  | bindK (name : Sym) {k} (scope : Scope) (k_ : Cadences k) : Bottom (.bindK name k scope)
  | ifK {t e} (scope : Scope) (t_ : Cadences t) (e_ : Cadences e) : Bottom (.ifK t e scope)

/- The verse is still to cadence: at its spine, or somewhere above the frame that leads there. -/
inductive Onward : Control → List Frame → Prop where
  | spine {e} (scope : Scope) (e_ : Cadences e) : Onward (.eval e scope) []
  | above (c : Control) {stack : List Frame} {f : Frame} (last : stack.getLast? = some f) (f_ : Bottom f) : Onward c stack

/- A value has met the frame that ends the verse. -/
def AtCadence (m : Continuation) : Prop :=
  ∃ v rest, m.control = .value v ∧ (m.stack = .returnK :: rest ∨ m.stack = .perageK :: rest)

section Running
variable {env : Env} {m m' : Continuation}

theorem getLastCons {f g : Frame} {rest : List Frame} (h : rest.getLast? = some g) : (f :: rest).getLast? = some g := by
  rw [List.getLast?_cons,h]
  rfl

theorem opensSpine {scope : Scope} {e e' : Expr} {frame : Frame} (e_ : Cadences e) (h : Opens m scope e e' frame) :
    Bottom frame := by
  cases h with
  | ret => exact .returnK
  | bind => exact .bindK _ _ e_
  | ifE => exact .ifK _ e_.1 e_.2
  | clama => exact .clamaK _
  | perage => exact .perageK
  | app | fix | resolve | recipe | pone | mitte => exact e_.elim

theorem answersSpine {f : Frame} {v : Value} {c : Control} {pushed : List Frame} (f_ : Bottom f)
    (h : Answers env f v c pushed) : Onward c pushed := by
  cases h with
  | bindK => cases f_ with
    | bindK _ _ k_ => exact .spine _ k_
  | ifTrue => cases f_ with
    | ifK _ t_ _ => exact .spine _ t_
  | ifFalse => cases f_ with
    | ifK _ _ e_ => exact .spine _ e_
  | appArg | appCall | fixK | recipeH | resolveK | builtinPost => cases f_

/- Below the top frame the bottom is the same; a bottom frame on top is answered on the spine. -/
theorem onwardPop {v : Value} {frame : Frame} {rest : List Frame} (h : Onward (.value v) (frame :: rest)) :
    Bottom frame ∧ rest = [] ∨ ∃ f, rest.getLast? = some f ∧ Bottom f := by
  cases h with
  | above _ last f_ =>
    cases rest with
    | nil => cases last; exact .inl ⟨f_,rfl⟩
    | cons g rest => exact .inr ⟨_,by rw [← last,List.getLast?_cons_cons],f_⟩

theorem onwardStep (h : Onward m.control m.stack) (step : Step env m m') : Onward m'.control m'.stack := by
  have popped {v frame rest} (at_ : m.control = .value v) (top : m.stack = frame :: rest) :
      Bottom frame ∧ rest = [] ∨ ∃ f, rest.getLast? = some f ∧ Bottom f := by
    rw [at_,top] at h
    exact onwardPop h
  cases step with
  | yields at_ given =>
    rw [at_] at h
    generalize m.stack = stack at h ⊢
    cases h with
    | spine _ e_ => cases given <;> exact e_.elim
    | above _ last f_ => exact .above _ last f_
  | opens at_ opened =>
    rw [at_] at h
    generalize m.stack = stack at h ⊢
    cases h with
    | spine _ e_ => exact .above _ rfl (opensSpine e_ opened)
    | above _ last f_ => exact .above _ (getLastCons last) f_
  | pure at_ =>
    rw [at_] at h
    generalize m.stack = stack at h ⊢
    cases h with
    | spine _ e_ => exact e_.elim
    | above _ last f_ => exact .above _ last f_
  | lift at_ room =>
    rw [at_] at h
    generalize m.stack = stack at h ⊢
    cases h with
    | spine _ e_ => exact e_.elim
    | above _ last f_ => exact .above _ (getLastCons last) f_
  | @answers v frame rest c pushed at_ top answered =>
    rcases popped at_ top with ⟨bottom,rfl⟩ | ⟨f,last,f_⟩
    · rw [List.append_nil]
      exact answersSpine bottom answered
    · exact .above _ (by rw [List.getLast?_append,last]; rfl) f_
  | poneK at_ top inside =>
    rcases popped at_ top with ⟨bottom,_⟩ | ⟨f,last,f_⟩
    · cases bottom
    · exact .above _ last f_
  | mitteK at_ top plan issued =>
    rcases popped at_ top with ⟨bottom,_⟩ | ⟨f,last,f_⟩
    · cases bottom
    · exact .above _ last f_
  | liftK at_ top =>
    rcases popped at_ top with ⟨bottom,_⟩ | ⟨f,last,f_⟩
    · cases bottom
    · exact .above _ last f_
  | @caught v channel rest c rest' d at_ top unwound =>
    obtain ⟨name,handler,scope,rfl,pre,same⟩ := unwoundHandler unwound
    rcases popped at_ top with ⟨_,none_⟩ | ⟨f,last,f_⟩
    · rw [none_] at same
      exact absurd same (by simp)
    · rw [← same,List.getLast?_append,List.getLast?_cons] at last
      cases tail : rest'.getLast? with
      | none =>
        rw [tail] at last
        cases last
        cases f_
      | some g =>
        rw [tail] at last
        cases last
        exact .above _ tail f_

theorem onwardRun {mode : Mode} {body : Expr} {arg st : Value} (cadences : Cadences body) {n : Nat}
    (h : run (turn env) n (initial mode body arg st) = .more m) : Onward m.control m.stack :=
  runInvariant (fun m => Onward m.control m.stack) (fun _ _ good next => onwardStep good (turnStep next))
    (.spine _ cadences) h

theorem onwardNotDry {v : Value} (h : Onward m.control m.stack) (at_ : m.control = .value v) : m.stack ≠ [] := by
  intro dry
  rw [at_,dry] at h
  cases h with
  | above _ last _ => cases last

/- Nothing goes on past the cadence. -/
theorem cadenceEnds (h : AtCadence m) : ∃ r, turn env m = .done r := by
  cases next : turn env m with
  | done r => exact ⟨r,rfl⟩
  | more m' =>
    obtain ⟨v,rest,at_,top⟩ := h
    have step := turnStep next
    cases step with
    | yields at' | opens at' | pure at' | lift at' => rw [at_] at at'; cases at'
    | answers _ top' answered => rcases top with top | top <;> rw [top] at top' <;> cases top' <;> cases answered
    | poneK _ top' | mitteK _ top' | liftK _ top' | caught _ top' => rcases top with top | top <;> rw [top] at top' <;> cases top'

theorem stopsAtCadence {o : VerseOutcome} (h : Onward m.control m.stack) (stop : Stops env m (.ok o)) : AtCadence m := by
  cases stop with
  | dry at_ top => exact absurd top (onwardNotDry h at_)
  | cadence at_ top => exact ⟨_,_,at_,.inl top⟩
  | commit at_ top _ => exact ⟨_,_,at_,.inr top⟩

end Running

/- For every verse the parser returns, and every environment to run it in. -/
theorem versesCadence {src : String} {prog : Program} (parsed : Parser.Parses src prog) {v : Versus} (among : v ∈ prog.verses) :
    Tagged v.mode v.body ∧ Cadences v.body ∧ ∀ env arg st,
      (∀ fuel o, runVerse env v.mode v.body arg st fuel = .ok o → ∃ j m, j < fuel ∧
        run (turn env) j (initial v.mode v.body arg st) = .more m ∧ AtCadence m ∧ turn env m = .done (.ok o)) ∧
      ∀ j m, run (turn env) j (initial v.mode v.body arg st) = .more m →
        (∀ w, m.control = .value w → m.stack ≠ []) ∧ (AtCadence m → ∃ r, turn env m = .done r) := by
  obtain ⟨n,s,s',body⟩ := (Parser.parsesSoFar parsed).verses v among
  have sings := Parser.stmtsSpun (taggedBuilt v.mode) (singsSpun v.mode) n s v.body s' body
  refine ⟨sings.tagged,sings.cadences,fun env arg st => ⟨fun fuel o ran => ?_,fun j m reached => ?_⟩⟩
  · obtain ⟨j,m,before,reached,last⟩ := Runs.lastTurn (endedRun ran (fun c paused => by cases paused))
    exact ⟨j,m,before,reached,stopsAtCadence (onwardRun sings.cadences reached) (turnStop last),last⟩
  · exact ⟨fun w at_ => onwardNotDry (onwardRun sings.cadences reached) at_,cadenceEnds⟩

/- A verse of one bind and a return. -/
theorem versesCadenceReturn : ∃ prog v, Parser.Parses "versus x in Re \x7b\n a <- pure arg\n amen a\n\x7d" prog ∧
    v ∈ prog.verses ∧ Tagged v.mode v.body ∧ Cadences v.body := by
  have test : Parser.reads 60 "versus x in Re \x7b\n a <- pure arg\n amen a\n\x7d" (fun prog => prog.verses.any (fun _ => true)) =
      true := by
    decide +kernel
  obtain ⟨prog,parsed,good⟩ := Parser.readsParses test
  obtain ⟨v,among,_⟩ := List.any_eq_true.mp good
  have all := versesCadence parsed among
  exact ⟨prog,v,parsed,among,all.1,all.2.1⟩

end Officium
