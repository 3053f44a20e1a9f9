import Officium.Purity
import Officium.Inference
import Officium.Parser

/-! The two drivers, the kernel's `celebrare` and the host's, as the verses they run and the plans
they hand to the gravity sink. What is printed or sounded on the way is left out: nothing
a verse computes reaches it. -/
namespace Officium

inductive Event where
  | ran (r : Verdict)
  | sunk (plan : Plan)

def Event.plan : Event → Option Plan
  | sunk p => some p
  | ran _ => none

/- What the run behind the event committed. -/
def Event.committed : Event → Option Plan
  | ran (.ok out) => out.committed
  | _ => none

/- `run_full` as a driver sees it; no answer while the verse still runs. -/
abbrev Runner := Versus → Value → Option Verdict

section Wiring
variable (runFull : Runner) (prog : Program)

/- The single impure act. -/
def gravitySink (out : VerseOutcome) : List Event :=
  match out.committed with
  | some plan => [.sunk plan]
  | none => []

def singExecutio (planned : Plan) : List Event :=
  match prog.verse "executio" with
  | none => []
  | some executio =>
    match runFull executio (.plan planned) with
    | none => []
    | some (.ok out) => .ran (.ok out) :: gravitySink out
    | some (.error d) => [.ran (.error d)]

def singConsilium (field : Field) : List Event :=
  match prog.verse "consilium" with
  | none => []
  | some consilium =>
    match runFull consilium (.field field) with
    | none => []
    | some (.ok out) => .ran (.ok out) :: singExecutio runFull prog out.plan
    | some (.error d) => [.ran (.error d)]

/- correctio(body), consilium(field), executio(plan). -/
def celebrateBody (body : Value) : List Event :=
  match prog.verse "correctio" with
  | none => []
  | some correctio =>
    match runFull correctio body with
    | none => []
    | some (.ok out) =>
      match out.value with
      | some (.field f) => .ran (.ok out) :: singConsilium runFull prog f
      | _ => [.ran (.ok out)]
    | some (.error d) => [.ran (.error d)]

end Wiring

/- The procession of bodies. -/
def bodies : List Value := [Builtins.makeCorpus 1 "asteroides" 1e20 1e5,Builtins.makeCorpus 2 "cometes" 5e19 2e5,
  Builtins.makeCorpus 3 "asteroides" 1.0 1e9]

namespace Kernel

def runner (env : Env) : Runner := fun v arg => some (runFull env v arg)

def celebrateBody (env : Env) (prog : Program) (body : Value) : List Event :=
  Officium.celebrateBody (runner env) prog body

/- `celebrare` from the point where the score is accepted. -/
def celebrare (prog : Program) : List Event :=
  let env := Env.fromFugues prog.fugues
  match prog.verse "correctio" with
  | some _ => bodies.flatMap (celebrateBody env prog)
  | none =>
    match prog.verses.head? with
    | some v => [.ran (runFull env v (.num 0.0))]
    | none => []

end Kernel

namespace Host

/- The host's `run_full` never gives a verse up; it is looked at after `n` slices. -/
def runFullLoop (env : Env) (fuelSlice : Nat) : Nat → Verdict → Option Verdict
  | 0, _ => none
  | n+1, .error (.dissonance (.outOfFuel cont)) => runFullLoop env fuelSlice n (resume env cont fuelSlice)
  | _+1, other => some other

def runFull (env : Env) (n : Nat) (v : Versus) (arg : Value) (fuelSlice : Nat) : Option Verdict :=
  runFullLoop env fuelSlice n (runVerse env v.mode v.body arg emptyState fuelSlice)

def runner (env : Env) (n fuelSlice : Nat) : Runner := fun v arg => runFull env n v arg fuelSlice

def celebrateBody (env : Env) (prog : Program) (body : Value) (fuel n : Nat) : List Event :=
  Officium.celebrateBody (runner env n fuel) prog body

end Host

/- Every plan committed is sunk, once and in its turn, and nothing else is. -/
def Routed (events : List Event) : Prop := events.filterMap Event.plan = events.filterMap Event.committed

def Uncommitted (r : Option Verdict) : Prop := ∀ out, r = some (.ok out) → out.committed = none

/- The verses sung before executio commit nothing. -/
structure Reserved (runFull : Runner) (prog : Program) (body : Value) : Prop where
  correctio : ∀ v, prog.verse "correctio" = some v → Uncommitted (runFull v body)
  consilium : ∀ v out f w, prog.verse "correctio" = some v → runFull v body = some (.ok out) →
    out.value = some (.field f) → prog.verse "consilium" = some w → Uncommitted (runFull w (.field f))

/- And so the only verse of a score without the wiring. -/
def Kernel.Reserved (prog : Program) : Prop :=
  match prog.verse "correctio" with
  | some _ => ∀ body ∈ bodies, Officium.Reserved (Kernel.runner (Env.fromFugues prog.fugues)) prog body
  | none => ∀ v, prog.verses.head? = some v → Uncommitted (Kernel.runner (Env.fromFugues prog.fugues) v (.num 0.0))

section Routing
variable {runFull : Runner} {prog : Program}

/- Never more sunk than committed. -/
def Thrifty (events : List Event) : Prop :=
  (events.filterMap Event.plan).length ≤ (events.filterMap Event.committed).length

theorem routedThrifty {events : List Event} (h : Routed events) : Thrifty events := Nat.le_of_eq (congrArg List.length h)

theorem routedNil : Routed [] := rfl

theorem thriftyNil : Thrifty [] := Nat.le_refl 0

theorem planRan (r : Verdict) : (Event.ran r).plan = none := rfl

theorem committedRan (out : VerseOutcome) : (Event.ran (.ok out)).committed = out.committed := rfl

theorem routedError (d : Raise) : Routed [.ran (.error d)] := rfl

theorem uncommittedOk {out : VerseOutcome} : Uncommitted (some (.ok out)) ↔ out.committed = none := by
  constructor
  · exact fun h => h out rfl
  · intro h o same
    cases same
    exact h

theorem uncommittedError (d : Raise) : Uncommitted (some (.error d)) := fun _ same => by cases same

theorem routedAlone (r : Verdict) : Routed [.ran r] ↔ Uncommitted (some r) := by
  cases r with
  | error d => exact ⟨fun _ => uncommittedError d,fun _ => routedError d⟩
  | ok out =>
    rw [uncommittedOk]
    unfold Routed
    rw [List.filterMap_cons_none (planRan _),List.filterMap_cons,committedRan]
    cases out.committed <;> simp

/- A run whose commit nobody takes up leaves the account short, whatever follows. -/
theorem routedThen {out : VerseOutcome} {rest : List Event} (thrifty : Thrifty rest) :
    Routed (.ran (.ok out) :: rest) ↔ out.committed = none ∧ Routed rest := by
  unfold Routed
  rw [List.filterMap_cons_none (planRan _),List.filterMap_cons,committedRan]
  cases found : out.committed with
  | none => simp
  | some p =>
    refine ⟨fun routed => ?_,fun both => by cases both.1⟩
    have len := congrArg List.length routed
    unfold Thrifty at thrifty
    simp only [List.length_cons] at len
    omega

theorem thriftyThen {out : VerseOutcome} {rest : List Event} (thrifty : Thrifty rest) :
    Thrifty (.ran (.ok out) :: rest) := by
  unfold Thrifty at thrifty ⊢
  rw [List.filterMap_cons_none (planRan _),List.filterMap_cons,committedRan]
  cases out.committed with
  | none => exact thrifty
  | some p => exact Nat.le_succ_of_le thrifty

variable (runFull prog) in
theorem executioRouted (planned : Plan) : Routed (singExecutio runFull prog planned) := by
  unfold singExecutio
  split
  · exact routedNil
  · split
    · exact routedNil
    · rename_i out _
      unfold Routed gravitySink
      rw [List.filterMap_cons_none (planRan _),List.filterMap_cons,committedRan]
      cases out.committed <;> rfl
    · exact routedError _

variable (runFull prog) in
theorem consiliumRouted (f : Field) : Thrifty (singConsilium runFull prog f) ∧ (Routed (singConsilium runFull prog f) ↔
    ∀ w, prog.verse "consilium" = some w → Uncommitted (runFull w (.field f))) := by
  unfold singConsilium
  split
  · rename_i missing
    exact ⟨Nat.le_refl 0,fun _ w found => (by rw [missing] at found; cases found),fun _ => routedNil⟩
  · rename_i w found
    have only {p : Prop} {r : Option Verdict} (h : p ↔ Uncommitted r) (same : runFull w (.field f) = r) :
        p ↔ ∀ w, prog.verse "consilium" = some w → Uncommitted (runFull w (.field f)) := by
      rw [h,← same]
      constructor
      · intro one w' found'
        cases found.symm.trans found'
        exact one
      · exact fun all => all w found
    split
    · rename_i running
      exact ⟨Nat.le_refl 0,only ⟨fun _ _ same => (by cases same),fun _ => routedNil⟩ running⟩
    · rename_i out done
      have later := executioRouted runFull prog out.plan
      refine ⟨thriftyThen (routedThrifty later),only ?_ done⟩
      rw [routedThen (routedThrifty later),uncommittedOk]
      exact ⟨And.left,fun h => ⟨h,later⟩⟩
    · rename_i d failed
      exact ⟨Nat.le_refl 0,only ⟨fun _ => uncommittedError d,fun _ => routedError d⟩ failed⟩

variable (runFull prog) in
theorem bodyRouted (body : Value) : Thrifty (celebrateBody runFull prog body) ∧
    (Routed (celebrateBody runFull prog body) ↔ Reserved runFull prog body) := by
  unfold celebrateBody
  split
  · rename_i missing
    refine ⟨Nat.le_refl 0,fun _ => ⟨fun v found => ?_,fun v _ _ _ found => ?_⟩,fun _ => routedNil⟩
    all_goals rw [missing] at found; cases found
  · rename_i v found
    have only {w : Versus} (other : prog.verse "correctio" = some w) : w = v := Option.some.inj (other.symm.trans found)
    split
    · rename_i running
      refine ⟨Nat.le_refl 0,fun _ => ⟨fun w other => ?_,fun w out _ _ other done => ?_⟩,fun _ => routedNil⟩
      · rw [only other,running]
        exact fun _ same => by cases same
      · rw [only other,running] at done
        cases done
    · rename_i out done
      split
      · rename_i f value
        obtain ⟨thrifty,routed⟩ := consiliumRouted runFull prog f
        refine ⟨thriftyThen thrifty,?_⟩
        rw [routedThen thrifty,routed]
        constructor
        · rintro ⟨quiet,later⟩
          refine ⟨fun w other => ?_,fun w o g u other ran has named => ?_⟩
          · rw [only other,done,uncommittedOk]
            exact quiet
          · rw [only other,done] at ran
            cases ran
            rw [value] at has
            cases has
            exact later u named
        · intro reserved
          have quiet := reserved.correctio v found
          rw [done,uncommittedOk] at quiet
          exact ⟨quiet,fun u named => reserved.consilium v out f u found done value named⟩
      · rename_i plain
        refine ⟨thriftyThen thriftyNil,?_⟩
        rw [routedThen thriftyNil]
        constructor
        · rintro ⟨quiet,_⟩
          refine ⟨fun w other => ?_,fun w o g u other ran has _ => ?_⟩
          · rw [only other,done,uncommittedOk]
            exact quiet
          · rw [only other,done] at ran
            cases ran
            exact absurd has (plain g)
        · intro reserved
          have quiet := reserved.correctio v found
          rw [done,uncommittedOk] at quiet
          exact ⟨quiet,routedNil⟩
    · rename_i d failed
      refine ⟨Nat.le_refl 0,fun _ => ⟨fun w other => ?_,fun w out _ _ other done => ?_⟩,fun _ => routedError d⟩
      · rw [only other,failed]
        exact uncommittedError d
      · rw [only other,failed] at done
        cases done

/- One celebration after another. -/
theorem routedAppend {xs ys : List Event} (hx : Thrifty xs) (hy : Thrifty ys) :
    Routed (xs ++ ys) ↔ Routed xs ∧ Routed ys := by
  unfold Routed Thrifty at *
  rw [List.filterMap_append,List.filterMap_append]
  constructor
  · intro same
    have len := congrArg List.length same
    rw [List.length_append,List.length_append] at len
    exact List.append_inj same (by omega)
  · rintro ⟨left,right⟩
    rw [left,right]

theorem thriftyAppend {xs ys : List Event} (hx : Thrifty xs) (hy : Thrifty ys) : Thrifty (xs ++ ys) := by
  unfold Thrifty at *
  rw [List.filterMap_append,List.filterMap_append,List.length_append,List.length_append]
  exact Nat.add_le_add hx hy

theorem processionRouted (procession : List Value) : Thrifty (procession.flatMap (celebrateBody runFull prog)) ∧
    (Routed (procession.flatMap (celebrateBody runFull prog)) ↔ ∀ body ∈ procession, Reserved runFull prog body) := by
  induction procession with
  | nil => exact ⟨thriftyNil,fun _ body mem => (by cases mem),fun _ => routedNil⟩
  | cons body rest ih =>
    obtain ⟨thrifty,routed⟩ := bodyRouted runFull prog body
    rw [List.flatMap_cons]
    refine ⟨thriftyAppend thrifty ih.1,?_⟩
    rw [routedAppend thrifty ih.1,routed,ih.2,List.forall_mem_cons]

end Routing

/- Only a Mixolydian verse can commit. -/
theorem plainUncommitted {env : Env} {v : Versus} {arg : Value} (plain : v.mode ≠ .mixolydian) :
    Uncommitted (Kernel.runner env v arg) := by
  intro out same
  have ran := Option.some.inj same
  rw [Kernel.runFullUnsliced] at ran
  cases found : out.committed with
  | none => rfl
  | some p =>
    have one : sliced env [Kernel.fuelSlice * Kernel.maxSlices] (initial v.mode v.body arg emptyState) = .ok out := by
      rw [slicedSum,List.sum_singleton]
      exact ran
    exact absurd (committedPerage one found).1 plain

theorem kernelReserved {prog : Program}
    (plain : ∀ v, prog.verse "correctio" = some v ∨ prog.verse "consilium" = some v ∨ prog.verses.head? = some v →
      v.mode ≠ .mixolydian) : Kernel.Reserved prog := by
  unfold Kernel.Reserved
  split
  · exact fun body _ => ⟨fun v found => plainUncommitted (plain v (.inl found)),
      fun v out f w _ _ _ found => plainUncommitted (plain w (.inr (.inl found)))⟩
  · exact fun v first => plainUncommitted (plain v (.inr (.inr first)))

/- The drivers route every commit exactly when no verse before executio commits. -/
theorem commitsRouted (prog : Program) :
    (Routed (Kernel.celebrare prog) ↔ Kernel.Reserved prog) ∧
    ∀ body fuel n, Routed (Host.celebrateBody (Env.fromFugues prog.fugues) prog body fuel n) ↔
      Reserved (Host.runner (Env.fromFugues prog.fugues) n fuel) prog body := by
  refine ⟨?_,fun body fuel n => (bodyRouted _ prog body).2⟩
  unfold Kernel.celebrare Kernel.Reserved
  dsimp only
  split
  · exact (processionRouted bodies).2
  · split
    · rename_i v first
      rw [routedAlone,first]
      exact ⟨fun quiet w same => Option.some.inj same ▸ quiet,fun all => all v rfl⟩
    · rename_i none_
      exact ⟨fun _ v found => (by rw [none_] at found; cases found),fun _ => routedNil⟩

def commits : Verdict → Bool
  | .ok out => out.committed.isSome
  | _ => false

/- A Mixolydian verse without the wiring: its commit is dropped. -/
theorem commitsRoutedBroken : ∃ prog, Parser.Parses "versus x in Sol \x7b\n perage (plan_of (deflect arg))\n\x7d" prog ∧
    Check.Accepts prog ∧ ∃ out p, Kernel.celebrare prog = [.ran (.ok out)] ∧ out.committed = some p ∧
      ¬ Routed (Kernel.celebrare prog) := by
  have test : Parser.reads 60 "versus x in Sol \x7b\n perage (plan_of (deflect arg))\n\x7d" (fun prog =>
      Check.accepts 60 prog && (prog.verse "correctio").isNone && prog.verses.head?.any (fun v =>
        commits (runVerse (Env.fromFugues prog.fugues) v.mode v.body (.num 0.0) emptyState 40))) = true := by
    decide +kernel
  obtain ⟨prog,parsed,good⟩ := Parser.readsParses test
  simp only [Bool.and_eq_true,Option.isNone_iff_eq_none,Option.any_eq_true] at good
  obtain ⟨⟨accepted,unwired⟩,v,first,commits_⟩ := good
  cases ran : runVerse (Env.fromFugues prog.fugues) v.mode v.body (.num 0.0) emptyState 40 with
  | error d => rw [ran] at commits_; cases commits_
  | ok out =>
    rw [ran] at commits_
    obtain ⟨p,found⟩ := Option.isSome_iff_exists.mp commits_
    have full : Kernel.runFull (Env.fromFugues prog.fugues) v (.num 0.0) = .ok out := by
      rw [Kernel.runFullUnsliced]
      exact resumeStable ran (fun c paused => by cases paused) (by decide)
    have trace : Kernel.celebrare prog = [.ran (.ok out)] := by
      unfold Kernel.celebrare
      simp only [unwired,first,full]
    refine ⟨prog,parsed,Check.acceptsOf accepted,out,p,trace,found,fun routed => ?_⟩
    rw [trace,routedAlone,uncommittedOk,found] at routed
    cases routed

section Finishing
variable {env : Env}

/- Under some budget the verse comes to an end, and this is it. -/
def Finishes (env : Env) (v : Versus) (arg : Value) (r : Verdict) : Prop :=
  (∃ fuel, runVerse env v.mode v.body arg emptyState fuel = r) ∧ ∀ c, r ≠ failure (.outOfFuel c)

theorem hostPaused (cont : Continuation) (fuelSlice n : Nat) :
    Host.runFullLoop env fuelSlice (n+1) (failure (.outOfFuel cont)) = Host.runFullLoop env fuelSlice n (resume env cont fuelSlice) := by
  unfold failure
  rw [Host.runFullLoop]

theorem hostEnded {r : Verdict} (ended : ∀ c, r ≠ failure (.outOfFuel c)) (fuelSlice n : Nat) :
    Host.runFullLoop env fuelSlice (n+1) r = some r := by
  rw [Host.runFullLoop]
  exact ended

/- After `i+1` slices the host goes on to the end of the run, if `k` more slices reach it. -/
theorem hostLoopRun {start : Continuation} {fuelSlice : Nat} {r : Verdict} (ended : ∀ c, r ≠ failure (.outOfFuel c)) (i k n : Nat)
    (reached : resume env start (fuelSlice * (i+1+k)) = r) (enough : k < n) :
    Host.runFullLoop env fuelSlice n (resume env start (fuelSlice * (i+1))) = some r := by
  induction k generalizing i n with
  | zero =>
    obtain ⟨n,rfl⟩ := Nat.exists_eq_add_of_le' enough
    rw [Nat.add_zero] at reached
    rw [reached]
    exact hostEnded ended fuelSlice n
  | succ k ih =>
    obtain ⟨n,rfl⟩ := Nat.exists_eq_add_of_le' (Nat.succ_le_of_lt (Nat.zero_lt_of_lt enough))
    rcases pausedOrEnded (resume env start (fuelSlice * (i+1))) with ⟨cont,paused⟩ | over_
    · have next := ih (i+1) n (by rw [← reached]; congr 2; omega) (by omega)
      rw [Nat.mul_succ fuelSlice (i+1),resumePaused paused] at next
      rw [paused,hostPaused]
      exact next
    · have same := resumeStable rfl over_ (Nat.mul_le_mul_left fuelSlice (Nat.le_add_right (i+1) (k+1)))
      rw [reached] at same
      rw [← same]
      exact hostEnded ended fuelSlice n

/- A slice of no steps leaves the run where it was. -/
theorem hostSilent (cont : Continuation) (n : Nat) : Host.runFullLoop env 0 n (failure (.outOfFuel cont)) = none := by
  induction n with
  | zero => rfl
  | succ n ih =>
    rw [hostPaused]
    exact ih

theorem literalFinishes : Finishes .default ⟨"v",.dorian,.lit (.bool true),[]⟩ .unit (.ok ⟨some (.bool true),.unit,[],none⟩) :=
  ⟨⟨2,rfl⟩,fun c same => by cases same⟩

/- The host driver returns whatever a verse ends with exactly when a slice is a step at least. -/
theorem hostReturns (fuelSlice : Nat) :
    (∀ env v arg r, Finishes env v arg r → ∃ n, ∀ m, n ≤ m → Host.runFull env m v arg fuelSlice = some r) ↔ fuelSlice ≠ 0 := by
  constructor
  · rintro returns rfl
    obtain ⟨n,settled⟩ := returns _ _ _ _ literalFinishes
    have silent : Host.runFull .default n ⟨"v",.dorian,.lit (.bool true),[]⟩ .unit 0 = none := hostSilent _ n
    rw [settled n (Nat.le_refl n)] at silent
    cases silent
  · rintro some_ env v arg r ⟨⟨fuel,ran⟩,ended⟩
    refine ⟨fuel+1,fun m le => ?_⟩
    have enough : fuel ≤ fuelSlice * (0+1+fuel) :=
      Nat.le_trans (Nat.le_add_left fuel (0+1)) (Nat.le_mul_of_pos_left _ (Nat.pos_of_ne_zero some_))
    have reached := resumeStable ran ended enough
    have looped := hostLoopRun ended 0 fuel m reached le
    rw [Nat.zero_add,Nat.mul_one] at looped
    exact looped

/- With `--fuel 0` the host resumes for ever a verse that two steps bring to its end. -/
theorem hostStuck : Finishes .default ⟨"v",.dorian,.lit (.bool true),[]⟩ .unit (.ok ⟨some (.bool true),.unit,[],none⟩) ∧
    ∀ n, Host.runFull .default n ⟨"v",.dorian,.lit (.bool true),[]⟩ .unit 0 = none :=
  ⟨⟨⟨2,rfl⟩,fun c same => by cases same⟩,fun n => hostSilent _ n⟩

end Finishing

end Officium
