import Mathlib.Algebra.Ring.Nat
import Officium.Turns

/-! A run bounded by fuel is the bounded run of `turn`, so the fuel may be cut into slices at
any step. The kernel's `run_full` is one unsliced run with the sum of its slices. -/
namespace Officium
open Runs (Turn run)

theorem stopsNotPaused {env : Env} {m c : Continuation} (h : Stops env m (failure (.outOfFuel c))) : False := by
  cases h with
  | fails at_ h => cases h with
    | ask unbound => have same := askError unbound; cases same
  | refuses at_ top h => cases h with
    | appCall h => exact rejectsPaused h rfl
    | fixK h => exact rejectsPaused h rfl
    | resolveK unresolved => have same := resolveError unresolved; cases same
    | builtinPost h => have plain := Builtins.plainApplyPost _ _ _ h; cases plain
where
  rejectsPaused {f v : Value} {r : Raise} {c : Continuation} (h : Rejects f v r)
      (same : r = .dissonance (.outOfFuel c)) : False := by
    induction h with
    | other => cases same
    | call full called => subst same; have plain := Builtins.plainCall (by simpa using full) _ called; cases plain
    | inner full called inner ih => exact ih same

/- `resume` is the bounded run of `turn`, its pause reported as `OutOfFuel`. -/
theorem resumeRun (env : Env) (m : Continuation) (n : Nat) : resume env m n =
    match run (turn env) n m with
    | .more m => failure (.outOfFuel m)
    | .done r => r := by
  induction n generalizing m with
  | zero => rfl
  | succ n ih =>
    cases h : turn env m with
    | more m' => rw [Runs.runMore h,← ih m']; simp only [resume,h]
    | done r => rw [Runs.runDone h]; simp only [resume,h]

theorem pausedRun {env : Env} {m c : Continuation} {n : Nat} :
    resume env m n = failure (.outOfFuel c) ↔ run (turn env) n m = .more c := by
  rw [resumeRun]
  constructor
  · intro h
    cases hn : run (turn env) n m with
    | more m' => rw [hn] at h; cases h; rfl
    | done r =>
      rw [hn] at h
      obtain ⟨k,t,_,_,last⟩ := Runs.lastTurn hn
      have stop := turnStop last
      simp only at h
      rw [h] at stop
      exact (stopsNotPaused stop).elim
  · intro h
    rw [h]

theorem endedRun {env : Env} {m : Continuation} {n : Nat} {r : Verdict}
    (h : resume env m n = r) (ended : ∀ c, r ≠ failure (.outOfFuel c)) : run (turn env) n m = .done r := by
  cases hn : run (turn env) n m with
  | more m' => exact absurd (h.symm.trans (pausedRun.mpr hn)) (ended m')
  | done q =>
    rw [resumeRun,hn] at h
    simp only at h
    rw [h]

theorem pausedOrEnded (r : Verdict) :
    (∃ c, r = failure (.outOfFuel c)) ∨ ∀ c, r ≠ failure (.outOfFuel c) := by
  by_cases paused : ∃ c, r = failure (.outOfFuel c)
  · exact .inl paused
  · exact .inr (fun c same => paused ⟨c,same⟩)

theorem resumePaused {env : Env} {m c : Continuation} {a : Nat} (h : resume env m a = failure (.outOfFuel c)) (b : Nat) :
    resume env m (a+b) = resume env c b := by
  rw [resumeRun,Runs.runThrough (pausedRun.mp h) b,← resumeRun]

theorem resumeStable {env : Env} {m : Continuation} {n k : Nat} {r : Verdict} (h : resume env m n = r)
    (ended : ∀ c, r ≠ failure (.outOfFuel c)) (le : n ≤ k) : resume env m k = r := by
  rw [resumeRun,Runs.doneStable (endedRun h ended) le]

theorem resumeAdd (env : Env) (m : Continuation) (a b : Nat) : resume env m (a+b) =
    match resume env m a with
    | .error (.dissonance (.outOfFuel c)) => resume env c b
    | r => r := by
  split
  · rename_i paused
    exact resumePaused paused b
  · rename_i ended
    exact resumeStable rfl ended (Nat.le_add_right a b)

/- The same run under any budgets: each slice takes up the continuation the last one was paused in. -/
def sliced (env : Env) : List Nat → Continuation → Verdict
  | [], m => failure (.outOfFuel m)
  | n :: rest, m =>
    match resume env m n with
    | .error (.dissonance (.outOfFuel c)) => sliced env rest c
    | r => r

theorem slicedSum (env : Env) (budgets : List Nat) (m : Continuation) :
    sliced env budgets m = resume env m budgets.sum := by
  induction budgets generalizing m with
  | nil => rfl
  | cons n rest ih =>
    rw [List.sum_cons,resumeAdd]
    unfold sliced
    split
    · exact ih _
    · rfl

namespace Kernel

def fuelSlice : Nat := 20000
def maxSlices : Nat := 500

/- The loop of `run_full`: `slices` counts the pauses so far, `r` is the last result. -/
def runFullLoop (env : Env) (slices : Nat) (r : Verdict) : Verdict :=
  match r with
  | .error (.dissonance (.outOfFuel cont)) =>
    if maxSlices ≤ slices + 1 then failure (.outOfFuel cont)
    else runFullLoop env (slices + 1) (resume env cont fuelSlice)
  | other => other
termination_by maxSlices - slices

def runFull (env : Env) (v : Versus) (arg : Value) : Verdict :=
  runFullLoop env 0 (runVerse env v.mode v.body arg emptyState fuelSlice)

theorem runFullLoopPaused (env : Env) (slices : Nat) (cont : Continuation) :
    runFullLoop env slices (failure (.outOfFuel cont)) =
      if maxSlices ≤ slices + 1 then failure (.outOfFuel cont)
      else runFullLoop env (slices + 1) (resume env cont fuelSlice) := by
  unfold failure
  rw [runFullLoop]
  rfl

theorem runFullLoopEnded (env : Env) (slices : Nat) {r : Verdict} (ended : ∀ c, r ≠ failure (.outOfFuel c)) :
    runFullLoop env slices r = r := by
  unfold runFullLoop
  split
  · rename_i cont
    exact absurd rfl (ended cont)
  · rfl

/- The loop entered with `slices` pauses behind it holds the result of `slices+1` slices. -/
theorem runFullLoopRun (env : Env) (start : Continuation) (slices : Nat) (few : slices < maxSlices) :
    runFullLoop env slices (resume env start (fuelSlice * (slices+1))) = resume env start (fuelSlice * maxSlices) := by
  induction left : maxSlices - (slices+1) generalizing slices with
  | zero =>
    have last : slices + 1 = maxSlices := by omega
    rcases pausedOrEnded (resume env start (fuelSlice * (slices+1))) with ⟨cont,paused⟩ | ended
    · rw [paused,runFullLoopPaused,if_pos (Nat.le_of_eq last.symm),← last,paused]
    · rw [runFullLoopEnded env slices ended,last]
  | succ k ih =>
    have more : ¬ maxSlices ≤ slices + 1 := by omega
    rcases pausedOrEnded (resume env start (fuelSlice * (slices+1))) with ⟨cont,paused⟩ | ended
    · have next := ih (slices+1) (by omega) (by omega)
      rw [Nat.mul_succ fuelSlice (slices+1),resumePaused paused] at next
      rw [paused,runFullLoopPaused,if_neg more]
      exact next
    · rw [runFullLoopEnded env slices ended]
      exact (resumeStable rfl ended (Nat.mul_le_mul_left _ few)).symm

theorem runFullUnsliced (env : Env) (v : Versus) (arg : Value) :
    runFull env v arg = runVerse env v.mode v.body arg emptyState (fuelSlice * maxSlices) :=
  runFullLoopRun env (initial v.mode v.body arg emptyState) 0 (by decide)

end Kernel

/- Any cut of the fuel gives the same verdict; `run_full` is one run of all its slices, and is
paused only after exactly that many turns. -/
theorem slicingUnobservable :
    (∀ env m a b, resume env m (a+b) =
      match resume env m a with
      | .error (.dissonance (.outOfFuel c)) => resume env c b
      | r => r) ∧
    (∀ env (v : Versus) arg,
      (∀ n r, n ≤ Kernel.fuelSlice * Kernel.maxSlices → runVerse env v.mode v.body arg emptyState n = r →
        (∀ c, r ≠ failure (.outOfFuel c)) → Kernel.runFull env v arg = r) ∧
      (∀ c, Kernel.runFull env v arg = failure (.outOfFuel c) ↔
        run (turn env) (Kernel.fuelSlice * Kernel.maxSlices) (initial v.mode v.body arg emptyState) = .more c)) := by
  refine ⟨resumeAdd,fun env v arg => ⟨fun n r le h ended => ?_,fun c => ?_⟩⟩
  · rw [Kernel.runFullUnsliced]
    exact resumeStable h ended le
  · rw [Kernel.runFullUnsliced]
    exact pausedRun

/- A verse that cadences in two turns, well inside the first slice. -/
theorem slicingUnobservableLiteral :
    Kernel.runFull .default ⟨"v",.dorian,.lit (.bool true),[]⟩ .unit = .ok ⟨some (.bool true),.unit,[],none⟩ :=
  (slicingUnobservable.2 .default ⟨"v",.dorian,.lit (.bool true),[]⟩ .unit).1 2 _ (by decide) rfl
    (fun c same => by cases same)

end Officium
