import Officium.Purity
import Officium.TypeSafety

/-! The state a driver supplies. Both drivers start a verse from the empty record and the tower
seeds the cell below with it too, while the checker leaves the cell's type to the verse: a read
that comes before every write of its cell yields the empty record at whatever type that is. -/
namespace Officium.Check
open Runs (Turn run runInvariantAt)
open Officium.Parser (Parses parsesWritten)

/- A verse as `run_full` starts it. -/
def driven (v : Versus) (arg : Value) : Continuation := initial v.mode v.body arg emptyState

/- Some turn before turn `n` of the run wrote cell `i`. -/
def WrittenBefore (env : Env) (start : Continuation) (n i : Nat) : Prop :=
  ∃ j m, j < n ∧ run (turn env) j start = .more m ∧ Writes m i

/- Every read comes after a write of the same cell, or the checker left the cell's type open. -/
def ReadsSettled (prog : Program) (θ : Assignment) (start : Continuation) : Prop :=
  ∀ n m i, run (turn (Env.fromFugues prog.fugues)) n start = .more m → Reads m i →
    WrittenBefore (Env.fromFugues prog.fugues) start n i ∨ ∃ k, (assigned prog θ).state = .var k

/- The run is never stopped by a value of the wrong shape or a missing name, and what it reads
has the type of the state cell. -/
structure StateFits (prog : Program) (θ : Assignment) (start : Continuation) : Prop where
  verdict : ∀ budgets, (∀ want got, sliced (Env.fromFugues prog.fugues) budgets start ≠ failure (.dissonant want got)) ∧
    ∀ name, sliced (Env.fromFugues prog.fugues) budgets start ≠ failure (.unboundVar name)
  reads : ∀ n m i w, run (turn (Env.fromFugues prog.fugues)) n start = .more m → Reads m i →
    m.tower[i]? = some (.state w) → ValTy prog (assigned prog θ) w (assigned prog θ).state

section Runs
variable {prog : Program} {v : Versus} {arg : Value} {s : Store} {θ : Assignment}

theorem readsCell {m : Continuation} {i : Nat} (reads : Reads m i) : ∃ w, m.tower[i]? = some (.state w) := by
  obtain ⟨scope,_,visible⟩ := reads
  obtain ⟨l,found,kind,_⟩ := findLayerSome visible
  cases l with
  | state w => exact ⟨w,found⟩
  | _ => cases kind

theorem writtenNext {env : Env} {start t : Continuation} {n i : Nat} (reached : run (turn env) n start = .more t) :
    WrittenBefore env start (n+1) i ↔ WrittenBefore env start n i ∨ Writes t i := by
  constructor
  · rintro ⟨j,u,before,hu,writes⟩
    rcases Nat.lt_succ_iff_lt_or_eq.mp before with earlier | now
    · exact .inl ⟨j,u,earlier,hu,writes⟩
    · subst now
      rw [reached] at hu
      cases hu
      exact .inr writes
  · rintro (⟨j,u,before,hu,writes⟩ | writes)
    · exact ⟨j,u,Nat.lt_succ_of_lt before,hu,writes⟩
    · exact ⟨n,t,Nat.lt_succ_self n,reached,writes⟩

theorem drivenSound (written : Written prog) (among : v ∈ prog.verses) (checked : Checked prog v s) (solves : Solves θ s)
    (argTy : Inhabits arg (assigned prog θ).arg) :
    Sound prog (assigned prog θ) (WrittenBefore (Env.fromFugues prog.fugues) (driven v arg) 0) (driven v arg) := by
  obtain ⟨t,body_⟩ := bodyTyped written among checked solves
  refine ⟨⟨t,.eval .empty body_,.nil t⟩,inhabitsTyped argTy,fun i w _ known => ?_,fun i w cell _ => ?_⟩
  · obtain ⟨j,_,before,_⟩ := known
    cases before
  · exact (initialCell cell).elim And.right And.right

/- The cells written so far are the settled ones. -/
theorem settledRun (written : Written prog) (among : v ∈ prog.verses) (checked : Checked prog v s) (solves : Solves θ s)
    (argTy : Inhabits arg (assigned prog θ).arg) (settled : ReadsSettled prog θ (driven v arg)) {n : Nat} {m : Continuation}
    (h : run (turn (Env.fromFugues prog.fugues)) n (driven v arg) = .more m) :
    Sound prog (assigned prog θ) (WrittenBefore (Env.fromFugues prog.fugues) (driven v arg) n) m := by
  refine runInvariantAt (fun n m => Sound prog (assigned prog θ)
    (WrittenBefore (Env.fromFugues prog.fugues) (driven v arg) n) m) (drivenSound written among checked solves argTy)
    (fun n t t' reached sound next => ?_) h
  have readable : Readable prog (assigned prog θ) (WrittenBefore (Env.fromFugues prog.fugues) (driven v arg) n) t := by
    intro i reads
    refine (settled n t i reached reads).imp id ?_
    rintro ⟨k,isOpen⟩
    exact isOpen ▸ .any _ k
  have same : (fun i => WrittenBefore (Env.fromFugues prog.fugues) (driven v arg) n i ∨ Writes t i) =
      WrittenBefore (Env.fromFugues prog.fugues) (driven v arg) (n+1) :=
    funext (fun i => propext (writtenNext reached).symm)
  rw [← same]
  exact soundStep (writtenPedals written) (tiesNever _ _ _) sound readable (turnStep next)

theorem fitsOfSettled (written : Written prog) (among : v ∈ prog.verses) (checked : Checked prog v s) (solves : Solves θ s)
    (argTy : Inhabits arg (assigned prog θ).arg) (settled : ReadsSettled prog θ (driven v arg)) :
    StateFits prog θ (driven v arg) := by
  have sound {n : Nat} {m : Continuation} (h : run (turn (Env.fromFugues prog.fugues)) n (driven v arg) = .more m) :=
    settledRun written among checked solves argTy settled h
  have ended (budgets : List Nat) (d : Dissonance)
      (h : sliced (Env.fromFugues prog.fugues) budgets (driven v arg) = failure d) (other : ∀ c, d ≠ .outOfFuel c) :
      Permitted (failure d) ∨ ∃ mode op, d = .wrongMode mode op := by
    obtain ⟨k,m,hk,last,wf,_⟩ := lastState h (fun c same => by cases same; exact other c rfl)
    rcases stopsTyped (writtenPedals written) (tiesNever _ _ _) (sound hk) wf (turnStop last) with good | ⟨op,broken⟩
    · exact .inl good
    · cases broken
      exact .inr ⟨_,op,rfl⟩
  refine ⟨fun budgets => ⟨fun want got h => ?_,fun name h => ?_⟩,fun n m i w reached reads cell => ?_⟩
  · rcases ended budgets _ h (fun c same => by cases same) with good | ⟨mode,op,same⟩
    · cases good
    · cases same
  · rcases ended budgets _ h (fun c same => by cases same) with good | ⟨mode,op,same⟩
    · cases good
    · cases same
  · by_cases before : WrittenBefore (Env.fromFugues prog.fugues) (driven v arg) n i
    · exact (sound reached).typed i w cell before
    · obtain ⟨k,isOpen⟩ := (settled n m i reached reads).resolve_left before
      exact isOpen ▸ .any _ k

/- A cell no turn wrote still holds the empty record. -/
theorem unwrittenSeed {env : Env} {n : Nat} {m : Continuation} (h : run (turn env) n (driven v arg) = .more m) :
    ∀ (i : Nat) (w : Value), m.tower[i]? = some (.state w) → ¬ WrittenBefore env (driven v arg) n i → w = emptyState := by
  refine runInvariantAt (fun n m => ∀ (i : Nat) (w : Value), m.tower[i]? = some (.state w) →
    ¬ WrittenBefore env (driven v arg) n i → w = emptyState)
    (fun i w cell _ => (initialCell cell).elim And.right And.right) (fun n t t' reached keeps next i w cell unwritten => ?_) h
  rw [writtenNext reached,not_or] at unwritten
  rcases stepCell (turnStep next) cell with ⟨before,_⟩ | ⟨rest,at_,top⟩
  · exact keeps i w before unwritten.1
  · exact absurd ⟨w,rest,at_,top⟩ unwritten.2

theorem settledOfFits (fits : StateFits prog θ (driven v arg)) : ReadsSettled prog θ (driven v arg) := by
  intro n m i reached reads
  by_cases before : WrittenBefore (Env.fromFugues prog.fugues) (driven v arg) n i
  · exact .inl before
  · obtain ⟨w,cell⟩ := readsCell reads
    have typed := fits.reads n m i w reached reads cell
    rw [unwrittenSeed reached i w cell before] at typed
    exact .inr (emptyTyped typed)

end Runs

/- For a verse of an accepted program, run as the drivers run it. -/
theorem stateFits {src : String} {prog : Program} (parsed : Parses src prog) (accepted : Accepts prog) :
    ∀ v ∈ prog.verses, (∃ s, Checked prog v s) ∧
      ∀ s θ, Checked prog v s → Solves θ s → ∀ arg, Inhabits arg (assigned prog θ).arg →
        (StateFits prog θ (driven v arg) ↔ ReadsSettled prog θ (driven v arg)) := by
  intro v among
  have written := parsesWritten parsed
  exact ⟨acceptsChecked accepted v among,fun s θ checked solves arg argTy =>
    ⟨settledOfFits,fitsOfSettled written among checked solves argTy⟩⟩

def misfits : Verdict → Bool
  | .error (.dissonance (.dissonant _ _)) => true
  | _ => false

theorem misfitsOf {r : Verdict} (h : misfits r = true) : ∃ want got, r = failure (.dissonant want got) := by
  unfold misfits at h
  split at h
  · exact ⟨_,_,rfl⟩
  · cases h

/- A boolean expected of the cell before anything was put there. -/
theorem stateFitsBroken : ∃ prog v s want got,
    Parses "versus x in Fa \x7b\n n <- lege\n amen (not n)\n\x7d" prog ∧ Accepts prog ∧ v ∈ prog.verses ∧
      v.mode = .lydian ∧ Checked prog v s ∧ Solves (fun _ => .bool) s ∧
      Inhabits (.bool true) (assigned prog (fun _ => .bool)).arg ∧
      Kernel.runFull (Env.fromFugues prog.fugues) v (.bool true) = failure (.dissonant want got) := by
  have test : Parser.reads 60 "versus x in Fa \x7b\n n <- lege\n amen (not n)\n\x7d" (fun prog => accepts 60 prog &&
      prog.verses.any (fun v => v.mode == .lydian && solvedBy 60 prog v .bool &&
        misfits (runVerse (Env.fromFugues prog.fugues) v.mode v.body (.bool true) emptyState 40))) = true := by
    decide +kernel
  obtain ⟨prog,parsed,good⟩ := Parser.readsParses test
  simp only [Bool.and_eq_true,List.any_eq_true,beq_iff_eq] at good
  obtain ⟨accepted,v,among,⟨lydian,solved⟩,broken⟩ := good
  obtain ⟨s,checked,solves⟩ := solvedByOf solved
  obtain ⟨want,got,same⟩ := misfitsOf broken
  refine ⟨prog,v,s,want,got,parsed,acceptsOf accepted,among,lydian,checked,solves,.bool true,?_⟩
  rw [Kernel.runFullUnsliced]
  exact resumeStable same (fun c paused => by cases paused) (by decide)

def readsNow (m : Continuation) : Bool :=
  match m.control with
  | .eval .lege _ => true
  | _ => false

def writesTop (m : Continuation) : Bool :=
  match m.control,m.stack with
  | .value _,.poneK 0 :: _ => true
  | _,_ => false

theorem writesTopOf {m : Continuation} (h : writesTop m = true) : Writes m 0 := by
  unfold writesTop at h
  split at h
  · rename_i at_ top
    exact ⟨_,_,at_,top⟩
  · cases h

/- A Lydian verse has one cell, and no read of the first `k` turns comes before one of them writes it. -/
theorem settledTest {prog : Program} {θ : Assignment} {v : Versus} {arg : Value} {k : Nat} (lydian : v.mode = .lydian)
    (quiet : Runs.along (turn (Env.fromFugues prog.fugues)) (fun m => !readsNow m) k (driven v arg) = true)
    (wrote : Runs.along (turn (Env.fromFugues prog.fugues)) (fun m => !writesTop m) k (driven v arg) = false) :
    ReadsSettled prog θ (driven v arg) := by
  intro n m i reached reads
  obtain ⟨j,t,within,ht,found⟩ := Runs.alongSome wrote
  have late : k ≤ n := by
    refine Nat.le_of_not_lt (fun early => ?_)
    have silent := Runs.alongEach quiet early reached
    obtain ⟨scope,at_,_⟩ := reads
    rw [readsNow,at_] at silent
    cases silent
  obtain ⟨w,cell⟩ := readsCell reads
  have good := wellFormedRun reached
  have len := congrArg List.length good.1.tower
  rw [List.length_map,good.2,lydian] at len
  have first : i = 0 := Nat.lt_one_iff.mp (Nat.lt_of_lt_of_eq (List.getElem?_eq_some_iff.mp cell).1 len)
  subst first
  exact .inl ⟨j,t,Nat.lt_of_lt_of_le within late,ht,writesTopOf (by simpa using found)⟩

/- A cell put before it is read. -/
theorem stateFitsPut : ∃ prog v,
    Parses "versus x in Fa \x7b\n pone verum\n b <- lege\n amen (not b)\n\x7d" prog ∧ v ∈ prog.verses ∧
      StateFits prog (fun _ => .bool) (driven v (.bool true)) := by
  have test : Parser.reads 60 "versus x in Fa \x7b\n pone verum\n b <- lege\n amen (not b)\n\x7d" (fun prog =>
      accepts 60 prog && prog.verses.any (fun v => v.mode == .lydian && solvedBy 60 prog v .bool &&
        Runs.along (turn (Env.fromFugues prog.fugues)) (fun m => !readsNow m) 5 (driven v (.bool true)) &&
        !Runs.along (turn (Env.fromFugues prog.fugues)) (fun m => !writesTop m) 5 (driven v (.bool true)))) = true := by
    decide +kernel
  obtain ⟨prog,parsed,good⟩ := Parser.readsParses test
  simp only [Bool.and_eq_true,List.any_eq_true,beq_iff_eq,Bool.not_eq_true'] at good
  obtain ⟨accepted,v,among,⟨⟨lydian,solved⟩,quiet⟩,wrote⟩ := good
  obtain ⟨s,checked,solves⟩ := solvedByOf solved
  have fits := (stateFits parsed (acceptsOf accepted) v among).2 s _ checked solves (.bool true) (.bool true)
  exact ⟨prog,v,parsed,among,fits.mpr (settledTest lydian quiet wrote)⟩

end Officium.Check
