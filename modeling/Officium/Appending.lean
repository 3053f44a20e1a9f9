import Officium.Composition
import Officium.Slicing

/-! One score below another. The fugues of the second come behind those of the first in every table, and a real
answer is looked for before a tonal one: what the verses of the first come to is left as it was exactly where no
real answer of the second stands before a tonal one of the first. -/
namespace Officium
open Runs (Turn)

/- Every lookup that answers goes on answering the same. -/
structure Widens (env env' : Env) : Prop where
  ask : ∀ s v, env.ask s = .ok v → env'.ask s = .ok v
  resolve : ∀ name g e, env.resolve name g = .ok e → env'.resolve name g = .ok e

/- A lookup found nothing. -/
inductive Missing : Verdict → Prop where
  | unboundVar (s : Sym) : Missing (failure (.unboundVar s))
  | unresolved (name : Sym) (g : Genus) : Missing (failure (.unresolved name g))

section Widening
variable {env env' : Env} {m m' : Continuation} {scope : Scope} {name : Sym} {v : Value} {r : Verdict}

theorem widensLookup (widens : Widens env env') (found : lookupVar env scope name = some v) : lookupVar env' scope name = some v := by
  unfold lookupVar at found ⊢
  split at found
  · exact found
  · split at found
    · exact found
    · cases asked : env.ask name with
      | error e => rw [asked] at found; cases found
      | ok w =>
        rw [asked] at found
        rw [widens.ask name w asked]
        exact found

theorem widensYields {e : Expr} (widens : Widens env env') (h : Yields env m scope e v) : Yields env' m scope e v := by
  cases h with
  | lit v => exact .lit v
  | var found => exact .var (widensLookup widens found)
  | lam param body => exact .lam param body
  | arg => exact .arg
  | ask found => exact .ask (widens.ask _ _ found)
  | lege visible cell => exact .lege visible cell

theorem widensAnswers {f : Frame} {c : Control} {pushed : List Frame} (widens : Widens env env') (h : Answers env f v c pushed) :
    Answers env' f v c pushed := by
  cases h with
  | resolveK found => exact .resolveK (widens.resolve _ _ _ found)
  | appArg a scope v => exact .appArg a scope v
  | appCall enters => exact .appCall enters
  | fixK enters => exact .fixK enters
  | ifTrue t e scope => exact .ifTrue t e scope
  | ifFalse t e scope => exact .ifFalse t e scope
  | bindK name k scope v => exact .bindK name k scope v
  | recipeH name handler scope channel v => exact .recipeH name handler scope channel v
  | builtinPost applied => exact .builtinPost applied

theorem widensStep (widens : Widens env env') (step : Step env m m') : Step env' m m' := by
  cases step with
  | yields at_ h => exact .yields at_ (widensYields widens h)
  | opens at_ h => exact .opens at_ h
  | pure at_ => exact .pure at_
  | lift at_ room => exact .lift at_ room
  | answers at_ top h => exact .answers at_ top (widensAnswers widens h)
  | poneK at_ top inside => exact .poneK at_ top inside
  | mitteK at_ top plan issued => exact .mitteK at_ top plan issued
  | liftK at_ top => exact .liftK at_ top
  | caught at_ top h => exact .caught at_ top h

theorem widensFails {e : Expr} {q : Raise} (found : ¬Missing (.error q)) (h : Fails env m scope e q) : Fails env' m scope e q := by
  cases h with
  | var => exact absurd (.unboundVar _) found
  | ask unbound =>
    rw [askError unbound] at found
    exact absurd (.unboundVar _) found
  | nihil visible => exact .nihil visible
  | hidden need none => exact .hidden need none
  | bottom e inside room => exact .bottom e inside room
  | below e outside => exact .below e outside

theorem widensRefuses {f : Frame} {q : Raise} (hit : ¬Missing (.error q)) (h : Refuses env m f v q) : Refuses env' m f v q := by
  cases h with
  | resolveK unresolved =>
    rw [resolveError unresolved] at hit
    exact absurd (.unresolved _ _) hit
  | appCall h => exact .appCall h
  | fixK h => exact .fixK h
  | ifK other => exact .ifK other
  | poneK outside => exact .poneK outside
  | mitteK plan other => exact .mitteK plan other
  | outside outside => exact .outside outside
  | layer found other => exact .layer found other
  | premature => exact .premature
  | unconsecrated other => exact .unconsecrated other
  | genus other => exact .genus other
  | builtinPost h => exact .builtinPost h

theorem widensStops (found : ¬Missing r) (h : Stops env m r) : Stops env' m r := by
  cases h with
  | dry at_ top => exact .dry at_ top
  | cadence at_ top => exact .cadence at_ top
  | commit at_ top some_ => exact .commit at_ top some_
  | escaped at_ top h => exact .escaped at_ top h
  | fails at_ h => exact .fails at_ (widensFails found h)
  | refuses at_ top h => exact .refuses at_ top (widensRefuses found h)

/- A run that misses nothing is the same run in a wider environment. -/
theorem widensRun (widens : Widens env env') {n : Nat} (found : ¬Missing (resume env m n)) : resume env' m n = resume env m n := by
  induction n generalizing m with
  | zero => rfl
  | succ n ih =>
    rw [resume] at found ⊢
    rw [resume]
    cases one : turn env m with
    | more m' =>
      rw [one] at found
      rw [stepTurn (widensStep widens (turnStep one))]
      exact ih found
    | done r =>
      rw [one] at found
      rw [stopTurn (widensStops found (turnStop one))]

end Widening

section Tables
variable {fs gs : List Fugue} {name : Sym} {g : Genus}

theorem findAppend (xs ys : List Overload) : Env.find (xs ++ ys) name g = (Env.find xs name g).or (Env.find ys name g) := by
  unfold Env.find
  rw [List.find?_append]
  cases xs.find? (fun o => o.1.1 == name && o.1.2 == g) <;> rfl

/- What the tables answer, one before the other. -/
theorem resolveOk {env : Env} {e : Expr} : env.resolve name g = .ok e ↔ (Env.find env.real name g).or (Env.find env.tonal name g) = some e := by
  unfold Env.resolve
  cases Env.find env.real name g with
  | some real => simp
  | none =>
    cases Env.find env.tonal name g with
    | some tonal => simp
    | none => simp [failure]

/- No real answer of the fugues behind stands in for a tonal one of those before. -/
def Unshadowed (fs gs : List Fugue) : Prop := ∀ name g e e', Env.find (fs.flatMap Fugue.real) name g = none →
  Env.find (fs.flatMap Fugue.tonal) name g = some e → Env.find (gs.flatMap Fugue.real) name g = some e' → e' = e

/- The fugues behind widen the environment exactly where they shadow no answer. -/
theorem appendWidens : Widens (Env.fromFugues fs) (Env.fromFugues (fs ++ gs)) ↔ Unshadowed fs gs := by
  obtain ⟨pedals,real,tonal⟩ := Env.fromFuguesTables fs
  obtain ⟨pedals',real',tonal'⟩ := Env.fromFuguesTables (fs ++ gs)
  rw [List.flatMap_append] at pedals' real' tonal'
  constructor
  · intro widens name g e e' free held shadow
    have before : (Env.fromFugues fs).resolve name g = .ok e := by
      rw [resolveOk,real,tonal,free,held]
      rfl
    have after := resolveOk.mp (widens.resolve name g e before)
    rw [real',findAppend,free,shadow] at after
    exact Option.some.inj after
  · intro unshadowed
    refine ⟨fun s v asked => ?_,fun name g e answered => ?_⟩
    · unfold Env.ask at asked ⊢
      rw [pedals] at asked
      rw [pedals',List.find?_append]
      cases found : (fs.flatMap Fugue.pedals).find? (fun p => p.1 == s) with
      | none => rw [found] at asked; cases asked
      | some p => rw [found] at asked; exact asked
    · rw [resolveOk,real,tonal] at answered
      rw [resolveOk,real',tonal',findAppend,findAppend]
      cases first : Env.find (fs.flatMap Fugue.real) name g with
      | some x =>
        rw [first] at answered
        exact answered
      | none =>
        rw [first] at answered
        have held : Env.find (fs.flatMap Fugue.tonal) name g = some e := answered
        cases shadow : Env.find (gs.flatMap Fugue.real) name g with
        | none => rw [held]; rfl
        | some e' => rw [unshadowed name g e e' first held shadow]; rfl

end Tables

/- A score below another: the names of the first still find its verses, the names it lacks find those of the second, and
where nothing is shadowed every verse that missed nothing comes to what it came to. -/
theorem appendedPlays {a b : String} {progA progB : Program} (first : Parser.Parses a progA) (second : Parser.Parses b progB) :
    ∃ prog, Parser.Parses (a ++ "\n" ++ b) prog ∧ (∀ name, prog.verse name = (progA.verse name).or (progB.verse name)) ∧
      (Unshadowed progA.fugues progB.fugues → ∀ mode body arg st fuel, ¬Missing (runVerse (Env.fromFugues progA.fugues) mode body arg st fuel) →
        runVerse (Env.fromFugues prog.fugues) mode body arg st fuel = runVerse (Env.fromFugues progA.fugues) mode body arg st fuel) := by
  refine ⟨_,Parser.parsesCompose first second,fun name => ?_,fun unshadowed mode body arg st fuel hit => ?_⟩
  · unfold Program.verse
    rw [List.find?_append]
  · exact widensRun (appendWidens.mpr unshadowed) hit

def weighed : String := "fuga f in re \x7b\n tonale pondus @ asteroides = \"unum\"\n\x7d\n" ++
  "versus x in Re \x7b\n amen (resolve pondus (genus (corpus 1 \"asteroides\" 2 3)))\n\x7d"

/- What the verse comes to, within a bound. -/
def comesToStr (env : Env) (v : Versus) (s : String) : Bool :=
  match runVerse env v.mode v.body .unit .unit 60 with
  | .ok ⟨some (.str t),_,_,_⟩ => t == s
  | _ => false

theorem comesNotMissing {env : Env} {v : Versus} {s : String} (h : comesToStr env v s = true) : ¬Missing (runVerse env v.mode v.body .unit .unit 60) := by
  unfold comesToStr at h
  generalize runVerse env v.mode v.body .unit .unit 60 = r at h ⊢
  intro missing
  cases missing <;> cases h

theorem appendedPlaysWeighed : ∃ progA prog v, Parser.Parses weighed progA ∧
    Parser.Parses (weighed ++ "\n" ++ "fuga g in re \x7b\n tonale pondus @ asteroides = \"alterum\"\n\x7d") prog ∧ prog.verse "x" = some v ∧
      runVerse (Env.fromFugues prog.fugues) v.mode v.body .unit .unit 60 = runVerse (Env.fromFugues progA.fugues) v.mode v.body .unit .unit 60 := by
  have above : Parser.reads 240 weighed (fun prog => (prog.verse "x").any (fun v => comesToStr (Env.fromFugues prog.fugues) v "unum")) = true := by
    decide +kernel
  have below : Parser.reads 240 "fuga g in re \x7b\n tonale pondus @ asteroides = \"alterum\"\n\x7d"
      (fun prog => prog.fugues.all (fun f => f.real.isEmpty)) = true := by
    decide +kernel
  obtain ⟨progA,first,one⟩ := Parser.readsParses above
  obtain ⟨progB,second,none_⟩ := Parser.readsParses below
  obtain ⟨v,found,comes⟩ := (Option.any_eq_true _ _).mp one
  obtain ⟨prog,parsed,names,plays⟩ := appendedPlays first second
  have unshadowed : Unshadowed progA.fugues progB.fugues := by
    intro name g e e' _ _ shadow
    have bare : progB.fugues.flatMap Fugue.real = [] :=
      List.flatMap_eq_nil_iff.mpr fun f mem => List.isEmpty_iff.mp (List.all_eq_true.mp none_ f mem)
    rw [bare] at shadow
    cases shadow
  refine ⟨progA,prog,v,first,parsed,?_,plays unshadowed v.mode v.body .unit .unit 60 (comesNotMissing comes)⟩
  rw [names,found]
  rfl

/- A real answer below a tonal one is the one that is given. -/
example : Parser.reads 240 (weighed ++ "\n" ++ "fuga g in re \x7b\n reale pondus @ asteroides = \"alterum\"\n\x7d")
    (fun prog => (prog.verse "x").any (fun v => comesToStr (Env.fromFugues prog.fugues) v "alterum")) = true := by
  decide +kernel

end Officium
