import Officium.Inference
import Officium.Audio.Inverse

/-! A verse that is rendered and transcribed again. Its final is always recovered; whether it is
plagal is heard only in a note below the final. -/
namespace Officium.Audio
open Bounded (Returns)
open Lexer (Identifier)
open Officium.Parser (Parses)

section Verses
variable {mode : Mode} {e : Expr}

/- A statement that ends nothing. -/
def Plainly (e : Expr) : Prop := classify e ≠ .cadence ∧ classify e ≠ .branch

/- What is bound down the spine ends nothing, and every path of it ends in a cadence. -/
inductive Phrased : Expr → Prop where
  | cadence {e : Expr} (ends : operations e = [.cadence]) : Phrased e
  | bind {m k : Expr} (tag : Mode) (name : Sym) (m_ : Plainly m) (k_ : Phrased k) : Phrased (.bind tag m name k)
  | ifE {t e : Expr} (c : Expr) (t_ : Phrased t) (e_ : Phrased e) : Phrased (.ifE c t e)

theorem plainBuilt : Parser.Built Plainly where
  num := fun _ => ⟨nofun,nofun⟩
  str := fun _ => ⟨nofun,nofun⟩
  bool := fun _ => ⟨nofun,nofun⟩
  var := fun _ => ⟨nofun,nofun⟩
  arg := ⟨nofun,nofun⟩
  lege := ⟨nofun,nofun⟩
  ask := fun _ => ⟨nofun,nofun⟩
  lam := fun _ => ⟨nofun,nofun⟩
  app := fun _ _ => ⟨nofun,nofun⟩
  resolve := fun _ => ⟨nofun,nofun⟩
  pure := fun _ => ⟨nofun,nofun⟩
  lift := fun _ => ⟨nofun,nofun⟩
  pone := fun _ => ⟨nofun,nofun⟩

theorem phrasedSpun (mode : Mode) : Parser.Spun Plainly Phrased mode where
  ret := fun _ => .cadence rfl
  nihil := .cadence rfl
  clama := fun _ => .cadence rfl
  perage := fun _ => .cadence rfl
  ifE := fun _ t_ e_ => .ifE _ t_ e_
  pone := fun _ k_ => .bind _ _ ⟨nofun,nofun⟩ k_
  mitte := fun _ k_ => .bind _ _ ⟨nofun,nofun⟩ k_
  bound := fun m_ k_ => .bind _ _ m_ k_

theorem versesPhrased {src : String} {prog : Program} (parsed : Parses src prog) {v : Versus} (among : v ∈ prog.verses) : Phrased v.body := by
  obtain ⟨n,s,s',body⟩ := (Parser.parsesSoFar parsed).verses v among
  exact Parser.stmtsSpun plainBuilt (phrasedSpun v.mode) n s v.body s' body

theorem operationsLast (h : Phrased e) : (operations e).getLast? = some .cadence := by
  induction h with
  | cadence ends => rw [ends]; rfl
  | bind _ _ _ _ ih => rw [operations,List.getLast?_cons,ih]; rfl
  | ifE _ _ _ _ ih => rw [operations,List.getLast?_cons,List.getLast?_append,ih]; rfl

/- The operations of a verse are a phrase. -/
theorem phrasedPhrase (h : Phrased e) : ∃ phrase : Phrase, phrase.ops = operations e := by
  induction h with
  | cadence ends => exact ⟨.cadence,ends.symm⟩
  | bind tag name m_ k_ ih =>
    obtain ⟨rest,same⟩ := ih
    exact ⟨.note _ m_ rest,congrArg (_ :: ·) same⟩
  | ifE c t_ e_ ih ih' =>
    obtain ⟨then_,same⟩ := ih
    obtain ⟨else_,same'⟩ := ih'
    exact ⟨.branch then_ else_,by rw [Phrase.ops,operations,same,same']⟩

end Verses

section Recovering
variable {mode : Mode} {ops ops' : List RenderOp} {i : Nat}

/- The operations a plagal mode sounds below its final. -/
def low (op : RenderOp) : Bool :=
  match op with
  | .branch | .resolve | .modal => true
  | _ => false

theorem degreeRead (mode : Mode) (op : RenderOp) :
    degreeOf mode (finalPitch mode.final_) (degreePitch mode (degree mode op)) = some (degree mode op) := by
  cases mode <;> cases op <;> decide

theorem belowFinal (mode : Mode) (op : RenderOp) :
    decide (degreePitch mode (degree mode op) < finalPitch mode.final_) = (mode.isPlagal && low op) := by
  cases mode <;> cases op <;> decide

theorem finalSound (mode : Mode) : degreePitch mode (degree mode .cadence) = finalPitch mode.final_ := by
  cases mode <;> decide

theorem finalRead (final_ : Final) : finalOf (finalPitch final_) = some final_ := by
  cases final_ <;> decide

theorem fromPlagal (mode : Mode) : Mode.fromFinal mode.final_ mode.isPlagal = mode := by
  cases mode <;> rfl

theorem plagalFrom (final_ : Final) (plagal : Bool) : (Mode.fromFinal final_ plagal).isPlagal = plagal := by
  cases final_ <;> cases plagal <;> rfl

theorem readOpsMelody (mode : Mode) (ops : List RenderOp) (i : Nat) : readOps mode (finalPitch mode.final_) i (melody mode ops) = .ok ops := by
  induction ops generalizing i with
  | nil => rfl
  | cons op ops ih =>
    rw [melody,List.map_cons,readOps,degreeRead]
    simp only [opDegree]
    have rest : readOps mode (finalPitch mode.final_) (i+1) (ops.map (fun op => degreePitch mode (degree mode op))) = .ok ops := ih (i+1)
    rw [rest]

theorem melodyInj (h : melody mode ops = melody mode ops') : ops = ops' := by
  have read := readOpsMelody mode ops 1
  rw [h,readOpsMelody] at read
  cases read
  rfl

theorem melodyLast (h : ops.getLast? = some .cadence) : (melody mode ops).getLast? = some (finalPitch mode.final_) := by
  rw [melody,List.getLast?_map,h,← finalSound]
  rfl

theorem melodyPlagal (mode : Mode) (ops : List RenderOp) :
    isPlagal (melody mode ops) (finalPitch mode.final_) = (mode.isPlagal && ops.any low) := by
  induction ops with
  | nil => rw [List.any_nil,Bool.and_false]; rfl
  | cons op ops ih =>
    have rest : (ops.map (fun op => degreePitch mode (degree mode op))).any (· < finalPitch mode.final_) = (mode.isPlagal && ops.any low) := ih
    rw [isPlagal,melody,List.map_cons,List.any_cons,belowFinal,rest,List.any_cons,Bool.and_or_distrib_left]

end Recovering

section Surviving
variable {v : Versus} {name text : String} {pitches : List Pitch} {cadence : Pitch} {final_ : Final} {ops : List RenderOp} {mode : Mode}

/- `op_of_degree` of each note. -/
def readBack (mode : Mode) (notes : List Note) : List (Option RenderOp) :=
  notes.map (fun n => (degreeOf mode (finalPitch mode.final_) n.pitch).bind (opOfDegree mode))

/- Rendered, transcribed under any name and parsed, the verse is one of its mode that is rendered
as the same operations and the same melody. -/
def Survives (v : Versus) : Prop := ∀ name voice, Identifier name → ∃ text prog w,
  Transcribes ((renderVerse v.body v.mode voice).map Note.pitch) name text ∧ Parses text prog ∧ w ∈ prog.verses ∧ w.mode = v.mode ∧
    readBack w.mode (renderVerse w.body w.mode voice) = readBack v.mode (renderVerse v.body v.mode voice) ∧
    (renderVerse w.body w.mode voice).map Note.pitch = (renderVerse v.body v.mode voice).map Note.pitch

/- A plagal verse sounds a note below its final, and a modal operation is one that a transcript of
the mode can write. -/
def Sounds (v : Versus) : Prop :=
  (v.mode.isPlagal = true → (operations v.body).any low = true) ∧ (.modal ∈ operations v.body → v.mode ∈ modalModes)

theorem readBackMelody (body : Expr) (mode : Mode) (voice : UInt8) : readBack mode (renderVerse body mode voice) = (operations body).map some := by
  have pitches := renderMelody body mode voice
  have each : readBack mode (renderVerse body mode voice) = ((renderVerse body mode voice).map Note.pitch).map
      (fun p => (degreeOf mode (finalPitch mode.final_) p).bind (opOfDegree mode)) := by
    rw [List.map_map]
    rfl
  rw [each,pitches,melody,List.map_map]
  refine List.map_congr_left (fun op _ => ?_)
  simp only [Function.comp,degreeRead,Option.bind_some,opDegree]

theorem transcribesOf {n : Nat} {t : Transcriber} (last : pitches.getLast? = some cadence) (ends : finalOf cadence = some final_)
    (read : readOps (recovered pitches cadence final_) cadence 1 pitches = .ok ops)
    (ran : Returns (block n 1) ⟨ops,recovered pitches cadence final_,0,"",0,none,false⟩ () t) (all : t.pos = ops.length) :
    Transcribes pitches name (score pitches name final_ (isPlagal pitches cadence) t) := by
  refine ⟨n,?_⟩
  unfold transcribe
  unfold recovered at read ran
  rw [last]
  simp only
  rw [ends]
  simp only
  rw [read]
  simp only
  rw [ran]
  simp only
  rw [if_neg (not_not.mpr all)]

theorem transcriptMelody {ops' : List RenderOp} {e : Expr} (last : ops.getLast? = some .cadence)
    (h : Transcript (melody mode ops) name text cadence final_ ops' e) : cadence = finalPitch mode.final_ ∧ final_ = mode.final_ := by
  have sounded := h.last
  rw [melodyLast last] at sounded
  cases sounded
  have ends := h.ends
  rw [finalRead] at ends
  cases ends
  exact ⟨rfl,rfl⟩

theorem transcriptOps {ops' : List RenderOp} {e : Expr} (h : Transcript (melody mode ops) name text (finalPitch mode.final_) final_ ops' e)
    (same : recovered (melody mode ops) (finalPitch mode.final_) final_ = mode) : ops' = ops ∧ operations e = ops.map (heard mode) := by
  have read := h.read
  have hears := h.hears
  rw [same] at read hears
  rw [readOpsMelody] at read
  cases read
  exact ⟨rfl,hears⟩

theorem recoveredSounds (sounds : Sounds v) : recovered (melody v.mode (operations v.body)) (finalPitch v.mode.final_) v.mode.final_ = v.mode := by
  have plagal : (v.mode.isPlagal && (operations v.body).any low) = v.mode.isPlagal := by
    cases plagal_ : v.mode.isPlagal with
    | false => rfl
    | true => rw [sounds.1 plagal_]; rfl
  rw [recovered,melodyPlagal,plagal,fromPlagal]

theorem soundsSurvives (phrased : Phrased v.body) (sounds : Sounds v) : Survives v := by
  intro name voice identifier
  have same := recoveredSounds sounds
  have last := operationsLast phrased
  have ends := finalRead v.mode.final_
  have read : readOps (recovered (melody v.mode (operations v.body)) (finalPitch v.mode.final_) v.mode.final_) (finalPitch v.mode.final_) 1
      (melody v.mode (operations v.body)) = .ok (operations v.body) := by
    rw [same]
    exact readOpsMelody ..
  obtain ⟨phrase,same_⟩ := phrasedPhrase phrased
  obtain ⟨n,t,far,settled⟩ := phraseEnds v.mode phrase []
  rw [List.append_nil,same_] at settled
  rw [same_] at far
  have ran : Returns (block n 1) ⟨operations v.body,v.mode,0,"",0,none,false⟩ () t := settled n (Nat.le_refl n)
  rw [← same] at ran
  have transcribed : ∃ text, Transcribes (melody v.mode (operations v.body)) name text :=
    ⟨_,transcribesOf (melodyLast last) ends read ran far⟩
  obtain ⟨text,transcribed⟩ := transcribed
  obtain ⟨cadence,final_,ops,e,transcript⟩ := transcriptOf identifier transcribed
  obtain ⟨rfl,rfl⟩ := transcriptMelody last transcript
  obtain ⟨rfl,hears⟩ := transcriptOps transcript same
  obtain ⟨fugues,parsed⟩ := transcript.parses
  rw [heardAll.mpr sounds.2] at hears
  rw [← renderMelody v.body v.mode voice] at transcribed
  refine ⟨_,_,_,transcribed,parsed,List.mem_cons_self,same,?_,?_⟩
  · rw [same,readBackMelody,readBackMelody,hears]
  · rw [same,renderMelody,renderMelody,hears]

theorem survivesSounds (phrased : Phrased v.body) (survives : Survives v) : Sounds v := by
  obtain ⟨text,prog,w,transcribed,parsed,among,mode_,back,-⟩ := survives "x" 0 (by decide)
  rw [renderMelody] at transcribed
  obtain ⟨cadence,final_,ops,e,transcript⟩ := transcriptOf (by decide) transcribed
  obtain ⟨rfl,rfl⟩ := transcriptMelody (operationsLast phrased) transcript
  obtain ⟨fugues,parsed'⟩ := transcript.parses
  cases Parser.parsesUnique parsed parsed'
  cases List.mem_singleton.mp among
  have same : recovered (melody v.mode (operations v.body)) (finalPitch v.mode.final_) v.mode.final_ = v.mode := mode_
  obtain ⟨-,hears⟩ := transcriptOps transcript same
  constructor
  · intro plagal
    have heard_ := congrArg Mode.isPlagal same
    rw [recovered,plagalFrom,melodyPlagal,plagal,Bool.true_and] at heard_
    exact heard_
  · intro modal
    simp only [same,readBackMelody] at back
    have whole := (List.map_inj_right (fun _ _ => Option.some.inj)).mp back
    exact heardAll.mp (hears.symm.trans whole) modal

end Surviving

/- For every verse of every program that parses, whether or not it is checked. -/
theorem versesSurvive {src : String} {prog : Program} (parsed : Parses src prog) {v : Versus} (among : v ∈ prog.verses) :
    Survives v ↔ Sounds v :=
  ⟨survivesSounds (versesPhrased parsed among),soundsSurvives (versesPhrased parsed among)⟩

def turned : String := "versus x in re \x7b\n a <- arg\n si verum tunc \x7b\n amen a\n \x7d aliter \x7b\n amen 0\n \x7d\n\x7d"

/- The branch of a plagal verse sounds a fourth below its final. -/
theorem versesSurviveTurned : ∃ prog v, Parses turned prog ∧ v ∈ prog.verses ∧ v.mode = .hypodorian ∧ Survives v := by
  have test : Parser.reads 60 turned (fun prog => prog.verses.any (fun v => decide (v.mode = .hypodorian) && (operations v.body).any low &&
      !(operations v.body).contains .modal)) = true := by
    decide +kernel
  obtain ⟨prog,parsed,good⟩ := Parser.readsParses test
  obtain ⟨v,among,sounds⟩ := List.any_eq_true.mp good
  simp only [Bool.and_eq_true,decide_eq_true_eq,Bool.not_eq_true',List.contains_eq_mem,decide_eq_false_iff_not] at sounds
  obtain ⟨⟨mode,lower⟩,plain⟩ := sounds
  exact ⟨prog,v,parsed,among,mode,(versesSurvive parsed among).mpr ⟨fun _ => lower,fun modal => absurd modal plain⟩⟩

/- A plagal verse that stays above its final is heard as authentic, and what it makes pure as a question. -/
theorem plagalUnheard : ¬ ∀ (src : String) (prog : Program) (v : Versus), Parses src prog → Check.Accepts prog → v ∈ prog.verses → Survives v := by
  intro all
  have test : Parser.reads 60 "versus x in re \x7b\n a <- pure 0\n amen a\n\x7d" (fun prog => Check.accepts 60 prog && prog.verses.any (fun v => v.mode.isPlagal &&
      !(operations v.body).any low)) = true := by
    decide +kernel
  obtain ⟨prog,parsed,good⟩ := Parser.readsParses test
  rw [Bool.and_eq_true,List.any_eq_true] at good
  obtain ⟨accepted,v,among,silent⟩ := good
  rw [Bool.and_eq_true,Bool.not_eq_true'] at silent
  have survives := all _ prog v parsed (Check.acceptsOf accepted) among
  have lower := (survivesSounds (versesPhrased parsed among) survives).1 silent.1
  rw [silent.2] at lower
  cases lower

end Officium.Audio
