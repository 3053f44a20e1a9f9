import Mathlib.Algebra.Order.BigOperators.Group.List
import Mathlib.Algebra.Order.Group.Nat
import Officium.Audio.Playing

/-! Rendering with the arithmetic that can overflow: an onset has 32 bits, a voice has 8. Where nothing
overflows the parts of a program lie one after another, each on its own voice. -/
namespace Officium.Audio

/- `degree_pitch`, unless `deg - 1`, the `i8` offset or the `i16` sum overflows. -/
def degreePitchChecked (mode : Mode) (deg : Nat) : Option Pitch :=
  let offset := degreeOffset mode deg
  let sum := ((finalPitch mode.final_).toNat : Int) + offset
  if 1 ≤ deg ∧ -2^7 ≤ offset ∧ offset < 2^7 ∧ -2^15 ≤ sum ∧ sum < 2^15 then some (degreePitch mode deg) else none

def pushNoteChecked (mode : Mode) (op : RenderOp) (voice : UInt8) (dur : Nat) (out : Events) : Option Events := do
  let pitch ← degreePitchChecked mode (degree mode op)
  let next ← ticksSum out.2 dur
  return (out.1 ++ [⟨pitch,out.2,dur,voice⟩],next)

def walkVerseChecked (mode : Mode) (voice : UInt8) : Expr → Events → Option Events
  | .bind _ m _ k, out => do
    let out ← pushNoteChecked mode (classify m) voice 1 out
    walkVerseChecked mode voice k out
  | .ifE _ t e, out => do
    let out ← pushNoteChecked mode .branch voice 1 out
    let out ← walkVerseChecked mode voice t out
    walkVerseChecked mode voice e out
  | .ret _ _, out | .nihil, out | .clama _, out | .perage _, out => pushNoteChecked mode .cadence voice 2 out
  | _, out => some out

def renderVerseChecked (body : Expr) (mode : Mode) (voice : UInt8) : Option (List Note) :=
  (walkVerseChecked mode voice body ([],0)).map Prod.fst

def pushSubjectChecked (mode : Mode) (out : Events) (deg : Nat) : Option Events := do
  let pushed ← pushNoteChecked mode .bindOther 1 0 out
  let pitch ← degreePitchChecked mode deg
  let next ← ticksSum pushed.2 1
  return (pushed.1.modifyLast (fun n => { n with pitch := pitch, dur := 1 }),next)

/- `final_pitch(f) - 24` in 8 bits. -/
def pedalPitch (f : Final) : Option Pitch := if 24 ≤ finalPitch f then some (finalPitch f - 24) else none

/- `onset - pedal_start` in 32 bits. -/
def ticksDifference (onset start : Nat) : Option Nat := if start ≤ onset then some (onset - start) else none

def exposeChecked (mode : Mode) (fugue : Fugue) (out : Events) : Option Events :=
  if fugue.subject.isSome then subjectMotif.foldlM (pushSubjectChecked mode) out else some out

def renderFugueChecked (out : Events) (fugue : Fugue) : Option Events := do
  let exposed ← exposeChecked (.fromFinal fugue.final_ false) fugue out
  let held ← ticksDifference exposed.2 out.2
  if fugue.pedals.isEmpty then return exposed
  else
    let pitch ← pedalPitch fugue.final_
    return (exposed.1 ++ [⟨pitch,out.2,max held 2,0⟩],exposed.2)

/- `2 + i as u8`: the index is cut to 8 bits, the sum is not. -/
def verseVoice (i : Nat) : Option UInt8 := if 2 + (UInt8.ofNat i).toNat < 2^8 then some (2 + UInt8.ofNat i) else none

def renderVersus (out : Events) (v : Versus × Nat) : Option Events := do
  let voice ← verseVoice v.2
  walkVerseChecked v.1.mode voice v.1.body out

def renderProgramChecked (prog : Program) : Option (List Note) := do
  let fugues ← prog.fugues.foldlM renderFugueChecked ([],0)
  let verses ← prog.verses.zipIdx.foldlM renderVersus fugues
  return verses.1

/- The ticks of a verse body, and of a program. -/
def ticks : Expr → Nat
  | .bind _ _ _ k => 1 + ticks k
  | .ifE _ t e => 1 + (ticks t + ticks e)
  | .ret _ _ | .nihil | .clama _ | .perage _ => 2
  | _ => 0

def programTicks (prog : Program) : Nat := (prog.fugues.map exposition).sum + (prog.verses.map (fun v => ticks v.body)).sum

/- A note so much later. -/
def Note.delayed (start : Nat) (n : Note) : Note := { n with onset := start + n.onset }

/- The parts of a rendered program: a subject and a pedal for each fugue, then the verses. -/
structure Arrangement (prog : Program) where
  subject : Nat → List Note
  pedal : Nat → List Note
  verse : Nat → List Note
  voice : Nat → UInt8
  start : Nat → Nat
  subjects : ∀ i fugue, prog.fugues[i]? = some fugue → (subject i).length = exposition fugue ∧ ∀ n ∈ subject i, n.voice = 1
  pedals : ∀ i fugue, prog.fugues[i]? = some fugue → (pedal i).length = (if fugue.pedals.isEmpty then 0 else 1) ∧ ∀ n ∈ pedal i, n.voice = 0
  high : ∀ i < prog.verses.length, 2 ≤ voice i
  apart : ∀ i < prog.verses.length, ∀ j < prog.verses.length, voice i = voice j → i = j
  shifted : ∀ i v, prog.verses[i]? = some v →
    ∃ notes, renderVerseChecked v.body v.mode (voice i) = some notes ∧ verse i = notes.map (Note.delayed (start i))
  own : ∀ i < prog.verses.length, ∀ n ∈ verse i, n.voice = voice i
  line : ∀ i < prog.verses.length, (verse i).IsChain (fun n m => m.onset = n.onset + n.dur)
  after : ∀ i < prog.verses.length, ∀ j < i, ∀ m ∈ verse j, ∀ n ∈ verse i, m.end_ ≤ n.onset

def Arrangement.notes {prog : Program} (a : Arrangement prog) : List Note :=
  (List.range prog.fugues.length).flatMap (fun i => a.subject i ++ a.pedal i) ++ (List.range prog.verses.length).flatMap a.verse

/- Rendering ends without an overflow, and no two voices collide. -/
def VoicesApart (prog : Program) : Prop := ∃ a : Arrangement prog, renderProgramChecked prog = some a.notes

section Spine

/- What a body off the spine is: a cadence, or nothing to hear. -/
structure Ending (e : Expr) : Prop where
  walked : ∀ mode voice out, walkVerse mode voice e out = pushNote mode .cadence voice 2 out
  checked : ∀ mode voice out, walkVerseChecked mode voice e out = pushNoteChecked mode .cadence voice 2 out
  held : ticks e = 2

structure Silent (e : Expr) : Prop where
  walked : ∀ mode voice out, walkVerse mode voice e out = out
  checked : ∀ mode voice out, walkVerseChecked mode voice e out = some out
  held : ticks e = 0

variable {P : Expr → Prop}

/- Induction along the spine that a verse is walked on. -/
@[elab_as_elim]
theorem spineInduction (bind : ∀ mode m name k, P k → P (.bind mode m name k)) (ifE : ∀ c t e, P t → P e → P (.ifE c t e))
    (ending : ∀ e, Ending e → P e) (silent : ∀ e, Silent e → P e) : ∀ e, P e
  | .bind mode m name k => bind mode m name k (spineInduction bind ifE ending silent k)
  | .ifE c t e => ifE c t e (spineInduction bind ifE ending silent t) (spineInduction bind ifE ending silent e)
  | .ret _ _ | .nihil | .clama _ | .perage _ => ending _ ⟨fun _ _ _ => rfl,fun _ _ _ => rfl,rfl⟩
  | .var _ | .lam _ _ | .app _ _ | .lit _ | .fix _ | .pure _ _ | .arg | .ask _ | .resolve _ _ | .recipe _ _ _ | .lege
  | .pone _ | .mitte _ | .lift _ => silent _ ⟨fun _ _ _ => rfl,fun _ _ _ => rfl,rfl⟩

end Spine

section Fits

/- A result that stands where the ticks reached for it fit. -/
def within {α : Type} (t : Nat) (x : α) : Option α := if t < ticksBound then some x else none

theorem withinBind {α β : Type} {t t' : Nat} {x : α} {y : β} {f : α → Option β} (later : t ≤ t')
    (next : t < ticksBound → f x = within t' y) : (within t x).bind f = within t' y := by
  unfold within at next ⊢
  by_cases fits : t < ticksBound
  · rw [if_pos fits,Option.bind_some]
    exact next fits
  · rw [if_neg fits,if_neg (by omega)]
    rfl

theorem withinSome {α : Type} {t : Nat} {x : α} (fits : t < ticksBound) : some x = within t x := (if_pos fits).symm

theorem pitchFits (mode : Mode) : ∀ deg ∈ degrees, degreePitchChecked mode deg = some (degreePitch mode deg) := by
  cases mode <;> decide

theorem pushFits (mode : Mode) (op : RenderOp) (voice : UInt8) (dur : Nat) (out : Events) :
    pushNoteChecked mode op voice dur out = within (out.2 + dur) (pushNote mode op voice dur out) := by
  rw [pushNoteChecked,pitchFits mode _ (degreeIs mode op)]
  change (ticksSum out.2 dur).bind _ = _
  rw [ticksSum,within]
  split <;> rfl

theorem walkTicks (mode : Mode) (voice : UInt8) (e : Expr) (out : Events) : (walkVerse mode voice e out).2 = out.2 + ticks e := by
  induction e using spineInduction generalizing out with
  | bind _ m _ k ih => rw [walkVerse,ih,pushNote,ticks,Nat.add_assoc]
  | ifE _ t e ih ih' => rw [walkVerse,ih',ih,pushNote,ticks,Nat.add_assoc,Nat.add_assoc]
  | ending e end_ => rw [end_.walked,end_.held,pushNote]
  | silent e rest => rw [rest.walked,rest.held,Nat.add_zero]

/- A body is walked without an overflow exactly when its last tick fits. -/
theorem walkFits (mode : Mode) (voice : UInt8) (e : Expr) {out : Events} (now : out.2 < ticksBound) :
    walkVerseChecked mode voice e out = within (out.2 + ticks e) (walkVerse mode voice e out) := by
  induction e using spineInduction generalizing out with
  | bind _ m _ k ih =>
    rw [walkVerseChecked,walkVerse,pushFits,ticks,← Nat.add_assoc]
    exact withinBind (Nat.le_add_right _ _) (@ih (pushNote mode (classify m) voice 1 out))
  | ifE _ t e ih ih' =>
    rw [walkVerseChecked,walkVerse,pushFits,ticks,← Nat.add_assoc,← Nat.add_assoc]
    refine withinBind (by omega) fun fits => ?_
    have branch_ : walkVerseChecked mode voice t (pushNote mode .branch voice 1 out) = within (out.2 + 1 + ticks t) _ := ih fits
    rw [branch_]
    refine withinBind (Nat.le_add_right _ _) fun fits' => ?_
    have there : (walkVerse mode voice t (pushNote mode .branch voice 1 out)).2 = out.2 + 1 + ticks t := walkTicks _ _ _ _
    rw [← there] at fits' ⊢
    exact ih' fits'
  | ending e end_ => rw [end_.checked,end_.walked,end_.held,pushFits]
  | silent e rest => rw [rest.checked,rest.walked,rest.held,Nat.add_zero,← withinSome now]

theorem subjectFits (mode : Mode) (out : Events) {deg : Nat} (known : deg ∈ degrees) :
    pushSubjectChecked mode out deg = within (out.2 + 1) (pushSubject mode out deg) := by
  rw [pushSubjectChecked,pushFits]
  refine withinBind (by omega) fun fits => ?_
  rw [pitchFits mode deg known]
  change (ticksSum out.2 1).bind _ = _
  rw [ticksSum,within]
  split <;> rfl

/- A fold of steps that each fit where their own last tick does. -/
theorem foldFits {α : Type} {f : Events → α → Option Events} {g : Events → α → Events} (len : α → Nat) {l : List α}
    (moves : ∀ a ∈ l, ∀ out, (g out a).2 = out.2 + len a)
    (step : ∀ a ∈ l, ∀ out : Events, out.2 < ticksBound → f out a = within (out.2 + len a) (g out a)) {out : Events} (now : out.2 < ticksBound) :
    l.foldlM f out = within (out.2 + (l.map len).sum) (l.foldl g out) := by
  induction l generalizing out with
  | nil => exact withinSome now
  | cons a rest ih =>
    have later (now : (g out a).2 < ticksBound) := ih (fun b mem => moves b (List.mem_cons_of_mem _ mem))
      (fun b mem => step b (List.mem_cons_of_mem _ mem)) now
    rw [moves a List.mem_cons_self out] at later
    rw [List.foldlM_cons,step a List.mem_cons_self out now,List.map_cons,List.sum_cons,← Nat.add_assoc]
    exact withinBind (Nat.le_add_right _ _) later

theorem foldFails {α : Type} {f : Events → α → Option Events} {l : List α} {a : α} (mem : a ∈ l) (fails : ∀ out, f out a = none) (out : Events) :
    l.foldlM f out = none := by
  induction l generalizing out with
  | nil => cases mem
  | cons b rest ih =>
    rw [List.foldlM_cons]
    rcases List.mem_cons.mp mem with rfl | later
    · rw [fails]
      rfl
    · cases f out b with
      | none => rfl
      | some out' => exact ih later out'

theorem motifFits (mode : Mode) {out : Events} (now : out.2 < ticksBound) : subjectMotif.foldlM (pushSubjectChecked mode) out =
    within (out.2 + 4) (subjectMotif.foldl (pushSubject mode) out) :=
  foldFits (fun _ => 1) (fun _ _ _ => rfl) (fun _ mem out _ => subjectFits mode out (by revert mem; decide +revert)) now

theorem fugueMoves (out : Events) (fugue : Fugue) : (renderFugue out fugue).2 = out.2 + exposition fugue := (fuguePedals out fugue).1

theorem pedalFits (f : Final) : pedalPitch f = some (finalPitch f - 24) := by cases f <;> rfl

theorem fugueFits {out : Events} (now : out.2 < ticksBound) (fugue : Fugue) :
    renderFugueChecked out fugue = within (out.2 + exposition fugue) (renderFugue out fugue) := by
  have exposed : exposeChecked (.fromFinal fugue.final_ false) fugue out = within (out.2 + exposition fugue)
      (if fugue.subject.isSome then subjectMotif.foldl (pushSubject (.fromFinal fugue.final_ false)) out else out) := by
    unfold exposeChecked exposition hasSubject
    cases fugue.subject.isSome with
    | true => exact motifFits _ now
    | false => exact withinSome now
  rw [renderFugueChecked,exposed]
  refine withinBind (Nat.le_refl _) fun fits => ?_
  have later : out.2 ≤ (if fugue.subject.isSome then subjectMotif.foldl (pushSubject (.fromFinal fugue.final_ false)) out else out).2 := by
    split
    · exact Nat.le_add_right out.2 4
    · exact Nat.le_refl _
  rw [ticksDifference,if_pos later,pedalFits,← withinSome fits,renderFugue]
  cases fugue.pedals.isEmpty with
  | true => rfl
  | false => rfl

/- The first 254 verses have a voice of their own, the next one's does not fit. -/
theorem voiceFits {i : Nat} (few : i < 254) : verseVoice i = some (2 + UInt8.ofNat i) := by
  have small : (UInt8.ofNat i).toNat = i := UInt8.toNat_ofNat_of_lt' (Nat.lt_trans few (by decide))
  rw [verseVoice,small,if_pos (by omega)]

theorem versusFits {out : Events} (now : out.2 < ticksBound) {v : Versus × Nat} (few : v.2 < 254) :
    renderVersus out v = within (out.2 + ticks v.1.body) (walkVerse v.1.mode (2 + UInt8.ofNat v.2) v.1.body out) := by
  rw [renderVersus,voiceFits few]
  exact walkFits _ _ _ now

theorem versesTicks (verses : List Versus) : verses.zipIdx.map (fun v => ticks v.1.body) = verses.map (fun v => ticks v.body) := by
  have firsts : verses.zipIdx.map (fun v => ticks v.1.body) = (verses.zipIdx.map Prod.fst).map (fun v => ticks v.body) := by
    rw [List.map_map]
    rfl
  rw [firsts,List.zipIdx_map_fst]

theorem fuguesMove (fugues : List Fugue) (out : Events) : (fugues.foldl renderFugue out).2 = out.2 + (fugues.map exposition).sum := by
  induction fugues generalizing out with
  | nil => rfl
  | cons f rest ih => rw [List.foldl_cons,ih,fugueMoves,List.map_cons,List.sum_cons,Nat.add_assoc]

/- When a program is rendered without an overflow, and what comes of it. -/
theorem programFits {prog : Program} (few : prog.verses.length ≤ 254) :
    renderProgramChecked prog = within (programTicks prog) (renderProgram prog) := by
  have fugues : prog.fugues.foldlM renderFugueChecked ([],0) = within (0 + (prog.fugues.map exposition).sum) _ :=
    foldFits exposition (fun f _ out => fugueMoves out f) (fun f _ _ now => fugueFits now f) (by decide)
  rw [renderProgramChecked,fugues,Nat.zero_add]
  refine withinBind (Nat.le_add_right _ _) fun fits => ?_
  have moved : (prog.fugues.foldl renderFugue ([],0)).2 = (prog.fugues.map exposition).sum := (fuguesMove _ _).trans (Nat.zero_add _)
  rw [← moved] at fits
  have verses : prog.verses.zipIdx.foldlM renderVersus (prog.fugues.foldl renderFugue ([],0)) =
      within ((prog.fugues.foldl renderFugue ([],0)).2 + (prog.verses.zipIdx.map (fun v => ticks v.1.body)).sum) _ :=
    foldFits (fun v => ticks v.1.body) (fun v _ out => walkTicks _ _ _ _)
      (fun v mem _ now => versusFits now (Nat.lt_of_lt_of_le (List.snd_lt_of_mem_zipIdx mem) few)) fits
  rw [verses,versesTicks,moved]
  refine withinBind (Nat.le_refl _) fun fits' => ?_
  exact withinSome fits'

theorem programOverflows {prog : Program} (many : 254 < prog.verses.length) : renderProgramChecked prog = none := by
  have late : (prog.verses[254],254) ∈ prog.verses.zipIdx := List.mk_mem_zipIdx_iff_getElem?.mpr (List.getElem?_eq_getElem many)
  rw [renderProgramChecked]
  cases prog.fugues.foldlM renderFugueChecked ([],0) with
  | none => rfl
  | some out =>
    rw [Option.bind_eq_bind,Option.bind_some,foldFails late (fun _ => rfl)]
    rfl

end Fits

section Lines

/- Notes back to back from one tick to another. -/
def Legato : Nat → List Note → Nat → Prop
  | a, [], b => a = b
  | a, n :: rest, b => n.onset = a ∧ Legato (a + n.dur) rest b

variable {a b c : Nat} {notes more : List Note}

theorem lineAppend (first : Legato a notes b) (then_ : Legato b more c) : Legato a (notes ++ more) c := by
  induction notes generalizing a with
  | nil => exact first ▸ then_
  | cons n rest ih => exact ⟨first.1,ih first.2⟩

theorem lineDelayed (line : Legato a notes b) (start : Nat) : Legato (start + a) (notes.map (Note.delayed start)) (start + b) := by
  induction notes generalizing a with
  | nil => exact congrArg (start + ·) line
  | cons n rest ih => exact ⟨congrArg (start + ·) line.1,Nat.add_assoc start a n.dur ▸ ih line.2⟩

theorem lineChain (line : Legato a notes b) : notes.IsChain (fun n m => m.onset = n.onset + n.dur) := by
  induction notes generalizing a with
  | nil => exact .nil
  | cons n rest ih =>
    cases rest with
    | nil => exact .singleton n
    | cons m rest =>
      obtain ⟨here,later⟩ := line
      exact .cons_cons (here ▸ later.1) (ih later)

theorem lineWithin (line : Legato a notes b) : a ≤ b ∧ ∀ n ∈ notes, a ≤ n.onset ∧ n.end_ ≤ b := by
  induction notes generalizing a with
  | nil => exact ⟨Nat.le_of_eq line,nofun⟩
  | cons n rest ih =>
    obtain ⟨here,later⟩ := line
    obtain ⟨end_,all⟩ := ih later
    refine ⟨by omega,fun m mem => ?_⟩
    rcases List.mem_cons.mp mem with rfl | mem
    · exact ⟨Nat.le_of_eq here.symm,by rw [Note.end_,here]; exact end_⟩
    · exact ⟨Nat.le_trans (Nat.le_add_right _ _) (all m mem).1,(all m mem).2⟩

theorem delayedTwice (start later : Nat) : (notes.map (Note.delayed later)).map (Note.delayed start) = notes.map (Note.delayed (start + later)) := by
  rw [List.map_map]
  refine List.map_congr_left fun n _ => ?_
  simp only [Function.comp_apply,Note.delayed,Nat.add_assoc]

/- A verse walked after other notes is the verse alone, later. -/
theorem walkShift (mode : Mode) (voice : UInt8) (e : Expr) (out : Events) :
    walkVerse mode voice e out = (out.1 ++ (renderVerse e mode voice).map (Note.delayed out.2),out.2 + ticks e) := by
  refine Prod.ext ?_ (walkTicks mode voice e out)
  induction e using spineInduction generalizing out with
  | bind _ m _ k ih =>
    rw [renderVerse,walkVerse,walkVerse,ih,ih (pushNote mode (classify m) voice 1 ([],0))]
    simp only [pushNote,List.nil_append,List.map_append,delayedTwice,List.append_assoc]
    rfl
  | ifE _ t e ih ih' =>
    rw [renderVerse,walkVerse,walkVerse,ih',ih,ih' (walkVerse _ _ _ _),ih (pushNote mode .branch voice 1 ([],0)),walkTicks,walkTicks]
    simp only [pushNote,List.nil_append,List.map_append,delayedTwice,List.append_assoc,Nat.add_assoc,Nat.zero_add]
    rfl
  | ending e end_ =>
    rw [renderVerse,end_.walked,end_.walked]
    rfl
  | silent e rest =>
    rw [renderVerse,rest.walked,rest.walked]
    exact (List.append_nil _).symm

/- What is so of the events at every point of a verse walked alone. -/
def Voiced (voice : UInt8) (out : Events) : Prop := Legato 0 out.1 out.2 ∧ ∀ n ∈ out.1, n.voice = voice

theorem voicedNothing (voice : UInt8) : Voiced voice ([],0) := ⟨rfl,nofun⟩

theorem voicedPush {voice : UInt8} {out : Events} (voiced : Voiced voice out) (mode : Mode) (op : RenderOp) (dur : Nat) :
    Voiced voice (pushNote mode op voice dur out) := by
  refine ⟨lineAppend voiced.1 ⟨rfl,rfl⟩,fun n mem => ?_⟩
  rcases List.mem_append.mp mem with before | now
  · exact voiced.2 n before
  · rw [List.mem_singleton.mp now]

/- A verse alone is one line on one voice. -/
theorem voicedVerse {voice : UInt8} {out : Events} (voiced : Voiced voice out) (mode : Mode) (e : Expr) : Voiced voice (walkVerse mode voice e out) := by
  induction e using spineInduction generalizing out with
  | bind _ m _ k ih => exact ih (voicedPush voiced mode (classify m) 1)
  | ifE _ t e ih ih' => exact ih' (ih (voicedPush voiced mode .branch 1))
  | ending e end_ => exact end_.walked mode voice out ▸ voicedPush voiced mode .cadence 2
  | silent e rest =>
    rw [rest.walked]
    exact voiced

theorem renderLine (mode : Mode) (voice : UInt8) (e : Expr) : Legato 0 (renderVerse e mode voice) (ticks e) := by
  have line := (voicedVerse (voicedNothing voice) mode e).1
  rwa [walkTicks,Nat.zero_add] at line

theorem renderVoice (mode : Mode) (voice : UInt8) (e : Expr) : ∀ n ∈ renderVerse e mode voice, n.voice = voice :=
  (voicedVerse (voicedNothing voice) mode e).2

end Lines

section Parts
variable {α : Type} (part : α → Nat → List Note) (len : α → Nat)

/- Parts one after another. -/
def placed : Nat → List α → List Note
  | _, [] => []
  | s, a :: rest => part a s ++ placed (s + len a) rest

/- Where the part at a place starts. -/
def startOf (s : Nat) (l : List α) (i : Nat) : Nat := s + ((l.take i).map len).sum

variable {part len}

variable (part len) in
theorem foldPlaced {g : Events → α → Events} (step : ∀ out a, g out a = (out.1 ++ part a out.2,out.2 + len a)) (l : List α) (out : Events) :
    l.foldl g out = (out.1 ++ placed part len out.2 l,out.2 + (l.map len).sum) := by
  induction l generalizing out with
  | nil => rw [placed,List.append_nil]; rfl
  | cons a rest ih => rw [List.foldl_cons,ih,step,placed,List.map_cons,List.sum_cons,List.append_assoc,Nat.add_assoc]

theorem placedRange (s : Nat) (l : List α) : placed part len s l =
    (List.range l.length).flatMap (fun i => l[i]?.elim [] (fun a => part a (startOf len s l i))) := by
  induction l generalizing s with
  | nil => rfl
  | cons a rest ih =>
    rw [placed,ih,List.length_cons,List.range_succ_eq_map,List.flatMap_cons,List.flatMap_map]
    refine congrArg (part a s ++ ·) (List.flatMap_congr fun i _ => ?_)
    simp only [List.getElem?_cons_succ,startOf,List.take_succ_cons,List.map_cons,List.sum_cons,Nat.add_assoc]

theorem startSucc {s i : Nat} {l : List α} {a : α} (here : l[i]? = some a) : startOf len s l (i + 1) = startOf len s l i + len a := by
  rw [startOf,startOf,List.take_add_one,here]
  simp [Nat.add_assoc]

theorem startMono (s : Nat) (l : List α) {i j : Nat} (le : i ≤ j) : startOf len s l i ≤ startOf len s l j := by
  obtain ⟨k,rfl⟩ := Nat.exists_eq_add_of_le le
  induction k with
  | zero => exact Nat.le_refl _
  | succ k ih =>
    refine Nat.le_trans (ih (Nat.le_add_right i k)) ?_
    cases here : l[i + k]? with
    | none =>
      rw [startOf,startOf,← Nat.add_assoc,List.take_add_one,here]
      simp
    | some a =>
      rw [← Nat.add_assoc,startSucc here]
      exact Nat.le_add_right _ _

end Parts

section Arranged

/- The notes of a fugue that starts at a tick. -/
def subjectNotes (fugue : Fugue) (start : Nat) : List Note :=
  if hasSubject fugue then subjectMotif.zipIdx.map (fun d => ⟨degreePitch (.fromFinal fugue.final_ false) d.1,start + d.2,1,1⟩) else []

def pedalNotes (fugue : Fugue) (start : Nat) : List Note :=
  if fugue.pedals.isEmpty then [] else [⟨finalPitch fugue.final_ - 24,start,max (exposition fugue) 2,0⟩]

def fugueNotes (fugue : Fugue) (start : Nat) : List Note := subjectNotes fugue start ++ pedalNotes fugue start

/- The notes of the verse at a place. -/
def versusNotes (v : Versus × Nat) (start : Nat) : List Note :=
  (renderVerse v.1.body v.1.mode (2 + UInt8.ofNat v.2)).map (Note.delayed start)

theorem motifIs (mode : Mode) (out : Events) : subjectMotif.foldl (pushSubject mode) out =
    (out.1 ++ subjectMotif.zipIdx.map (fun d => ⟨degreePitch mode d.1,out.2 + d.2,1,1⟩),out.2 + 4) := by
  simp [subjectMotif,pushSubjectIs]

theorem fugueIs (out : Events) (fugue : Fugue) : renderFugue out fugue = (out.1 ++ fugueNotes fugue out.2,out.2 + exposition fugue) := by
  refine Prod.ext ?_ (fugueMoves out fugue)
  unfold renderFugue fugueNotes subjectNotes pedalNotes exposition hasSubject
  dsimp only
  cases fugue.subject.isSome with
  | true =>
    simp only [if_true,motifIs,Nat.add_sub_cancel_left]
    split <;> simp
  | false =>
    simp only [Bool.false_eq_true,if_false,Nat.sub_self]
    split <;> simp

theorem subjectVoice (fugue : Fugue) (start : Nat) : (subjectNotes fugue start).length = exposition fugue ∧ ∀ n ∈ subjectNotes fugue start, n.voice = 1 := by
  unfold subjectNotes exposition
  split
  · refine ⟨rfl,fun n mem => ?_⟩
    obtain ⟨d,-,rfl⟩ := List.mem_map.mp mem
    rfl
  · exact ⟨rfl,nofun⟩

theorem pedalVoice (fugue : Fugue) (start : Nat) :
    (pedalNotes fugue start).length = (if fugue.pedals.isEmpty then 0 else 1) ∧ ∀ n ∈ pedalNotes fugue start, n.voice = 0 := by
  unfold pedalNotes
  split
  · exact ⟨rfl,nofun⟩
  · refine ⟨rfl,fun n mem => ?_⟩
    rw [List.mem_singleton.mp mem]

variable (prog : Program)

def fugueStart (i : Nat) : Nat := startOf exposition 0 prog.fugues i

def verseStart (i : Nat) : Nat := startOf (fun v => ticks v.body) (prog.fugues.map exposition).sum prog.verses i

theorem programIs : renderProgram prog =
    (List.range prog.fugues.length).flatMap (fun i => prog.fugues[i]?.elim [] (fun f => subjectNotes f (fugueStart prog i)) ++
      prog.fugues[i]?.elim [] (fun f => pedalNotes f (fugueStart prog i))) ++
    (List.range prog.verses.length).flatMap (fun i => prog.verses[i]?.elim [] (fun v => versusNotes (v,i) (verseStart prog i))) := by
  have fugues := foldPlaced fugueNotes exposition fugueIs prog.fugues ([],0)
  have verses := foldPlaced versusNotes (fun v => ticks v.1.body) (fun out v => walkShift v.1.mode (2 + UInt8.ofNat v.2) v.1.body out)
    prog.verses.zipIdx (prog.fugues.foldl renderFugue ([],0))
  rw [renderProgram,verses,fugues]
  simp only [List.nil_append,Nat.zero_add]
  rw [placedRange,placedRange,List.length_zipIdx]
  congr 1
  · refine List.flatMap_congr fun i _ => ?_
    cases prog.fugues[i]? with
    | none => rfl
    | some f => rfl
  · refine List.flatMap_congr fun i _ => ?_
    rw [List.getElem?_zipIdx,startOf,List.map_take,versesTicks,← List.map_take,Nat.zero_add]
    cases prog.verses[i]? with
    | none => rfl
    | some v => rfl

theorem voiceNat {i : Nat} (few : i < 254) : (2 + UInt8.ofNat i).toNat = 2 + i := by
  have small : (UInt8.ofNat i).toNat = i := UInt8.toNat_ofNat_of_lt' (Nat.lt_trans few (by decide))
  rw [UInt8.toNat_add,small]
  exact Nat.mod_eq_of_lt (by change 2 + i < 256; omega)

variable {prog}

theorem versusWithin (i : Nat) {v : Versus} (here : prog.verses[i]? = some v) : ∀ n ∈ versusNotes (v,i) (verseStart prog i),
    verseStart prog i ≤ n.onset ∧ n.end_ ≤ verseStart prog (i + 1) := by
  have line := lineWithin (lineDelayed (renderLine v.mode (2 + UInt8.ofNat i) v.body) (verseStart prog i))
  intro n mem
  obtain ⟨from_,to_⟩ := line.2 n mem
  refine ⟨from_,?_⟩
  rwa [verseStart,startSucc here]

theorem bodyFits (short : programTicks prog < ticksBound) {i : Nat} {v : Versus} (here : prog.verses[i]? = some v) : ticks v.body < ticksBound := by
  have among : ticks v.body ∈ prog.verses.map (fun v => ticks v.body) := List.mem_map_of_mem (List.mem_of_getElem? here)
  have part := List.le_sum_of_mem among
  unfold programTicks at short
  omega

/- The parts of a program whose voices and ticks fit. -/
def arrange (few : prog.verses.length ≤ 254) (short : programTicks prog < ticksBound) : Arrangement prog where
  subject := fun i => prog.fugues[i]?.elim [] (fun f => subjectNotes f (fugueStart prog i))
  pedal := fun i => prog.fugues[i]?.elim [] (fun f => pedalNotes f (fugueStart prog i))
  verse := fun i => prog.verses[i]?.elim [] (fun v => versusNotes (v,i) (verseStart prog i))
  voice := fun i => 2 + UInt8.ofNat i
  start := verseStart prog
  subjects := by
    intro i fugue here
    rw [here]
    exact subjectVoice fugue _
  pedals := by
    intro i fugue here
    rw [here]
    exact pedalVoice fugue _
  high := by
    intro i lt
    rw [UInt8.le_iff_toNat_le,voiceNat (Nat.lt_of_lt_of_le lt few)]
    exact Nat.le_add_right 2 i
  apart := by
    intro i i_ j j_ same
    have both := congrArg UInt8.toNat same
    rw [voiceNat (Nat.lt_of_lt_of_le i_ few),voiceNat (Nat.lt_of_lt_of_le j_ few)] at both
    exact Nat.add_left_cancel both
  shifted := by
    intro i v here
    refine ⟨renderVerse v.body v.mode (2 + UInt8.ofNat i),?_,by rw [here]; rfl⟩
    have fits : 0 + ticks v.body < ticksBound := by rw [Nat.zero_add]; exact bodyFits short here
    rw [renderVerseChecked,walkFits _ _ _ (by decide),← withinSome fits]
    rfl
  own := by
    intro i lt n mem
    rw [List.getElem?_eq_getElem lt] at mem
    obtain ⟨m,m_,rfl⟩ := List.mem_map.mp mem
    exact renderVoice _ _ _ m m_
  line := by
    intro i lt
    rw [List.getElem?_eq_getElem lt]
    exact lineChain (lineDelayed (renderLine _ _ _) _)
  after := by
    intro i lt j before m m_ n n_
    rw [List.getElem?_eq_getElem (Nat.lt_trans before lt)] at m_
    rw [List.getElem?_eq_getElem lt] at n_
    have ends := (versusWithin j (List.getElem?_eq_getElem (Nat.lt_trans before lt)) m m_).2
    have starts := (versusWithin i (List.getElem?_eq_getElem lt) n n_).1
    exact Nat.le_trans ends (Nat.le_trans (startMono _ _ before) starts)

/- A program is rendered without an overflow and with its voices apart exactly when it has no more than 254 verses
and its ticks fit 32 bits. -/
theorem voicesApart (prog : Program) : VoicesApart prog ↔ prog.verses.length ≤ 254 ∧ programTicks prog < 2 ^ 32 := by
  constructor
  · rintro ⟨a,rendered⟩
    rcases Nat.lt_or_ge 254 prog.verses.length with many | few
    · rw [programOverflows many] at rendered
      cases rendered
    · refine ⟨few,?_⟩
      rw [programFits few,within] at rendered
      split at rendered
      · assumption
      · cases rendered
  · rintro ⟨few,short⟩
    refine ⟨arrange few short,?_⟩
    rw [programFits few,← withinSome short,programIs]
    rfl

/- 255 verses that only end. -/
def manyVerses : Program := ⟨[],List.replicate 255 ⟨"v",.dorian,.nihil,[]⟩⟩

theorem voicesCollide : ¬∀ prog, VoicesApart prog := by
  intro all
  obtain ⟨a,rendered⟩ := all manyVerses
  rw [programOverflows (Nat.lt_of_lt_of_eq (by decide) List.length_replicate.symm)] at rendered
  cases rendered

end Arranged

end Officium.Audio
