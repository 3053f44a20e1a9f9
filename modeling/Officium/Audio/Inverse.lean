import Officium.Cadence
import Officium.Determined
import Officium.Audio.Score

/-! Transcription and render, one after the other. A transcript is rendered as the phrase that was
played; a rendered verse is transcribed as the verse again only where its notes tell the mode. -/
namespace Officium.Audio
open Bounded (Returns)
open Lexer (Identifier)
open Officium.Parser (Parses)

section Pitches
variable {mode : Mode} {cadence p : Pitch} {final_ : Final} {pitches : List Pitch} {ops : List RenderOp} {i : Nat}

theorem finalFrom (final_ : Final) (plagal : Bool) : (Mode.fromFinal final_ plagal).final_ = final_ := by
  cases final_ <;> cases plagal <;> rfl

/- Every degree of a mode is a note of the manual. -/
theorem pitchValue (mode : Mode) : ∀ deg ∈ degrees,
    ((degreePitch mode deg).toNat : Int) = (finalPitch mode.final_).toNat + degreeOffset mode deg := by
  cases mode <;> decide

theorem opPitch (mode : Mode) (op : RenderOp) : ((degreePitch mode (degree mode op)).toNat : Int) =
    (finalPitch mode.final_).toNat + degreeOffset mode (degree mode op) := pitchValue mode _ (degreeIs mode op)

theorem finalClass (h : finalOf cadence = some final_) : (finalPitch final_).toNat % 12 = cadence.toNat % 12 := by
  unfold finalOf at h
  split at h
  case h_5 => cases h
  all_goals
    rename_i class_
    cases h
    rw [class_]
    rfl

/- The octaves from the cadence to the final of the fourth octave. -/
theorem octaves (h : finalOf cadence = some final_) : ∃ k : Int, ((finalPitch final_).toNat : Int) = cadence.toNat + 12 * k := by
  have same := finalClass h
  generalize (finalPitch final_).toNat = a at same ⊢
  generalize cadence.toNat = b at same ⊢
  exact ⟨((a : Int) - b) / 12,by omega⟩

theorem readOpsCons {rest : List Pitch} (h : readOps mode cadence i (p :: rest) = .ok ops) :
    ∃ deg op ops', degreeOf mode cadence p = some deg ∧ opOfDegree mode deg = some op ∧ readOps mode cadence (i+1) rest = .ok ops' ∧
      ops = op :: ops' := by
  rw [readOps] at h
  cases degree_ : degreeOf mode cadence p with
  | none => rw [degree_] at h; cases h
  | some deg =>
    rw [degree_] at h
    simp only at h
    cases read : opOfDegree mode deg with
    | none => rw [read] at h; cases h
    | some op =>
      rw [read] at h
      simp only at h
      cases later : readOps mode cadence (i+1) rest with
      | error e => rw [later] at h; cases h
      | ok ops' =>
        rw [later] at h
        cases h
        exact ⟨deg,op,ops',rfl,read,rfl,rfl⟩

theorem degreeSounds {deg : Nat} (h : degreeOf mode cadence p = some deg) : (p.toNat : Int) = cadence.toNat + degreeOffset mode deg := by
  have offset := (degreeOfSome h).2
  omega

/- The operations a phrase is read as sound like the phrase, from the final. -/
theorem readOpsSound (h : readOps mode cadence i pitches = .ok ops) : (melody mode ops).map (fun p => (p.toNat : Int)) =
    pitches.map (fun p => (p.toNat : Int) + ((finalPitch mode.final_).toNat - cadence.toNat)) := by
  induction pitches generalizing i ops with
  | nil =>
    cases h
    rfl
  | cons p rest ih =>
    obtain ⟨deg,op,ops',degree_,op_,later,rfl⟩ := readOpsCons h
    have here := opPitch mode op
    rw [degreeOp op_] at here
    have played := degreeSounds degree_
    have first : ((degreePitch mode (degree mode op)).toNat : Int) = (p.toNat : Int) + ((finalPitch mode.final_).toNat - cadence.toNat) := by
      rw [degreeOp op_,here,played]
      omega
    rw [melody,List.map_cons,List.map_cons,List.map_cons,first]
    exact congrArg _ (ih later)

theorem readOpsModal (h : readOps mode cadence i pitches = .ok ops) (modal : RenderOp.modal ∈ ops) :
    ∃ p ∈ pitches, degreeOf mode cadence p = some 6 := by
  induction pitches generalizing i ops with
  | nil =>
    cases h
    cases modal
  | cons p rest ih =>
    obtain ⟨deg,op,ops',degree_,op_,later,rfl⟩ := readOpsCons h
    rcases List.mem_cons.mp modal with rfl | modal
    · exact ⟨p,List.mem_cons_self,by rw [degree_,← degreeOp op_]; rfl⟩
    · obtain ⟨q,among,six⟩ := ih later modal
      exact ⟨q,.tail _ among,six⟩

end Pitches

section Hearing
variable {mode : Mode} {ops : List RenderOp}

/- The modes with a modal operation that is no cadence. -/
def modalModes : List Mode := [.lydian,.hypolydian,.hypomixolydian]

theorem heardSame {op : RenderOp} : heard mode op = op ↔ (op = .modal → mode ∈ modalModes) := by
  cases op
  case modal => cases mode <;> decide
  all_goals exact ⟨fun _ => nofun,fun _ => rfl⟩

theorem heardAll : ops.map (heard mode) = ops ↔ (.modal ∈ ops → mode ∈ modalModes) := by
  induction ops with
  | nil => exact ⟨fun _ => nofun,fun _ => rfl⟩
  | cons op ops ih =>
    rw [List.map_cons,List.cons.injEq,heardSame,ih,List.mem_cons]
    constructor
    · rintro ⟨first,rest⟩ (same | mem)
      · exact first same.symm
      · exact rest mem
    · intro all
      exact ⟨fun same => all (.inl same.symm),fun mem => all (.inr mem)⟩

/- The mode a phrase is played in. -/
def recovered (pitches : List Pitch) (cadence : Pitch) (final_ : Final) : Mode := .fromFinal final_ (isPlagal pitches cadence)

/- A transcript and the verse it is read as. -/
structure Transcript (pitches : List Pitch) (name text : String) (cadence : Pitch) (final_ : Final) (ops : List RenderOp) (e : Expr) : Prop where
  last : pitches.getLast? = some cadence
  ends : finalOf cadence = some final_
  read : readOps (recovered pitches cadence final_) cadence 1 pitches = .ok ops
  parses : ∃ fugues, Parses text ⟨fugues,[⟨name,recovered pitches cadence final_,e,[]⟩]⟩
  hears : operations e = ops.map (heard (recovered pitches cadence final_))

/- What a transcript is read as: the sketch of the phrase it was sung as, and an organ where the phrase needs one. -/
structure Reading (pitches : List Pitch) (name text : String) (cadence : Pitch) (final_ : Final) (phrase : Phrase) (x y : Scalar) : Prop where
  last : pitches.getLast? = some cadence
  ends : finalOf cadence = some final_
  read : readOps (recovered pitches cadence final_) cadence 1 pitches = .ok phrase.ops
  parses : Parses text ⟨organs (phrase.ops.any needsOrgan) final_ y,
    [⟨name,recovered pitches cadence final_,(sketch x (recovered pitches cadence final_) phrase ⟨0,none⟩).1,[]⟩]⟩
  hears : operations (sketch x (recovered pitches cadence final_) phrase ⟨0,none⟩).1 = phrase.ops.map (heard (recovered pitches cadence final_))

theorem readingOf {pitches : List Pitch} {name text : String} (identifier : Identifier name) (transcribed : Transcribes pitches name text) :
    ∃ cadence final_ phrase x y, Reading pitches name text cadence final_ phrase x y := by
  obtain ⟨n,h⟩ := transcribed
  unfold transcribe at h
  cases last : pitches.getLast? with
  | none => rw [last] at h; cases h
  | some cadence =>
    rw [last] at h
    simp only at h
    cases ends : finalOf cadence with
    | none => rw [ends] at h; cases h
    | some final_ =>
      rw [ends] at h
      simp only at h
      split at h
      · cases h
      · rename_i ops read
        split at h
        · cases h
        · cases h
        · rename_i t ran
          split at h
          · cases h
          · rename_i all
            obtain ⟨x,zero⟩ := zeroIs
            have sketched : Sketched x ⟨ops,recovered pitches cadence final_,0,"",0,none,false⟩ t := blockSketched zero ran nofun
            obtain ⟨phrase,chunk,ts,copied,-,written,whole,organ⟩ := sketched.copied
            have empty : Lexer.bytes "" = [] := by decide
            rw [empty,List.nil_append] at written
            rw [List.drop_of_length_le (Nat.le_of_eq (not_not.mp all).symm),List.append_nil] at whole
            have same : t.mode = recovered pitches cadence final_ := sketched.mode
            cases h
            obtain rfl : ops = phrase.ops := whole
            have hears := copied.hears
            rw [← written] at copied
            obtain ⟨y,parsed⟩ := scoreParses pitches identifier same (same.symm ▸ copied)
            rw [same,organ,Bool.false_or] at parsed
            exact ⟨cadence,final_,phrase,x,y,last,ends,read,parsed,hears⟩

theorem transcriptOf {pitches : List Pitch} {name text : String} (identifier : Identifier name) (transcribed : Transcribes pitches name text) :
    ∃ cadence final_ ops e, Transcript pitches name text cadence final_ ops e := by
  obtain ⟨cadence,final_,phrase,x,y,reading⟩ := readingOf identifier transcribed
  exact ⟨cadence,final_,phrase.ops,_,reading.last,reading.ends,reading.read,⟨_,reading.parses⟩,reading.hears⟩

end Hearing

/- For every phrase that is transcribed under a name: without a modal note that its mode has no
statement for, the text is a verse that renders to the phrase, some octaves away. -/
theorem renderInverts {pitches : List Pitch} {name text : String} (identifier : Identifier name) (transcribed : Transcribes pitches name text) :
    ∃ cadence final_, pitches.getLast? = some cadence ∧ finalOf cadence = some final_ ∧
      ((∀ p ∈ pitches, degreeOf (recovered pitches cadence final_) cadence p = some 6 → recovered pitches cadence final_ ∈ modalModes) →
        ∃ prog v, Parses text prog ∧ prog.verses = [v] ∧ v.name = name ∧ v.mode = recovered pitches cadence final_ ∧ v.rhymes = [] ∧
          ∃ k : Int, ((finalPitch final_).toNat : Int) = cadence.toNat + 12 * k ∧
            ∀ voice, (renderVerse v.body v.mode voice).map (fun n => (n.pitch.toNat : Int)) = pitches.map (fun p => (p.toNat : Int) + 12 * k)) := by
  obtain ⟨cadence,final_,ops,e,transcript⟩ := transcriptOf identifier transcribed
  refine ⟨cadence,final_,transcript.last,transcript.ends,fun modal => ?_⟩
  obtain ⟨fugues,parsed⟩ := transcript.parses
  obtain ⟨k,shift⟩ := octaves transcript.ends
  refine ⟨_,_,parsed,rfl,rfl,rfl,rfl,k,shift,fun voice => ?_⟩
  have same : operations e = ops := by
    rw [transcript.hears,heardAll]
    intro mem
    obtain ⟨p,among,six⟩ := readOpsModal transcript.read mem
    exact modal p among six
  have sound := readOpsSound transcript.read
  have up : (finalPitch (recovered pitches cadence final_).final_).toNat - (cadence.toNat : Int) = 12 * k := by
    rw [recovered,finalFrom]
    omega
  rw [up] at sound
  have pitches_ := renderMelody e (recovered pitches cadence final_) voice
  rw [same] at pitches_
  rw [← sound,← pitches_,List.map_map]
  rfl

/- A phrase that turns at the octave and cadences twice. -/
theorem renderInvertsBranch : ∃ text prog v, Transcribes [64,74,65,62,62] "x" text ∧ Parses text prog ∧ prog.verses = [v] ∧ v.mode = .dorian ∧
    ∀ voice, (renderVerse v.body v.mode voice).map (fun n => (n.pitch.toNat : Int)) = [64,74,65,62,62] := by
  have transcribed : ∃ text, Transcribes [64,74,65,62,62] "x" text := ⟨_,4,rfl⟩
  obtain ⟨text,transcribed⟩ := transcribed
  obtain ⟨cadence,final_,last,ends,inverts⟩ := renderInverts (by decide) transcribed
  obtain rfl : cadence = 62 := (Option.some.inj last).symm
  obtain rfl : final_ = .re := (Option.some.inj ends).symm
  have plain : ∀ p ∈ ([64,74,65,62,62] : List Pitch), degreeOf .dorian 62 p ≠ some 6 := by
    simp only [List.forall_mem_cons]
    exact ⟨by decide,by decide,by decide,by decide,by decide,fun _ mem => by cases mem⟩
  obtain ⟨prog,v,parsed,alone,-,mode,-,k,shift,same⟩ := inverts (fun p among six => absurd six (plain p among))
  have cadence_ : (62 : Pitch).toNat = 62 := by decide
  have re : (finalPitch .re).toNat = 62 := by decide
  rw [cadence_,re] at shift
  obtain rfl : k = 0 := by omega
  exact ⟨text,prog,v,transcribed,parsed,alone,mode,same⟩

end Officium.Audio
