import Mathlib.Data.List.ModifyLast
import Officium.Env
import Officium.Audio.Render

/-! A whole program read back: the pedals and subjects of its fugues, then its verses. The melody is one
line of notes, each after the one before; only the pedals lie under others, and the pedal of a fugue
without a subject does not move the onset on. -/
namespace Officium.Audio

/- Final, reciting tone, third, final. -/
def subjectMotif : List Nat := [1,5,3,1]

/- A note of the subject, pushed as a line of a verse and then given the motif's degree and length. -/
def pushSubject (mode : Mode) (out : Events) (deg : Nat) : Events :=
  let pushed := pushNote mode .bindOther 1 0 out
  (pushed.1.modifyLast (fun n => { n with pitch := degreePitch mode deg, dur := 1 }),pushed.2 + 1)

def renderFugue (out : Events) (fugue : Fugue) : Events :=
  let mode := Mode.fromFinal fugue.final_ false
  let exposed := if fugue.subject.isSome then subjectMotif.foldl (pushSubject mode) out else out
  let pedalDur := max (exposed.2 - out.2) 2
  if fugue.pedals.isEmpty then exposed
  else (exposed.1 ++ [⟨finalPitch fugue.final_ - 24,out.2,pedalDur,0⟩],exposed.2)

/- Pedals on voice 0, subjects on voice 1, verses on voices 2 and up. -/
def renderProgram (prog : Program) : List Note :=
  (prog.verses.zipIdx.foldl (fun out v => walkVerse v.1.mode (2 + UInt8.ofNat v.2) v.1.body out)
    (prog.fugues.foldl renderFugue ([],0))).1

def Note.end_ (n : Note) : Nat := n.onset + n.dur

/- The pitches of the pedals, two octaves below the finals. -/
def pedalPitches : List Pitch := [38,40,41,43]

def Note.isPedal (n : Note) : Bool := pedalPitches.contains n.pitch

def Note.isMelody (n : Note) : Bool := !n.isPedal

section Layout

/- What is so of the events at every point of the rendering. -/
structure Laid (out : Events) : Prop where
  sounds : ∀ n ∈ out.1, 1 ≤ n.dur
  melody : ∀ n ∈ out.1, n.isPedal = false → n.end_ ≤ out.2
  line : (out.1.filter Note.isMelody).Pairwise (fun n m => n.end_ ≤ m.onset)

theorem laidStart : Laid ([],0) := ⟨nofun,nofun,.nil⟩

/- A note of the melody put at the end. -/
theorem laidMelody {out : Events} (laid : Laid out) {pitch : Pitch} {voice : UInt8} {dur : Nat} (high : pedalPitches.contains pitch = false)
    (some_ : 1 ≤ dur) : Laid (out.1 ++ [⟨pitch,out.2,dur,voice⟩],out.2 + dur) where
  sounds := by
    intro n mem
    rcases List.mem_append.mp mem with before | now
    · exact laid.sounds n before
    · rw [List.mem_singleton.mp now]
      exact some_
  melody := by
    intro n mem high_
    rcases List.mem_append.mp mem with before | now
    · exact Nat.le_trans (laid.melody n before high_) (Nat.le_add_right _ _)
    · rw [List.mem_singleton.mp now]
      exact Nat.le_refl _
  line := by
    have last : Note.isMelody ⟨pitch,out.2,dur,voice⟩ = true := congrArg not high
    rw [List.filter_append,List.filter_cons_of_pos last,List.filter_nil,List.pairwise_append]
    refine ⟨laid.line,List.pairwise_singleton _ _,fun n before m now => ?_⟩
    rw [List.mem_singleton.mp now]
    obtain ⟨among,high_⟩ := List.mem_filter.mp before
    exact laid.melody n among (by simpa [Note.isMelody] using high_)

theorem degreeHigh (mode : Mode) : ∀ deg ∈ degrees, pedalPitches.contains (degreePitch mode deg) = false := by
  cases mode <;> decide

theorem laidPush {out : Events} (laid : Laid out) (mode : Mode) (op : RenderOp) (voice : UInt8) {dur : Nat} (some_ : 1 ≤ dur) :
    Laid (pushNote mode op voice dur out) := laidMelody laid (degreeHigh mode _ (degreeIs mode op)) some_

theorem pushSubjectIs (mode : Mode) (out : Events) (deg : Nat) :
    pushSubject mode out deg = (out.1 ++ [⟨degreePitch mode deg,out.2,1,1⟩],out.2 + 1) := by
  unfold pushSubject pushNote
  dsimp only
  rw [List.modifyLast_concat]

theorem laidSubject {out : Events} (laid : Laid out) (mode : Mode) {deg : Nat} (known : deg ∈ degrees) : Laid (pushSubject mode out deg) := by
  rw [pushSubjectIs]
  exact laidMelody laid (degreeHigh mode deg known) (Nat.le_refl 1)

theorem laidMotif {out : Events} (laid : Laid out) (mode : Mode) : Laid (subjectMotif.foldl (pushSubject mode) out) :=
  laidSubject (laidSubject (laidSubject (laidSubject laid mode (by decide)) mode (by decide)) mode (by decide)) mode (by decide)

theorem motifEnds (mode : Mode) (out : Events) : (subjectMotif.foldl (pushSubject mode) out).2 = out.2 + 4 := rfl

theorem laidPedal {out : Events} (laid : Laid out) {n : Note} (low : n.isPedal = true) (some_ : 1 ≤ n.dur) : Laid (out.1 ++ [n],out.2) where
  sounds := by
    intro m mem
    rcases List.mem_append.mp mem with before | now
    · exact laid.sounds m before
    · rw [List.mem_singleton.mp now]
      exact some_
  melody := by
    intro m mem high
    rcases List.mem_append.mp mem with before | now
    · exact laid.melody m before high
    · rw [List.mem_singleton.mp now,low] at high
      cases high
  line := by
    rw [List.filter_append,List.filter_cons_of_neg (by simp [Note.isMelody,low]),List.filter_nil,List.append_nil]
    exact laid.line

theorem pedalLow (f : Final) : pedalPitches.contains (finalPitch f - 24) = true := by cases f <;> decide

theorem pedalInj {f g : Final} (h : finalPitch f - 24 = finalPitch g - 24) : f = g := by
  cases f <;> cases g <;> first | rfl | exact absurd h (by decide)

theorem laidFugue {out : Events} (laid : Laid out) (fugue : Fugue) : Laid (renderFugue out fugue) := by
  unfold renderFugue
  have exposed : Laid (if fugue.subject.isSome then subjectMotif.foldl (pushSubject (.fromFinal fugue.final_ false)) out else out) := by
    split
    · exact laidMotif laid _
    · exact laid
  dsimp only
  split
  · exact exposed
  · exact laidPedal exposed (pedalLow _) (Nat.le_trans (by decide) (Nat.le_max_right _ _))

theorem laidVerse {out : Events} (laid : Laid out) (mode : Mode) (voice : UInt8) (e : Expr) : Laid (walkVerse mode voice e out) := by
  fun_induction walkVerse mode voice e out with
  | case1 out _ m _ k ih => exact ih (laidPush laid _ _ _ (Nat.le_refl 1))
  | case2 c t e out ih ih' => exact ih' (ih (laidPush laid _ _ _ (Nat.le_refl 1)))
  | case7 e out bind_ if_ ret_ nihil_ clama_ perage_ => exact laid
  | _ => exact laidPush laid _ _ _ (by decide)

theorem laidProgram (prog : Program) : Laid (prog.verses.zipIdx.foldl (fun out v => walkVerse v.1.mode (2 + UInt8.ofNat v.2) v.1.body out)
    (prog.fugues.foldl renderFugue ([],0))) := by
  have fugues : ∀ (fs : List Fugue) (out : Events), Laid out → Laid (fs.foldl renderFugue out) := by
    intro fs
    induction fs with
    | nil => exact fun _ laid => laid
    | cons f fs ih => exact fun out laid => ih _ (laidFugue laid f)
  have verses : ∀ (vs : List (Versus × Nat)) (out : Events), Laid out →
      Laid (vs.foldl (fun out v => walkVerse v.1.mode (2 + UInt8.ofNat v.2) v.1.body out) out) := by
    intro vs
    induction vs with
    | nil => exact fun _ laid => laid
    | cons v vs ih => exact fun out laid => ih _ (laidVerse laid _ _ _)
  exact verses _ _ (fugues _ _ laidStart)

end Layout

section Pedals

def hasSubject (fugue : Fugue) : Bool := fugue.subject.isSome

def exposition (fugue : Fugue) : Nat := if hasSubject fugue then 4 else 0

/- The pedals of the fugues from an onset on. -/
def pedalsFrom (onset : Nat) : List Fugue → List Note
  | [] => []
  | fugue :: rest =>
    (if fugue.pedals.isEmpty then [] else [⟨finalPitch fugue.final_ - 24,onset,max (exposition fugue) 2,0⟩]) ++
      pedalsFrom (onset + exposition fugue) rest

/- A pedal without a subject, and the next fugue that has one puts a pedal in the same final under it. -/
def Cut : List Fugue → Prop
  | [] => False
  | fugue :: rest =>
    (fugue.pedals.isEmpty = false ∧ fugue.subject = none ∧
      ∃ next, rest.find? hasSubject = some next ∧ next.pedals.isEmpty = false ∧ next.final_ = fugue.final_) ∨
    Cut rest

variable {out : Events} {onset : Nat} {fs : List Fugue}

theorem pedalsFilter {pitch : Pitch} (high : pedalPitches.contains pitch = false) {voice : UInt8} {dur : Nat} :
    (out.1 ++ [(⟨pitch,onset,dur,voice⟩ : Note)]).filter Note.isPedal = out.1.filter Note.isPedal := by
  rw [List.filter_append,List.filter_cons_of_neg (by rw [Note.isPedal,high]; decide),List.filter_nil,List.append_nil]

theorem motifPedals (mode : Mode) (out : Events) :
    (subjectMotif.foldl (pushSubject mode) out).1.filter Note.isPedal = out.1.filter Note.isPedal := by
  have one (out : Events) {deg : Nat} (known : deg ∈ degrees) : (pushSubject mode out deg).1.filter Note.isPedal = out.1.filter Note.isPedal := by
    rw [pushSubjectIs]
    exact pedalsFilter (degreeHigh mode deg known)
  exact (one _ (by decide)).trans ((one _ (by decide)).trans ((one _ (by decide)).trans (one _ (by decide))))

theorem fuguePedals (out : Events) (fugue : Fugue) : (renderFugue out fugue).2 = out.2 + exposition fugue ∧
    (renderFugue out fugue).1.filter Note.isPedal = out.1.filter Note.isPedal ++
      (if fugue.pedals.isEmpty then [] else [⟨finalPitch fugue.final_ - 24,out.2,max (exposition fugue) 2,0⟩]) := by
  have low (dur : Nat) : Note.isPedal ⟨finalPitch fugue.final_ - 24,out.2,dur,0⟩ = true := pedalLow _
  unfold renderFugue exposition hasSubject
  dsimp only
  cases fugue.subject.isSome with
  | true =>
    simp only [if_true]
    rw [motifEnds,Nat.add_sub_cancel_left]
    split
    · exact ⟨motifEnds (.fromFinal fugue.final_ false) out,(motifPedals _ _).trans (List.append_nil _).symm⟩
    · refine ⟨motifEnds (.fromFinal fugue.final_ false) out,?_⟩
      rw [List.filter_append,motifPedals,List.filter_cons_of_pos (low _),List.filter_nil]
  | false =>
    simp only [Bool.false_eq_true,if_false,Nat.sub_self]
    split
    · exact ⟨rfl,(List.append_nil _).symm⟩
    · refine ⟨rfl,?_⟩
      rw [List.filter_append,List.filter_cons_of_pos (low _),List.filter_nil]

theorem fuguesPedals (fs : List Fugue) (out : Events) :
    (fs.foldl renderFugue out).1.filter Note.isPedal = out.1.filter Note.isPedal ++ pedalsFrom out.2 fs := by
  induction fs generalizing out with
  | nil => exact (List.append_nil _).symm
  | cons f fs ih =>
    obtain ⟨moved,pedals⟩ := fuguePedals out f
    rw [List.foldl_cons,ih,pedals,moved,List.append_assoc]
    rfl

theorem versePedals (mode : Mode) (voice : UInt8) (e : Expr) (out : Events) :
    (walkVerse mode voice e out).1.filter Note.isPedal = out.1.filter Note.isPedal := by
  have push (op : RenderOp) (dur : Nat) (out : Events) : (pushNote mode op voice dur out).1.filter Note.isPedal = out.1.filter Note.isPedal :=
    pedalsFilter (degreeHigh mode _ (degreeIs mode op))
  fun_induction walkVerse mode voice e out with
  | case1 out _ m _ k ih => exact ih.trans (push _ _ _)
  | case2 c t e out ih ih' => exact ih'.trans (ih.trans (push _ _ _))
  | case7 e out bind_ if_ ret_ nihil_ clama_ perage_ => rfl
  | _ => exact push _ _ _

/- The pedals among a program's events. -/
theorem programPedals (prog : Program) : (renderProgram prog).filter Note.isPedal = pedalsFrom 0 prog.fugues := by
  have verses (vs : List (Versus × Nat)) (out : Events) :
      (vs.foldl (fun out v => walkVerse v.1.mode (2 + UInt8.ofNat v.2) v.1.body out) out).1.filter Note.isPedal =
        out.1.filter Note.isPedal := by
    induction vs generalizing out with
    | nil => rfl
    | cons v vs ih => exact (ih _).trans (versePedals _ _ _ _)
  exact (verses _ _).trans ((fuguesPedals _ _).trans (List.nil_append _))

/- A pedal never starts before the onset it is counted from, nor in the middle of an exposition. -/
theorem pedalsStart {n : Note} (mem : n ∈ pedalsFrom onset fs) : ∃ k, n.onset = onset + 4 * k := by
  induction fs generalizing onset with
  | nil => cases mem
  | cons f fs ih =>
    rw [pedalsFrom,List.mem_append] at mem
    rcases mem with here | later
    · split at here
      · cases here
      · exact ⟨0,by rw [List.mem_singleton.mp here]; rfl⟩
    · obtain ⟨k,same⟩ := ih later
      unfold exposition at same
      split at same
      · exact ⟨k+1,by omega⟩
      · exact ⟨k,by omega⟩

/- The pedals at the onset itself: those of the fugues up to the first subject. -/
theorem pedalsHere {n : Note} (mem : n ∈ pedalsFrom onset fs) (long : n.onset = onset) (held : 2 < n.dur) :
    ∃ next, fs.find? hasSubject = some next ∧ next.pedals.isEmpty = false ∧ n.pitch = finalPitch next.final_ - 24 := by
  induction fs with
  | nil => cases mem
  | cons f fs ih =>
    rw [pedalsFrom,List.mem_append] at mem
    cases subject : hasSubject f with
    | true =>
      refine ⟨f,List.find?_cons_of_pos subject,?_⟩
      rcases mem with here | later
      · split at here
        · cases here
        · rename_i some_
          rw [List.mem_singleton.mp here]
          exact ⟨by simpa using some_,rfl⟩
      · obtain ⟨k,same⟩ := pedalsStart later
        rw [exposition,subject,if_pos rfl] at same
        omega
    | false =>
      rw [List.find?_cons_of_neg (by simp [subject])]
      rcases mem with here | later
      · split at here
        · cases here
        · rw [List.mem_singleton.mp here,exposition,subject] at held
          exact absurd held (Nat.lt_irrefl 2)
      · rw [exposition,subject] at later
        exact ih later

theorem pedalsHeld {n : Note} (mem : n ∈ pedalsFrom onset fs) : 2 ≤ n.dur := by
  induction fs generalizing onset with
  | nil => cases mem
  | cons f fs ih =>
    rw [pedalsFrom,List.mem_append] at mem
    rcases mem with here | later
    · split at here
      · cases here
      · rw [List.mem_singleton.mp here]
        exact Nat.le_max_right _ _
    · exact ih later

/- The pedal of the next fugue with a subject, from the onset its exposition starts at. -/
theorem pedalsNext {next : Fugue} (found : fs.find? hasSubject = some next) (some_ : next.pedals.isEmpty = false) :
    ⟨finalPitch next.final_ - 24,onset,4,0⟩ ∈ pedalsFrom onset fs := by
  induction fs with
  | nil => cases found
  | cons f fs ih =>
    rw [pedalsFrom,List.mem_append]
    cases subject : hasSubject f with
    | true =>
      rw [List.find?_cons_of_pos subject] at found
      cases found
      left
      rw [some_,exposition,subject]
      exact List.mem_singleton.mpr rfl
    | false =>
      rw [List.find?_cons_of_neg (by simp [subject])] at found
      right
      rw [exposition,subject]
      exact ih found

/- Where a pedal is cut: one of two ticks, and one of the exposition's four on the same pitch. -/
theorem cutPedals (onset : Nat) (cut : Cut fs) : ∃ m ∈ pedalsFrom onset fs, ∃ n ∈ pedalsFrom onset fs,
    m.pitch = n.pitch ∧ m.onset = n.onset ∧ m.dur = 2 ∧ n.dur = 4 := by
  induction fs generalizing onset with
  | nil => cases cut
  | cons f fs ih =>
    rw [pedalsFrom]
    rcases cut with ⟨some_,bare,next,found,some',same⟩ | later
    · have none_ : exposition f = 0 := by rw [exposition,hasSubject,bare]; rfl
      refine ⟨⟨finalPitch f.final_ - 24,onset,2,0⟩,?_,⟨finalPitch next.final_ - 24,onset,4,0⟩,?_,by rw [same],rfl,rfl,rfl⟩
      · rw [some_,none_]
        exact List.mem_append_left _ (List.mem_singleton.mpr rfl)
      · exact List.mem_append_right _ (none_ ▸ pedalsNext found some')
    · obtain ⟨m,m_,n,n_,crossed⟩ := ih (onset + exposition f) later
      exact ⟨m,List.mem_append_right _ m_,n,List.mem_append_right _ n_,crossed⟩

/- And nowhere else do two pedals of one pitch meet of which one ends while the other goes on. -/
theorem pedalsCut {m n : Note} (m_ : m ∈ pedalsFrom onset fs) (n_ : n ∈ pedalsFrom onset fs) (same : m.pitch = n.pitch)
    (before : n.onset < m.end_) (after : m.end_ < n.end_) : Cut fs := by
  induction fs generalizing onset with
  | nil => cases m_
  | cons f fs ih =>
    have here {k : Note} (k_ : k ∈ (if f.pedals.isEmpty then [] else [⟨finalPitch f.final_ - 24,onset,max (exposition f) 2,0⟩] : List Note)) :
        f.pedals.isEmpty = false ∧ k = ⟨finalPitch f.final_ - 24,onset,max (exposition f) 2,0⟩ := by
      split at k_
      · cases k_
      · rename_i some_
        exact ⟨by simpa using some_,List.mem_singleton.mp k_⟩
    have expo : exposition f = if hasSubject f then 4 else 0 := rfl
    rw [pedalsFrom] at m_ n_
    rcases List.mem_append.mp m_ with m_ | m_ <;> rcases List.mem_append.mp n_ with n_ | n_
    · obtain ⟨-,rfl⟩ := here m_
      obtain ⟨-,rfl⟩ := here n_
      exact absurd after (Nat.lt_irrefl _)
    · obtain ⟨some_,rfl⟩ := here m_
      obtain ⟨k,start⟩ := pedalsStart n_
      simp only [Note.end_] at before after
      cases subject : f.subject with
      | some s =>
        rw [hasSubject,subject] at expo
        simp only [Option.isSome_some,if_true] at expo
        omega
      | none =>
        rw [hasSubject,subject] at expo
        simp only [Option.isSome_none,Bool.false_eq_true,if_false] at expo
        rw [expo,Nat.add_zero] at n_
        obtain ⟨next,found,some',pitch⟩ := pedalsHere n_ (by omega) (by omega)
        exact .inl ⟨some_,subject,next,found,some',pedalInj (pitch.symm.trans same.symm)⟩
    · obtain ⟨-,rfl⟩ := here n_
      obtain ⟨k,start⟩ := pedalsStart m_
      have held := pedalsHeld m_
      simp only [Note.end_] at before after
      split at expo <;> omega
    · exact .inr (ih m_ n_)

end Pedals

end Officium.Audio
