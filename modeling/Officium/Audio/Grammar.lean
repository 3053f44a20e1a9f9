import Officium.Audio.Transcribe
import Mathlib.Data.List.Forall2

/-! The grammar of a phrase. Notes go on until a cadence, or until a branch that has a phrase in each of
its arms; no phrase begins another, so the transcriber finds where one ends without looking past it. -/
namespace Officium.Audio
open Bounded (Comp Ends endsBind endsFail endsNext endsPure endsState endsUpdate endsWeaken endsWiden)

/- A note that neither ends a phrase nor divides it. -/
def RenderOp.Plain (op : RenderOp) : Prop := op ≠ .cadence ∧ op ≠ .branch

inductive Phrase where
  | cadence
  | note (op : RenderOp) (plain : op.Plain) (rest : Phrase)
  | branch (then_ else_ : Phrase)

def Phrase.ops : Phrase → List RenderOp
  | .cadence => [.cadence]
  | .note op _ rest => op :: rest.ops
  | .branch then_ else_ => .branch :: (then_.ops ++ else_.ops)

section Reading
variable {op : RenderOp} {ops more more' : List RenderOp}

theorem phraseUnique {a b : Phrase} (same : a.ops ++ more = b.ops ++ more') : a = b ∧ more = more' := by
  induction a generalizing b more more' with
  | cadence =>
    cases b with
    | cadence => exact ⟨rfl,(List.cons.inj same).2⟩
    | note op plain rest => exact absurd (List.cons.inj same).1.symm plain.1
    | branch then_ else_ => cases (List.cons.inj same).1
  | note op plain rest ih =>
    cases b with
    | cadence => exact absurd (List.cons.inj same).1 plain.1
    | note op' plain' rest' =>
      obtain ⟨first,later⟩ := List.cons.inj same
      cases first
      obtain ⟨rfl,ended⟩ := ih later
      exact ⟨rfl,ended⟩
    | branch then_ else_ => exact absurd (List.cons.inj same).1 plain.2
  | branch then_ else_ ih ih' =>
    cases b with
    | cadence => cases (List.cons.inj same).1
    | note op plain rest => exact absurd (List.cons.inj same).1.symm plain.2
    | branch then' else' =>
      have arms : then_.ops ++ else_.ops ++ more = then'.ops ++ else'.ops ++ more' := (List.cons.inj same).2
      rw [List.append_assoc,List.append_assoc] at arms
      obtain ⟨rfl,second⟩ := ih arms
      obtain ⟨rfl,ended⟩ := ih' second
      exact ⟨rfl,ended⟩

theorem opsInj {a b : Phrase} (same : a.ops = b.ops) : a = b := by
  have both : a.ops ++ [] = b.ops ++ [] := congrArg (· ++ []) same
  exact (phraseUnique both).1

/- However the notes are cut, what comes first is no phrase. -/
def Unfinished (ops : List RenderOp) : Prop := ∀ (phrase : Phrase) more, ops ≠ phrase.ops ++ more

theorem unfinishedNil : Unfinished [] := fun phrase more same => by cases phrase <;> cases same

theorem unfinishedNote (plain : op.Plain) (h : Unfinished ops) : Unfinished (op :: ops) := by
  intro phrase more same
  cases phrase with
  | cadence => exact plain.1 (List.cons.inj same).1
  | note op' plain' rest => exact h rest more (List.cons.inj same).2
  | branch then_ else_ => exact plain.2 (List.cons.inj same).1

theorem branchArms {phrase : Phrase} (same : .branch :: ops = phrase.ops ++ more) :
    ∃ then_ else_ : Phrase, phrase = .branch then_ else_ ∧ ops = then_.ops ++ (else_.ops ++ more) := by
  cases phrase with
  | cadence => cases (List.cons.inj same).1
  | note op plain rest => exact absurd (List.cons.inj same).1.symm plain.2
  | branch then_ else_ => exact ⟨then_,else_,rfl,(List.cons.inj same).2.trans (List.append_assoc ..)⟩

theorem unfinishedThen (h : Unfinished ops) : Unfinished (.branch :: ops) := by
  intro phrase more same
  obtain ⟨then_,else_,-,arms⟩ := branchArms same
  exact h then_ _ arms

theorem unfinishedElse (then_ : Phrase) (h : Unfinished ops) : Unfinished (.branch :: (then_.ops ++ ops)) := by
  intro phrase more same
  obtain ⟨first,else_,-,arms⟩ := branchArms same
  exact h else_ more (phraseUnique arms).2

end Reading

section Blocks
variable {t : Transcriber} {op : RenderOp} {ops rest : List RenderOp} {depth : Nat}

/- The transcriber past a note. -/
def took (t : Transcriber) : Transcriber := { t with pos := t.pos + 1 }

theorem singStays (t : Transcriber) (depth : Nat) (op : RenderOp) : (t.sing depth op).ops = t.ops ∧ (t.sing depth op).pos = t.pos := by
  cases op
  case modal =>
    unfold Transcriber.sing
    cases t.mode <;> exact ⟨rfl,rfl⟩
  all_goals exact ⟨rfl,rfl⟩

theorem restAhead (depth : Nat) (here : t.ops.drop t.pos = op :: rest) : ((took t).sing depth op).ops.drop ((took t).sing depth op).pos = rest := by
  obtain ⟨notes,pos⟩ := singStays (took t) depth op
  have next : t.ops.drop (t.pos+1) = rest := by rw [← List.drop_drop,here]; rfl
  rw [notes,pos]
  exact next

/- The block has read a phrase, the first of these notes. -/
def Took (t : Transcriber) (ops : List RenderOp) (u : Transcriber) : Prop :=
  u.ops = t.ops ∧ ∃ phrase : Phrase, ops = phrase.ops ++ u.ops.drop u.pos ∧ u.pos = t.pos + phrase.ops.length

/- The notes gave out before a phrase was complete. -/
def GaveOut (t : Transcriber) (ops : List RenderOp) (r : Raise) : Prop :=
  (∃ msg, r = .dissonance (.parse (t.ops.length + 1) msg)) ∧ Unfinished ops

theorem blockNext {good : Unit → Transcriber → Prop} {bad : Raise → Prop} (here : t.ops.drop t.pos = op :: rest)
    (later : Ends (fun n => match op with
      | .cadence => pure ()
      | .branch => do
        block n (depth+1)
        Comp.update (fun t => t.line depth "\x7d aliter \x7b")
        block n (depth+1)
        Comp.update (fun t => t.line depth "\x7d")
      | _ => block n depth) ((took t).sing depth op) good bad) :
    Ends (fun n => block n depth) t good bad := by
  have found : t.ops[t.pos]? = some op := by rw [← List.head?_drop,here]; rfl
  refine endsNext (fun n => block.eq_2 depth n) (endsBind endsState (fun u q same => ?_))
  obtain ⟨rfl,rfl⟩ := same
  rw [found]
  refine endsBind (endsUpdate _) (fun _ q same => ?_)
  cases same
  exact later

theorem blockOver (here : t.ops.drop t.pos = []) (within : t.pos ≤ t.ops.length) :
    Ends (fun n => block n depth) t (fun _ u => Took t [] u) (GaveOut t []) := by
  have over_ : t.ops.length ≤ t.pos := List.drop_eq_nil_iff.mp here
  have none_ : t.ops[t.pos]? = none := List.getElem?_eq_none over_
  refine endsNext (fun n => block.eq_2 depth n) (endsBind endsState (fun u q same => ?_))
  obtain ⟨rfl,rfl⟩ := same
  rw [none_]
  refine endsBind endsState (fun u q same => ?_)
  obtain ⟨rfl,rfl⟩ := same
  exact endsFail ⟨⟨_,by rw [Nat.le_antisymm within over_]⟩,unfinishedNil⟩

theorem tookNote (plain : op.Plain) {u : Transcriber} (h : Took ((took t).sing depth op) rest u) : Took t (op :: rest) u := by
  obtain ⟨notes,pos⟩ := singStays (took t) depth op
  obtain ⟨same,phrase,read,far⟩ := h
  refine ⟨same.trans notes,.note op plain phrase,congrArg (op :: ·) read,?_⟩
  rw [far,pos]
  exact Nat.succ_add_eq_add_succ _ _

theorem tookInside {u : Transcriber} (here : t.ops.drop t.pos = ops) (within : t.pos ≤ t.ops.length) (h : Took t ops u) :
    u.pos ≤ u.ops.length := by
  obtain ⟨same,phrase,read,far⟩ := h
  have whole := congrArg List.length read
  have remains := congrArg List.length here
  rw [List.length_append,List.length_drop,same] at whole
  rw [List.length_drop] at remains
  rw [same]
  omega

/- The induction is on the notes left: both arms of a branch start further on. -/
theorem blockEnds (here : t.ops.drop t.pos = ops) (within : t.pos ≤ t.ops.length) :
    Ends (fun n => block n depth) t (fun _ u => Took t ops u) (GaveOut t ops) := by
  induction left : ops.length using Nat.strongRecOn generalizing ops t depth with
  | ind left' ih =>
    cases ops with
    | nil => exact blockOver here within
    | cons op rest =>
      have next := restAhead depth here
      obtain ⟨notes,pos⟩ := singStays (took t) depth op
      have more : ((took t).sing depth op).pos ≤ ((took t).sing depth op).ops.length := by
        have remains := congrArg List.length here
        rw [List.length_drop,List.length_cons] at remains
        rw [notes,pos]
        change t.pos + 1 ≤ t.ops.length
        omega
      have fewer : rest.length < left' := by rw [← left]; exact Nat.lt_succ_self _
      have plainNote (plain : op.Plain) : Ends (fun n => block n depth) ((took t).sing depth op)
          (fun _ u => Took t (op :: rest) u) (GaveOut t (op :: rest)) := by
        have later : Ends (fun n => block n depth) ((took t).sing depth op)
            (fun _ u => Took ((took t).sing depth op) rest u) (GaveOut ((took t).sing depth op) rest) := ih _ fewer next more rfl
        refine endsWeaken (fun _ u taken => tookNote plain taken) (endsWiden (fun r gave => ?_) later)
        exact ⟨notes ▸ gave.1,unfinishedNote plain gave.2⟩
      refine blockNext here ?_
      cases op with
      | cadence => exact endsPure ⟨notes,.cadence,congrArg (.cadence :: ·) next.symm,pos⟩
      | branch =>
        have first : Ends (fun n => block n (depth+1)) ((took t).sing depth .branch)
            (fun _ u => Took ((took t).sing depth .branch) rest u) (GaveOut t (.branch :: rest)) :=
          endsWiden (fun r ⟨at_,unfinished⟩ => ⟨at_,unfinishedThen unfinished⟩) (ih _ fewer next more rfl)
        refine endsBind first (fun _ u taken => endsBind (endsUpdate _) (fun _ q line => ?_))
        cases line
        have inside := tookInside next more taken
        obtain ⟨same,then_,read,far⟩ := taken
        have shorter : (u.ops.drop u.pos).length < left' := by
          have whole := congrArg List.length read
          rw [List.length_append] at whole
          omega
        have second : Ends (fun n => block n (depth+1)) (u.line depth "\x7d aliter \x7b")
            (fun _ w => Took (u.line depth "\x7d aliter \x7b") (u.ops.drop u.pos) w) (GaveOut t (.branch :: rest)) := by
          refine endsWiden (fun r gave => ?_) (ih _ shorter rfl inside rfl)
          obtain ⟨⟨msg,at_⟩,unfinished⟩ := gave
          refine ⟨⟨msg,by rw [at_]; exact congrArg (fun notes => Raise.dissonance (.parse (notes.length + 1) msg)) same⟩,?_⟩
          rw [read]
          exact unfinishedElse then_ unfinished
        refine endsBind second (fun _ w taken => endsWeaken (fun _ x line => ?_) (endsUpdate _))
        cases line
        obtain ⟨same',else_,read',far'⟩ := taken
        refine ⟨same'.trans same,.branch then_ else_,?_,?_⟩
        · change .branch :: rest = .branch :: (then_.ops ++ else_.ops ++ w.ops.drop w.pos)
          rw [read,read',List.append_assoc]
        · have start : ((took t).sing depth .branch).pos = t.pos + 1 := rfl
          have next : (u.line depth "\x7d aliter \x7b").pos = u.pos := rfl
          change w.pos = t.pos + (then_.ops ++ else_.ops).length + 1
          rw [List.length_append]
          omega
      | arg | ask | pure | bindOther | resolve | modal => exact plainNote ⟨nofun,nofun⟩

end Blocks

section Notes
variable {mode : Mode} {cadence : Pitch} {pitches : List Pitch} {ops : List RenderOp}

/- A pitch sounds the degree of an operation over the cadence. -/
def Intones (mode : Mode) (cadence p : Pitch) (op : RenderOp) : Prop :=
  ∃ deg ∈ degrees, degreeOffset mode deg = (p.toNat : Int) - cadence.toNat ∧ opOfDegree mode deg = some op

def Foreign (mode : Mode) (cadence p : Pitch) : Prop := ∀ deg ∈ degrees, degreeOffset mode deg ≠ (p.toNat : Int) - cadence.toNat

theorem degreeOfSome {p : Pitch} {deg : Nat} (h : degreeOf mode cadence p = some deg) :
    deg ∈ degrees ∧ degreeOffset mode deg = (p.toNat : Int) - cadence.toNat := by
  unfold degreeOf at h
  have passes := List.find?_some h
  exact ⟨List.mem_of_find?_eq_some h,eq_of_beq passes⟩

theorem degreeOfNone {p : Pitch} (h : degreeOf mode cadence p = none) : Foreign mode cadence p := by
  intro deg among same
  have never := List.find?_eq_none.mp h deg among
  rw [same,beq_self_eq_true] at never
  exact never rfl

theorem degreeOfIntones {p : Pitch} {op : RenderOp} (h : Intones mode cadence p op) :
    ∃ deg, degreeOf mode cadence p = some deg ∧ opOfDegree mode deg = some op := by
  obtain ⟨deg,among,offset,is_⟩ := h
  cases found : degreeOf mode cadence p with
  | none => exact absurd offset (degreeOfNone found deg among)
  | some other =>
    obtain ⟨among',offset'⟩ := degreeOfSome found
    cases offsetInj mode deg among other among' (offset.trans offset'.symm)
    exact ⟨deg,rfl,is_⟩

theorem degreeOfForeign {p : Pitch} (h : Foreign mode cadence p) : degreeOf mode cadence p = none := by
  cases found : degreeOf mode cadence p with
  | none => rfl
  | some deg => exact absurd (degreeOfSome found).2 (h deg (degreeOfSome found).1)

theorem readOpsIntones (h : List.Forall₂ (Intones mode cadence) pitches ops) (i : Nat) : readOps mode cadence i pitches = .ok ops := by
  induction h generalizing i with
  | nil => rfl
  | cons sounds rest ih =>
    obtain ⟨deg,found,is_⟩ := degreeOfIntones sounds
    rw [readOps,found]
    simp only [is_,ih]

theorem readOpsForeign {before after : List Pitch} {p : Pitch} (known : ∀ q ∈ before, ∃ op, Intones mode cadence q op)
    (foreign : Foreign mode cadence p) (i : Nat) :
    ∃ msg, readOps mode cadence i (before ++ p :: after) = .error (.dissonance (.parse (i + before.length) msg)) := by
  induction before generalizing i with
  | nil =>
    rw [List.nil_append,readOps,degreeOfForeign foreign]
    exact ⟨_,rfl⟩
  | cons q before ih =>
    obtain ⟨op,sounds⟩ := known q List.mem_cons_self
    obtain ⟨deg,found,is_⟩ := degreeOfIntones sounds
    obtain ⟨msg,later⟩ := ih (fun q among => known q (List.mem_cons_of_mem _ among)) (i+1)
    refine ⟨msg,?_⟩
    rw [List.cons_append,readOps,found]
    simp only [is_,later,List.length_cons]
    exact congrArg (fun line => Except.error (Raise.dissonance (.parse line msg))) (Nat.succ_add_eq_add_succ i before.length)

/- Either every note sounds an operation, or one of them is the first that does not. -/
theorem intonesOrForeign (mode : Mode) (cadence : Pitch) (pitches : List Pitch) :
    (∃ ops, List.Forall₂ (Intones mode cadence) pitches ops) ∨
      ∃ before p after, pitches = before ++ p :: after ∧ (∀ q ∈ before, ∃ op, Intones mode cadence q op) ∧ Foreign mode cadence p := by
  induction pitches with
  | nil => exact .inl ⟨[],.nil⟩
  | cons p rest ih =>
    cases found : degreeOf mode cadence p with
    | none => exact .inr ⟨[],p,rest,rfl,(fun q among => by cases among),degreeOfNone found⟩
    | some deg =>
      obtain ⟨among,offset⟩ := degreeOfSome found
      obtain ⟨op,is_⟩ := Option.isSome_iff_exists.mp (opOfDegreeSome mode deg among)
      have sounds : Intones mode cadence p op := ⟨deg,among,offset,is_⟩
      rcases ih with ⟨ops,all⟩ | ⟨before,q,after,rfl,known,foreign⟩
      · exact .inl ⟨op :: ops,.cons sounds all⟩
      · refine .inr ⟨p :: before,q,after,rfl,fun q among => ?_,foreign⟩
        rcases List.mem_cons.mp among with rfl | later
        · exact ⟨op,sounds⟩
        · exact known q later

end Notes

section Grammar
variable {pitches : List Pitch} {name : String} {cadence : Pitch} {final_ : Final} {ops : List RenderOp}

/- The final of a pitch class, and none of another one. -/
def Cadential (cadence : Pitch) : Prop := cadence.toNat % 12 ∈ [2,4,5,7]

theorem finalOfCadential : (finalOf cadence).isSome = true ↔ Cadential cadence := by
  unfold finalOf Cadential
  split
  · rename_i h; rw [h]; decide
  · rename_i h; rw [h]; decide
  · rename_i h; rw [h]; decide
  · rename_i h; rw [h]; decide
  · rename_i re mi fa sol
    simp only [Option.isSome_none,Bool.false_eq_true,List.mem_cons,List.not_mem_nil,or_false,false_iff,not_or]
    exact ⟨re,mi,fa,sol⟩

/- The phrase cadences on the pitch, to a final, and its notes are these operations of the mode. -/
structure Sung (pitches : List Pitch) (cadence : Pitch) (final_ : Final) (ops : List RenderOp) : Prop where
  last : pitches.getLast? = some cadence
  ends : finalOf cadence = some final_
  notes : List.Forall₂ (Intones (.fromFinal final_ (isPlagal pitches cadence)) cadence) pitches ops

/- The whole phrase is one block. -/
def Grammatical (pitches : List Pitch) : Prop := ∃ cadence final_, ∃ phrase : Phrase, Sung pitches cadence final_ phrase.ops

/- The line at which a phrase fails: silence at 0, a cadence off the finals at the last note, then the first note that
is foreign to the mode, the first one after the completed block, or one past the end. -/
inductive FailsAt (pitches : List Pitch) : Nat → Prop where
  | silence (none_ : pitches = []) : FailsAt pitches 0
  | cadence {cadence : Pitch} (last : pitches.getLast? = some cadence) (off : ¬Cadential cadence) : FailsAt pitches pitches.length
  | foreign {cadence : Pitch} {final_ : Final} {before after : List Pitch} {p : Pitch} (last : pitches.getLast? = some cadence)
      (ends : finalOf cadence = some final_) (cut_ : pitches = before ++ p :: after)
      (known : ∀ q ∈ before, ∃ op, Intones (.fromFinal final_ (isPlagal pitches cadence)) cadence q op)
      (foreign : Foreign (.fromFinal final_ (isPlagal pitches cadence)) cadence p) : FailsAt pitches (before.length + 1)
  | after {cadence : Pitch} {final_ : Final} {phrase : Phrase} {op : RenderOp} {more : List RenderOp}
      (sung : Sung pitches cadence final_ (phrase.ops ++ op :: more)) : FailsAt pitches (phrase.ops.length + 1)
  | unfinished {cadence : Pitch} {final_ : Final} {ops : List RenderOp} (sung : Sung pitches cadence final_ ops)
      (unfinished : Unfinished ops) : FailsAt pitches (pitches.length + 1)

/- From some bound on `transcribe` comes to this. -/
def Settles (pitches : List Pitch) (name : String) (r : Except Raise String) : Prop :=
  ∃ n₀, ∀ n, n₀ ≤ n → transcribe n pitches name = some r

theorem settlesUnique {r r' : Except Raise String} (h : Settles pitches name r) (h' : Settles pitches name r') : r = r' := by
  obtain ⟨n,found⟩ := h
  obtain ⟨n',found'⟩ := h'
  have both := found (max n n') (Nat.le_max_left n n')
  rw [found' _ (Nat.le_max_right n n')] at both
  exact (Option.some.inj both).symm

theorem grammaticalOrFails (pitches : List Pitch) : Grammatical pitches ∨ ∃ line, FailsAt pitches line := by
  cases last : pitches.getLast? with
  | none => exact .inr ⟨0,.silence (List.getLast?_eq_none_iff.mp last)⟩
  | some cadence =>
    cases ends : finalOf cadence with
    | none => exact .inr ⟨_,.cadence last (fun on => by rw [← finalOfCadential,ends] at on; cases on)⟩
    | some final_ =>
      rcases intonesOrForeign (.fromFinal final_ (isPlagal pitches cadence)) cadence pitches with ⟨ops,notes⟩ | ⟨before,p,after,cut_,known,foreign⟩
      · have sung : Sung pitches cadence final_ ops := ⟨last,ends,notes⟩
        by_cases read : Unfinished ops
        · exact .inr ⟨_,.unfinished sung read⟩
        · obtain ⟨phrase,more,rfl⟩ : ∃ (phrase : Phrase) (more : List RenderOp), ops = phrase.ops ++ more := by
            simpa [Unfinished] using read
          cases more with
          | nil => exact .inl ⟨cadence,final_,phrase,by rw [List.append_nil] at sung; exact sung⟩
          | cons op more => exact .inr ⟨_,.after sung⟩
      · exact .inr ⟨_,.foreign last ends cut_ known foreign⟩

/- What is left to do once the notes are read and the block is done. -/
theorem sungDone (sung : Sung pitches cadence final_ ops) {n : Nat} {t : Transcriber}
    (ran : block n 1 ⟨ops,.fromFinal final_ (isPlagal pitches cadence),0,"",0,none,false⟩ = some (.ok ((),t))) :
    transcribe n pitches name =
      if t.pos ≠ ops.length then some (note (t.pos+1) "cantus post amen: notes after the final cadence")
      else some (.ok (score pitches name final_ (isPlagal pitches cadence) t)) := by
  unfold transcribe
  simp only [sung.last,sung.ends,readOpsIntones sung.notes,ran]

theorem sungFailed (sung : Sung pitches cadence final_ ops) {n : Nat} {e : Raise}
    (ran : block n 1 ⟨ops,.fromFinal final_ (isPlagal pitches cadence),0,"",0,none,false⟩ = some (.error e)) :
    transcribe n pitches name = some (.error e) := by
  unfold transcribe
  simp only [sung.last,sung.ends,readOpsIntones sung.notes,ran]

/- The block of the transcriber comes to the end of the first phrase, or the notes give out. -/
theorem sungEnds (mode : Mode) (ops : List RenderOp) : (∃ n₀ t, Took ⟨ops,mode,0,"",0,none,false⟩ ops t ∧
      ∀ n, n₀ ≤ n → block n 1 ⟨ops,mode,0,"",0,none,false⟩ = some (.ok ((),t))) ∨
    ∃ n₀ msg, Unfinished ops ∧ ∀ n, n₀ ≤ n → block n 1 ⟨ops,mode,0,"",0,none,false⟩ = some (.error (.dissonance (.parse (ops.length + 1) msg))) := by
  have ends : Ends (fun n => block n 1) ⟨ops,mode,0,"",0,none,false⟩ _ _ := blockEnds rfl (Nat.zero_le _)
  obtain ⟨n₀,r,out,settled⟩ := ends
  cases out with
  | ok taken => exact .inl ⟨n₀,_,taken,settled⟩
  | error gave =>
    obtain ⟨⟨msg,rfl⟩,unfinished⟩ := gave
    exact .inr ⟨n₀,msg,unfinished,settled⟩

theorem phraseEnds (mode : Mode) (phrase : Phrase) (more : List RenderOp) : ∃ n₀ t, t.pos = phrase.ops.length ∧
    ∀ n, n₀ ≤ n → block n 1 ⟨phrase.ops ++ more,mode,0,"",0,none,false⟩ = some (.ok ((),t)) := by
  rcases sungEnds mode (phrase.ops ++ more) with ⟨n₀,t,⟨-,other,read,far⟩,settled⟩ | ⟨-,-,unfinished,-⟩
  · obtain ⟨rfl,-⟩ := phraseUnique read
    exact ⟨n₀,t,far.trans (Nat.zero_add _),settled⟩
  · exact absurd rfl (unfinished phrase more)

theorem grammaticalSettles (name : String) (h : Grammatical pitches) : ∃ text, Settles pitches name (.ok text) := by
  obtain ⟨cadence,final_,phrase,sung⟩ := h
  obtain ⟨n₀,t,far,settled⟩ := phraseEnds (.fromFinal final_ (isPlagal pitches cadence)) phrase []
  rw [List.append_nil] at settled
  refine ⟨score pitches name final_ (isPlagal pitches cadence) t,n₀,fun n le => ?_⟩
  rw [sungDone sung (settled n le)]
  exact if_neg (not_not.mpr far)

theorem failsSettles (name : String) {line : Nat} (h : FailsAt pitches line) :
    ∃ msg, Settles pitches name (.error (.dissonance (.parse line msg))) := by
  cases h with
  | silence none_ => exact ⟨_,0,fun n _ => by rw [none_]; rfl⟩
  | @cadence cadence last off =>
    have none_ : finalOf cadence = none := by
      cases ends : finalOf cadence with
      | none => rfl
      | some final_ => exact absurd (finalOfCadential.mp (by rw [ends]; rfl)) off
    refine ⟨"cadentia extra modos: the phrase must end on D, E, F or G",0,fun n _ => ?_⟩
    unfold transcribe
    rw [last]
    simp only
    rw [none_]
    exact rfl
  | @foreign cadence final_ before after p last ends cut_ known foreign =>
    obtain ⟨msg,read⟩ : ∃ msg, readOps (.fromFinal final_ (isPlagal pitches cadence)) cadence 1 (before ++ p :: after) =
      .error (.dissonance (.parse (1 + before.length) msg)) := readOpsForeign known foreign 1
    rw [← cut_,Nat.add_comm] at read
    refine ⟨msg,0,fun n _ => ?_⟩
    unfold transcribe
    rw [last]
    simp only
    rw [ends]
    simp only
    rw [read]
  | @after cadence final_ phrase op more sung =>
    obtain ⟨n₀,t,far,settled⟩ := phraseEnds (.fromFinal final_ (isPlagal pitches cadence)) phrase (op :: more)
    refine ⟨"cantus post amen: notes after the final cadence",n₀,fun n le => ?_⟩
    have more_ : t.pos ≠ (phrase.ops ++ op :: more).length := by
      rw [far,List.length_append,List.length_cons]
      omega
    rw [sungDone sung (settled n le),← far]
    exact if_pos more_
  | @unfinished cadence final_ ops sung unfinished =>
    rcases sungEnds (.fromFinal final_ (isPlagal pitches cadence)) ops with ⟨n₀,t,⟨-,phrase,read,-⟩,-⟩ | ⟨n₀,msg,-,settled⟩
    · exact absurd read (unfinished phrase _)
    · refine ⟨msg,n₀,fun n le => ?_⟩
      rw [sungFailed sung (settled n le),sung.notes.length_eq]

/- Every phrase comes to a text or to a line, and the grammar says which. -/
theorem transcribeGrammar (pitches : List Pitch) (name : String) : ∃ r, Settles pitches name r ∧
    ((∃ text, r = .ok text) ↔ Grammatical pitches) ∧
    (∀ line, (∃ msg, r = .error (.dissonance (.parse line msg))) ↔ FailsAt pitches line) ∧
    ((∃ text, r = .ok text) ∨ ∃ line msg, r = .error (.dissonance (.parse line msg))) := by
  rcases grammaticalOrFails pitches with grammatical | ⟨line,fails⟩
  · obtain ⟨text,settles⟩ := grammaticalSettles name grammatical
    refine ⟨_,settles,⟨fun _ => grammatical,fun _ => ⟨text,rfl⟩⟩,fun line => ⟨fun ⟨msg,same⟩ => (by cases same),fun fails => ?_⟩,.inl ⟨text,rfl⟩⟩
    obtain ⟨msg,other⟩ := failsSettles name fails
    cases settlesUnique settles other
  · obtain ⟨msg,settles⟩ := failsSettles name fails
    refine ⟨_,settles,⟨fun ⟨text,same⟩ => (by cases same),fun grammatical => ?_⟩,fun line' => ⟨fun ⟨msg',same⟩ => ?_,fun fails' => ?_⟩,.inr ⟨line,msg,rfl⟩⟩
    · obtain ⟨text,other⟩ := grammaticalSettles name grammatical
      cases settlesUnique settles other
    · cases same
      exact fails
    · obtain ⟨msg',other⟩ := failsSettles name fails'
      exact ⟨msg',settlesUnique settles other⟩

end Grammar

end Officium.Audio
