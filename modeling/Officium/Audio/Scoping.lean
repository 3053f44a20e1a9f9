import Officium.Scopes
import Officium.Audio.Roundtrip

/-! Which name a transcript goes on with. The transcriber carries its latest binder through both arms of a
branch, so the second arm starts with a name of the first one unless it binds a name of its own first. -/
namespace Officium.Audio
open Lexer (Identifier)
open Officium.Parser (Parses)
open Check (Scoped Global Closed RefusedName)

section Rebinding
variable {mode : Mode}

/- The notes whose line binds a name without using one. -/
def fresh (op : RenderOp) : Bool :=
  match op with
  | .arg | .ask | .resolve => true
  | _ => false

/- The notes whose line binds a name. -/
def binding (mode : Mode) (op : RenderOp) : Bool :=
  match op with
  | .cadence | .branch => false
  | op => heard mode op != .modal

def Phrase.binds (mode : Mode) (phrase : Phrase) : Bool := phrase.ops.any (binding mode)

/- The first note that turns into no branch binds a name without using one. -/
def Phrase.opensFresh (phrase : Phrase) : Bool :=
  match phrase.ops.find? (· != .branch) with
  | some op => fresh op
  | none => false

/- After an arm that binds a name the other one opens fresh. -/
def Phrase.rebinds (mode : Mode) : Phrase → Bool
  | .cadence => true
  | .note _ _ rest => rest.rebinds mode
  | .branch then_ else_ => then_.rebinds mode && else_.rebinds mode && (!then_.binds mode || else_.opensFresh)

theorem bindsNote {op : RenderOp} (plain : op.Plain) : binding mode op = (heard mode op != .modal) := by
  cases op with
  | cadence => exact absurd rfl plain.1
  | branch => exact absurd rfl plain.2
  | _ => rfl

theorem bindsBranch (then_ else_ : Phrase) : (Phrase.branch then_ else_).binds mode = (then_.binds mode || else_.binds mode) := by
  rw [Phrase.binds,Phrase.ops,List.any_cons,List.any_append]
  exact Bool.false_or _

theorem firstNote (phrase : Phrase) : ∃ op, phrase.ops.find? (· != .branch) = some op := by
  induction phrase with
  | cadence => exact ⟨_,rfl⟩
  | note op plain rest _ => exact ⟨op,List.find?_cons_of_pos (by simpa using plain.2)⟩
  | branch then_ else_ ih _ =>
    obtain ⟨op,found⟩ := ih
    refine ⟨op,?_⟩
    rw [Phrase.ops,List.find?_cons_of_neg (by decide),List.find?_append,found]
    rfl

theorem opensNote {op : RenderOp} (plain : op.Plain) (rest : Phrase) : (Phrase.note op plain rest).opensFresh = fresh op := by
  rw [Phrase.opensFresh,Phrase.ops,List.find?_cons_of_pos (by simpa using plain.2)]

theorem opensBranch (then_ else_ : Phrase) : (Phrase.branch then_ else_).opensFresh = then_.opensFresh := by
  obtain ⟨op,found⟩ := firstNote then_
  rw [Phrase.opensFresh,Phrase.opensFresh,Phrase.ops,List.find?_cons_of_neg (by decide),List.find?_append,found]
  rfl

/- Who opens fresh has bound a name. -/
theorem opensBinds (mode : Mode) (phrase : Phrase) (opens : phrase.opensFresh = true) : phrase.binds mode = true := by
  induction phrase with
  | cadence => cases opens
  | note op plain rest _ =>
    rw [opensNote] at opens
    rw [Phrase.binds,Phrase.ops,List.any_cons]
    cases op with
    | arg | ask | resolve => rfl
    | _ => cases opens
  | branch then_ else_ ih _ =>
    rw [opensBranch] at opens
    rw [bindsBranch,ih opens,Bool.true_or]

end Rebinding

section Voices
variable {x : Scalar} {mode : Mode} {v : Voice}

theorem varNameInj {j k : Nat} (same : varName j = varName k) : j = k := by
  have chars := congrArg String.toList same
  rw [varName,varName,String.toList_append,String.toList_append,Lexer.numeralChars,Lexer.numeralChars] at chars
  have digits : Nat.toDigits 10 j = Nat.toDigits 10 k := List.append_cancel_left chars
  rw [← Nat.ofDigitChars_toDigits (b := 10) (n := j) (by decide) (by decide),digits,Nat.ofDigitChars_toDigits (by decide) (by decide)]

theorem varPlain (k : Nat) : varName k ≠ "_" := by
  intro same
  have var := varIs k
  rw [same] at var
  cases var

/- A phrase that binds ends with a name of its own, and another one leaves what was known. -/
theorem sketchVoice (phrase : Phrase) (v : Voice) :
    (phrase.binds mode = false → (sketch x mode phrase v).2 = v) ∧
      (phrase.binds mode = true → ∃ k, v.vars < k ∧ k ≤ (sketch x mode phrase v).2.vars ∧ (sketch x mode phrase v).2.prev = some (varName k)) := by
  induction phrase generalizing v with
  | cadence => exact ⟨fun _ => rfl,fun binds => absurd binds Bool.false_ne_true⟩
  | note op plain rest ih =>
    rw [Phrase.binds,Phrase.ops,List.any_cons,bindsNote plain]
    obtain ⟨same,further⟩ := ih (v.next mode op)
    change (_ → (sketch x mode rest (v.next mode op)).2 = v) ∧ (_ → ∃ k, v.vars < k ∧
      k ≤ (sketch x mode rest (v.next mode op)).2.vars ∧ (sketch x mode rest (v.next mode op)).2.prev = some (varName k))
    by_cases modal : heard mode op = .modal
    · have next : v.next mode op = v := if_pos modal
      rw [next] at same further ⊢
      rw [modal]
      exact ⟨same,further⟩
    · have next : v.next mode op = ⟨v.vars + 1,some (varName (v.vars + 1))⟩ := if_neg modal
      have binds : (heard mode op != .modal) = true := by simpa using modal
      rw [binds,Bool.true_or]
      refine ⟨fun never => absurd never.symm Bool.false_ne_true,fun _ => ?_⟩
      cases rest_ : rest.binds mode with
      | false =>
        rw [same rest_,next]
        exact ⟨_,Nat.lt_succ_self _,Nat.le_refl _,rfl⟩
      | true =>
        obtain ⟨k,above,below,name⟩ := further rest_
        rw [next] at above
        exact ⟨k,Nat.lt_of_succ_lt above,below,name⟩
  | branch then_ else_ ih ih' =>
    rw [bindsBranch]
    obtain ⟨same,further⟩ := ih v
    obtain ⟨same',further'⟩ := ih' (sketch x mode then_ v).2
    change (_ → (sketch x mode else_ (sketch x mode then_ v).2).2 = v) ∧ (_ → ∃ k, v.vars < k ∧
      k ≤ (sketch x mode else_ (sketch x mode then_ v).2).2.vars ∧ (sketch x mode else_ (sketch x mode then_ v).2).2.prev = some (varName k))
    cases first : then_.binds mode with
    | false =>
      rw [same first] at same' further' ⊢
      exact ⟨same',further'⟩
    | true =>
      obtain ⟨k,above,below,name⟩ := further first
      refine ⟨fun never => absurd never.symm Bool.false_ne_true,fun _ => ?_⟩
      cases second : else_.binds mode with
      | false =>
        rw [same' second]
        exact ⟨k,above,below,name⟩
      | true =>
        obtain ⟨l,above',below',name'⟩ := further' second
        exact ⟨l,by omega,below',name'⟩

end Voices

section Scopes
variable {x : Scalar} {mode : Mode} {prog : Program} {v : Voice} {bound : List Sym}

/- The names in scope and the one to go on with are among those handed out so far. -/
structure Counted (v : Voice) (bound : List Sym) : Prop where
  names : ∀ y ∈ bound, y = "_" ∨ ∃ k ≤ v.vars, y = varName k
  prev : ∀ y, v.prev = some y → ∃ k ≤ v.vars, y = varName k

/- The name to go on with is in scope. -/
def InScope (v : Voice) (bound : List Sym) : Prop := ∀ y, v.prev = some y → y ∈ bound

/- The names the organ of a transcript answers to are none of the transcriber's. -/
structure Answers (prog : Program) (organ : Bool) : Prop where
  unnamed : ∀ k, (Check.pedal prog (varName k)).isSome = false
  dominus : organ = true → (Check.pedal prog "Dominus").isSome = true

theorem varNotBuiltin (k : Nat) : (Builtins.arity (varName k)).isSome = false := by
  have var := varIs k
  generalize varName k = s at var ⊢
  unfold Builtins.arity
  split
  all_goals first | rfl | cases var

theorem varNotGlobal {organ : Bool} (answers : Answers prog organ) (k : Nat) : ¬Global prog (varName k) := by
  rintro (builtin | pedal)
  · rw [varNotBuiltin] at builtin
    cases builtin
  · rw [answers.unnamed] at pedal
    cases pedal

theorem knownValue {organ : Bool} (answers : Answers prog organ) (counted : Counted v bound) :
    Scoped prog bound (valueOf x v.prev) ↔ InScope v bound := by
  unfold InScope
  cases prev : v.prev with
  | none => exact ⟨fun _ _ => nofun,fun _ => trivial⟩
  | some y =>
    obtain ⟨k,-,rfl⟩ := counted.prev y prev
    constructor
    · intro known z same
      cases same
      exact known.resolve_right (varNotGlobal answers k)
    · exact fun among => .inl (among _ rfl)

/- A line is well-scoped if it opens fresh or goes on with a name in scope. -/
theorem knownStatement (x : Scalar) (mode : Mode) {organ : Bool} {op : RenderOp} (answers : Answers prog organ) (asked : needsOrgan op = true → organ = true)
    (plain : op.Plain) (counted : Counted v bound) :
    Scoped prog bound (statementOf x mode v.prev op) ↔ fresh op = true ∨ InScope v bound := by
  have value := knownValue (x := x) answers counted
  have builtin (name : Sym) (known : (Builtins.arity name).isSome = true) : name ∈ bound ∨ Global prog name := .inr (.inl known)
  cases op with
  | cadence => exact absurd rfl plain.1
  | branch => exact absurd rfl plain.2
  | arg => exact ⟨fun _ => .inl rfl,fun _ => trivial⟩
  | ask => exact ⟨fun _ => .inl rfl,fun _ => answers.dominus (asked rfl)⟩
  | resolve =>
    refine ⟨fun _ => .inl rfl,fun _ => ⟨builtin _ rfl,⟨⟨⟨⟨builtin _ rfl,trivial⟩,trivial⟩,trivial⟩,trivial⟩⟩⟩
  | pure | bindOther => exact value.trans ⟨.inr,fun either => either.resolve_left nofun⟩
  | modal =>
    refine Iff.trans ?_ ⟨.inr,fun either => either.resolve_left nofun⟩
    cases mode with
    | hypomixolydian => exact ⟨fun known => value.mp known.2,fun inside => ⟨⟨⟨builtin _ rfl,value.mpr inside⟩,value.mpr inside⟩,value.mpr inside⟩⟩
    | _ => exact value

theorem countedNext (mode : Mode) (op : RenderOp) (counted : Counted v bound) : Counted (v.next mode op) (v.binder mode op :: bound) := by
  unfold Voice.next Voice.binder
  split
  · refine ⟨fun y among => ?_,counted.prev⟩
    rcases List.mem_cons.mp among with rfl | before
    · exact .inl rfl
    · exact counted.names y before
  · refine ⟨fun y among => ?_,fun y same => ⟨v.vars+1,Nat.le_refl _,(Option.some.inj same).symm⟩⟩
    rcases List.mem_cons.mp among with rfl | before
    · exact .inr ⟨v.vars+1,Nat.le_refl _,rfl⟩
    · rcases counted.names y before with rfl | ⟨k,below,rfl⟩
      · exact .inl rfl
      · exact .inr ⟨k,Nat.le_succ_of_le below,rfl⟩

/- Past an arm that binds, the name to go on with is the arm's. -/
theorem armLost {phrase : Phrase} (counted : Counted v bound) (binds : phrase.binds mode = true) :
    Counted (sketch x mode phrase v).2 bound ∧ ¬InScope (sketch x mode phrase v).2 bound := by
  obtain ⟨k,above,below,name⟩ := (sketchVoice (x := x) phrase v).2 binds
  refine ⟨⟨fun y among => (counted.names y among).imp id (fun ⟨j,small,same⟩ => ⟨j,by omega,same⟩),fun y same => ?_⟩,fun inside => ?_⟩
  · rw [name] at same
    exact ⟨k,below,(Option.some.inj same).symm⟩
  · rcases counted.names _ (inside _ name) with same | ⟨j,small,same⟩
    · exact varPlain k same
    · have := varNameInj same
      omega

theorem knownSketch {organ : Bool} (answers : Answers prog organ) (phrase : Phrase) (asked : ∀ op ∈ phrase.ops, needsOrgan op = true → organ = true)
    (counted : Counted v bound) :
    Scoped prog bound (sketch x mode phrase v).1 ↔ phrase.rebinds mode = true ∧ (phrase.opensFresh = true ∨ InScope v bound) := by
  induction phrase generalizing v bound with
  | cadence => exact (knownValue answers counted).trans ⟨fun inside => ⟨rfl,.inr inside⟩,fun both => both.2.resolve_left nofun⟩
  | note op plain rest ih =>
    have statement := knownStatement x mode answers (asked op List.mem_cons_self) plain counted
    have later := ih (fun o among => asked o (List.mem_cons_of_mem _ among)) (countedNext mode op counted)
    have opens := opensNote plain rest
    change Scoped prog bound (statementOf x mode v.prev op) ∧ Scoped prog (v.binder mode op :: bound) (sketch x mode rest (v.next mode op)).1 ↔ _
    rw [statement,later,opens]
    -- past the line the name to go on with is in scope if it was, or if the line binds
    have carried : fresh op = true ∨ InScope v bound → InScope (v.next mode op) (v.binder mode op :: bound) := by
      intro here
      unfold Voice.next Voice.binder
      split
      · rename_i modal
        have stale : fresh op = true → False := by
          intro is_
          cases op with
          | modal => cases is_
          | _ => cases modal
        exact fun y same => List.mem_cons_of_mem _ (here.resolve_left stale y same)
      · exact fun y same => by cases same; exact List.mem_cons_self
    exact ⟨fun ⟨here,rebinds,_⟩ => ⟨rebinds,here⟩,fun ⟨rebinds,here⟩ => ⟨here,rebinds,.inr (carried here)⟩⟩
  | branch then_ else_ ih ih' =>
    have first := ih (fun o among => asked o (List.mem_cons_of_mem _ (List.mem_append_left _ among))) counted
    have asked' : ∀ op ∈ else_.ops, needsOrgan op = true → organ = true :=
      fun o among => asked o (List.mem_cons_of_mem _ (List.mem_append_right _ among))
    rw [opensBranch]
    change True ∧ Scoped prog bound (sketch x mode then_ v).1 ∧ Scoped prog bound (sketch x mode else_ (sketch x mode then_ v).2).1 ↔
      (then_.rebinds mode && else_.rebinds mode && (!then_.binds mode || else_.opensFresh)) = true ∧ _
    cases binds : then_.binds mode with
    | true =>
      obtain ⟨counted',lost⟩ := armLost (x := x) counted binds
      rw [first,ih' asked' counted']
      simp only [lost,or_false,true_and,Bool.not_true,Bool.false_or,Bool.and_eq_true]
      tauto
    | false =>
      have same := (sketchVoice (x := x) then_ v).1 binds
      have stale : then_.opensFresh = true → False := by
        intro opens
        have bound_ := opensBinds mode then_ opens
        rw [binds] at bound_
        cases bound_
      rw [same,first,ih' asked' counted]
      simp only [true_and,Bool.not_false,Bool.true_or,Bool.and_true,Bool.and_eq_true]
      tauto

end Scopes

section Transcripts
variable {pitches : List Pitch} {name text : String} {prog : Program} {cadence : Pitch} {final_ : Final} {mode : Mode} {ops : List RenderOp}

theorem organsAnswer (organ : Bool) (final_ : Final) (y : Scalar) (verses : List Versus) : Answers ⟨organs organ final_ y,verses⟩ organ := by
  cases organ with
  | false => exact ⟨fun _ => rfl,nofun⟩
  | true =>
    refine ⟨fun k => ?_,fun _ => rfl⟩
    have other : (("Dominus" : Sym) == varName k) = false := by
      have var := varIs k
      generalize varName k = s at var ⊢
      cases same : ("Dominus" : Sym) == s with
      | false => rfl
      | true =>
        rw [← eq_of_beq same] at var
        cases var
    change (Check.pedalIn _ [Audio.organ final_ y]).isSome = false
    unfold Check.pedalIn Audio.organ
    simp only [List.find?_cons,other,List.find?_nil]
    rfl

theorem organsClosed (organ : Bool) (final_ : Final) (y : Scalar) (verses : List Versus) : Closed ⟨organs organ final_ y,verses⟩ := by
  cases organ with
  | false => exact fun o among => by cases among
  | true =>
    intro o among
    obtain rfl : o = (("vox","cantus"),.lam "x" (.var "x")) := List.mem_singleton.mp among
    exact .inl List.mem_cons_self

theorem readOpsIntoned {i : Nat} (h : readOps mode cadence i pitches = .ok ops) : List.Forall₂ (Intones mode cadence) pitches ops := by
  induction pitches generalizing i ops with
  | nil =>
    cases h
    exact .nil
  | cons p rest ih =>
    obtain ⟨deg,op,ops',found,is_,later,rfl⟩ := readOpsCons h
    obtain ⟨among,offset⟩ := degreeOfSome found
    exact .cons ⟨deg,among,offset,is_⟩ (ih later)

/- In every branch whose first arm binds a name, the first note of the second arm that opens no branch is an arg, an ask or a resolve. -/
def Rebinds (pitches : List Pitch) : Prop := ∃ cadence final_, ∃ phrase : Phrase, Sung pitches cadence final_ phrase.ops ∧
  phrase.rebinds (.fromFinal final_ (isPlagal pitches cadence)) = true

/- Every variable of every verse is bound on the way to it. -/
def WellScoped (prog : Program) : Prop := ∀ v ∈ prog.verses, Scoped prog [] v.body

/- `check_program` does not refuse the program for a name. -/
def NeverUnbound (prog : Program) : Prop := ∀ n r, Check.checkProgram n prog = some (.error r) → ¬RefusedName r

theorem sungUnique {cadence' : Pitch} {final' : Final} {phrase phrase' : Phrase} (h : Sung pitches cadence final_ phrase.ops)
    (h' : Sung pitches cadence' final' phrase'.ops) : cadence = cadence' ∧ final_ = final' ∧ phrase = phrase' := by
  obtain rfl := Option.some.inj (h.last.symm.trans h'.last)
  obtain rfl := Option.some.inj (h.ends.symm.trans h'.ends)
  have read := readOpsIntones h.notes 1
  rw [readOpsIntones h'.notes 1] at read
  exact ⟨rfl,rfl,opsInj (Except.ok.inj read).symm⟩

/- What the scopes of a transcript come to, for the program its text is read as. -/
theorem readingScoped {phrase : Phrase} {x y : Scalar} (reading : Reading pitches name text cadence final_ phrase x y) (parsed : Parses text prog) :
    Closed prog ∧ (WellScoped prog ↔ Rebinds pitches) := by
  cases Parser.parsesUnique parsed reading.parses
  have sung : Sung pitches cadence final_ phrase.ops := ⟨reading.last,reading.ends,readOpsIntoned reading.read⟩
  refine ⟨organsClosed _ _ _ _,?_⟩
  have asked : ∀ op ∈ phrase.ops, needsOrgan op = true → phrase.ops.any needsOrgan = true := fun op among needs => List.any_eq_true.mpr ⟨op,among,needs⟩
  have answers := organsAnswer (phrase.ops.any needsOrgan) final_ y
    [⟨name,recovered pitches cadence final_,(sketch x (recovered pitches cadence final_) phrase ⟨0,none⟩).1,[]⟩]
  have known : Scoped _ [] (sketch x (recovered pitches cadence final_) phrase ⟨0,none⟩).1 ↔ _ := knownSketch answers phrase asked ⟨nofun,nofun⟩
  constructor
  · intro all
    exact ⟨cadence,final_,phrase,sung,(known.mp (all _ (List.mem_singleton.mpr rfl))).1⟩
  · rintro ⟨cadence',final',phrase',sung',rebinds⟩ v among
    obtain ⟨rfl,rfl,rfl⟩ := sungUnique sung sung'
    obtain rfl := List.mem_singleton.mp among
    exact known.mpr ⟨rebinds,.inr nofun⟩

/- The verse of a transcript uses only names bound on the way, and is not refused for one, exactly if its phrase rebinds. -/
theorem transcriptScoped (identifier : Identifier name) (transcribed : Transcribes pitches name text) (parsed : Parses text prog) :
    (WellScoped prog ∧ NeverUnbound prog) ↔ Rebinds pitches := by
  obtain ⟨cadence,final_,phrase,x,y,reading⟩ := readingOf identifier transcribed
  obtain ⟨closed,known⟩ := readingScoped reading parsed
  refine ⟨fun both => known.mp both.1,fun rebinds => ?_⟩
  have verses := known.mpr rebinds
  exact ⟨verses,fun n r refused => Check.checkSpares closed verses refused⟩

/- A branch on each of whose arms the argument is the value. -/
theorem transcriptScopedArms : ∃ text prog, Transcribes [74,64,62,64,62] "x" text ∧ Parses text prog ∧ WellScoped prog ∧ NeverUnbound prog := by
  have transcribed : ∃ text, Transcribes [74,64,62,64,62] "x" text := ⟨_,4,rfl⟩
  obtain ⟨text,transcribed⟩ := transcribed
  obtain ⟨cadence,final_,phrase,x,y,reading⟩ := readingOf (by decide) transcribed
  have rebinds : Rebinds [74,64,62,64,62] :=
    ⟨62,.re,.branch (.note .arg ⟨nofun,nofun⟩ .cadence) (.note .arg ⟨nofun,nofun⟩ .cadence),⟨rfl,rfl,readOpsIntoned (i := 1) rfl⟩,rfl⟩
  obtain ⟨scopes,never⟩ := (transcriptScoped (by decide) transcribed reading.parses).mpr rebinds
  exact ⟨text,_,transcribed,reading.parses,scopes,never⟩

def lostArm : List Pitch := [74,64,62,62]

/- `check_program` refuses the program for a name. -/
def refusesName (n : Nat) (prog : Program) (name : Sym) : Bool :=
  match Check.checkProgram n prog with
  | some (.error (.dissonance (.discors _ msg))) => msg == Check.Clash.describe (.unbound name)
  | _ => false

/- The second arm cadences on the name that the first arm bound. -/
theorem armNotScoped : ¬ ∀ (pitches : List Pitch) (name text : String) (prog : Program), Identifier name → Transcribes pitches name text →
    Parses text prog → WellScoped prog ∧ NeverUnbound prog := by
  intro all
  have transcribed : ∃ text, transcribe 4 lostArm "x" = some (.ok text) ∧ Parser.reads 300 text (fun prog => refusesName 60 prog "v1") = true := by
    refine ⟨_,rfl,?_⟩
    decide +kernel
  obtain ⟨text,ran,test⟩ := transcribed
  obtain ⟨prog,parsed,refused⟩ := Parser.readsParses test
  obtain ⟨-,never⟩ := all lostArm "x" text prog (by decide) ⟨4,ran⟩ parsed
  unfold refusesName at refused
  split at refused
  · rename_i verse msg answer
    exact never _ _ answer ⟨verse,"v1",by rw [eq_of_beq refused]⟩
  · cases refused

end Transcripts

end Officium.Audio
