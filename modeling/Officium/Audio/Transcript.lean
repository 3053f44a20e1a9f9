import Officium.Audio.Grammar
import Officium.Audio.Render
import Officium.Reading
import Officium.Spelling

/-! What the parser makes of a transcript. Every line the transcriber writes is read as the statement
it stands for, whatever was bound before it. -/
namespace Officium.Audio
open Bounded (Comp Returns returnsBind returnsPure returnsUpdate returnsFail returnsCut)
open Lexer (Tok Spelled Identifier Until Plain bytes bytesAppend nameByte numberByte)
open Officium.Parser (Atom Term Line Block Between ahead skip)

/- What a note is heard as: a mode without an operation of its own hears a plain bind. -/
def heard (mode : Mode) (op : RenderOp) : RenderOp :=
  match op with
  | .modal =>
    match mode with
    | .lydian | .hypolydian | .hypomixolydian => .modal
    | _ => .bindOther
  | op => op

section Words

/- The literal of a cold opening. -/
def Zero (x : Scalar) : Prop := Lexer.parseF64 (bytes "0") = some x

theorem zeroIs : ∃ x, Zero x := Lexer.digitsValue (by decide)

def varName (k : Nat) : String := "v" ++ toString k

/- What the transcriber goes on with is one of its own names. -/
def Named (prev : Option String) : Prop := ∀ v, prev = some v → ∃ k, v = varName k

/- The value before, as it is read. -/
def valueOf (x : Scalar) : Option String → Expr
  | none => .lit (.num x)
  | some v => .var v

/- What may follow a value. -/
def outsideValue (b : UInt8) : Bool := nameByte b || numberByte b

def isVar (s : String) : Bool :=
  match s.toList with
  | 'v' :: c :: _ => c.isDigit
  | _ => false

theorem varIs (k : Nat) : isVar (varName k) = true := by
  have chars : (varName k).toList = 'v' :: Nat.toDigits 10 k := by
    rw [varName,String.toList_append,Lexer.numeralChars]
    rfl
  unfold isVar
  rw [chars]
  cases digits : Nat.toDigits 10 k with
  | nil => exact absurd digits Nat.toDigits_ne_nil
  | cons c cs => exact Nat.isDigit_of_mem_toDigits (b := 10) (n := k) (by decide) (by decide) (by rw [digits]; exact List.mem_cons_self)

theorem varOutside {words : List String} {s : String} (plain : words.all (fun w => !isVar w) = true) (h : isVar s = true) :
    words.contains s = false := by
  cases found : words.contains s with
  | false => rfl
  | true =>
    have never := List.all_eq_true.mp plain s (List.contains_iff_mem.mp found)
    rw [h] at never
    cases never

theorem varLabel {s : String} (h : isVar s = true) : Lexer.rhymeLabel s = none := by
  unfold isVar at h
  split at h
  · rename_i c cs chars
    rw [Lexer.rhymeLabel,chars]
  · cases h

theorem varStatement {s : String} (h : isVar s = true) : Parser.statementWord s = false := varOutside (by decide) h

theorem varIdentifier (k : Nat) : Identifier (varName k) := Lexer.letterNumeral (l := 118) (by decide) (by decide) k

/- A value is one token. -/
theorem valueReads {x : Scalar} {prev : Option String} (zero : Zero x) (named : Named prev) : ∃ t, (∀ d, Atom d [t] (valueOf x prev)) ∧
    ∀ bs ts, Until outsideValue bs → Spelled bs ts → Spelled (bytes (prev.getD "0") ++ bs) (t :: ts) := by
  cases prev with
  | none =>
    refine ⟨.num x,fun d => Parser.atomNum x,fun bs ts ends more => .number (by decide) zero (fun b found => ?_) more⟩
    exact (Bool.or_eq_false_iff.mp (ends b found)).2
  | some v =>
    obtain ⟨k,rfl⟩ := named v rfl
    have var := varIs k
    refine ⟨_,fun d => Parser.atomVar (varStatement var) (varOutside (by decide) var),fun bs ts ends more => ?_⟩
    refine .word (varIdentifier k) (fun b found => ?_) more
    exact (Bool.or_eq_false_iff.mp (ends b found)).1

end Words

section Lines
variable {p : String} {depth k : Nat} {ts us : List Tok} {m : Expr} {b : UInt8} {bs : List UInt8}

/- Bytes that are these tokens if the line ends after them. -/
def Writes (text : List UInt8) (ts : List Tok) : Prop := ∀ bs us, Spelled (10 :: bs) us → Spelled (text ++ 10 :: bs) (ts ++ us)

theorem untilHere {p : UInt8 → Bool} (other : p b = false) : Until p (b :: bs) := fun _ found => by cases found; exact other

theorem marksParen : Lexer.Marks 40 .lparen ∧ Lexer.Marks 41 .rparen := ⟨⟨rfl,fun _ _ _ _ => rfl⟩,⟨rfl,fun _ _ _ _ => rfl⟩⟩

/- A word of the language and then a space. -/
theorem wordSpace {s : String} (identifier : Identifier s) (more : Spelled bs ts) : Spelled (bytes s ++ 32 :: bs) (.ident s :: ts) :=
  .word identifier (untilHere rfl) (.space more)

/- An expression that a line may end with. -/
structure Operand (text : String) (m : Expr) (ts : List Tok) : Prop where
  writes : Writes (bytes text) ts
  term : Term 3 ts m

theorem valueOperand {x : Scalar} {prev : Option String} (zero : Zero x) (named : Named prev) :
    ∃ ts, Operand (prev.getD "0") (valueOf x prev) ts := by
  obtain ⟨t,atom,spelled⟩ := valueReads zero named
  exact ⟨[t],fun bs us more => spelled _ _ (untilHere rfl) more,Parser.termAtom (atom 2)⟩

theorem pureOperand {x : Scalar} {prev : Option String} (zero : Zero x) (named : Named prev) :
    ∃ ts, Operand ("pure " ++ prev.getD "0") (.pure .dorian (valueOf x prev)) ts := by
  obtain ⟨t,atom,spelled⟩ := valueReads zero named
  refine ⟨_,fun bs us more => ?_,Parser.termAtom (Parser.atomPure (atom 2))⟩
  have word : bytes "pure " = bytes "pure" ++ [32] := by decide
  rw [bytesAppend,word,List.append_assoc,List.append_assoc]
  exact wordSpace (by decide) (spelled _ _ (untilHere rfl) more)

theorem argOperand : ∃ ts, Operand "arg" .arg ts :=
  ⟨_,fun _ _ more => .word (by decide) (untilHere rfl) more,Parser.termAtom Parser.atomArg⟩

theorem askOperand : ∃ ts, Operand "ask \"Dominus\"" (.ask "Dominus") ts := by
  refine ⟨_,fun bs us more => ?_,Parser.termAtom (Parser.atomAsk (.quoted "Dominus"))⟩
  have text : bytes "ask \"Dominus\"" = bytes "ask" ++ 32 :: 34 :: (bytes "Dominus" ++ [34]) := by decide
  rw [text]
  simp only [List.append_assoc,List.cons_append,List.nil_append]
  exact wordSpace (by decide) (.str (by decide) more)

/- `resolve "vox" (genus (corpus 0 "cantus" 0 0))` -/
def answered (x : Scalar) : Expr :=
  .resolve "vox" (.app (.var "genus") (.app (.app (.app (.app (.var "corpus") (.lit (.num x))) (.lit (.str "cantus"))) (.lit (.num x))) (.lit (.num x))))

theorem resolveOperand {x : Scalar} (zero : Zero x) : ∃ ts, Operand "resolve \"vox\" (genus (corpus 0 \"cantus\" 0 0))" (answered x) ts := by
  have corpus : Term 1 [.ident "corpus",.num x,.str "cantus",.num x,.num x] _ :=
    Parser.termApplied [([.num x],.lit (.num x)),([.str "cantus"],.lit (.str "cantus")),([.num x],.lit (.num x)),([.num x],.lit (.num x))]
      (Parser.atomVar (s := "corpus") (by decide) (by decide)) (by
        simp only [List.forall_mem_cons]
        exact ⟨Parser.atomNum x,Parser.atomStr "cantus",Parser.atomNum x,Parser.atomNum x,fun _ mem => by cases mem⟩)
  have genus : Term 2 ([.ident "genus"] ++ Parser.argTokens [(.lparen :: ([.ident "corpus",.num x,.str "cantus",.num x,.num x] ++ [.rparen]),_)]) _ :=
    Parser.termApplied _ (Parser.atomVar (s := "genus") (by decide) (by decide)) (by
      simp only [List.forall_mem_cons]
      exact ⟨Parser.atomParen corpus,fun _ mem => by cases mem⟩)
  refine ⟨_,fun bs us more => ?_,Parser.termAtom (Parser.atomResolve (.quoted "vox") (Parser.atomParen genus))⟩
  have text : bytes "resolve \"vox\" (genus (corpus 0 \"cantus\" 0 0))" = bytes "resolve" ++ 32 :: 34 :: (bytes "vox" ++ 34 :: 32 :: 40 ::
      (bytes "genus" ++ 32 :: 40 :: (bytes "corpus" ++ 32 :: (bytes "0" ++ 32 :: 34 :: (bytes "cantus" ++ 34 :: 32 ::
      (bytes "0" ++ 32 :: (bytes "0" ++ [41,41]))))))) := by decide
  have number {bs : List UInt8} {ts : List Tok} (ends : Until numberByte bs) (more : Spelled bs ts) : Spelled (bytes "0" ++ bs) (.num x :: ts) :=
    .number (by decide) zero ends more
  rw [text]
  simp only [List.append_assoc,List.cons_append,List.nil_append]
  refine wordSpace (by decide) (.str (by decide) (.space (.mark marksParen.1 (wordSpace (by decide) (.mark marksParen.1 (wordSpace (by decide) ?_))))))
  refine number (untilHere rfl) (.space (.str (by decide) (.space (number (untilHere rfl) (.space (number (untilHere rfl) ?_))))))
  exact .mark marksParen.2 (.mark marksParen.2 more)

theorem cmdOperand {x : Scalar} {prev : Option String} (zero : Zero x) (named : Named prev) :
    ∃ ts, Operand ("(cmd " ++ prev.getD "0" ++ " " ++ prev.getD "0" ++ " " ++ prev.getD "0" ++ ")")
      (.app (.app (.app (.var "cmd") (valueOf x prev)) (valueOf x prev)) (valueOf x prev)) ts := by
  obtain ⟨t,atom,spelled⟩ := valueReads zero named
  have args_ : ∀ a ∈ [([t],valueOf x prev),([t],valueOf x prev),([t],valueOf x prev)], Atom 1 a.1 a.2 := by
    simp only [List.forall_mem_cons]
    exact ⟨atom 1,atom 1,atom 1,fun _ mem => by cases mem⟩
  have cmd : Term 2 ([.ident "cmd"] ++ Parser.argTokens [([t],valueOf x prev),([t],valueOf x prev),([t],valueOf x prev)]) _ :=
    Parser.termApplied _ (Parser.atomVar (s := "cmd") (by decide) (by decide)) args_
  refine ⟨_,fun bs us more => ?_,Parser.termAtom (Parser.atomParen cmd)⟩
  have opened : bytes "(cmd " = 40 :: (bytes "cmd" ++ [32]) := by decide
  have blank : bytes " " = [32] := by decide
  have closed : bytes ")" = [41] := by decide
  simp only [bytesAppend,opened,blank,closed,List.append_assoc,List.cons_append,List.nil_append]
  refine .mark marksParen.1 (wordSpace (by decide) (spelled _ _ (untilHere rfl) (.space ?_)))
  exact spelled _ _ (untilHere rfl) (.space (spelled _ _ (untilHere rfl) (.mark marksParen.2 more)))

/- A line that is read as a statement. -/
structure Sentence (text : String) (m : Expr) (name : Sym) (ts : List Tok) : Prop where
  writes : Writes (bytes text) ts
  line : Line 3 ts m name

theorem boundSentence {rhs : String} (h : Operand rhs m ts) (k : Nat) :
    Sentence (varName k ++ " <- " ++ rhs) m (varName k) (.ident (varName k) :: .bindArrow :: ts) where
  writes := by
    intro bs us more
    have arrow : bytes " <- " = [32,60,45,32] := by decide
    rw [bytesAppend,bytesAppend _ " <- ",arrow,List.append_assoc,List.append_assoc]
    exact wordSpace (varIdentifier k) (.bindArrow (.space (h.writes _ _ more)))
  line := Parser.boundLine (varStatement (varIs k)) (varLabel (varIs k)) h.term

theorem wordWrites {word opening : String} (identifier : Identifier word) (blank : opening = word ++ " ") (h : Operand p m ts) :
    Writes (bytes (opening ++ p)) (.ident word :: ts) := by
  intro bs us more
  have space : bytes " " = [32] := by decide
  rw [blank,bytesAppend,bytesAppend,space,List.append_assoc,List.append_assoc]
  exact wordSpace identifier (h.writes _ _ more)

theorem poneSentence (h : Operand p m ts) : Sentence ("pone " ++ p) (.pone m) "_" (.ident "pone" :: ts) where
  writes := wordWrites (by decide) (by decide) h
  line := Parser.poneLine h.term

theorem mitteSentence (h : Operand p m ts) : Sentence ("mitte " ++ p) (.mitte m) "_" (.ident "mitte" :: ts) where
  writes := wordWrites (by decide) (by decide) h
  line := Parser.mitteLine h.term

end Lines

section Singing
variable {x : Scalar} {t : Transcriber} {op : RenderOp} {depth : Nat} {m : Expr} {ts : List Tok} {mode : Mode}

/- What a line knows of the lines before it. -/
structure Voice where
  vars : Nat
  prev : Option String

def Transcriber.voice (t : Transcriber) : Voice := ⟨t.vars,t.prev⟩

/- A modal note that has a statement of its own binds nothing. -/
def Voice.next (v : Voice) (mode : Mode) (op : RenderOp) : Voice :=
  if heard mode op = .modal then v else ⟨v.vars + 1,some (varName (v.vars + 1))⟩

def Voice.binder (v : Voice) (mode : Mode) (op : RenderOp) : Sym :=
  if heard mode op = .modal then "_" else varName (v.vars + 1)

/- The statement a note stands for. -/
def statementOf (x : Scalar) (mode : Mode) (prev : Option String) (op : RenderOp) : Expr :=
  match op with
  | .arg => .arg
  | .ask => .ask "Dominus"
  | .pure => .pure .dorian (valueOf x prev)
  | .resolve => answered x
  | .modal =>
    match mode with
    | .lydian | .hypolydian => .pone (valueOf x prev)
    | .hypomixolydian => .mitte (.app (.app (.app (.var "cmd") (valueOf x prev)) (valueOf x prev)) (valueOf x prev))
    | _ => valueOf x prev
  | _ => valueOf x prev

/- The notes that have the transcript hold an organ. -/
def needsOrgan (op : RenderOp) : Bool :=
  match op with
  | .ask | .resolve => true
  | _ => false

/- The note adds a line that is its statement. -/
structure Sings (x : Scalar) (t : Transcriber) (depth : Nat) (op : RenderOp) : Prop where
  sentence : ∃ text ts, Sentence text (statementOf x t.mode t.prev op) (t.voice.binder t.mode op) ts ∧
    (t.sing depth op).body = (t.line depth text).body
  voice : (t.sing depth op).voice = t.voice.next t.mode op
  mode : (t.sing depth op).mode = t.mode
  organ : (t.sing depth op).needsFugue = (t.needsFugue || needsOrgan op)

theorem modalSings (zero : Zero x) (named : Named t.prev) : Sings x t depth .modal := by
  obtain ⟨ts,operand⟩ := valueOperand zero named
  obtain ⟨us,cmd⟩ := cmdOperand zero named
  obtain ⟨ops,mode,pos,body,vars,prev,needsFugue⟩ := t
  cases mode with
  | lydian | hypolydian => exact ⟨⟨_,_,poneSentence operand,rfl⟩,rfl,rfl,(Bool.or_false _).symm⟩
  | hypomixolydian => exact ⟨⟨_,_,mitteSentence cmd,rfl⟩,rfl,rfl,(Bool.or_false _).symm⟩
  | _ => exact ⟨⟨_,_,boundSentence operand (vars+1),rfl⟩,rfl,rfl,(Bool.or_false _).symm⟩

theorem noteSings (zero : Zero x) (named : Named t.prev) (plain : op.Plain) : Sings x t depth op := by
  have unchanged := (Bool.or_false t.needsFugue).symm
  have needed : true = (t.needsFugue || true) := (Bool.or_true _).symm
  cases op with
  | cadence => exact absurd rfl plain.1
  | branch => exact absurd rfl plain.2
  | arg =>
    obtain ⟨ts,operand⟩ := argOperand
    exact ⟨⟨_,_,boundSentence operand (t.vars+1),rfl⟩,rfl,rfl,unchanged⟩
  | ask =>
    obtain ⟨ts,operand⟩ := askOperand
    exact ⟨⟨_,_,boundSentence operand (t.vars+1),rfl⟩,rfl,rfl,needed⟩
  | pure =>
    obtain ⟨ts,operand⟩ := pureOperand zero named
    exact ⟨⟨_,_,boundSentence operand (t.vars+1),rfl⟩,rfl,rfl,unchanged⟩
  | bindOther =>
    obtain ⟨ts,operand⟩ := valueOperand zero named
    exact ⟨⟨_,_,boundSentence operand (t.vars+1),rfl⟩,rfl,rfl,unchanged⟩
  | resolve =>
    obtain ⟨ts,operand⟩ := resolveOperand zero
    exact ⟨⟨_,_,boundSentence operand (t.vars+1),rfl⟩,rfl,rfl,needed⟩
  | modal => exact modalSings zero named

theorem namedNext {v : Voice} (named : Named v.prev) (mode : Mode) (op : RenderOp) : Named (v.next mode op).prev := by
  unfold Voice.next
  split
  · exact named
  · exact fun w found => ⟨_,(Option.some.inj found).symm⟩

theorem classifyValue (x : Scalar) (prev : Option String) : classify (valueOf x prev) = .bindOther := by
  cases prev <;> rfl

theorem classifyStatement (x : Scalar) (mode : Mode) (prev : Option String) (plain : op.Plain) :
    classify (statementOf x mode prev op) = heard mode op := by
  cases op with
  | cadence => exact absurd rfl plain.1
  | branch => exact absurd rfl plain.2
  | bindOther => exact classifyValue x prev
  | modal =>
    cases mode with
    | lydian | hypolydian | hypomixolydian => rfl
    | _ => exact classifyValue x prev
  | _ => rfl

end Singing

section Copying
variable {x : Scalar} {mode : Mode} {t t' : Transcriber} {op : RenderOp} {ops ops' : List RenderOp} {depth n : Nat} {m e e' : Expr} {name : Sym}
  {ts ts' : List Tok} {text p : String} {bs chunk chunk' : List UInt8}

def indent (depth : Nat) : List UInt8 := (List.replicate depth [32,32]).flatten

def lineBytes (depth : Nat) (text : String) : List UInt8 := indent depth ++ (bytes text ++ [10])

theorem indentBytes (depth : Nat) (s : String) : bytes ((List.replicate depth "  ").foldl (· ++ ·) s) = bytes s ++ indent depth := by
  induction depth generalizing s with
  | zero => exact (List.append_nil _).symm
  | succ depth ih =>
    rw [List.replicate_succ,List.foldl_cons,ih,bytesAppend,List.append_assoc]
    rfl

theorem lineWrites (t : Transcriber) (depth : Nat) (text : String) : bytes (t.line depth text).body = bytes t.body ++ lineBytes depth text := by
  have ended : bytes "\n" = [10] := by decide
  rw [Transcriber.line,bytesAppend,bytesAppend,indentBytes,ended,List.append_assoc,List.append_assoc]
  rfl

theorem indentSpelled (more : Spelled bs ts) : Spelled (indent depth ++ bs) ts := by
  induction depth with
  | zero => exact more
  | succ depth ih => exact .space (.space ih)

theorem lineSpelled (depth : Nat) (writes : Writes (bytes text) ts) (plain : Plain ts') (more : Spelled bs ts') :
    Spelled (lineBytes depth text ++ bs) (ts ++ .newline :: ts') := by
  rw [lineBytes,List.append_assoc,List.append_assoc]
  exact indentSpelled (writes _ _ (.newline plain more))

/- The bytes are a block of statements that is heard as these notes. -/
structure Copied (mode : Mode) (ops : List RenderOp) (chunk : List UInt8) (ts : List Tok) (e : Expr) : Prop where
  writes : ∀ bs us, Plain us → Spelled bs us → Spelled (chunk ++ bs) (ts ++ us)
  block : Block mode 3 ts e
  hears : operations e = ops.map (heard mode)

theorem blockPlain (h : Block mode 3 ts e) : Plain (ts ++ ts') := by
  obtain ⟨s,us,rfl,-⟩ := h.opens
  exact fun t found => by cases found; rfl

theorem cadenceCopied (h : Operand p m ts) : Copied mode [.cadence] (lineBytes depth ("amen " ++ p)) (.ident "amen" :: (ts ++ [.newline])) (.ret mode m) where
  writes := by
    intro bs us plain more
    have word : bytes "amen " = bytes "amen" ++ [32] := by decide
    have amen : Writes (bytes ("amen " ++ p)) (.ident "amen" :: ts) := by
      intro bs us more
      rw [bytesAppend,word,List.append_assoc,List.append_assoc]
      exact wordSpace (by decide) (h.writes _ _ more)
    have spelled := lineSpelled depth amen plain more
    rw [List.cons_append,List.append_assoc]
    exact spelled
  block := Parser.amenBlock h.term
  hears := rfl

theorem lineCopied (depth : Nat) (h : Sentence text m name ts) (class_ : classify m = heard mode op) (more : Copied mode ops chunk ts' e) :
    Copied mode (op :: ops) (lineBytes depth text ++ chunk) (ts ++ .newline :: ts') (.bind mode m name e) where
  writes := by
    intro bs us plain rest
    rw [List.append_assoc,List.append_assoc]
    exact lineSpelled depth h.writes (blockPlain more.block) (more.writes _ _ plain rest)
  block := Parser.lineBlock h.line more.block
  hears := by rw [operations,class_,more.hears,List.map_cons]

theorem branchCopied (depth : Nat) (then_ : Copied mode ops chunk ts e) (else_ : Copied mode ops' chunk' ts' e') :
    ∃ us, Copied mode (.branch :: (ops ++ ops')) (lineBytes depth "si verum tunc \x7b" ++ (chunk ++ (lineBytes depth "\x7d aliter \x7b" ++
      (chunk' ++ lineBytes depth "\x7d")))) us (.ifE (.lit (.bool true)) e e') := by
  refine ⟨_,?_,Parser.siBlock (Parser.termAtom Parser.atomVerum) then_.block else_.block,?_⟩
  · intro bs us plain more
    have marks : Lexer.Marks 123 .lbrace ∧ Lexer.Marks 125 .rbrace := ⟨⟨rfl,fun _ _ _ _ => rfl⟩,⟨rfl,fun _ _ _ _ => rfl⟩⟩
    have si : Writes (bytes "si verum tunc \x7b") [.ident "si",.ident "verum",.ident "tunc",.lbrace] := by
      intro bs us more
      have text : bytes "si verum tunc \x7b" = bytes "si" ++ 32 :: (bytes "verum" ++ 32 :: (bytes "tunc" ++ [32,123])) := by decide
      rw [text]
      simp only [List.append_assoc,List.cons_append,List.nil_append]
      exact wordSpace (by decide) (wordSpace (by decide) (wordSpace (by decide) (.mark marks.1 more)))
    have aliter : Writes (bytes "\x7d aliter \x7b") [.rbrace,.ident "aliter",.lbrace] := by
      intro bs us more
      have text : bytes "\x7d aliter \x7b" = 125 :: 32 :: (bytes "aliter" ++ [32,123]) := by decide
      rw [text]
      simp only [List.append_assoc,List.cons_append,List.nil_append]
      exact .mark marks.2 (.space (wordSpace (by decide) (.mark marks.1 more)))
    have closed : Writes (bytes "\x7d") [.rbrace] := fun bs us more => .mark marks.2 more
    have last := lineSpelled depth closed plain more
    have arm := lineSpelled depth aliter (blockPlain else_.block) (else_.writes _ _ (fun t found => by cases found; rfl) last)
    have whole := lineSpelled depth si (blockPlain then_.block) (then_.writes _ _ (fun t found => by cases found; rfl) arm)
    simpa only [List.append_assoc,List.cons_append,List.nil_append] using whole
  · rw [operations,then_.hears,else_.hears,List.map_cons,List.map_append]
    rfl

/- The verse a phrase is written as, and what is known after it. -/
def sketch (x : Scalar) (mode : Mode) : Phrase → Voice → Expr × Voice
  | .cadence, v => (.ret mode (valueOf x v.prev),v)
  | .note op _ rest, v =>
    let later := sketch x mode rest (v.next mode op)
    (.bind mode (statementOf x mode v.prev op) (v.binder mode op) later.1,later.2)
  | .branch then_ else_, v =>
    let first := sketch x mode then_ v
    let second := sketch x mode else_ first.2
    (.ifE (.lit (.bool true)) first.1 second.1,second.2)

/- What a block of the transcriber does to its state. -/
structure Sketched (x : Scalar) (t t' : Transcriber) : Prop where
  ops : t'.ops = t.ops
  mode : t'.mode = t.mode
  named : Named t'.prev
  copied : ∃ (phrase : Phrase) (chunk : List UInt8) (ts : List Tok), Copied t.mode phrase.ops chunk ts (sketch x t.mode phrase t.voice).1 ∧
    t'.voice = (sketch x t.mode phrase t.voice).2 ∧ bytes t'.body = bytes t.body ++ chunk ∧
    t.ops.drop t.pos = phrase.ops ++ t.ops.drop t'.pos ∧ t'.needsFugue = (t.needsFugue || phrase.ops.any needsOrgan)

theorem dropOp (found : t.ops[t.pos]? = some op) : t.ops.drop t.pos = op :: t.ops.drop (t.pos+1) := by
  obtain ⟨inside,here⟩ := List.getElem?_eq_some_iff.mp found
  rw [List.drop_eq_getElem_cons inside,here]

theorem cadenceSketched (zero : Zero x) (named : Named t.prev) (found : t.ops[t.pos]? = some .cadence) :
    Sketched x t ((took t).sing depth .cadence) where
  ops := rfl
  mode := rfl
  named := named
  copied := by
    obtain ⟨ts,operand⟩ := valueOperand zero named
    exact ⟨.cadence,_,_,cadenceCopied operand,rfl,lineWrites _ _ _,dropOp found,(Bool.or_false _).symm⟩

theorem noteSketched (plain : op.Plain) (found : t.ops[t.pos]? = some op) (sings : Sings x (took t) depth op)
    (more : Sketched x ((took t).sing depth op) t') : Sketched x t t' := by
  obtain ⟨notes,pos⟩ := singStays (took t) depth op
  obtain ⟨text,ts,sentence,body⟩ := sings.sentence
  obtain ⟨phrase,chunk,ts',copied,voice,written,rest,organ⟩ := more.copied
  have after : ((took t).sing depth op).voice = t.voice.next t.mode op := sings.voice
  have mode : ((took t).sing depth op).mode = t.mode := sings.mode
  rw [mode,after] at copied voice
  rw [notes,pos] at rest
  have class_ := classifyStatement x t.mode t.prev plain
  refine ⟨more.ops.trans notes,more.mode.trans mode,more.named,.note op plain phrase,_,_,lineCopied depth sentence class_ copied,voice,?_,?_,?_⟩
  · rw [written,body,lineWrites,List.append_assoc]
    rfl
  · rw [dropOp found]
    exact congrArg (op :: ·) rest
  · rw [organ,sings.organ]
    exact Bool.or_assoc ..

theorem branchSketched {t₁ t₂ : Transcriber} (found : t.ops[t.pos]? = some .branch) (then_ : Sketched x ((took t).sing depth .branch) t₁)
    (else_ : Sketched x (t₁.line depth "\x7d aliter \x7b") t₂) : Sketched x t (t₂.line depth "\x7d") := by
  obtain ⟨phrase,chunk,ts,copied,voice,written,rest,organ⟩ := then_.copied
  obtain ⟨phrase',chunk',ts',copied',voice',written',rest',organ'⟩ := else_.copied
  have mode : t₁.mode = t.mode := then_.mode
  have notes : t₁.ops = t.ops := then_.ops
  have before : t₁.voice = (sketch x t.mode phrase t.voice).2 := voice
  change Copied t₁.mode phrase'.ops chunk' ts' (sketch x t₁.mode phrase' t₁.voice).1 at copied'
  change t₂.voice = (sketch x t₁.mode phrase' t₁.voice).2 at voice'
  change t₁.ops.drop t₁.pos = phrase'.ops ++ t₁.ops.drop t₂.pos at rest'
  change t₂.needsFugue = (t₁.needsFugue || _) at organ'
  change t₁.needsFugue = (t.needsFugue || _) at organ
  rw [mode,before] at copied' voice'
  rw [notes] at rest'
  obtain ⟨us,both⟩ := branchCopied depth copied copied'
  refine ⟨else_.ops.trans notes,else_.mode.trans mode,else_.named,.branch phrase phrase',_,us,both,voice',?_,?_,?_⟩
  · rw [lineWrites,written',lineWrites,written]
    change bytes ((took t).line depth "si verum tunc \x7b").body ++ chunk ++ _ ++ chunk' ++ _ = _
    rw [lineWrites]
    simp only [List.append_assoc]
    rfl
  · have first : t.ops.drop (t.pos+1) = phrase.ops ++ t.ops.drop t₁.pos := rest
    rw [dropOp found,first,rest']
    exact congrArg (RenderOp.branch :: ·) (List.append_assoc ..).symm
  · change t₂.needsFugue = (t.needsFugue || (phrase.ops ++ phrase'.ops).any needsOrgan)
    rw [organ',organ,List.any_append,Bool.or_assoc]

theorem blockSketched (zero : Zero x) (h : Returns (block n depth) t () t') (named : Named t.prev) : Sketched x t t' := by
  induction n generalizing depth t t' with
  | zero => exact (returnsCut h).elim
  | succ n ih =>
    rw [block] at h
    obtain ⟨t₀,t₁,stated,h⟩ := returnsBind.mp h
    obtain ⟨rfl,rfl⟩ := Bounded.returnsState.mp stated
    cases found : t.ops[t.pos]? with
    | none =>
      rw [found] at h
      obtain ⟨_,_,_,never⟩ := returnsBind.mp h
      exact (returnsFail never).elim
    | some op =>
      rw [found] at h
      obtain ⟨_,t₁,sang,h⟩ := returnsBind.mp h
      have same : t₁ = (took t).sing depth op := (returnsUpdate.mp sang).symm
      subst same
      have line (plain : op.Plain) (more : Returns (block n depth) ((took t).sing depth op) () t') : Sketched x t t' := by
        have sings : Sings x (took t) depth op := noteSings zero named plain
        have named' : Named ((took t).sing depth op).voice.prev := by
          rw [sings.voice]
          exact namedNext named _ _
        exact noteSketched plain found sings (ih more named')
      cases op with
      | cadence =>
        obtain ⟨-,rfl⟩ := returnsPure.mp h
        exact cadenceSketched zero named found
      | branch =>
        obtain ⟨_,t₁,then_,h⟩ := returnsBind.mp h
        obtain ⟨_,t₂,aliter,h⟩ := returnsBind.mp h
        obtain ⟨_,t₃,else_,closed⟩ := returnsBind.mp h
        obtain rfl := returnsUpdate.mp aliter
        obtain rfl := returnsUpdate.mp closed
        have arm := ih then_ named
        exact branchSketched found arm (ih else_ arm.named)
      | arg | ask | pure | bindOther | resolve | modal => exact line ⟨by decide,by decide⟩ h

end Copying

end Officium.Audio
