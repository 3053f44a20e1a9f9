import Officium.Audio.Transcript

/-! The whole score of a transcript: its comment, the organ the verse may need, and the verse. -/
namespace Officium.Audio
open Bounded (Returns returnsPure returnsBind)
open Lexer (Tok Spelled Identifier Until Plain Lexes bytes bytesAppend)
open Officium.Parser (Parser Term Between NamesFinal Parses programLoop ahead skip)

section Names

theorem finalIdentifier (final_ : Final) : Identifier (finalName final_) ∧ Identifier (plagalName final_) := by
  cases final_ <;> decide

theorem namesFinal (final_ : Final) (plagal : Bool) :
    NamesFinal (if plagal then plagalName final_ else finalName final_) final_ (.fromFinal final_ plagal) := by
  intro p rest line
  cases final_ <;> cases plagal <;> exact returnsBind.mpr ⟨_,_,Parser.identAhead line,returnsPure.mpr ⟨rfl,rfl⟩⟩

end Names

section Text
variable {name tok : String} {mode : Mode} {ops : List RenderOp} {ts us : List Tok} {bs : List UInt8} {e : Expr} {t : Transcriber}

def oneLine (s : String) : Bool := (bytes s).all (fun b => b != 10)

theorem oneLineAppend {s s' : String} (h : oneLine s = true) (h' : oneLine s' = true) : oneLine (s ++ s') = true := by
  rw [oneLine,bytesAppend,List.all_append,Bool.and_eq_true]
  exact ⟨h,h'⟩

theorem numeralOneLine (n : Nat) : oneLine (toString n) = true := by
  refine List.all_eq_true.mpr (fun b mem => ?_)
  have digit_ := List.all_eq_true.mp (Lexer.numeralBytes n).2 b mem
  cases newline : b != 10 with
  | true => rfl
  | false =>
    have same : b = 10 := by simpa using newline
    rw [same] at digit_
    cases digit_

theorem headerLexes (notes : Nat) (mode : Mode) (final_ : Final) (more : Lexes [] 2 bs ts) :
    Lexes [] 1 (bytes (header notes mode (finalName final_)) ++ bs) ts := by
  have name : oneLine (modeName mode) = true := by cases mode <;> decide
  have tok : oneLine (finalName final_) = true := by cases final_ <;> decide
  have inside : oneLine (" transcribed from the manual: " ++ toString notes ++ " notes, " ++ modeName mode ++ " on " ++ finalName final_) = true :=
    oneLineAppend (oneLineAppend (oneLineAppend (oneLineAppend (oneLineAppend (by decide) (numeralOneLine notes)) (by decide)) name) (by decide)) tok
  have opened : bytes "; transcribed from the manual: " = 59 :: bytes " transcribed from the manual: " := by decide
  have ended : bytes "\n" = [10] := by decide
  have text : bytes (header notes mode (finalName final_)) ++ bs = 59 :: (bytes (" transcribed from the manual: " ++ toString notes ++ " notes, " ++
      modeName mode ++ " on " ++ finalName final_) ++ 10 :: bs) := by
    unfold header
    simp only [bytesAppend,opened,ended,List.append_assoc,List.cons_append,List.nil_append]
  rw [text]
  exact Lexer.commentLexes inside more

def organumTokens (tok : String) (x : Scalar) : List Tok :=
  [.ident "fuga",.ident "organum",.ident "in",.ident tok,.lbrace,.newline,.ident "pedale",.ident "Dominus",.eq,.num x,.newline,
    .ident "reale",.ident "vox",.at_,.ident "cantus",.eq,.lambda,.ident "x",.arrow,.ident "x",.newline,.rbrace,.newline]

theorem marksBrace : Lexer.Marks 123 .lbrace ∧ Lexer.Marks 125 .rbrace := ⟨⟨rfl,fun _ _ _ _ => rfl⟩,⟨rfl,fun _ _ _ _ => rfl⟩⟩

theorem organumSpelled (mode : Mode) (identifier : Identifier tok) (plain : Plain us) (more : Spelled bs us) :
    ∃ x, Spelled (bytes (organum mode tok) ++ bs) (organumTokens tok x ++ us) := by
  have marks : Lexer.Marks 61 .eq ∧ Lexer.Marks 64 .at_ ∧ Lexer.Marks 92 .lambda :=
    ⟨⟨rfl,fun _ _ _ _ => rfl⟩,⟨rfl,fun _ _ _ _ => rfl⟩,⟨rfl,fun _ _ _ _ => rfl⟩⟩
  have opened : bytes "fuga organum in " = bytes "fuga" ++ 32 :: (bytes "organum" ++ 32 :: (bytes "in" ++ [32])) := by decide
  have brace : bytes " \x7b\n" = [32,123,10] := by decide
  have pedal : bytes "  pedale Dominus = " = 32 :: 32 :: (bytes "pedale" ++ 32 :: (bytes "Dominus" ++ [32,61,32])) := by decide
  have ended : bytes "\n" = [10] := by decide
  have real : bytes "  reale  vox @ cantus = \\x -> x\n" = 32 :: 32 :: (bytes "reale" ++ 32 :: 32 :: (bytes "vox" ++ 32 :: 64 :: 32 ::
    (bytes "cantus" ++ 32 :: 61 :: 32 :: 92 :: (bytes "x" ++ 32 :: 45 :: 62 :: 32 :: (bytes "x" ++ [10]))))) := by decide
  have closed : bytes "\x7d\n" = [125,10] := by decide
  have vox : Spelled (bytes "  reale  vox @ cantus = \\x -> x\n" ++ (bytes "\x7d\n" ++ bs)) (.ident "reale" :: .ident "vox" :: .at_ :: .ident "cantus" ::
      .eq :: .lambda :: .ident "x" :: .arrow :: .ident "x" :: .newline :: .rbrace :: .newline :: us) := by
    rw [real,closed]
    simp only [List.append_assoc,List.cons_append,List.nil_append]
    refine .space (.space (wordSpace (by decide) (.space (wordSpace (by decide) (.mark marks.2.1 (.space (wordSpace (by decide) ?_)))))))
    refine .mark marks.1 (.space (.mark marks.2.2 (wordSpace (by decide) (.arrow (.space (.word (by decide) (untilHere rfl) ?_))))))
    exact .newline (fun t found => by cases found; rfl) (.mark marksBrace.2 (.newline plain more))
  obtain ⟨x,dominus⟩ := Lexer.numeralSpelled (degreePitch mode (if mode.isPlagal then 3 else 5)).toNat (untilHere rfl)
    (.newline (fun t found => by cases found; rfl) vox)
  refine ⟨x,?_⟩
  unfold organum
  simp only [bytesAppend,opened,brace,pedal,ended,List.append_assoc,List.cons_append,List.nil_append]
  refine wordSpace (by decide) (wordSpace (by decide) (wordSpace (by decide) (wordSpace identifier (.mark marksBrace.1 (.newline ?_ ?_)))))
  · exact fun t found => by cases found; rfl
  · exact .space (.space (wordSpace (by decide) (wordSpace (by decide) (.mark marks.1 (.space dominus)))))

def verseTokens (name w : String) (ts : List Tok) : List Tok :=
  .ident "versus" :: .ident name :: .ident "in" :: .ident w :: .lbrace :: .newline :: (ts ++ [.rbrace,.newline])

theorem verseSpelled {w body : String} (identifier : Identifier name) (w_ : Identifier w) (copied : Copied mode ops (bytes body) ts e) :
    Spelled (bytes ("versus " ++ name ++ " in " ++ w ++ " \x7b\n" ++ body ++ "\x7d\n")) (verseTokens name w ts) := by
  have versus_ : bytes "versus " = bytes "versus" ++ [32] := by decide
  have in_ : bytes " in " = 32 :: (bytes "in" ++ [32]) := by decide
  have brace : bytes " \x7b\n" = [32,123,10] := by decide
  have closed : bytes "\x7d\n" = [125,10] := by decide
  have last : Spelled [125,10] [.rbrace,.newline] := .mark marksBrace.2 (.newline (fun t found => by cases found) .nil)
  have inside := copied.writes _ _ (fun t found => by cases found; rfl) last
  simp only [bytesAppend,versus_,in_,brace,closed,List.append_assoc,List.cons_append,List.nil_append]
  exact wordSpace (by decide) (wordSpace identifier (wordSpace (by decide) (wordSpace w_
    (.mark marksBrace.1 (.newline (blockPlain copied.block) inside)))))

def scoreTokens (organ : Bool) (name tok w : String) (x : Scalar) (ts : List Tok) : List Tok :=
  if organ then organumTokens tok x ++ verseTokens name w ts else verseTokens name w ts

theorem scoreLexes (pitches : List Pitch) (final_ : Final) (plagal : Bool) (identifier : Identifier name)
    (copied : Copied t.mode ops (bytes t.body) ts e) : ∃ x, Lexes [] 1 (bytes (score pitches name final_ plagal t))
      (scoreTokens t.needsFugue name (finalName final_) (if plagal then plagalName final_ else finalName final_) x ts) := by
  have w_ : Identifier (if plagal then plagalName final_ else finalName final_) := by
    split
    · exact (finalIdentifier final_).2
    · exact (finalIdentifier final_).1
  have verse := verseSpelled identifier w_ copied
  obtain ⟨x,both⟩ := organumSpelled t.mode (finalIdentifier final_).1 (fun t found => by cases found; rfl) verse
  refine ⟨x,?_⟩
  unfold score scoreTokens
  cases t.needsFugue with
  | true =>
    have lexed := headerLexes pitches.length t.mode final_ (Lexer.spelledLexes both (.inl (fun t found => by cases found; rfl)))
    simpa only [if_true,bytesAppend,List.append_assoc] using lexed
  | false =>
    have lexed := headerLexes pitches.length t.mode final_ (Lexer.spelledLexes verse (.inl (fun t found => by cases found; rfl)))
    have none : bytes "" = [] := by decide
    simpa only [Bool.false_eq_true,if_false,bytesAppend,none,List.nil_append,List.append_nil,List.append_assoc] using lexed

end Text

section Parsing
variable {name w : String} {mode : Mode} {ts : List Tok} {e : Expr} {p : Parser} {prog : Program} {x : Scalar}

/- The fugue of the text of `organum`. -/
def organ (final_ : Final) (x : Scalar) : Fugue :=
  { Fugue.new "organum" final_ with pedals := [("Dominus",.num x)], real := [(("vox","cantus"),.lam "x" (.var "x"))] }

theorem verseParses (prog : Program) {final_ : Final} (named : NamesFinal w final_ mode) (block : Parser.Block mode 3 ts e) (here : Between 3 p)
    (line : ahead p = verseTokens name w ts) :
    ∃ q, Parser.Yields (fun n => programLoop n prog) p { prog with verses := prog.verses ++ [⟨name,mode,e,[]⟩] } q := by
  have next := Parser.aheadNext line
  have verse := Parser.verseReads (p := skip p 1) named block ⟨here.outside,here.room⟩
    next
  refine ⟨_,Parser.programVerse line verse (Parser.programEnds (Parser.pastLast ?_))⟩
  rw [Parser.aheadSkip,next]
  simp [List.drop_append]

theorem organumParses (prog : Program) {final_ : Final} {rest : List Tok} {prog' : Program} {t : Tok} (named : NamesFinal w final_ mode) (here : Between 3 p)
    (line : ahead p = organumTokens w x ++ t :: rest) (plain : t.isNewline = false)
    (later : ∀ q, Between 3 q → ahead q = t :: rest → ∃ r, Parser.Yields (fun n => programLoop n { prog with fugues := prog.fugues ++ [organ final_ x] }) q prog' r) :
    ∃ r, Parser.Yields (fun n => programLoop n prog) p prog' r := by
  have at_ (k : Nat) : ahead (skip p k) = (organumTokens w x ++ t :: rest).drop k := by rw [Parser.aheadSkip,line]
  have subject : Term 3 [.lambda,.ident "x",.arrow,.ident "x"] _ :=
    Parser.termLambda (Parser.termAtom (Parser.atomVar (d := 1) (s := "x") (by decide) (by decide)))
  have organ : Parser.Yields Parser.fugue (skip p 1) (organ final_ x) (skip p 22) := by
    refine Parser.fugueOpens named (at_ 1) (Parser.fugueNext (at_ 5) rfl (Parser.fuguePedale (at_ 6) (Parser.fugueNext (at_ 10) rfl ?_)))
    exact Parser.fugueReale subject ⟨here.outside,here.room⟩ (at_ 11) (Parser.fugueNext (at_ 20) rfl (Parser.fugueCloses (at_ 21)))
  obtain ⟨r,program⟩ := later (skip p 23) ⟨here.outside,here.room⟩ (at_ 23)
  exact ⟨r,Parser.programFugue line organ (Parser.programNext (at_ 22) plain program)⟩

/- The fugues of a transcript. -/
def organs (needsFugue : Bool) (final_ : Final) (x : Scalar) : List Fugue := if needsFugue then [organ final_ x] else []

theorem scoreParses {t : Transcriber} {ops : List RenderOp} (pitches : List Pitch) {final_ : Final} {plagal : Bool} (identifier : Identifier name)
    (same : t.mode = .fromFinal final_ plagal) (copied : Copied t.mode ops (bytes t.body) ts e) :
    ∃ x, Parses (score pitches name final_ plagal t) ⟨organs t.needsFugue final_ x,[⟨name,t.mode,e,[]⟩]⟩ := by
  obtain ⟨x,us,k,tokens,lexed⟩ := scoreLexes pitches final_ plagal identifier copied
  have named := namesFinal final_ plagal
  rw [← same] at named
  have organNamed := namesFinal final_ false
  have here : Between 3 ⟨us,0,0,0⟩ := ⟨rfl,(by decide : 0 + 3 ≤ Parser.maxExprDepth)⟩
  have program : ∃ q, Parser.Yields (fun n => programLoop n ⟨[],[]⟩) ⟨us,0,0,0⟩ ⟨organs t.needsFugue final_ x,[⟨name,t.mode,e,[]⟩]⟩ q := by
    unfold scoreTokens at tokens
    unfold organs
    split at tokens
    · rename_i needs
      rw [if_pos needs]
      exact organumParses ⟨[],[]⟩ organNamed here tokens rfl (fun q inside line => verseParses _ named copied.block inside line)
    · rename_i unneeded
      rw [if_neg unneeded]
      exact verseParses ⟨[],[]⟩ named copied.block here tokens
  obtain ⟨q,read⟩ := program
  obtain ⟨n,settled⟩ := Parser.yieldsReturns read
  have lexed_ : Lexer.lex (max n k) (score pitches name final_ plagal t) = some (.ok us) := lexed _ (Nat.le_max_right n k)
  have read_ : programLoop (max n k) ⟨[],[]⟩ ⟨us,0,0,0⟩ = _ := settled _ (Nat.le_max_left n k)
  exact ⟨x,max n k,by rw [Parser.parse,lexed_]; simp only; rw [read_]; rfl⟩

end Parsing

end Officium.Audio
