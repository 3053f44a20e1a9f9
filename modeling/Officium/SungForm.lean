import Officium.Lowering
import Officium.PlainForm

/-! The sung form is sugar: a sung verse is parsed to what it is without its heads, with the heads as its
rhymes, and where no line starts with a label and a string nothing of the form is noticed. -/
namespace Officium.Parser
open Bounded
open Lexer (Tok Lexed bytes)

section Sugar
variable {n : Nat} {src : String} {prog : Program}

/- Neither on a line of its own nor on that of a brace there is anything a sung verse could open with: the
two front ends come to the same, their refusals too. -/
theorem parseAlike (unlabelled : Lexer.Unlabelled src) (unopened : ¬OpensAtBrace src) (n : Nat) : parse n src = plainParse n src := by
  unfold parse plainParse
  rw [← Lexer.plainLexIs unlabelled]
  cases lexed : Lexer.lex n src with
  | none => rfl
  | some r =>
  cases r with
  | error e => rfl
  | ok toks =>
    obtain ⟨h,reads⟩ := Lexer.lexIff.mpr ⟨n,toks,lexed,rfl⟩
    have starts : ahead (⟨toks,0,0,0⟩ : Parser) = toks.map Prod.fst := List.drop_zero
    have opens : Unopened (toks.map Prod.fst) := fun pre name final_ hs l s rest same header matched => by
      cases label : Lexer.rhymeLabel l with
      | none => rfl
      | some c => exact absurd ⟨n,toks,pre,name,final_,hs,l,s,rest,lexed,same,header,matched,Option.isSome_iff_exists.mpr ⟨c,label⟩⟩ unopened
    have alike : programLoop n ⟨[],[]⟩ ⟨toks,0,0,0⟩ = programLoopOf plainVersus n ⟨[],[]⟩ ⟨toks,0,0,0⟩ :=
      programAlike ⟨rfl,rfl⟩ (starts ▸ unlabelledHeadless unlabelled reads) (starts ▸ opens)
    simp only [alike]

/- The tokens a program is parsed from without the sung form. -/
theorem plainReturns (parsed : plainParse n src = some (.ok prog)) :
    ∃ toks q, Lexer.plainLex n src = some (.ok toks) ∧ Returns (programLoopOf plainVersus n ⟨[],[]⟩) ⟨toks,0,0,0⟩ prog q := by
  unfold plainParse at parsed
  cases lexed : Lexer.plainLex n src with
  | none => rw [lexed] at parsed; cases parsed
  | some r =>
    rw [lexed] at parsed
    cases r with
    | error e => cases parsed
    | ok toks =>
      obtain ⟨r,ended,same⟩ := Option.map_eq_some_iff.mp parsed
      cases r with
      | error e => cases same
      | ok answer =>
        cases same
        exact ⟨toks,answer.2,rfl,ended⟩

/- What is parsed without the sung form is parsed with it to the same. -/
theorem plainParsed (unlabelled : Lexer.Unlabelled src) (parsed : plainParse n src = some (.ok prog)) : parse n src = some (.ok prog) := by
  obtain ⟨toks,q,lexed,returned⟩ := plainReturns parsed
  rw [← Lexer.plainLexIs unlabelled] at lexed
  unfold parse
  rw [lexed]
  exact Option.map_eq_some_iff.mpr ⟨_,plainSung returned,rfl⟩

theorem plainForm (unlabelled : Lexer.Unlabelled src) : Parses src prog ↔ PlainParses src prog := by
  constructor
  · rintro ⟨n,parsed⟩
    have unopened : ¬OpensAtBrace src := fun opens => openedRefused opens prog ⟨n,parsed⟩
    exact ⟨n,parseAlike unlabelled unopened n ▸ parsed⟩
  · rintro ⟨n,parsed⟩
    exact ⟨n,plainParsed unlabelled parsed⟩

/- And no verse of it has rhymes. -/
theorem plainFormRhymes (parsed : PlainParses src prog) : ∀ v ∈ prog.verses, v.rhymes = [] := by
  obtain ⟨n,parsed⟩ := parsed
  obtain ⟨toks,q,-,returned⟩ := plainReturns parsed
  exact plainRhymes (fun v mem => by cases mem) _ _ _ returned

end Sugar

/- Labels that all occur twice are answered. -/
theorem answeredNone {heads : List (Char × String)} (answered : ∀ h ∈ heads, 2 ≤ (heads.map Prod.fst).count h.1) : unanswered heads = none := by
  have none_ : heads.find? (fun r => (heads.filter (fun q => q.1 == r.1)).length < 2) = none := by
    rw [List.find?_eq_none]
    intro h mem
    have twice := answered h mem
    rw [List.count_eq_countP,List.countP_map,List.countP_eq_length_filter] at twice
    rw [decide_eq_true_eq]
    exact Nat.not_lt.mpr twice
  rw [unanswered,none_]
  rfl

/- The sung form is sugar for the plain form. A sung verse that is parsed is parsed without its heads, to the
same program with the heads as rhymes, and with heads that pass for those of a verse it is parsed where it
is without them. With the first of them on the line of the brace it is refused. -/
theorem sungLowered : (∀ t : SungText, (∀ prog, Parses t.sung prog → ∃ first v later, prog = placed first v later ∧ v.name = t.name ∧ v.rhymes = t.heads ∧
        Parses t.plain (placed first { v with rhymes := [] } later)) ∧
      ∀ prog, Parses t.plain prog → t.heads.length = 8 → t.heads[6]?.map Prod.fst = t.heads[7]?.map Prod.fst →
        (∀ h ∈ t.heads, 2 ≤ (t.heads.map Prod.fst).count h.1) → ∃ prog', Parses t.sung prog') ∧
    ∀ src, OpensAtBrace src → ∀ prog, ¬Parses src prog := by
  refine ⟨fun t => ⟨fun prog => t.sungParses,fun prog parsed eight volta answered => ?_⟩,fun src => openedRefused⟩
  exact t.plainParses parsed ⟨eight,volta,answeredNone answered⟩

/- A line of a verse under its label. -/
def labelledLine (label : Char) (upper : label.isUpper = true) : Lexer.Line where
  head := some ⟨label,"sol","  "," "," ",upper,by decide,by decide⟩
  rest := " mitte x"
  tokens := [.ident "mitte",.ident "x"]
  line := by decide
  lexed := ⟨20,_,rfl,rfl⟩
  unlabelled := fun label => Bool.false_ne_true (Lexer.labelledFirst label)

/- A verse of eight lines, each with a head. -/
def eightLines : SungText where
  before := "versus x in Re \x7b"
  lines := [labelledLine 'A' rfl,labelledLine 'B' rfl,labelledLine 'A' rfl,labelledLine 'B' rfl,labelledLine 'C' rfl,labelledLine 'C' rfl,
    labelledLine 'D' rfl,⟨some ⟨'D',"la","  "," "," ",rfl,by decide,by decide⟩," amen x \x7d",[.ident "amen",.ident "x",.rbrace],by decide,⟨20,_,rfl,rfl⟩,
      fun label => Bool.false_ne_true (Lexer.labelledFirst label)⟩]
  after := "\n"
  name := "x"
  header := ⟨20,_,[],[.ident "x",.ident "in",.ident "Re",.lbrace],[],"Re",rfl,rfl,⟨[],rfl,nofun⟩,rfl,nofun⟩
  opens := ⟨_,rfl,rfl⟩
  closed := ⟨[labelledLine 'A' rfl,labelledLine 'B' rfl,labelledLine 'A' rfl,labelledLine 'B' rfl,labelledLine 'C' rfl,labelledLine 'C' rfl,
    labelledLine 'D' rfl],_,[.ident "amen",.ident "x"],[],rfl,rfl,rfl⟩
  ended := .inr rfl

theorem sungLoweredEight : (∃ prog, Parses eightLines.sung prog ∧ ∃ first v later, prog = placed first v later ∧ v.name = "x" ∧
      v.rhymes = eightLines.heads ∧ Parses eightLines.plain (placed first { v with rhymes := [] } later)) ∧
    (∃ prog, Parses eightLines.plain prog ∧ ∃ prog', Parses eightLines.sung prog') ∧
    ∀ prog, ¬Parses "versus x in Re \x7b A \"a\" \x7d" prog := by
  obtain ⟨prog,parsed,-⟩ := readsParses (show reads 200 eightLines.sung (fun _ => true) = true from rfl)
  obtain ⟨prog',parsed',-⟩ := readsParses (show reads 200 eightLines.plain (fun _ => true) = true from rfl)
  refine ⟨⟨prog,parsed,(sungLowered.1 eightLines).1 prog parsed⟩,⟨prog',parsed',?_⟩,?_⟩
  · exact (sungLowered.1 eightLines).2 prog' parsed' rfl rfl (by decide)
  · exact sungLowered.2 _ ⟨20,_,[],"x","Re",[.ident "x",.ident "in",.ident "Re",.lbrace],"A","a",[.rbrace],rfl,rfl,⟨[],rfl,nofun⟩,rfl,rfl⟩

/- Where no line starts with a label and a text the sung form might as well not exist: the tokens are the same,
the programs and the refusals, but that a verse with a label and a text on the line of its brace is refused
in other words. -/
theorem unsungPlain (src : String) (unlabelled : Lexer.Unlabelled src) : (∀ n, Lexer.lex n src = Lexer.plainLex n src) ∧
    (∀ prog, Parses src prog ↔ PlainParses src prog) ∧ (∀ prog, Parses src prog → ∀ v ∈ prog.verses, v.rhymes = []) ∧
    (¬OpensAtBrace src → ∀ n, parse n src = plainParse n src) :=
  ⟨Lexer.plainLexIs unlabelled,fun _ => plainForm unlabelled,fun _ parsed => plainFormRhymes ((plainForm unlabelled).mp parsed),
    parseAlike unlabelled⟩

/- On one line a label and a text behind the brace are told from a statement, and refused as one that is sung. -/
example : parse 40 "versus x in Re \x7b A \"a\" \x7d" = some (.error (.dissonance (.parse 1 "expected ';' after the sung text"))) ∧
    plainParse 40 "versus x in Re \x7b A \"a\" \x7d" = some (.error (.dissonance (.parse 1 "expected '<-' after binder"))) := ⟨rfl,rfl⟩

/- Without a text there is none behind a brace. -/
theorem amenUnopened : ¬OpensAtBrace "versus x in Re \x7b amen x \x7d" := by
  rintro ⟨n,toks,pre,name,final_,hs,l,s,rest,lexed,same,-⟩
  have read : Lexer.lex 40 "versus x in Re \x7b amen x \x7d" =
    some (.ok [(.ident "versus",1),(.ident "x",1),(.ident "in",1),(.ident "Re",1),(.lbrace,1),(.ident "amen",1),(.ident "x",1),(.rbrace,1)]) := rfl
  cases (lexLoopBelow (Nat.le_max_left n 40) lexed).symm.trans (lexLoopBelow (Nat.le_max_right n 40) read)
  have text : Tok.str s ∈ pre ++ .ident "versus" :: (hs ++ .ident l :: .str s :: rest) := by simp
  rw [← same] at text
  simp at text

theorem unsungPlainAmen : (∀ n, Lexer.lex n "versus x in Re \x7b amen x \x7d" = Lexer.plainLex n "versus x in Re \x7b amen x \x7d") ∧
    parse 40 "versus x in Re \x7b amen x \x7d" = plainParse 40 "versus x in Re \x7b amen x \x7d" := by
  have plain := unsungPlain "versus x in Re \x7b amen x \x7d" (Lexer.lineUnlabelled (by decide) (by decide))
  exact ⟨plain.1,plain.2.2.2 amenUnopened 40⟩

end Officium.Parser
