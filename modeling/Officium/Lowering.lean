import Officium.SungText

/-! A source with a sung verse, and the same source without the heads of that verse. -/
namespace Officium.Parser
open Lexer (Tok LineEnd Behind bytes)

/- A source in which the body of a verse opens with a head: what comes before that line, the lines down to
the one with the brace that closes the verse, and what comes after. -/
structure SungText where
  before : String
  lines : List Lexer.Line
  after : String
  name : String
  header : ∃ n toks pre hs newlines final_, Lexer.lex n before = some (.ok toks) ∧ toks.map Prod.fst = pre ++ .ident "versus" :: (hs ++ newlines) ∧
    Header name final_ hs ∧ braces 0 pre = some 0 ∧ ∀ t ∈ newlines, t.isNewline = true
  opens : ∃ l, lines.head? = some l ∧ l.head.isSome = true
  closed : ∃ earlier last ts later, lines = earlier ++ [last] ∧ last.tokens = ts ++ .rbrace :: later ∧
    braces 0 (earlier.flatMap Lexer.Line.tokens ++ ts) = some 0
  ended : LineEnd (bytes after)

namespace SungText

def sung (t : SungText) : String := t.before ++ Lexer.below (t.lines.map Lexer.Line.sung) ++ t.after

/- The source with all heads deleted. -/
def plain (t : SungText) : String := t.before ++ Lexer.below (t.lines.map Lexer.Line.rest) ++ t.after

def heads (t : SungText) : List (Char × String) := t.lines.filterMap (fun l => l.head.map (fun h => (h.label,h.text)))

theorem labelledPrefix {ts us : List Tok} (h : labelled (ts ++ us) = false) : labelled ts = false := by
  by_contra label
  have label := Bool.not_eq_false _ ▸ label
  unfold labelled at label
  split at label
  · rw [List.cons_append,List.cons_append,labelled,label] at h
    cases h
  · cases label

/- The verse's lines up to the brace that closes it. -/
theorem closedRows (t : SungText) : ∃ rows ts, Calms rows ∧ braces 0 (rows.flatMap Row.tokens) = some 0 ∧ rowHeads rows = t.heads ∧
    (∃ r, rows.head? = some r ∧ r.head.isSome = true) ∧ (∀ b, sungTokens b (t.lines.map Lexer.Line.row) = sungTokens b rows ++ .rbrace :: ts ∧
      plainTokens b (t.lines.map Lexer.Line.row) = plainTokens b rows ++ .rbrace :: ts) ∧
    ∃ last, t.lines.getLast? = some last ∧ last.tokens ≠ [] := by
  obtain ⟨earlier,last,ts,later,whole,ends,closes⟩ := t.closed
  obtain ⟨first,opens,headed⟩ := t.opens
  have cut : t.lines.map Lexer.Line.row = earlier.map Lexer.Line.row ++ [⟨last.row.head,ts ++ .rbrace :: later⟩] := by
    rw [whole,List.map_append,← ends]
    rfl
  refine ⟨earlier.map Lexer.Line.row ++ [⟨last.row.head,ts⟩],later,?_,?_,?_,?_,fun b => ?_,last,?_,?_⟩
  · rw [Calms,List.forall_mem_append]
    refine ⟨fun r mem => ?_,List.forall_mem_singleton.mpr ?_⟩
    · obtain ⟨l,-,rfl⟩ := List.mem_map.mp mem
      exact l.calm
    · have calm := last.calm
      have tokens : last.row.tokens = ts ++ .rbrace :: later := ends
      exact ⟨calm.label,fun t mem => calm.line t (tokens ▸ List.mem_append_left _ mem),labelledPrefix (tokens ▸ calm.unlabelled)⟩
  · rw [List.flatMap_append,List.flatMap_map,List.flatMap_singleton]
    exact closes
  · rw [heads,whole,rowHeads,List.filterMap_append,List.filterMap_append,List.filterMap_map]
    rfl
  · rw [whole] at opens
    cases earlier with
    | nil =>
      cases opens
      exact ⟨_,rfl,by rw [Lexer.Line.row,Option.isSome_map]; exact headed⟩
    | cons l earlier =>
      cases opens
      exact ⟨_,rfl,by rw [Lexer.Line.row,Option.isSome_map]; exact headed⟩
  · rw [cut,rowsLast.1,rowsLast.2]
    exact ⟨rfl,rfl⟩
  · rw [whole,List.getLast?_concat]
  · rw [ends]
    exact List.append_ne_nil_of_right_ne_nil _ (List.cons_ne_nil _ _)

/- What the two sources are lexed to: they differ in the body of the verse, and there in the heads. -/
theorem lexed (t : SungText) : ∃ pre hs final_ sung plain ts, Header t.name final_ hs ∧ braces 0 pre = some 0 ∧ Lowers sung plain t.heads ∧
    (∀ us, (∃ h, Lexer.Reads [] (bytes t.sung) [] us h) ↔ ∃ later, Behind (bytes t.after) later ∧
      us = pre ++ .ident "versus" :: (hs ++ (sung ++ .rbrace :: (ts ++ later)))) ∧
    ∀ us, (∃ h, Lexer.Reads [] (bytes t.plain) [] us h) ↔ ∃ later, Behind (bytes t.after) later ∧
      us = pre ++ .ident "versus" :: (hs ++ (plain ++ .rbrace :: (ts ++ later))) := by
  obtain ⟨n,toks,pre,hs,newlines,final_,read,same,header,matched,blank⟩ := t.header
  obtain ⟨rows,ts,calm,closes,heads,first,tokens,last,found,open_⟩ := t.closedRows
  obtain ⟨g,above⟩ := Lexer.lexIff.mpr ⟨n,toks,read,same⟩
  have some_ : t.lines ≠ [] := by
    intro none_
    rw [none_] at found
    cases found
  have followed {strings : List String} (some_ : strings ≠ []) : Lexer.Reads [] (bytes t.before) (bytes (Lexer.below strings) ++ bytes t.after) _ g :=
    Lexer.readsFollow above (.inr (by
      obtain ⟨s,strings,rfl⟩ := List.exists_cons_of_ne_nil some_
      rw [Lexer.below,Lexer.bytesAppend]
      rfl))
  obtain ⟨⟨h,plain,filled⟩,h',sung,filled'⟩ := Lexer.linesRead t.ended t.lines g g
  rw [(tokens _).1] at sung
  rw [(tokens _).2] at plain
  have plain := Lexer.readsTrans (followed (by simpa using some_)) plain
  have sung := Lexer.readsTrans (followed (by simpa using some_)) sung
  have filled : h ≠ [] := by rw [filled last found]; exact open_
  have filled' : h' ≠ [] := by rw [filled' last found]; exact List.append_ne_nil_of_right_ne_nil _ open_
  have behind : (!g.isEmpty) = true ∨ newlines ≠ [] := by
    cases newlines with
    | cons t newlines => exact .inr (List.cons_ne_nil t newlines)
    | nil =>
      obtain ⟨breaks,rfl,-⟩ := header
      have reads : Lexer.Reads [] (bytes t.before) [] (pre ++ .ident "versus" :: .ident t.name :: .ident "in" :: .ident final_ :: breaks ++ [.lbrace]) g := by
        simpa using above
      cases g with
      | nil => exact absurd rfl (Lexer.readsOpen reads rfl)
      | cons t g => exact .inl rfl
  have lowers := rowsLower calm closes first blank behind
  rw [heads] at lowers
  refine ⟨pre,hs,final_,_,_,ts,header,matched,lowers,fun us => ?_,fun us => ?_⟩
  · rw [SungText.sung,Lexer.bytesAppend,Lexer.bytesAppend,Lexer.readsBehind sung filled' t.ended]
    simp only [List.append_assoc,List.cons_append]
  · rw [SungText.plain,Lexer.bytesAppend,Lexer.bytesAppend,Lexer.readsBehind plain filled t.ended]
    simp only [List.append_assoc,List.cons_append]

/- A sung source that is parsed is parsed without the heads to the same program but for the rhymes of the verse. -/
theorem sungParses (t : SungText) {prog : Program} (parsed : Parses t.sung prog) : ∃ first v later, prog = placed first v later ∧ v.name = t.name ∧
    v.rhymes = t.heads ∧ Parses t.plain (placed first { v with rhymes := [] } later) := by
  obtain ⟨pre,hs,final_,sung,plain,ts,header,matched,lowers,sungLexed,plainLexed⟩ := t.lexed
  obtain ⟨us,reads,items⟩ := parsesItems.mp parsed
  obtain ⟨more,behind,rfl⟩ := (sungLexed us).mp reads
  obtain ⟨first,v,later,bs,rest,split,rfl,named,body,again⟩ := verseAt items rfl header matched
  obtain ⟨rfl,rhymes,-,body'⟩ := lowersPlain lowers body split.symm
  refine ⟨first,v,later,rfl,named,rhymes,parsesItems.mpr ⟨_,(plainLexed _).mpr ⟨more,behind,rfl⟩,?_⟩⟩
  have items' := again (plain ++ [.rbrace]) { v with rhymes := [] } rfl rfl body'
  rwa [List.append_assoc,List.singleton_append] at items'

/- And a source that is parsed is parsed with heads that pass. -/
theorem plainParses (t : SungText) {prog : Program} (parsed : Parses t.plain prog) (passes : Passes t.heads) : ∃ prog, Parses t.sung prog := by
  obtain ⟨pre,hs,final_,sung,plain,ts,header,matched,lowers,sungLexed,plainLexed⟩ := t.lexed
  obtain ⟨us,reads,items⟩ := parsesItems.mp parsed
  obtain ⟨more,behind,rfl⟩ := (plainLexed us).mp reads
  obtain ⟨first,v,later,bs,rest,split,rfl,named,body,again⟩ := verseAt items rfl header matched
  obtain ⟨rfl,-,body'⟩ := lowersSung lowers body split.symm
  refine ⟨placed first { v with rhymes := t.heads } later,parsesItems.mpr ⟨_,(sungLexed _).mpr ⟨more,behind,rfl⟩,?_⟩⟩
  have items' := again (sung ++ [.rbrace]) { v with rhymes := t.heads } rfl rfl (body' passes)
  rwa [List.append_assoc,List.singleton_append] at items'

end SungText

end Officium.Parser

namespace Officium.Lexer

/- A separator stands behind a line that is only a label and its text. -/
theorem readsSemiAt {a b : List UInt8} {g h ts us : List Tok} (reads : Reads g a b (ts ++ .semi :: us) h) : sung (onLine g ts) = true := by
  generalize whole : ts ++ .semi :: us = all at reads
  induction reads generalizing ts with
  | here => cases ts <;> cases whole
  | token piece more ih =>
    cases ts with
    | nil =>
      cases whole
      exact absurd rfl (pieceOther piece)
    | cons t ts =>
      cases whole
      have later := ih rfl
      rwa [onLine,List.foldl_cons,if_neg (by rw [pieceToken piece]; decide)]
  | semi is_sung more ih =>
    cases ts with
    | nil => exact is_sung
    | cons t ts =>
      cases whole
      exact ih rfl
  | newline some_ more ih =>
    cases ts with
    | nil => cases whole
    | cons t ts =>
      cases whole
      exact ih rfl
  | blank is_ more ih => exact ih whole
  | emptyLine more ih => exact ih whole
  | comment plain inside ends more ih => exact ih whole

end Officium.Lexer

namespace Officium.Parser
open Bounded
open Lexer (Tok Lexed onLine)

theorem sungTwo {ts : List Tok} (is_ : Lexer.sung ts = true) : ts.length = 2 := by
  unfold Lexer.sung at is_
  split at is_
  · rfl
  · cases is_

/- A text behind a brace on its line is no head. -/
theorem braceSung (ts : List Tok) (l s : String) : Lexer.sung (onLine [] (ts ++ [.lbrace,.ident l,.str s])) = false := by
  by_contra is_
  have two := sungTwo (Bool.not_eq_false _ ▸ is_)
  rw [onLine,List.foldl_append] at two
  generalize List.foldl _ [] ts = line at two
  have three : (line ++ [Tok.lbrace] ++ [Tok.ident l] ++ [Tok.str s]).length = 2 := two
  simp only [List.length_append,List.length_singleton] at three
  omega

/- A verse that opens with a label and a text on the line of its brace is refused. -/
theorem openedRefused {src : String} (opens : OpensAtBrace src) (prog : Program) : ¬Parses src prog := by
  obtain ⟨n,toks,pre,name,final_,hs,l,s,rest,lexed,same,header,matched,label⟩ := opens
  intro parsed
  obtain ⟨us,⟨h,reads⟩,items⟩ := parsesItems.mp parsed
  obtain ⟨h',whole⟩ := Lexer.lexIff.mpr ⟨n,toks,lexed,rfl⟩
  have one : us = toks.map Prod.fst := by
    rw [← List.append_nil (Lexer.bytes src)] at reads
    obtain ⟨later,h'',same,nothing⟩ := Lexer.readsAfter whole reads
    obtain ⟨rfl,-⟩ := Lexer.readsNothing nothing
    rw [same,List.append_nil]
  rw [one,same] at reads items
  obtain ⟨first,v,later,bs,ts,split,-,-,body,-⟩ := verseAt items rfl header matched
  obtain ⟨m,q,returned,-⟩ := body.1 (before (bs ++ ts)) ts ⟨rfl,rfl⟩ (beforeAhead _)
  obtain ⟨rhymes,r,stripped,-⟩ := returnsBind.mp returned
  have here : ahead (before (bs ++ ts)) = .ident l :: .str s :: rest := (beforeAhead _).trans split.symm
  have opening : sungOpening (before (bs ++ ts)) = true := by
    rw [sungOpens,aheadPastNewlines,here]
    exact label
  rcases stripReturns.mp stripped with ⟨never,-⟩ | ⟨-,-,stripped⟩
  · rw [opening] at never
    cases never
  obtain ⟨us,heads,strips,-⟩ := stripLoopStrips stripped
  rw [show tokensFrom (before (bs ++ ts)) = tokensFrom (before (bs ++ ts)).pastNewlines from rfl,← aheadTokens,aheadPastNewlines,here] at strips
  cases strips with
  | head told more =>
    obtain ⟨newlines,rfl,-⟩ := header
    have sung : Lexer.sung (onLine [] (pre ++ .ident "versus" :: .ident name :: .ident "in" :: .ident final_ :: newlines ++ [.lbrace,.ident l,.str s])) = true :=
      Lexer.readsSemiAt (by simpa using reads)
    rw [braceSung] at sung
    cases sung
  | other flat_ untold more =>
    have never := untold rfl
    rw [labelled,label] at never
    cases never

end Officium.Parser
