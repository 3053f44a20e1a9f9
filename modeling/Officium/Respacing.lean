import Mathlib.Logic.Relation
import Officium.Items

/-! Newlines within parentheses. They are not looked at, with one exception: between the parameter of a
subject and the parenthesis that closes it the count of parentheses is lowered before that parenthesis
is taken, and a newline there is one too many. -/
namespace Officium.Parser
open Bounded
open Lexer (Tok Lexed)

section Freedom
variable {l : Nesting} {d : Nat} {t : Tok} {ts us newlines : List Tok}

theorem freeCons (other : t ≠ .newline) (free : ¬Trapped ts) : ¬Trapped (t :: ts) := by
  intro trapped
  rcases List.infix_cons_iff.mp trapped with first | later
  · exact other (List.cons_prefix_cons.mp first).1.symm
  · exact free later

theorem freeNewlines (all : ∀ t ∈ newlines, t.isNewline = true) (other : t ≠ .rparen) (free : ¬Trapped (t :: ts)) :
    ¬Trapped (newlines ++ t :: ts) := by
  induction newlines with
  | nil => exact free
  | cons u newlines ih =>
    intro trapped
    rcases List.infix_cons_iff.mp trapped with first | later
    · have second := (List.cons_prefix_cons.mp first).2
      cases newlines with
      | nil => exact other (List.cons_prefix_cons.mp second).1.symm
      | cons v newlines =>
        have is_ := all v (by simp)
        rw [← (List.cons_prefix_cons.mp second).1] at is_
        cases is_
    · exact ih (fun t mem => all t (.tail _ mem)) later

theorem blankFree (all : ∀ t ∈ ts, t.isNewline = true) : ¬Trapped ts := by
  intro trapped
  cases all .eq (trapped.subset (by simp))

/- Behind a token that is no newline and closes no parenthesis nothing is trapped with what stands before it. -/
theorem freeAppend (free : ¬Trapped (ts ++ [t])) (plain : t ≠ .newline) (other : t ≠ .rparen) (free' : ¬Trapped us) :
    ¬Trapped (ts ++ [t] ++ us) := by
  induction ts with
  | nil => exact freeCons plain free'
  | cons u ts ih =>
    intro trapped
    rcases List.infix_cons_iff.mp trapped with first | later
    · cases ts with
      | nil => exact other (List.cons_prefix_cons.mp (List.cons_prefix_cons.mp first).2).1.symm
      | cons v ts =>
        have shorter : [.newline,.rparen,.eq] <+: u :: v :: ts ++ [t] :=
          List.prefix_of_prefix_length_le first (List.prefix_append (u :: v :: ts ++ [t]) us) (by simp)
        exact free shorter.isInfix
    · exact ih (fun trapped => free (List.infix_cons_iff.mpr (.inr trapped))) later

/- The last token of what ends with a brace. -/
theorem throughLast (live : l.Live) (h : l.through ts = some (.inside 0)) : ∃ us t, ts = us ++ [t] ∧ (t = .lbrace ∨ t = .rbrace) := by
  rcases List.eq_nil_or_concat ts with rfl | ⟨us,t,rfl⟩
  · exact absurd (Option.some.inj h) live
  · refine ⟨us,t,List.concat_eq_append,?_⟩
    rw [List.concat_eq_append,throughAppend] at h
    obtain ⟨m,-,last⟩ := Option.bind_eq_some_iff.mp h
    rw [throughCons] at last
    obtain ⟨k,taken,over_⟩ := Option.bind_eq_some_iff.mp last
    cases Option.some.inj over_
    by_cases live' : m.Live
    · by_cases brace : t = .lbrace ∨ t = .rbrace
      · exact brace
      · by_cases semi : t = .semi
        · rw [semi] at taken
          cases m <;> cases taken
        · have stays := flatStays live' ⟨semi,fun same => brace (.inl same),fun same => brace (.inr same)⟩
          cases stays.symm.trans taken
          exact absurd rfl live'
    · obtain rfl : m = .inside 0 := Classical.not_not.mp live'
      rw [show (Nesting.inside 0).after t = none by cases t <;> rfl] at taken
      cases taken

theorem wholeFree (live : l.Live) (whole : Whole l (.inside 0) ts) (free : ¬Trapped us) : ¬Trapped (ts ++ us) := by
  obtain ⟨vs,t,rfl,brace⟩ := throughLast live whole.through
  refine freeAppend whole.free ?_ ?_ free
  · rcases brace with rfl | rfl <;> nofun
  · rcases brace with rfl | rfl <;> nofun

/- No item that is not sung is read off tokens with a newline before `) =`. -/
theorem itemsFree {prog : Program} (items : Items ts prog) (plain : ∀ v ∈ prog.verses, v.rhymes = []) : ¬Trapped ts := by
  induction items with
  | over_ blank => exact blankFree blank
  | fuga blank read later ih =>
    obtain ⟨hs,bs,h,rfl,whole,whole',-⟩ := read
    rw [List.append_assoc]
    exact freeNewlines blank nofun (freeCons nofun (wholeFree Nesting.headerLive whole (wholeFree Nesting.insideLive whole' (ih plain))))
  | versus blank read later ih =>
    obtain ⟨hs,bs,h,rfl,whole,-,-,-,-,unsung⟩ := read
    obtain ⟨whole',-⟩ := unsung (plain _ List.mem_cons_self)
    rw [List.append_assoc]
    refine freeNewlines blank nofun (freeCons nofun (wholeFree Nesting.headerLive whole (wholeFree Nesting.insideLive whole' (ih ?_))))
    exact fun v mem => plain v (.tail _ mem)

end Freedom

section Respacing
variable {l : Nesting} {d : Nat} {t : Tok} {ts ts' us us' newlines : List Tok}

theorem parensUnspaced (d : Nat) (ts : List Tok) : parens d (unspaced d ts) = parens d ts := by
  induction ts generalizing d with
  | nil => rfl
  | cons t ts ih =>
    rw [unspaced]
    split
    · rename_i both
      cases t <;> simp [Tok.isNewline] at both
      exact ih d
    · exact ih (depthAfter d t)

/- Outside parentheses newlines are tokens like any other. -/
theorem unspacedOutside (all : ∀ t ∈ newlines, t.isNewline = true) (is_ : inner t = true) (even : unspaced 0 (newlines ++ t :: ts) = unspaced 0 us) :
    ∃ us', us = newlines ++ t :: us' ∧ unspaced 0 ts = unspaced 0 us' := by
  induction newlines generalizing us with
  | nil =>
    rw [List.nil_append,unspacedCons (.inr rfl),innerDeeper is_] at even
    obtain ⟨none_,us',rfl,-,zero,rest⟩ := unspacedFirst even.symm
    rw [innerDeeper is_] at rest
    exact ⟨us',by rw [zero rfl],rest.symm⟩
  | cons u newlines ih =>
    have newline := all u List.mem_cons_self
    cases u <;> cases newline
    rw [List.cons_append,unspacedCons (.inr rfl)] at even
    obtain ⟨none_,vs,rfl,-,zero,rest⟩ := unspacedFirst even.symm
    obtain ⟨us',rfl,same⟩ := ih (fun t mem => all t (.tail _ mem)) rest.symm
    exact ⟨us',by rw [zero rfl]; rfl,same⟩

theorem unspacedBlank (all : ∀ t ∈ unspaced 0 ts, t.isNewline = true) : ∀ t ∈ ts, t.isNewline = true := by
  induction ts with
  | nil => nofun
  | cons t ts ih =>
    rw [unspacedCons (.inr rfl)] at all
    have newline := all t List.mem_cons_self
    cases t <;> cases newline
    intro u mem
    rcases List.mem_cons.mp mem with rfl | later
    · rfl
    · exact ih (fun v mem => all v (.tail _ mem)) u later

theorem blankUnspaced (all : ∀ t ∈ ts, t.isNewline = true) : unspaced 0 ts = ts := by
  induction ts with
  | nil => rfl
  | cons t ts ih =>
    have newline := all t List.mem_cons_self
    cases t <;> cases newline
    rw [unspacedCons (.inr rfl)]
    exact congrArg _ (ih fun t mem => all t (.tail _ mem))

theorem labelledUnspaced (ts : List Tok) : labelled (unspaced 0 ts) = labelled ts := by
  cases ts with
  | nil => rfl
  | cons t ts =>
    rw [unspacedCons (.inr rfl)]
    cases t
    case ident s =>
      cases ts with
      | nil => rfl
      | cons u ts =>
        rw [show depthAfter 0 (.ident s) = 0 from rfl,unspacedCons (.inr rfl)]
        cases u <;> rfl
    all_goals rfl

/- What is whole stays whole, and what is behind it is alike. -/
theorem wholeSplit (live : l.Live) (whole : Whole l (.inside 0) us) (even : unspaced 0 (us ++ ts) = unspaced 0 ts') (free : ¬Trapped ts') :
    ∃ us' vs, ts' = us' ++ vs ∧ unspaced 0 us = unspaced 0 us' ∧ Whole l (.inside 0) us' ∧ unspaced 0 ts = unspaced 0 vs ∧ ¬Trapped vs := by
  obtain ⟨us',vs,rfl,through,same,behind⟩ := unspacedSplit live whole.through even
  rw [whole.parens] at behind
  refine ⟨us',vs,rfl,same,⟨through,?_,fun trapped => free (trapped.trans (List.prefix_append us' vs).isInfix)⟩,behind,freeSuffix free⟩
  rw [← parensUnspaced,← same,parensUnspaced,whole.parens]

theorem fugueRespaced {f : Fugue} (read : FugueRead us f) (even : unspaced 0 (us ++ ts) = unspaced 0 ts') (free : ¬Trapped ts') :
    ∃ us' vs, ts' = us' ++ vs ∧ FugueRead us' f ∧ unspaced 0 ts = unspaced 0 vs ∧ ¬Trapped vs := by
  obtain ⟨hs,bs,h,rfl,whole,whole',heading_,body⟩ := read
  rw [List.append_assoc] at even
  obtain ⟨hs',rest,rfl,same,kept,even,free⟩ := wholeSplit Nesting.headerLive whole even free
  obtain ⟨bs',vs,rfl,same',kept',even,free⟩ := wholeSplit Nesting.insideLive whole' even free
  refine ⟨hs' ++ bs',vs,(List.append_assoc ..).symm,⟨hs',bs',h,rfl,kept,kept',?_,?_⟩,even,free⟩
  · exact partLike (fun _ => headingPart _ _ _) heading_ whole same kept.through kept.free
  · exact partLike (fun n => fuguePart n _) body whole' same' kept'.through kept'.free

theorem versusRespaced {v : Versus} (read : VersusRead us v) (plain : v.rhymes = []) (even : unspaced 0 (us ++ ts) = unspaced 0 ts')
    (free : ¬Trapped ts') : ∃ us' vs, ts' = us' ++ vs ∧ VersusRead us' v ∧ unspaced 0 ts = unspaced 0 vs ∧ ¬Trapped vs := by
  obtain ⟨hs,bs,h,rfl,whole,named,moded,heading_,-,unsung⟩ := read
  obtain ⟨whole',unlabelled,body⟩ := unsung plain
  rw [List.append_assoc] at even
  obtain ⟨hs',rest,rfl,same,kept,even,free⟩ := wholeSplit Nesting.headerLive whole even free
  obtain ⟨bs',vs,rfl,same',kept',even,free⟩ := wholeSplit Nesting.insideLive whole' even free
  have body' := partLike (fun n => stmtsPart v.mode n) body whole' same' kept'.through kept'.free
  have unlabelled' : labelled (bs'.dropWhile Tok.isNewline) = false := by
    rw [← labelledUnspaced,unspacedPast,← same',← unspacedPast,labelledUnspaced,unlabelled]
  have heading' := partLike (fun _ => headingPart _ _ _) heading_ whole same kept.through kept.free
  refine ⟨hs' ++ bs',vs,(List.append_assoc ..).symm,⟨hs',bs',h,rfl,kept,named,moded,heading',?_,fun _ => ⟨kept',unlabelled',body'⟩⟩,even,free⟩
  rw [plain]
  exact readsPlain body' kept'.through unlabelled'

theorem itemsRespaced {prog : Program} (items : Items ts prog) (plain : ∀ v ∈ prog.verses, v.rhymes = []) (even : unspaced 0 ts = unspaced 0 ts')
    (free : ¬Trapped ts') : Items ts' prog := by
  induction items generalizing ts' with
  | over_ blank =>
    rw [blankUnspaced blank] at even
    subst even
    exact .over_ (unspacedBlank blank)
  | fuga blank read later ih =>
    obtain ⟨rest,rfl,alike⟩ := unspacedOutside blank rfl even
    have free' : ¬Trapped rest := freeSuffix (freeSuffix free : ¬Trapped ([.ident "fuga"] ++ rest))
    obtain ⟨us',vs,rfl,read',behind,free⟩ := fugueRespaced read alike free'
    exact .fuga blank read' (ih plain behind free)
  | versus blank read later ih =>
    obtain ⟨rest,rfl,alike⟩ := unspacedOutside blank rfl even
    have free' : ¬Trapped rest := freeSuffix (freeSuffix free : ¬Trapped ([.ident "versus"] ++ rest))
    obtain ⟨us',vs,rfl,read',behind,free⟩ := versusRespaced read (plain _ List.mem_cons_self) alike free'
    exact .versus blank read' (ih (fun v mem => plain v (.tail _ mem)) behind free)

end Respacing

section Edits
variable {ts ts' : List Tok}

/- A Newline is put in, or taken out, between a parenthesis and the one that matches it. -/
inductive Respaced : List Tok → List Tok → Prop where
  | insert {a b} (inside : 0 < parens 0 a) : Respaced (a ++ b) (a ++ .newline :: b)
  | delete {a b} (inside : 0 < parens 0 a) : Respaced (a ++ .newline :: b) (a ++ b)

theorem unspacedInserted {d : Nat} {a b : List Tok} (inside : 0 < parens d a) : unspaced d (a ++ .newline :: b) = unspaced d (a ++ b) := by
  induction a generalizing d with
  | nil =>
    rw [List.nil_append,unspaced,if_pos]
    · rfl
    · rw [Bool.and_eq_true,decide_eq_true_eq]
      exact ⟨rfl,inside⟩
  | cons t a ih =>
    rw [List.cons_append,List.cons_append,unspaced,unspaced]
    split
    · rename_i both
      cases t <;> simp [Tok.isNewline] at both
      exact ih inside
    · rw [ih inside]

theorem respacedAlike (edits : Relation.ReflTransGen Respaced ts ts') : unspaced 0 ts = unspaced 0 ts' := by
  induction edits with
  | refl => rfl
  | tail _ edit ih =>
    rw [ih]
    cases edit with
    | insert inside => exact (unspacedInserted inside).symm
    | delete inside => exact unspacedInserted inside

/- However newlines are put in and taken out within the parentheses, the program is the same exactly if
none is left right before `) =`. -/
theorem newlinesInParens {toks toks' : Lexed} {prog : Program} (accepted : ParsesTo toks prog) (plain : ∀ v ∈ prog.verses, v.rhymes = [])
    (edits : Relation.ReflTransGen Respaced (toks.map Prod.fst) (toks'.map Prod.fst)) :
    ParsesTo toks' prog ↔ ¬[.newline,.rparen,.eq] <:+: toks'.map Prod.fst := by
  constructor
  · intro accepted'
    exact itemsFree (parsesToItems.mp accepted') plain
  · intro free
    exact parsesToItems.mpr (itemsRespaced (parsesToItems.mp accepted) plain (respacedAlike edits) free)

/- `fuga f in Re { subiectum s(x) = x }` as it is lexed, and with more before and after the parameter. -/
def spaced (ahead_ behind : Lexed) (line : Nat) : Lexed :=
  [(.ident "fuga",1),(.ident "f",1),(.ident "in",1),(.ident "Re",1),(.lbrace,1),(.ident "subiectum",1),(.ident "s",1),(.lparen,1)] ++
    ahead_ ++ [(.ident "x",1)] ++ behind ++ [(.rparen,line),(.eq,line),(.ident "x",line),(.rbrace,line)]

def spacedProgram : Program := ⟨[{ Fugue.new "f" .re with subject := some ("s","x",.var "x") }],[]⟩

theorem spacedParses : ParsesTo (spaced [] [] 1) spacedProgram := ⟨20,⟨spaced [] [] 1,13,0,0⟩,rfl⟩

theorem newlinesInParensBefore : ParsesTo (spaced [(.newline,1)] [] 1) spacedProgram := by
  refine (newlinesInParens spacedParses nofun (.single ?_)).mpr ?_
  · exact .insert (a := ((spaced [] [] 1).map Prod.fst).take 8) (by decide)
  · simp [spaced,List.infix_cons_iff,List.cons_prefix_cons]

/- Lexed with a line break behind the parameter, which is in parentheses, it is no score. -/
theorem newlineRefused : Lexer.lex 60 "fuga f in Re \x7b subiectum s(x) = x \x7d" = some (.ok (spaced [] [] 1)) ∧
    Lexer.lex 60 "fuga f in Re \x7b subiectum s(x\n) = x \x7d" = some (.ok (spaced [] [(.newline,1)] 2)) ∧
    Relation.ReflTransGen Respaced ((spaced [] [] 1).map Prod.fst) ((spaced [] [(.newline,1)] 2).map Prod.fst) ∧
    ParsesTo (spaced [] [] 1) spacedProgram ∧ (∀ v ∈ spacedProgram.verses, v.rhymes = []) ∧ ¬ParsesTo (spaced [] [(.newline,1)] 2) spacedProgram := by
  refine ⟨rfl,rfl,.single ?_,spacedParses,nofun,fun accepted => ?_⟩
  · exact .insert (a := ((spaced [] [] 1).map Prod.fst).take 9) (by decide)
  · obtain ⟨n,q,returned⟩ := accepted
    have refused : programLoop 20 ⟨[],[]⟩ ⟨spaced [] [(.newline,1)] 2,0,0,0⟩ =
        some (.error (.dissonance (.parse 1 "expected ')' after subject parameter"))) := rfl
    have found := programLoopBelow (Nat.le_max_left n 20) _ _ _ returned
    cases found.symm.trans (programLoopBelow (Nat.le_max_right n 20) _ _ _ refused)

end Edits

end Officium.Parser
