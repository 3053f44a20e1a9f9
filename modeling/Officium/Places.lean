import Officium.Items

/-! Where a verse stands in a score: behind items whose braces are matched. What is in its braces can be
replaced by anything else a verse is read off. -/
namespace Officium.Parser
open Bounded
open Lexer (Tok)

/- How many braces are open behind a token, unless it closes one that is not. -/
def braceAfter (d : Nat) : Tok → Option Nat
  | .lbrace => some (d+1)
  | .rbrace => if d = 0 then none else some (d-1)
  | _ => some d

def braces (d : Nat) (ts : List Tok) : Option Nat := ts.foldlM braceAfter d

/- The tokens up to the brace that closes the last of those open. -/
inductive Closes : Nat → List Tok → Prop where
  | over_ : Closes 0 []
  | more {d m t ts} (taken : braceAfter (d+1) t = some m) (later : Closes m ts) : Closes (d+1) (t :: ts)

section Braces
variable {d m : Nat} {b : Bool} {t : Tok} {ts us vs ws newlines : List Tok} {heads : List (Char × String)}

theorem bracesCons : braces d (t :: ts) = (braceAfter d t).bind (braces · ts) := List.foldlM_cons

theorem bracesAppend : braces d (ts ++ us) = (braces d ts).bind (braces · us) := List.foldlM_append

theorem bracesNewlines (blank : ∀ t ∈ newlines, t.isNewline = true) : braces d newlines = some d := by
  induction newlines with
  | nil => rfl
  | cons t newlines ih =>
    have is_ := blank t List.mem_cons_self
    cases t <;> cases is_
    exact ih fun t mem => blank t (.tail _ mem)

/- Tokens whose braces are matched, and the brace that closes what they are in. -/
theorem bracesClose (matched : braces d ts = some 0) : Closes (d+1) (ts ++ [.rbrace]) := by
  induction ts generalizing d with
  | nil =>
    obtain rfl : d = 0 := Option.some.inj matched
    exact .more rfl .over_
  | cons t ts ih =>
    rw [bracesCons] at matched
    obtain ⟨m,taken,rest⟩ := Option.bind_eq_some_iff.mp matched
    refine .more (m := m + 1) ?_ (ih rest)
    cases t
    case rbrace =>
      rw [braceAfter] at taken
      split at taken
      · cases taken
      · cases taken
        exact congrArg some (by omega)
    all_goals
      cases taken
      rfl

theorem closesBraces (closes : Closes d ts) : braces d ts = some 0 := by
  induction closes with
  | over_ => rfl
  | more taken later ih =>
    rw [bracesCons,taken]
    exact ih

theorem throughCloses (h : (Nesting.inside d).through ts = some (.inside 0)) : Closes d ts := by
  induction ts generalizing d with
  | nil =>
    obtain rfl : d = 0 := Nesting.inside.inj (Option.some.inj h)
    exact .over_
  | cons t ts ih =>
    rw [throughCons] at h
    obtain ⟨m,taken,rest⟩ := Option.bind_eq_some_iff.mp h
    cases d with
    | zero => cases t <;> cases taken
    | succ d => cases t <;> cases taken <;> exact .more rfl (ih rest)

theorem closesThrough (h : Closes d ts) (plain : ∀ t ∈ ts, t ≠ .semi) : (Nesting.inside d).through ts = some (.inside 0) := by
  induction h with
  | over_ => rfl
  | @more d m t ts taken later ih =>
    have rest := ih fun t mem => plain t (.tail _ mem)
    rw [throughCons]
    cases t
    case semi => exact absurd rfl (plain _ List.mem_cons_self)
    all_goals
      cases taken
      exact rest

theorem closesFlat (h : Closes d ts) (live : 1 ≤ d) (flat_ : braceAfter d t = some d) : Closes d (t :: ts) := by
  obtain ⟨d,rfl⟩ := Nat.exists_eq_add_of_le' live
  exact .more flat_ h

theorem flatBraces (flat_ : flat t = true) (d : Nat) : braceAfter d t = some d := by cases t <;> first | rfl | cases flat_

/- The heads hold no braces. -/
theorem stripsCloses (h : Strips d b ts us heads) (live : 1 ≤ d) (closed : Closes d us) : Closes d ts := by
  induction h with
  | over_ => exact closed
  | close last => exact closed
  | @rbrace d b ts us heads deeper more ih =>
    cases closed with
    | more taken later =>
      cases taken
      exact .more rfl (ih (by omega) later)
  | lbrace more ih =>
    cases closed with
    | more taken later =>
      cases taken
      exact .more rfl (ih (by omega) later)
  | newline more ih =>
    cases closed with
    | more taken later =>
      cases taken
      exact .more rfl (ih live later)
  | head label more ih => exact closesFlat (closesFlat (closesFlat (ih live closed) live rfl) live rfl) live rfl
  | other flat_ untold more ih =>
    cases closed with
    | more taken later =>
      cases (flatBraces flat_ _).symm.trans taken
      exact .more taken (ih live later)

/- Matched tokens that go on behind these do so behind all of them. -/
theorem closesWithin (h : Closes d us) (same : us ++ ts = vs ++ ws) (matched : braces d vs = some 0) :
    ∃ more, vs = us ++ more ∧ ts = more ++ ws ∧ braces 0 more = some 0 := by
  induction h generalizing vs with
  | over_ => exact ⟨vs,rfl,same,matched⟩
  | @more d m t us taken later ih =>
    cases vs with
    | nil => cases matched
    | cons v vs =>
      obtain ⟨rfl,rest⟩ := List.cons.inj same
      rw [bracesCons,taken] at matched
      obtain ⟨more,rfl,behind,matched⟩ := ih rest matched
      exact ⟨more,rfl,behind,matched⟩

end Braces

section Headers
variable {n : Nat} {mode : Mode} {h : Sym × Final × Mode} {e : Expr} {v : Versus} {rhymes : List (Char × String)} {p q : Parser}
  {s name final_ : String} {t : Tok} {us hs bs ts rest newlines : List Tok}

/- The header of an item up to the brace that opens it: a name, `in`, a final. -/
def Header (name final_ : String) (hs : List Tok) : Prop :=
  ∃ newlines, hs = .ident name :: .ident "in" :: .ident final_ :: (newlines ++ [.lbrace]) ∧ ∀ t ∈ newlines, t.isNewline = true

theorem keywordTaken {kw : String} (clear : Clear p) (returned : Returns (keyword kw) p true q) :
    (ahead p).head? = some (.ident kw) ∧ q = skip p 1 := by
  have peeked : Returns peek p (ahead p).head? p := by
    rw [Returns,peekIs,settleOutside clear.1]
  rw [Returns,keyword,returnsThen peeked] at returned
  cases here : (ahead p).head? with
  | none => rw [here] at returned; cases returned
  | some t =>
    rw [here] at returned
    cases t
    case ident s =>
      dsimp only at returned
      split at returned
      · rename_i same
        subst same
        cases returned
        exact ⟨rfl,rfl⟩
      · cases returned
    all_goals cases returned

theorem finalTaken {a : Final × Mode} (clear : Clear p) (returned : Returns finalAndMode p a q) :
    ∃ s, (ahead p).head? = some (.ident s) ∧ q = skip p 1 := by
  obtain ⟨s,r,named,rest⟩ := returnsBind.mp returned
  obtain ⟨here,rfl⟩ := identIs.mp named
  rw [settleOutside clear.1] at here rest
  refine ⟨s,here,?_⟩
  split at rest
  case h_9 => exact (givesRefuse (p := fun _ => False) _ _ _ _ rest).elim
  all_goals exact (returnsPure.mp rest).2.symm

/- What the header of an item is read off. -/
theorem headingHeader {nameMsg inMsg braceMsg : String} (clear : Clear p) (returned : Returns (heading nameMsg inMsg braceMsg) p h q) :
    ∃ final_ hs, Header h.1 final_ hs ∧ ahead p = hs ++ ahead q := by
  obtain ⟨name,r,named,rest⟩ := returnsBind.mp returned
  obtain ⟨first,rfl⟩ := identIs.mp named
  rw [settleOutside clear.1] at first rest
  obtain ⟨b,r,word_,rest⟩ := returnsBind.mp rest
  split at rest
  · exact (givesRefuse (p := fun _ => False) _ _ _ _ rest).elim
  · rename_i took
    have is_ : b = true := by cases b <;> first | rfl | exact absurd rfl took
    subst is_
    obtain ⟨second,rfl⟩ := keywordTaken (show Clear (skip p 1) from clear) word_
    obtain ⟨a,r,finals,rest⟩ := returnsBind.mp rest
    obtain ⟨final_,third,rfl⟩ := finalTaken (show Clear (skip (skip p 1) 1) from clear) finals
    obtain ⟨_,r,skipped,rest⟩ := returnsBind.mp rest
    obtain rfl := returnsUpdate.mp skipped
    obtain ⟨_,r,brace,rest⟩ := returnsBind.mp rest
    obtain ⟨fourth,rfl⟩ := expectIs.mp brace
    obtain ⟨rfl,rfl⟩ := returnsPure.mp rest
    rw [settleOutside (show (skip (skip (skip p 1) 1) 1).pastNewlines.parenDepth = 0 from clear.1)] at fourth ⊢
    obtain ⟨rest,fourth⟩ := (knownHead (knownBare rfl)).mp fourth
    obtain ⟨newlines,same,blank⟩ := newlinesAhead (skip (skip (skip p 1) 1) 1)
    refine ⟨final_,_,⟨newlines,rfl,blank⟩,?_⟩
    rw [aheadTaken first,aheadTaken second,aheadTaken third,same,fourth,aheadNext fourth]
    simp

theorem headerBraces (header : Header name final_ hs) (closes : Closes 1 ts) : braces 0 (hs ++ ts) = some 0 := by
  obtain ⟨newlines,rfl,blank⟩ := header
  have open_ : braces 0 (newlines ++ .lbrace :: ts) = some 0 := by
    rw [bracesAppend,bracesNewlines blank]
    exact (closesBraces closes : braces 1 ts = some 0)
  rw [List.cons_append,List.cons_append,List.cons_append,List.append_assoc]
  exact open_

/- A verse of the source opens with a label and a text on the line of its brace. -/
def OpensAtBrace (src : String) : Prop := ∃ n toks pre name final_ hs l s rest, Lexer.lex n src = some (.ok toks) ∧
  toks.map Prod.fst = pre ++ .ident "versus" :: (hs ++ .ident l :: .str s :: rest) ∧ Header name final_ hs ∧ braces 0 pre = some 0 ∧
  (Lexer.rhymeLabel l).isSome = true

/- Two headers that are followed by anything are one. -/
theorem headerOnce {name' final' : String} {hs' : List Tok} {rest' : List Tok} (header : Header name final_ hs) (header' : Header name' final' hs')
    (same : hs ++ rest = hs' ++ rest') : name = name' ∧ hs = hs' ∧ rest = rest' := by
  obtain ⟨newlines,rfl,blank⟩ := header
  obtain ⟨newlines',rfl,blank'⟩ := header'
  simp only [List.cons_append,List.append_assoc,List.nil_append,List.cons.injEq,Tok.ident.injEq,true_and] at same
  obtain ⟨rfl,rfl,same⟩ := same
  have first := takeNewlines blank (t := .lbrace) rfl rest
  have second := takeNewlines blank' (t := .lbrace) rfl rest'
  rw [same] at first
  obtain rfl := first.1.symm.trans second.1
  exact ⟨rfl,rfl,(List.cons.inj (first.2.symm.trans second.2)).2⟩

/- A verse that begins in the header of an item is none: a verse has a header of its own. -/
theorem headerPast {name' final' : String} {hs' pre X : List Tok} (header : Header name final_ hs) (header' : Header name' final' hs')
    (same : hs ++ X = pre ++ .ident "versus" :: (hs' ++ rest)) (matched : braces 0 pre = some 0) :
    ∃ more, pre = hs ++ more ∧ X = more ++ .ident "versus" :: (hs' ++ rest) ∧ braces 1 more = some 0 := by
  obtain ⟨newlines,rfl,blank⟩ := header
  obtain ⟨newlines',rfl,blank'⟩ := header'
  have later (newlines : List Tok) (blank : ∀ t ∈ newlines, t.isNewline = true) {a V : List Tok}
      (same : newlines ++ .lbrace :: X = a ++ .ident "versus" :: V) (matched : braces 0 a = some 0) :
      ∃ more, a = newlines ++ .lbrace :: more ∧ X = more ++ .ident "versus" :: V ∧ braces 1 more = some 0 := by
    induction newlines generalizing a with
    | nil =>
      cases a with
      | nil => cases same
      | cons t a =>
        obtain ⟨rfl,rest⟩ := List.cons.inj same
        exact ⟨a,rfl,rest,matched⟩
    | cons t newlines ih =>
      have is_ := blank t List.mem_cons_self
      cases t <;> cases is_
      cases a with
      | nil => cases same
      | cons t a =>
        obtain ⟨rfl,rest⟩ := List.cons.inj same
        obtain ⟨more,rfl,behind,matched⟩ := ih (fun t mem => blank t (.tail _ mem)) rest matched
        exact ⟨more,rfl,behind,matched⟩
  -- no name stands between the newlines and the brace
  have never {s : String} {V : List Tok} (same : newlines ++ .lbrace :: X = .ident s :: V) : False := by
    cases newlines with
    | nil => cases same
    | cons t newlines =>
      have is_ := blank t List.mem_cons_self
      rw [(List.cons.inj same).1] at is_
      cases is_
  rw [List.cons_append,List.cons_append,List.cons_append,List.append_assoc,List.singleton_append] at same
  cases pre with
  | nil =>
    obtain ⟨-,same⟩ := List.cons.inj same
    obtain ⟨-,same⟩ := List.cons.inj same
    exact (never (List.cons.inj same).2).elim
  | cons a pre =>
    rw [List.cons_append,List.cons.injEq] at same
    obtain ⟨rfl,same⟩ := same
    cases pre with
    | nil => exact absurd (Tok.ident.inj (List.cons.inj same).1) (by decide)
    | cons b pre =>
      rw [List.cons_append,List.cons.injEq] at same
      obtain ⟨rfl,same⟩ := same
      cases pre with
      | nil => exact (never (List.cons.inj same).2).elim
      | cons c pre =>
        rw [List.cons_append,List.cons.injEq] at same
        obtain ⟨rfl,same⟩ := same
        obtain ⟨more,rfl,behind,matched⟩ := later newlines blank same matched
        exact ⟨more,by simp,behind,matched⟩

end Headers

section Bodies
variable {n : Nat} {mode : Mode} {e : Expr} {v : Versus} {f : Fugue} {rhymes : List (Char × String)} {prog : Program}
  {name final_ : String} {us hs bs ts pre rest newlines : List Tok}

theorem closesNewlines {d : Nat} (blank : ∀ t ∈ newlines, t.isNewline = true) : Closes (d+1) (newlines ++ ts) ↔ Closes (d+1) ts := by
  induction newlines with
  | nil => exact Iff.rfl
  | cons t newlines ih =>
    have is_ := blank t List.mem_cons_self
    cases t <;> cases is_
    refine Iff.trans ⟨fun closes => ?_,fun closes => .more rfl closes⟩ (ih fun t mem => blank t (.tail _ mem))
    cases closes with
    | more taken later =>
      cases taken
      exact later

theorem takenNewlines {t : Tok} (mem : t ∈ ts.takeWhile Tok.isNewline) : t.isNewline = true := List.all_eq_true.mp List.all_takeWhile t mem

/- What is in the braces of a verse ends with the one that closes them. -/
theorem bodyCloses (reads : ReadsOff (verseBody mode) (rhymes,e) bs) : Closes 1 bs := by
  obtain ⟨n,q,returned,over_,-⟩ := reads (before bs) [] ⟨rfl,rfl⟩ (by rw [beforeAhead,List.append_nil])
  obtain ⟨rhymes',r,stripped,rest⟩ := returnsBind.mp returned
  obtain ⟨e',q',body,last⟩ := returnsBind.mp rest
  obtain ⟨-,rfl⟩ := returnsPure.mp last
  rcases stripReturns.mp stripped with ⟨-,-,rfl⟩ | ⟨opens,-,stripped⟩
  · obtain ⟨⟨us,same,whole⟩,-⟩ := stmtsTaken ⟨rfl,rfl⟩ body
    rw [beforeAhead,over_,List.append_nil] at same
    subst same
    exact throughCloses whole.through
  · obtain ⟨us,heads,strips,-,replaced⟩ := stripLoopStrips stripped
    obtain ⟨⟨ub,same,whole⟩,-⟩ := stmtsTaken ⟨replaced.others.2.1,replaced.others.2.2⟩ body
    rw [over_,List.append_nil] at same
    subst same
    have closed := throughCloses whole.through
    rw [replacedAhead opens replaced,closesNewlines (fun t => takenNewlines)] at closed
    have whole_ := stripsCloses strips (Nat.le_refl 1) closed
    rw [show tokensFrom (before bs) = tokensFrom (before bs).pastNewlines from rfl,← aheadTokens,aheadPastNewlines,beforeAhead] at whole_
    rw [← List.takeWhile_append_dropWhile (p := Tok.isNewline) (l := bs),closesNewlines (fun t => takenNewlines)]
    exact whole_

/- What is read off the braces of a verse, and of one that is not sung. -/
def BodyRead (bs : List Tok) (v : Versus) : Prop := ReadsOff (verseBody v.mode) (v.rhymes,v.body) bs ∧
  (v.rhymes = [] → Whole (.inside 1) (.inside 0) bs ∧ labelled (bs.dropWhile Tok.isNewline) = false ∧ ReadsOff (stmts v.mode) v.body bs)

theorem versusParts (read : VersusRead us v) : ∃ final_ hs bs, us = hs ++ bs ∧ Header v.name final_ hs ∧ Closes 1 bs ∧ BodyRead bs v ∧
    ∀ bs' v', v'.name = v.name → v'.mode = v.mode → BodyRead bs' v' → VersusRead (hs ++ bs') v' := by
  obtain ⟨hs,bs,h,rfl,whole,named,moded,heading_,reads,plain⟩ := read
  obtain ⟨_,q,returned,over_,-⟩ := heading_ (before hs) [] ⟨rfl,rfl⟩ (by rw [beforeAhead,List.append_nil])
  obtain ⟨final_,hs',header,same⟩ := headingHeader ⟨rfl,rfl⟩ returned
  rw [beforeAhead,over_,List.append_nil] at same
  subst same
  refine ⟨final_,hs,bs,rfl,named ▸ header,bodyCloses reads,⟨reads,plain⟩,fun bs' v' named' moded' read' => ?_⟩
  exact ⟨hs,bs',h,rfl,whole,named'.trans named,moded'.trans moded,heading_,read'.1,read'.2⟩

theorem fugueParts (read : FugueRead us f) : ∃ name final_ hs bs, us = hs ++ bs ∧ Header name final_ hs ∧ Closes 1 bs := by
  obtain ⟨hs,bs,h,rfl,-,whole,heading_,-⟩ := read
  obtain ⟨_,q,returned,over_,-⟩ := heading_ (before hs) [] ⟨rfl,rfl⟩ (by rw [beforeAhead,List.append_nil])
  obtain ⟨final_,hs',header,same⟩ := headingHeader ⟨rfl,rfl⟩ returned
  rw [beforeAhead,over_,List.append_nil] at same
  subst same
  exact ⟨h.1,final_,hs,bs,rfl,header,throughCloses whole.through⟩

/- Matched tokens that go on behind the header of an item do so behind the item. -/
theorem itemPast {name' final' : String} {hs' : List Tok} (header : Header name final_ hs) (header' : Header name' final' hs') (closes : Closes 1 bs)
    (same : hs ++ bs ++ ts = pre ++ .ident "versus" :: (hs' ++ rest)) (matched : braces 0 pre = some 0) :
    ∃ more, pre = hs ++ bs ++ more ∧ ts = more ++ .ident "versus" :: (hs' ++ rest) ∧ braces 0 more = some 0 := by
  rw [List.append_assoc] at same
  obtain ⟨more,rfl,behind,matched⟩ := headerPast header header' same matched
  obtain ⟨more,rfl,behind,matched⟩ := closesWithin closes behind matched
  exact ⟨more,(List.append_assoc ..).symm,behind,matched⟩

end Bodies

/- A verse between the items of two programs. -/
def placed (first : Program) (v : Versus) (later : Program) : Program := ⟨first.fugues ++ later.fugues,first.verses ++ v :: later.verses⟩

section Places
variable {v : Versus} {prog : Program} {name final_ : String} {hs T pre rest newlines us ts V : List Tok}

/- Newlines before a word are before all that comes before it. -/
theorem beforeWord {s : String} (blank : ∀ t ∈ newlines, t.isNewline = true) (same : newlines ++ us = pre ++ .ident s :: V) :
    ∃ more, pre = newlines ++ more ∧ us = more ++ .ident s :: V := by
  rcases List.append_eq_append_iff.mp same with ⟨more,is_,is'⟩ | ⟨more,is_,is'⟩
  · exact ⟨more,is_,is'⟩
  · cases more with
    | nil => exact ⟨[],by rw [is_,List.append_nil,List.append_nil],is'.symm⟩
    | cons t more =>
      have never := blank t (is_ ▸ List.mem_append_right _ List.mem_cons_self)
      rw [← (List.cons.inj is').1] at never
      cases never

/- A verse whose header stands behind matched braces is an item of the score, and another may stand in its place. -/
theorem verseAt (items : Items T prog) (place : T = pre ++ .ident "versus" :: (hs ++ rest)) (header : Header name final_ hs)
    (matched : braces 0 pre = some 0) : ∃ prog₁ v prog₂ bs ts, rest = bs ++ ts ∧ prog = placed prog₁ v prog₂ ∧
      v.name = name ∧ BodyRead bs v ∧ ∀ bs' v', v'.name = v.name → v'.mode = v.mode → BodyRead bs' v' →
        Items (pre ++ .ident "versus" :: (hs ++ (bs' ++ ts))) (placed prog₁ v' prog₂) := by
  induction items generalizing pre with
  | over_ blank =>
    have never := blank (.ident "versus") (place ▸ List.mem_append_right _ List.mem_cons_self)
    cases never
  | @fuga newlines us ts f prog blank read later ih =>
    obtain ⟨more,rfl,same⟩ := beforeWord blank place
    cases more with
    | nil => exact absurd (Tok.ident.inj (List.cons.inj same).1) (by decide)
    | cons t more =>
      rw [List.cons_append,List.cons.injEq] at same
      obtain ⟨rfl,same⟩ := same
      obtain ⟨_,_,hs',bs',rfl,header',closes⟩ := fugueParts read
      rw [bracesAppend,bracesNewlines blank] at matched
      obtain ⟨more,rfl,behind,matched⟩ := itemPast header' header closes same matched
      obtain ⟨prog₁,v,prog₂,bs,ts',rfl,rfl,named,body,again⟩ := ih behind matched
      refine ⟨⟨f :: prog₁.fugues,prog₁.verses⟩,v,prog₂,bs,ts',rfl,rfl,named,body,fun bs' v' named' moded' read' => ?_⟩
      have whole := Items.fuga blank read (again bs' v' named' moded' read')
      simpa [placed] using whole
  | @versus newlines us ts w prog blank read later ih =>
    obtain ⟨more,rfl,same⟩ := beforeWord blank place
    obtain ⟨final',hs',bs',rfl,header',closes,body,again⟩ := versusParts read
    cases more with
    | nil =>
      obtain ⟨-,same⟩ := List.cons.inj same
      rw [List.append_assoc] at same
      obtain ⟨named,rfl,rfl⟩ := headerOnce header' header same
      refine ⟨⟨[],[]⟩,w,prog,bs',ts,rfl,rfl,named,body,fun bs'' v' named' moded' read' => ?_⟩
      have whole := Items.versus blank (again bs'' v' named' moded' read') later
      simpa [placed] using whole
    | cons t more =>
      rw [List.cons_append,List.cons.injEq] at same
      obtain ⟨rfl,same⟩ := same
      rw [bracesAppend,bracesNewlines blank] at matched
      obtain ⟨more,rfl,behind,matched⟩ := itemPast header' header closes same matched
      obtain ⟨prog₁,v,prog₂,bs,ts',rfl,rfl,named,body,again⟩ := ih behind matched
      refine ⟨⟨prog₁.fugues,w :: prog₁.verses⟩,v,prog₂,bs,ts',rfl,rfl,named,body,fun bs' v' named' moded' read' => ?_⟩
      have whole := Items.versus blank read (again bs' v' named' moded' read')
      simpa [placed] using whole

end Places

end Officium.Parser
