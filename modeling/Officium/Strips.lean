import Officium.Windows

/-! What `liturgicalStrip` makes of the tokens of a verse: the heads it takes out and what it leaves. It
looks no further than the brace that closes the verse. -/
namespace Officium.Parser
open Bounded
open Lexer (Tok rhymeLabel)

/- The tokens open with a label and a text. -/
def labelled : List Tok → Bool
  | .ident l :: .str _ :: _ => (rhymeLabel l).isSome
  | _ => false

theorem labelledShape {ts : List Tok} (label : labelled ts = true) : ∃ l s rest, ts = .ident l :: .str s :: rest ∧ (rhymeLabel l).isSome = true := by
  unfold labelled at label
  split at label
  · exact ⟨_,_,_,rfl,label⟩
  · cases label

/- A token that neither ends a line nor opens or closes a block. -/
def flat : Tok → Bool
  | .newline | .lbrace | .rbrace => false
  | _ => true

/- What `stripLoop` leaves of the tokens and the heads it takes out. -/
inductive Strips : Nat → Bool → List Tok → List Tok → List (Char × String) → Prop where
  | over_ {d b} : Strips d b [] [] []
  | close {d b ts} (last : d ≤ 1) : Strips d b (.rbrace :: ts) (.rbrace :: ts) []
  | rbrace {d b ts us rs} (deeper : ¬d ≤ 1) (more : Strips (d-1) false ts us rs) : Strips d b (.rbrace :: ts) (.rbrace :: us) rs
  | lbrace {d b ts us rs} (more : Strips (d+1) false ts us rs) : Strips d b (.lbrace :: ts) (.lbrace :: us) rs
  | newline {d b ts us rs} (more : Strips d true ts us rs) : Strips d b (.newline :: ts) (.newline :: us) rs
  | head {d ts us rs l c s} (label : rhymeLabel l = some c) (more : Strips d false ts us rs) :
      Strips d true (.ident l :: .str s :: .semi :: ts) us ((c,s) :: rs)
  | other {d b t ts us rs} (flat_ : flat t = true) (untold : b = true → labelled (t :: ts) = false) (more : Strips d false ts us rs) :
      Strips d b (t :: ts) (t :: us) rs

section Stripping
variable {p q : Parser} {n j d : Nat} {b : Bool} {ts us x : List Tok} {rs rs' heads : List (Char × String)}

/- The tokens from an index on. -/
def tokensFrom (p : Parser) (j : Nat) : List Tok := (p.toks.map Prod.fst).drop j

/- From an index on the tokens were replaced by these. -/
structure Replaced (p : Parser) (j : Nat) (us : List Tok) (q : Parser) : Prop where
  tokens : q.toks.map Prod.fst = (p.toks.map Prod.fst).take j ++ us
  others : q.pos = p.pos ∧ q.parenDepth = p.parenDepth ∧ q.exprDepth = p.exprDepth

theorem tokensNext {t : Tok × Nat} (found : p.toks[j]? = some t) : tokensFrom p j = t.1 :: tokensFrom p (j+1) := by
  obtain ⟨inside,rfl⟩ := List.getElem?_eq_some_iff.mp found
  unfold tokensFrom
  rw [List.drop_eq_getElem_cons (by rw [List.length_map]; exact inside),List.getElem_map]

theorem tokensNone (found : p.toks[j]? = none) : tokensFrom p j = [] :=
  List.drop_of_length_le (by rw [List.length_map]; exact List.getElem?_eq_none_iff.mp found)

theorem tokensHere {t : Tok} (h : tokensFrom p j = t :: ts) : ∃ line, p.toks[j]? = some (t,line) ∧ tokensFrom p (j+1) = ts := by
  cases found : p.toks[j]? with
  | none =>
    rw [tokensNone found] at h
    cases h
  | some u =>
    rw [tokensNext found] at h
    obtain ⟨rfl,rest⟩ := List.cons.inj h
    exact ⟨u.2,rfl,rest⟩

theorem replacedNext {t : Tok × Nat} (found : p.toks[j]? = some t) (h : Replaced p (j+1) us q) : Replaced p j (t.1 :: us) q := by
  refine ⟨?_,h.others⟩
  rw [h.tokens,List.take_add_one,List.getElem?_map,found,List.append_assoc]
  rfl

theorem replacedNone (h : tokensFrom p j = us) : Replaced p j us p :=
  ⟨by rw [← h,tokensFrom,List.take_append_drop],rfl,rfl,rfl⟩

/- The parser without the three tokens of a head. -/
def beheaded (p : Parser) (j : Nat) : Parser := { p with toks := p.toks.take j ++ p.toks.drop (j+3) }

theorem beheadedTokens {t : Tok × Nat} (found : p.toks[j]? = some t) :
    tokensFrom (beheaded p j) j = tokensFrom p (j+3) ∧ ((beheaded p j).toks.map Prod.fst).take j = (p.toks.map Prod.fst).take j := by
  obtain ⟨inside,-⟩ := List.getElem?_eq_some_iff.mp found
  have size : ((p.toks.map Prod.fst).take j).length = j := by rw [List.length_take,List.length_map]; omega
  unfold tokensFrom beheaded
  rw [List.map_append,List.map_take,List.map_drop]
  exact ⟨List.drop_left' size,List.take_left' size⟩

theorem replacedBeheaded {t : Tok × Nat} (found : p.toks[j]? = some t) (h : Replaced (beheaded p j) j us q) : Replaced p j us q :=
  ⟨by rw [h.tokens,(beheadedTokens found).2],h.others⟩

theorem stripLoopStrips (h : Returns (stripLoop n j d b rs) p rs' q) :
    ∃ us heads, Strips d b (tokensFrom p j) us heads ∧ rs' = rs ++ heads ∧ Replaced p j us q := by
  induction n generalizing j d b rs p with
  | zero => exact (returnsCut h).elim
  | succ n ih =>
    rw [Returns,stripLoop,stateThen] at h
    cases found : p.toks[j]? with
    | none =>
      rw [found] at h
      obtain ⟨rfl,rfl⟩ := returnsPure.mp h
      have none_ := tokensNone found
      exact ⟨[],[],by rw [none_]; exact .over_,(List.append_nil _).symm,replacedNone none_⟩
    | some t =>
      obtain ⟨t,line⟩ := t
      rw [found] at h
      have next := tokensNext found
      have on {d' : Nat} {b' : Bool} (h : Returns (stripLoop n (j+1) d' b' rs) p rs' q) :
          ∃ us heads, Strips d' b' (tokensFrom p (j+1)) us heads ∧ rs' = rs ++ heads ∧ Replaced p j (t :: us) q := by
        obtain ⟨us,heads,more,same,replaced⟩ := ih h
        exact ⟨us,heads,more,same,replacedNext found replaced⟩
      rw [next]
      cases t
      case rbrace =>
        simp only [Option.map_some] at h
        split at h
        · rename_i last
          obtain ⟨rfl,rfl⟩ := returnsPure.mp h
          exact ⟨_,[],.close last,(List.append_nil _).symm,replacedNone next⟩
        · rename_i deeper
          obtain ⟨us,heads,more,same,replaced⟩ := on h
          exact ⟨_,heads,.rbrace deeper more,same,replaced⟩
      case lbrace =>
        obtain ⟨us,heads,more,same,replaced⟩ := on h
        exact ⟨_,heads,.lbrace more,same,replaced⟩
      case newline =>
        obtain ⟨us,heads,more,same,replaced⟩ := on h
        exact ⟨_,heads,.newline more,same,replaced⟩
      case ident l =>
        simp only [Option.map_some] at h
        cases label : (if b then rhymeLabel l else none) with
        | none =>
          rw [label] at h
          obtain ⟨us,heads,more,same,replaced⟩ := on h
          refine ⟨_,heads,.other rfl (fun start => ?_) more,same,replaced⟩
          rw [if_pos start] at label
          cases tokensFrom p (j+1) with
          | nil => rfl
          | cons v vs =>
            cases v
            case str s => rw [labelled,label]; rfl
            all_goals rfl
        | some c =>
          have start : b = true := by
            cases b with
            | true => rfl
            | false => cases label
          rw [if_pos start] at label
          rw [label] at h
          cases after : p.toks[j+1]? with
          | none =>
            rw [after] at h
            simp only [start,if_true] at h
            obtain ⟨us,heads,more,same,replaced⟩ := on h
            exact ⟨_,heads,.other rfl (fun _ => by rw [tokensNone after]; rfl) more,same,replaced⟩
          | some u =>
            obtain ⟨u,line⟩ := u
            rw [after] at h
            simp only [start,if_true] at h
            cases u
            case str text =>
              dsimp only at h
              split at h
              · rename_i semi
                rw [updateThen] at h
                cases third : p.toks[j+2]? with
                | none => rw [third] at semi; cases semi
                | some v =>
                  obtain ⟨v,line⟩ := v
                  rw [third] at semi
                  have sep : v = .semi := by cases v <;> first | rfl | cases semi
                  obtain ⟨us,heads,more,same,replaced⟩ := ih (p := beheaded p j) h
                  rw [(beheadedTokens found).1] at more
                  rw [tokensNext after,tokensNext third,sep,start]
                  refine ⟨us,_,.head label more,?_,replacedBeheaded found replaced⟩
                  rw [same,List.append_assoc,List.singleton_append]
              · exact (returnsFail h).elim
            all_goals
              obtain ⟨us,heads,more,same,replaced⟩ := on h
              exact ⟨_,heads,.other rfl (fun _ => by rw [tokensNext after]; rfl) more,same,replaced⟩
      all_goals
        obtain ⟨us,heads,more,same,replaced⟩ := on h
        exact ⟨_,heads,.other rfl (fun _ => rfl) more,same,replaced⟩

/- A turn that goes on to the next token. -/
theorem loopOn {t : Tok} {line d' : Nat} {b' : Bool} (found : p.toks[j]? = some (t,line))
    (shape : ∀ n, stripLoop (n+1) j d b rs p = stripLoop n (j+1) d' b' rs p)
    (later : ∃ n q, Returns (stripLoop n (j+1) d' b' rs) p (rs ++ heads) q ∧ Replaced p (j+1) us q) :
    ∃ n q, Returns (stripLoop n j d b rs) p (rs ++ heads) q ∧ Replaced p j (t :: us) q := by
  obtain ⟨n,q,returned,replaced⟩ := later
  exact ⟨n+1,q,(shape n).trans returned,replacedNext found replaced⟩

/- The loop takes out what there is to take. -/
theorem stripsLoop (h : Strips d b ts us heads) (here : tokensFrom p j = ts) :
    ∃ n q, Returns (stripLoop n j d b rs) p (rs ++ heads) q ∧ Replaced p j us q := by
  induction h generalizing p j rs with
  | over_ =>
    have none_ : p.toks[j]? = none := by
      rw [tokensFrom,List.drop_eq_nil_iff,List.length_map] at here
      exact List.getElem?_eq_none here
    refine ⟨1,p,?_,replacedNone here⟩
    rw [Returns,stripLoop,stateThen,none_,List.append_nil]
    rfl
  | close last =>
    obtain ⟨line,found,-⟩ := tokensHere here
    refine ⟨1,p,?_,replacedNone here⟩
    rw [Returns,stripLoop,stateThen,found]
    simp only [Option.map_some,if_pos last,List.append_nil]
    rfl
  | rbrace deeper more ih =>
    obtain ⟨line,found,rest⟩ := tokensHere here
    refine loopOn found (fun n => ?_) (ih rest)
    rw [stripLoop,stateThen,found]
    exact congrFun (if_neg deeper) p
  | lbrace more ih =>
    obtain ⟨line,found,rest⟩ := tokensHere here
    refine loopOn found (fun n => ?_) (ih rest)
    rw [stripLoop,stateThen,found]
    rfl
  | newline more ih =>
    obtain ⟨line,found,rest⟩ := tokensHere here
    refine loopOn found (fun n => ?_) (ih rest)
    rw [stripLoop,stateThen,found]
    rfl
  | @head d ts us heads l c s label more ih =>
    obtain ⟨_,found,rest⟩ := tokensHere here
    obtain ⟨_,text,rest⟩ := tokensHere rest
    obtain ⟨_,sep,rest⟩ := tokensHere rest
    have later : ∃ n q, Returns (stripLoop n j d false (rs ++ [(c,s)])) (beheaded p j) (rs ++ [(c,s)] ++ heads) q ∧ Replaced (beheaded p j) j us q :=
      ih ((beheadedTokens found).1.trans rest)
    obtain ⟨n,q,returned,replaced⟩ := later
    have shape : stripLoop (n+1) j d true rs p = stripLoop n j d false (rs ++ [(c,s)]) (beheaded p j) := by
      rw [stripLoop,stateThen,found]
      simp only [Option.map_some,if_true,label,text,sep]
      rfl
    refine ⟨n+1,q,?_,replacedBeheaded found replaced⟩
    rw [List.append_assoc,List.singleton_append] at returned
    exact shape.trans returned
  | @other d b t ts us heads flat_ untold more ih =>
    obtain ⟨line,found,rest⟩ := tokensHere here
    refine loopOn found (fun n => ?_) (ih rest)
    rw [stripLoop,stateThen,found]
    cases t
    case ident l =>
      simp only [Option.map_some]
      cases label : (if b then rhymeLabel l else none) with
      | none => rfl
      | some c =>
        have start : b = true := by
          cases b with
          | true => rfl
          | false => cases label
        rw [if_pos start] at label
        cases after : p.toks[j+1]? with
        | none => rfl
        | some u =>
          obtain ⟨u,_⟩ := u
          cases u
          case str s =>
            have told := untold start
            rw [← rest,tokensNext after,labelled,label] at told
            cases told
          all_goals rfl
    all_goals first | rfl | cases flat_

/- The tokens of a body the loop went through, up to the brace that closes it: it does the same whatever
stands behind that brace. -/
theorem stripsBody {ub : List Tok} (h : Strips d b ts us heads) (same : us = ub ++ x) (live : 1 ≤ d)
    (closed : (Nesting.inside d).through ub = some (.inside 0)) :
    ∃ body, body ≠ [] ∧ ts = body ++ x ∧ ∀ x', labelled (body ++ x') = labelled ts ∧ Strips d b (body ++ x') (ub ++ x') heads := by
  have liveInside {d : Nat} (live : 1 ≤ d) : (Nesting.inside d).Live := fun same => by cases same; cases live
  induction h generalizing ub with
  | over_ =>
    obtain ⟨t,vs,rfl⟩ := throughSome (liveInside live) closed
    cases same
  | @close d b ts last =>
    obtain rfl : d = 1 := Nat.le_antisymm last live
    obtain ⟨t,vs,rfl⟩ := throughSome (liveInside live) closed
    obtain ⟨rfl,rfl⟩ := List.cons.inj same
    obtain ⟨rfl,-⟩ := throughOver closed
    exact ⟨[.rbrace],nofun,rfl,fun x' => ⟨rfl,.close last⟩⟩
  | @rbrace d b ts us heads deeper more ih =>
    obtain ⟨t,vs,rfl⟩ := throughSome (liveInside live) closed
    obtain ⟨rfl,rest⟩ := List.cons.inj same
    obtain ⟨d,rfl⟩ := Nat.exists_eq_add_of_le' live
    obtain ⟨body,-,rfl,again⟩ := ih rest (by omega) closed
    exact ⟨.rbrace :: body,nofun,rfl,fun x' => ⟨rfl,.rbrace deeper (again x').2⟩⟩
  | @lbrace d b ts us heads more ih =>
    obtain ⟨t,vs,rfl⟩ := throughSome (liveInside live) closed
    obtain ⟨rfl,rest⟩ := List.cons.inj same
    obtain ⟨d,rfl⟩ := Nat.exists_eq_add_of_le' live
    obtain ⟨body,-,rfl,again⟩ := ih rest (by omega) closed
    exact ⟨.lbrace :: body,nofun,rfl,fun x' => ⟨rfl,.lbrace (again x').2⟩⟩
  | @newline d b ts us heads more ih =>
    obtain ⟨t,vs,rfl⟩ := throughSome (liveInside live) closed
    obtain ⟨rfl,rest⟩ := List.cons.inj same
    obtain ⟨d,rfl⟩ := Nat.exists_eq_add_of_le' live
    obtain ⟨body,-,rfl,again⟩ := ih rest live closed
    exact ⟨.newline :: body,nofun,rfl,fun x' => ⟨rfl,.newline (again x').2⟩⟩
  | @head d ts us heads l c s label more ih =>
    obtain ⟨body,-,rfl,again⟩ := ih same live closed
    exact ⟨.ident l :: .str s :: .semi :: body,nofun,rfl,fun x' => ⟨rfl,.head label (again x').2⟩⟩
  | @other d b t ts us heads flat_ untold more ih =>
    obtain ⟨u,vs,rfl⟩ := throughSome (liveInside live) closed
    obtain ⟨rfl,rest⟩ := List.cons.inj same
    obtain ⟨d,rfl⟩ := Nat.exists_eq_add_of_le' live
    have on : (Nesting.inside (d+1)).through vs = some (.inside 0) := by
      cases t
      case semi => cases (show (none : Option Nesting) = some (.inside 0) from closed)
      all_goals first | exact closed | cases flat_
    obtain ⟨body,some_,rfl,again⟩ := ih rest live on
    have first (x' : List Tok) : labelled (t :: (body ++ x')) = labelled (t :: (body ++ x)) := by
      obtain ⟨v,body,rfl⟩ := List.exists_cons_of_ne_nil some_
      cases t
      case ident l => cases v <;> rfl
      all_goals rfl
    exact ⟨t :: body,nofun,rfl,fun x' => ⟨first x',.other flat_ (fun start => (first x').trans (untold start)) (again x').2⟩⟩

end Stripping

section Opening
variable {p q : Parser} {n : Nat} {us x : List Tok} {rhymes : List (Char × String)}

theorem aheadTokens (p : Parser) : ahead p = tokensFrom p p.pos := List.map_drop

/- The verse opens as a sung one if its first tokens are a label and a text. -/
theorem sungOpens (p : Parser) : sungOpening p = labelled (ahead p.pastNewlines) := by
  rw [aheadTokens]
  unfold sungOpening
  rw [show tokensFrom p.pastNewlines = tokensFrom p from rfl]
  generalize p.pastNewlines.pos = j
  cases here : p.toks[j]? with
  | none =>
    rw [tokensNone here]
    rfl
  | some t =>
    rw [tokensNext here]
    cases next : p.toks[j+1]? with
    | none =>
      rw [tokensNone next]
      obtain ⟨t,_⟩ := t
      cases t <;> rfl
    | some u =>
      rw [tokensNext next]
      obtain ⟨t,_⟩ := t
      obtain ⟨u,_⟩ := u
      cases t
      case ident l => cases u <;> rfl
      all_goals rfl

/- A sung verse that passes: eight lines, the last two alike, every rhyme answered. -/
def Passes (rhymes : List (Char × String)) : Prop :=
  rhymes.length = 8 ∧ rhymes[6]?.map Prod.fst = rhymes[7]?.map Prod.fst ∧ unanswered rhymes = none

theorem stripReturns : Returns (liturgicalStrip n) p rhymes q ↔ (sungOpening p = false ∧ rhymes = [] ∧ q = p) ∨
    (sungOpening p = true ∧ Passes rhymes ∧ Returns (stripLoop n p.pastNewlines.pos 1 true []) p rhymes q) := by
  rw [Returns,liturgicalStrip,stateThen]
  cases opening : sungOpening p with
  | false =>
    constructor
    · intro returned
      obtain ⟨rfl,rfl⟩ := returnsPure.mp returned
      exact .inl ⟨rfl,rfl,rfl⟩
    · rintro (⟨-,rfl,rfl⟩ | ⟨never,-⟩)
      · rfl
      · cases never
  | true =>
    rw [if_neg (by decide)]
    constructor
    · intro returned
      obtain ⟨found,r,stripped,rest⟩ := returnsBind.mp returned
      rw [Returns,stateThen] at rest
      split at rest
      · exact (returnsFail rest).elim
      rename_i eight
      split at rest
      · exact (returnsFail rest).elim
      rename_i volta
      cases answered : unanswered found with
      | some l =>
        rw [answered] at rest
        exact (returnsFail rest).elim
      | none =>
        rw [answered] at rest
        obtain ⟨rfl,rfl⟩ := returnsPure.mp rest
        exact .inr ⟨rfl,⟨Classical.not_not.mp eight,Classical.not_not.mp volta,answered⟩,stripped⟩
    · rintro (⟨never,-⟩ | ⟨-,⟨eight,volta,answered⟩,stripped⟩)
      · cases never
      · refine returnsBind.mpr ⟨rhymes,q,stripped,?_⟩
        rw [Returns,stateThen]
        simp only [eight,volta,answered,ne_eq,not_true_eq_false,if_false]
        rfl

theorem pastAhead (p : Parser) : p.pastNewlines.pos = p.pos + ((ahead p).takeWhile Tok.isNewline).length := by
  rw [ahead,List.takeWhile_map,List.length_map]
  rfl

/- Where a sung verse opens the tokens are replaced behind the newlines ahead. -/
theorem replacedAhead (opens : sungOpening p = true) (h : Replaced p p.pastNewlines.pos us q) :
    ahead q = (ahead p).takeWhile Tok.isNewline ++ us := by
  have inside : p.pastNewlines.pos ≤ (p.toks.map Prod.fst).length := by
    rw [sungOpens,aheadTokens] at opens
    by_cases le : p.pastNewlines.pos ≤ (p.toks.map Prod.fst).length
    · exact le
    · rw [tokensFrom,List.drop_of_length_le (by show (p.toks.map Prod.fst).length ≤ _; omega)] at opens
      cases opens
  have here : (p.toks.map Prod.fst).drop p.pos = ahead p := (aheadTokens p).symm
  rw [aheadTokens,tokensFrom,h.tokens,h.others.1,List.drop_append_of_le_length,List.drop_take,here,pastAhead,Nat.add_sub_cancel_left]
  · congr 1
    exact (congrArg (List.take _) List.takeWhile_append_dropWhile.symm).trans List.take_left
  · rw [List.length_take,Nat.min_eq_left inside,pastAhead]
    exact Nat.le_add_right _ _

end Opening

end Officium.Parser
