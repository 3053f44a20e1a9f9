import Officium.Library.Utf8
import Officium.Indexed

/-! On text the front end over indices is the front end: nothing in it faults that the parser
does not fault at, and no bytes it decodes are anything but text. -/
namespace Officium.Indexed
open Bounded (Comp)
open Lexer (Tok Lexed rhymeLabel digit exponentMark sign alphabetic nameByte parseF64 err numberSpan lineHead)
open Officium.Parser (Parser refuseAt sungOpening unanswered)

section Scanning
variable {bytes rest : List UInt8} {c : UInt8} {i : Nat}

theorem indexHead (here : bytes.drop i = c :: rest) : index bytes i = .ok c := by
  have found : bytes[i]? = some c := by rw [← List.head?_drop,here]; rfl
  simp only [index,found]

theorem dropTail (here : bytes.drop i = c :: rest) : bytes.drop (i+1) = rest := by
  rw [← List.drop_drop,here,List.drop_one,List.tail_cons]

theorem insideOf (here : bytes.drop i = c :: rest) : i < bytes.length := by
  by_contra outside
  rw [List.drop_of_length_le (Nat.le_of_not_lt outside)] at here
  cases here

theorem byteIsHead (bytes : List UInt8) (i : Nat) (b : UInt8) : byteIs bytes i b = .ok ((bytes.drop i).head? == some b) := by
  unfold byteIs
  cases here : bytes.drop i with
  | nil => rw [if_neg (by simpa using here)]; rfl
  | cons c rest =>
    rw [if_pos (insideOf here),indexHead here]
    simp [pure,Except.pure,bind,Except.bind]

theorem sliceSpan {α : Type} {xs taken more : List α} {i : Nat} (inside : i ≤ xs.length) (here : xs.drop i = taken ++ more) :
    slice xs i (i+taken.length) = .ok taken := by
  have size := congrArg List.length here
  rw [List.length_drop,List.length_append] at size
  rw [slice,if_pos ⟨Nat.le_add_right _ _,by omega⟩,Nat.add_sub_cancel_left,here,List.take_left]

theorem dropSpan {taken more : List UInt8} (here : bytes.drop i = taken ++ more) : bytes.drop (i+taken.length) = more := by
  rw [← List.drop_drop,here,List.drop_left]

variable {keep : Nat → Except Raise Bool}

theorem scanEnd (here : bytes.drop i = []) : scan bytes keep i = .ok i := by
  rw [scan,if_neg (by simpa using here)]

theorem scanOn (here : bytes.drop i = c :: rest) (on : keep i = .ok true) : scan bytes keep i = scan bytes keep (i+1) := by
  rw [scan,if_pos (insideOf here),on]

theorem scanStop (here : bytes.drop i = c :: rest) (stop : keep i = .ok false) : scan bytes keep i = .ok i := by
  rw [scan,if_pos (insideOf here),stop]

theorem scanTest (p : UInt8 → Bool) (bytes : List UInt8) (i : Nat) :
    scan bytes (test bytes p) i = .ok (i+((bytes.drop i).takeWhile p).length) := by
  induction here : bytes.drop i generalizing i with
  | nil => exact scanEnd here
  | cons c rest ih =>
    have tested : test bytes p i = .ok (p c) := by rw [test,indexHead here]; rfl
    cases passes : p c with
    | true =>
      rw [passes] at tested
      rw [scanOn here tested,ih (i+1) (dropTail here),List.takeWhile_cons_of_pos passes,List.length_cons,
        Nat.add_right_comm,Nat.add_assoc]
    | false =>
      rw [passes] at tested
      rw [scanStop here tested,List.takeWhile_cons_of_neg (by simp [passes])]
      rfl

theorem inNumberLater {start : Nat} {prev : UInt8} (here : bytes.drop i = c :: rest) (later : start < i)
    (before : bytes[i-1]? = some prev) :
    inNumber bytes start i = .ok (digit c || c == 46 || exponentMark c || (sign c && exponentMark prev)) := by
  have down : pred i = .ok (i-1) := if_neg (by omega)
  have last : index bytes (i-1) = .ok prev := by simp only [index,before]
  rw [inNumber,indexHead here]
  cases plain : digit c || c == 46 || exponentMark c with
  | true => simp [bind,Except.bind,pure,Except.pure,plain]
  | false => cases signed : sign c <;> simp [bind,Except.bind,pure,Except.pure,plain,signed,later,down,last]

theorem scanNumber {start : Nat} {prev : UInt8} (here : bytes.drop i = rest) (later : start < i)
    (before : bytes[i-1]? = some prev) :
    scan bytes (inNumber bytes start) i = .ok (i+(numberSpan prev rest).1.length) := by
  induction rest generalizing i prev with
  | nil => exact scanEnd here
  | cons c rest ih =>
    have tested := inNumberLater here later before
    have found : bytes[i]? = some c := by rw [← List.head?_drop,here]; rfl
    rw [numberSpan]
    cases passes : digit c || c == 46 || exponentMark c || (sign c && exponentMark prev) with
    | true =>
      rw [passes] at tested
      rw [scanOn here tested,ih (i := i+1) (dropTail here) (by omega) found,if_pos rfl,List.length_cons,
        Nat.add_right_comm,Nat.add_assoc]
    | false =>
      rw [passes] at tested
      rw [scanStop here tested,if_neg (by simp)]
      rfl

theorem numberSplit (prev : UInt8) (rest : List UInt8) : (numberSpan prev rest).1 ++ (numberSpan prev rest).2 = rest := by
  induction rest generalizing prev with
  | nil => rfl
  | cons c rest ih =>
    rw [numberSpan]
    split
    · exact congrArg (c :: ·) (ih c)
    · rfl

end Scanning

section Agreement
open Utf8
variable {c : UInt8} {bytes rest : List UInt8}

theorem positionLength {α : Type} (p : α → Bool) (ys : List α) :
    ((ys.findIdx? p).map (fun k => ys.length-1-k+1)).getD 0 = (ys.dropWhile (fun x => !p x)).length := by
  induction ys with
  | nil => rfl
  | cons y ys ih =>
    rw [List.findIdx?_cons]
    cases holds : p y with
    | true => simp [holds]
    | false =>
      rw [List.dropWhile_cons_of_pos (by simp [holds]),← ih]
      cases ys.findIdx? p with
      | none => simp
      | some k => simp; omega

theorem isSungHead (toks : Lexed) : isSung toks = .ok (Lexer.isSung toks) := by
  let old := fun t : Tok × Nat => !t.1.isNewline
  have split : toks = (toks.reverse.dropWhile old).reverse ++ lineHead toks := by
    rw [lineHead,← List.reverse_append,List.takeWhile_append_dropWhile,List.reverse_reverse]
  have start : ((rposition (fun t : Tok × Nat => t.1.isNewline) toks).map (· + 1)).getD 0 =
      (toks.reverse.dropWhile old).reverse.length := by
    rw [List.length_reverse,← positionLength (fun t : Tok × Nat => t.1.isNewline),rposition,Option.map_map,List.length_reverse]
    rfl
  have head : slice toks (toks.reverse.dropWhile old).reverse.length toks.length = .ok (lineHead toks) := by
    have size := congrArg List.length split
    rw [List.length_append] at size
    have here : toks.drop (toks.reverse.dropWhile old).reverse.length = lineHead toks :=
      (congrArg (List.drop _) split).trans List.drop_left
    have whole : toks.drop (toks.reverse.dropWhile old).reverse.length = lineHead toks ++ [] := here.trans (List.append_nil _).symm
    have cut := sliceSpan (by omega) whole
    rwa [← size] at cut
  simp only [isSung,start,head,Lexer.isSung,bind,Except.bind]
  split
  · rename_i same
    rw [same]
    rfl
  · rename_i other
    split
    · rename_i same
      exact (other _ _ _ _ same).elim
    · rfl

theorem nameAscii {b : UInt8} (h : nameByte b = true) : b < 128 := by
  simp only [nameByte,alphabetic,digit,Bool.or_eq_true,Bool.and_eq_true,decide_eq_true_eq,beq_iff_eq,UInt8.le_iff_toNat_le] at h
  rw [UInt8.lt_iff_toNat_lt]
  rcases h with ((⟨-,h⟩ | ⟨-,h⟩) | ⟨-,h⟩) | rfl
  · exact Nat.lt_of_le_of_lt h (by decide)
  · exact Nat.lt_of_le_of_lt h (by decide)
  · exact Nat.lt_of_le_of_lt h (by decide)
  · decide

theorem numberAscii {b p : UInt8}
    (h : (digit b || b == 46 || exponentMark b || (sign b && exponentMark p)) = true) : b < 128 := by
  simp only [digit,exponentMark,sign,Bool.or_eq_true,Bool.and_eq_true,decide_eq_true_eq,beq_iff_eq,UInt8.le_iff_toNat_le] at h
  rw [UInt8.lt_iff_toNat_lt]
  rcases h with ((⟨-,h⟩ | rfl) | rfl | rfl) | ⟨rfl | rfl,-⟩
  · exact Nat.lt_of_le_of_lt h (by decide)
  all_goals decide

theorem spanAscii (prev : UInt8) (rest : List UInt8) : Ascii (numberSpan prev rest).1 := by
  induction rest generalizing prev with
  | nil => exact fun b mem => by cases mem
  | cons c rest ih =>
    rw [numberSpan]
    split
    · rename_i passes
      exact List.forall_mem_cons.mpr ⟨numberAscii passes,ih c⟩
    · exact fun b mem => by cases mem

theorem takenAscii {p : UInt8 → Bool} (small : ∀ b, p b = true → b < 128) : Ascii (bytes.takeWhile p) :=
  fun b mem => small b (List.mem_takeWhile_imp mem)

theorem textOrText (otherwise : Except Raise String) (h : Text bytes) :
    ∃ s, textOr otherwise bytes = .ok s ∧ String.fromUTF8? ⟨bytes.toArray⟩ = some s ∧ s.toUTF8.data.toList = bytes := by
  obtain ⟨s,decoded,encoded⟩ := textDecodes h
  exact ⟨s,by rw [textOr,decoded],decoded,encoded⟩

theorem asciiIsText (small : Ascii bytes) : Text bytes := ⟨_,(asciiText small).symm⟩

variable (invalid : Nat → Except Raise String) (fallback : Except Raise String)

theorem lexesName {n line i : Nat} {toks : Lexed} (here : bytes.drop i = c :: rest) (name : nameByte c = true)
    (later : ∀ toks i, bytes.drop i = rest.dropWhile nameByte →
      lexLoop invalid fallback bytes n toks line i = Lexer.lexLoop n toks line (rest.dropWhile nameByte)) :
    (andThen (scan bytes (test bytes nameByte) i) (fun j =>
      andThen (slice bytes i j) (fun span =>
        andThen (textOr fallback span) (fun s => lexLoop invalid fallback bytes n (toks ++ [(.ident s,line)]) line j)))) =
    Lexer.lexLoop n (toks ++ [(.ident (Lexer.ascii (c :: rest.takeWhile nameByte)),line)]) line (rest.dropWhile nameByte) := by
  have spans : bytes.drop i = (c :: rest.takeWhile nameByte) ++ rest.dropWhile nameByte := by
    rw [here,List.cons_append,List.takeWhile_append_dropWhile]
  have small : Ascii (c :: rest.takeWhile nameByte) :=
    List.forall_mem_cons.mpr ⟨nameAscii name,takenAscii (fun _ => nameAscii)⟩
  have text : textOr fallback (c :: rest.takeWhile nameByte) = .ok (Lexer.ascii (c :: rest.takeWhile nameByte)) := by
    rw [textOr,asciiDecodes small]
    rfl
  rw [scanTest,here,List.takeWhile_cons_of_pos name]
  simp only [andThen,sliceSpan (Nat.le_of_lt (insideOf here)) spans,text]
  exact later _ _ (dropSpan spans)

theorem lexesNumber {n line i : Nat} {toks : Lexed} (here : bytes.drop i = c :: rest) (first : digit c = true)
    (later : ∀ toks i, bytes.drop i = (numberSpan c rest).2 →
      lexLoop invalid fallback bytes n toks line i = Lexer.lexLoop n toks line (numberSpan c rest).2) :
    (andThen (scan bytes (inNumber bytes i) i) (fun j =>
      andThen (slice bytes i j) (fun span =>
        andThen (textOr fallback span) (fun s =>
          match parseF64 s.toUTF8.data.toList with
          | some x => lexLoop invalid fallback bytes n (toks ++ [(.num x,line)]) line j
          | none => some (err line "malformed number"))))) =
    match parseF64 (c :: (numberSpan c rest).1) with
    | some x => Lexer.lexLoop n (toks ++ [(.num x,line)]) line (numberSpan c rest).2
    | none => some (err line "malformed number") := by
  have spans : bytes.drop i = (c :: (numberSpan c rest).1) ++ (numberSpan c rest).2 := by
    rw [here,List.cons_append,numberSplit]
  have small : Ascii (c :: (numberSpan c rest).1) :=
    List.forall_mem_cons.mpr ⟨numberAscii (p := c) (by simp [first]),spanAscii c rest⟩
  obtain ⟨s,text,-,same⟩ := textOrText fallback (asciiIsText small)
  have on : inNumber bytes i i = .ok true := by rw [inNumber,indexHead here]; simp [bind,Except.bind,pure,Except.pure,first]
  have found : bytes[i+1-1]? = some c := by rw [Nat.add_sub_cancel,← List.head?_drop,here]; rfl
  have scanned : scan bytes (inNumber bytes i) i = .ok (i+(c :: (numberSpan c rest).1).length) := by
    rw [scanOn here on,scanNumber (dropTail here) (Nat.lt_succ_self i) found,List.length_cons,Nat.add_right_comm,Nat.add_assoc]
  simp only [scanned,andThen,sliceSpan (Nat.le_of_lt (insideOf here)) spans,text,same]
  split
  · exact later _ _ (dropSpan spans)
  · rfl


theorem charLow {k : Char} (same : Char.ofNat c.toNat = k) (small : k.toNat < 128) : c < 128 := by
  have value : (Char.ofNat c.toNat).toNat = c.toNat := by
    rw [Char.ofNat,dif_pos (.inl (by have := c.toNat_lt; omega))]
    rfl
  rw [UInt8.lt_iff_toNat_lt,← value,same]
  exact small

theorem headCases (xs : List UInt8) (b : UInt8) :
    (∃ more, xs = b :: more) ∨ (∀ more, xs ≠ b :: more) ∧ (xs.head? == some b) = false := by
  cases xs with
  | nil => exact .inr ⟨nofun,rfl⟩
  | cons c xs =>
    by_cases same : c = b
    · exact .inl ⟨xs,by rw [same]⟩
    · exact .inr ⟨fun _ found => same (List.cons.inj found).1,by simpa using same⟩

/- What the lexer does from here on, whatever it has read. -/
abbrev Agrees (bytes : List UInt8) (n : Nat) : Prop := ∀ {line i : Nat} {toks : Lexed}, Text (bytes.drop i) →
  lexLoop invalid fallback bytes n toks line i = Lexer.lexLoop n toks line (bytes.drop i)

theorem lexesComment {n line i : Nat} {toks : Lexed} (text : Text (c :: rest)) (here : bytes.drop i = c :: rest)
    (kind : Char.ofNat c.toNat = ';') (later : Agrees invalid fallback bytes n)
    (sung : lexLoop invalid fallback bytes n (toks ++ [(.semi,line)]) line (i+1) = Lexer.lexLoop n (toks ++ [(.semi,line)]) line rest) :
    (andThen (isSung toks) (fun sung =>
      if sung then lexLoop invalid fallback bytes n (toks ++ [(.semi,line)]) line (i+1)
      else andThen (scan bytes (test bytes (fun b => b != 10)) i) (fun i => lexLoop invalid fallback bytes n toks line i))) =
    if Lexer.isSung toks then Lexer.lexLoop n (toks ++ [(.semi,line)]) line rest
    else Lexer.lexLoop n toks line (rest.dropWhile (fun b => b != 10)) := by
  simp only [isSungHead,andThen]
  split
  · exact sung
  · have passes : (c != 10) = true := bne_iff_ne.mpr (by rintro rfl; revert kind; decide)
    have spans : bytes.drop i = (c :: rest.takeWhile (fun b => b != 10)) ++ rest.dropWhile (fun b => b != 10) := by
      rw [here,List.cons_append,List.takeWhile_append_dropWhile]
    have there := dropSpan spans
    have taken : (c :: rest).takeWhile (fun b => b != 10) = c :: rest.takeWhile (fun b => b != 10) :=
      List.takeWhile_cons_of_pos passes
    rw [scanTest,here,taken,← there]
    refine later ?_
    rw [there]
    refine (textSpan (fun b high => ?_) (textTail text (charLow kind (by decide)))).2
    exact bne_iff_ne.mpr (by rintro rfl; revert high; decide)

theorem lexesString {n line start : Nat} {toks : Lexed} (text : Text rest) (inside : start ≤ bytes.length)
    (here : bytes.drop start = rest) (later : Agrees invalid fallback bytes n) :
    (andThen (scan bytes (test bytes (fun b => b != 34 && b != 10)) start) (fun j =>
      andThen (byteIs bytes j 34) (fun closed =>
        if closed then
          andThen (slice bytes start j) (fun body =>
            andThen (textOr (invalid line) body) (fun s =>
              lexLoop invalid fallback bytes n (toks ++ [(.str s,line)]) line (j+1)))
        else some (err line "unterminated string")))) =
    match rest.dropWhile (fun b => b != 34 && b != 10) with
    | 34 :: more =>
      match String.fromUTF8? ⟨(rest.takeWhile (fun b => b != 34 && b != 10)).toArray⟩ with
      | some s => Lexer.lexLoop n (toks ++ [(.str s,line)]) line more
      | none => some (err line "invalid utf-8 in string")
    | _ => some (err line "unterminated string") := by
  have spans : bytes.drop start = rest.takeWhile (fun b => b != 34 && b != 10) ++ rest.dropWhile (fun b => b != 34 && b != 10) := by
    rw [here,List.takeWhile_append_dropWhile]
  have cut := sliceSpan inside spans
  have there := dropSpan spans
  have through : ∀ b : UInt8, 128 ≤ b → (b != 34 && b != 10) = true := by
    intro b high
    simp only [Bool.and_eq_true,bne_iff_ne]
    exact ⟨by rintro rfl; revert high; decide,by rintro rfl; revert high; decide⟩
  obtain ⟨body,after⟩ := textSpan through text
  obtain ⟨s,read,decoded,-⟩ := textOrText (invalid line) body
  rw [scanTest,here]
  simp only [andThen,byteIsHead,there]
  rcases headCases (rest.dropWhile (fun b => b != 34 && b != 10)) 34 with ⟨more,closed⟩ | ⟨other,open_⟩
  · rw [closed] at there after
    have next := dropTail there
    simp only [closed,List.head?_cons,beq_self_eq_true,if_true,cut,read,decoded]
    rw [← next]
    exact later (by rw [next]; exact textTail after (by decide))
  · simp only [open_,Bool.false_eq_true,if_false]

/- On text the lexer over indices is the lexer over what is left. -/
theorem lexLoopAgrees {n line i : Nat} {toks : Lexed} (text : Text (bytes.drop i)) :
    lexLoop invalid fallback bytes n toks line i = Lexer.lexLoop n toks line (bytes.drop i) := by
  induction n generalizing toks line i with
  | zero =>
    cases here : bytes.drop i with
    | nil => exact if_neg (by simpa using here)
    | cons c rest => exact if_pos (insideOf here)
  | succ n ih =>
    cases here : bytes.drop i with
    | nil => exact if_neg (by simpa using here)
    | cons c rest =>
      rw [here] at text
      have next := dropTail here
      have on (toks : Lexed) (line : Nat) {k : Char} (same : Char.ofNat c.toNat = k) (small : k.toNat < 128) :
          lexLoop invalid fallback bytes n toks line (i+1) = Lexer.lexLoop n toks line rest := by
        rw [← next]
        exact ih (by rw [next]; exact textTail text (charLow same small))
      have onMore (toks : Lexed) {k : Char} {b : UInt8} {more : List UInt8} (same : Char.ofNat c.toNat = k) (small : k.toNat < 128)
          (after : rest = b :: more) (low : b < 128) :
          lexLoop invalid fallback bytes n toks line (i+2) = Lexer.lexLoop n toks line more := by
        have there : bytes.drop (i+2) = more := dropTail (next.trans after)
        rw [← there]
        exact ih (by rw [there]; exact textTail (after ▸ textTail text (charLow same small)) low)
      rw [lexLoop,if_pos (insideOf here),indexHead here,Lexer.lexLoop.eq_def]
      simp only [andThen]
      generalize kind : Char.ofNat c.toNat = k
      split
      case h_1 =>
        cases toks.getLast? with
        | none => exact on _ _ kind (by decide)
        | some t =>
          obtain ⟨t,l⟩ := t
          cases t <;> exact on _ _ kind (by decide)
      case h_5 => exact lexesComment invalid fallback text here kind ih (on _ _ kind (by decide))
      case h_16 =>
        rw [byteIsHead,next]
        dsimp only
        rcases headCases rest 62 with ⟨more,arrow⟩ | ⟨other,plain⟩
        · rw [arrow]
          exact onMore _ kind (by decide) arrow (by decide)
        · simp only [plain,Bool.false_eq_true,if_false]
          exact on _ _ kind (by decide)
      case h_17 =>
        rw [byteIsHead,next]
        dsimp only
        rcases headCases rest 45 with ⟨more,arrow⟩ | ⟨other,plain⟩
        · rw [arrow]
          exact onMore _ kind (by decide) arrow (by decide)
        · simp only [plain,Bool.false_eq_true,if_false]
      case h_18 => exact lexesString invalid fallback (textTail text (charLow kind (by decide))) (insideOf here) next ih
      case h_19 =>
        try simp only
        split
        · rename_i first
          have tail : Text rest := textTail text (numberAscii (p := c) (by simp [first]))
          have after : Text (numberSpan c rest).2 := textAfter (spanAscii c rest) (by rwa [numberSplit])
          refine lexesNumber invalid fallback here first (fun toks i there => ?_)
          rw [← there] at after ⊢
          exact ih after
        · split
          · rename_i first
            have name : nameByte c = true := by
              simp only [nameByte,Bool.or_eq_true] at first ⊢
              exact first.imp .inl id
            have after : Text (rest.dropWhile nameByte) :=
              textAfter (takenAscii (fun _ => nameAscii))
                (by rw [List.takeWhile_append_dropWhile]; exact textTail text (nameAscii name))
            refine lexesName invalid fallback here name (fun toks i there => ?_)
            rw [← there] at after ⊢
            exact ih after
          · rfl
      all_goals exact on _ _ kind (by decide)

end Agreement

section Parsing
open Bounded Utf8

theorem atFound {α : Type} {xs : List α} {i : Nat} {x : α} (found : xs[i]? = some x) : at_ xs i = pure x := by
  simp only [at_,found]

theorem stripLoopAgrees {n j depth : Nat} (inside : 0 < depth) (atLineStart : Bool) (rhymes : List (Char × String)) (p : Parser) :
    stripLoop n j depth atLineStart rhymes p = Parser.stripLoop n j depth atLineStart rhymes p := by
  induction n generalizing j depth atLineStart rhymes p with
  | zero => rfl
  | succ n ih =>
    rw [stripLoop,Parser.stripLoop,stateThen,stateThen]
    cases found : p.toks[j]? with
    | none => rw [if_neg (by simpa using found)]; rfl
    | some t =>
      obtain ⟨t,line⟩ := t
      obtain ⟨lt,-⟩ := List.getElem?_eq_some_iff.mp found
      rw [if_pos lt,atFound found,pureThen]
      have on := ih (j := j+1) inside false rhymes p
      cases t
      case lbrace => exact ih (Nat.succ_pos depth) false rhymes p
      case rbrace =>
        simp only [Option.map_some]
        rw [if_neg (Nat.ne_of_gt inside)]
        by_cases last : depth ≤ 1
        · rw [if_pos (by omega),if_pos last]
        · rw [if_neg (by omega),if_neg last]
          exact ih (by omega) false rhymes p
      case newline => exact ih inside true rhymes p
      case ident l =>
        simp only [Option.map_some]
        cases label : (if atLineStart then rhymeLabel l else none) with
        | none =>
          have plain : ¬ (atLineStart && (rhymeLabel l).isSome) = true := by
            intro both
            rw [Bool.and_eq_true] at both
            rw [if_pos both.1] at label
            rw [label] at both
            cases both.2
          rw [if_neg plain]
          exact on
        | some c =>
          have start : atLineStart = true := by
            by_contra no
            rw [if_neg no] at label
            cases label
          rw [if_pos start] at label
          rw [if_pos (by rw [start,label]; rfl)]
          cases p.toks[j+1]? with
          | none => exact on
          | some u =>
            obtain ⟨u,line⟩ := u
            cases u
            case str text =>
              dsimp only
              split
              · rename_i semi
                have size : j+3 ≤ p.toks.length := by
                  by_contra short
                  rw [List.getElem?_eq_none (by omega)] at semi
                  cases semi
                rw [label,unwrap,pureThen]
                have cut : drain j (j+3) p = Comp.update (fun p => { p with toks := p.toks.take j ++ p.toks.drop (j+3) }) p := by
                  rw [drain,stateThen,if_pos ⟨by omega,size⟩]
                exact bindCongr cut (fun _ q => ih inside false _ q)
              · rfl
            all_goals exact on
      all_goals exact on

theorem liturgicalStripAgrees (n : Nat) : liturgicalStrip n = Parser.liturgicalStrip n := by
  funext p
  rw [liturgicalStrip,Parser.liturgicalStrip,stateThen,stateThen]
  split
  · rfl
  · refine bindCongr (stripLoopAgrees Nat.one_pos true [] p) (fun rhymes q => ?_)
    rw [stateThen,stateThen]
    by_cases eight : rhymes.length ≠ 8
    · rw [if_pos eight,if_pos eight]
    · obtain ⟨seventh,six⟩ : ∃ r, rhymes[6]? = some r := ⟨_,List.getElem?_eq_getElem (by omega)⟩
      obtain ⟨eighth,seven⟩ : ∃ r, rhymes[7]? = some r := ⟨_,List.getElem?_eq_getElem (by omega)⟩
      rw [if_neg eight,if_neg eight,atFound six,pureThen,atFound seven,pureThen,six,seven]
      have labels : (Option.map Prod.fst (some seventh) ≠ Option.map Prod.fst (some eighth)) ↔ seventh.1 ≠ eighth.1 :=
        not_congr Option.some_inj
      by_cases volta : seventh.1 ≠ eighth.1
      · rw [if_pos volta,if_pos (labels.mpr volta)]
      · exact congrFun ((if_neg volta).trans (if_neg (fun other => volta (labels.mp other))).symm) q

theorem stmtsAgrees (mode : Mode) (n : Nat) : stmts mode n = Parser.stmts mode n := by
  induction n with
  | zero => rfl
  | succ n ih => simp only [stmts,Parser.stmts,ih,bindAssoc,iteThen,pureThen,splice]

theorem versusAgrees (n : Nat) : versus n = Parser.versus n := by
  simp only [versus,Parser.versus,liturgicalStripAgrees,stmtsAgrees]

theorem programLoopAgrees (n : Nat) (prog : Program) : programLoop n prog = Parser.programLoop n prog := by
  induction n generalizing prog with
  | zero => rfl
  | succ n ih => simp only [programLoop,Parser.programLoop,versusAgrees,ih]

variable (invalid : Nat → Except Raise String) (fallback : Except Raise String) (n : Nat) (src : String)

theorem lexAgrees : lex invalid fallback n src = Lexer.lex n src := by
  have text : Text (src.toUTF8.data.toList.drop 0) := textOf src
  exact lexLoopAgrees invalid fallback text

/- What invalid UTF-8 would be taken for never matters. -/
theorem parseAgrees : parse invalid fallback n src = Parser.parse n src := by
  rw [parse,Parser.parse,lexAgrees]
  cases Lexer.lex n src with
  | none => rfl
  | some r =>
    cases r with
    | error e => rfl
    | ok toks =>
      simp only [programLoopAgrees]

end Parsing

end Officium.Indexed
