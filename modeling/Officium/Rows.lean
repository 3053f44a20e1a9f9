import Officium.Sugar

/-! The tokens of a verse line by line: with the heads, without them, and as the parser leaves them when it
has taken the heads out. -/
namespace Officium.Parser
open Lexer (Tok rhymeLabel)

/- A line: the label and the text of its head, if it has one, and the tokens behind it. -/
structure Row where
  head : Option (Char × String)
  tokens : List Tok

def headTokens : Option (Char × String) → List Tok
  | some (label,text) => [.ident (String.singleton label),.str text,.semi]
  | none => []

/- The line has a token before the break that ends it, with its head or without. -/
def Row.opens (r : Row) : Bool := r.head.isSome || !r.tokens.isEmpty
def Row.filled (r : Row) : Bool := !r.tokens.isEmpty

/- A line break is a token behind a line that has one. -/
def lineBreak (behind : Bool) : List Tok := if behind then [.newline] else []

def sungTokens : Bool → List Row → List Tok
  | _, [] => []
  | b, r :: rows => lineBreak b ++ (headTokens r.head ++ (r.tokens ++ sungTokens r.opens rows))

def leftTokens : Bool → List Row → List Tok
  | _, [] => []
  | b, r :: rows => lineBreak b ++ (r.tokens ++ leftTokens r.opens rows)

def plainTokens : Bool → List Row → List Tok
  | _, [] => []
  | b, r :: rows => lineBreak b ++ (r.tokens ++ plainTokens r.filled rows)

def rowHeads (rows : List Row) : List (Char × String) := rows.filterMap Row.head

/- Tokens that stay on their line, and that no head is among. -/
structure Calm (r : Row) : Prop where
  label : ∀ c s, r.head = some (c,s) → c.isUpper = true
  line : ∀ t ∈ r.tokens, t ≠ .newline ∧ t ≠ .semi
  unlabelled : labelled r.tokens = false

def Calms (rows : List Row) : Prop := ∀ r ∈ rows, Calm r

section Rows
variable {d m : Nat} {b b' : Bool} {r : Row} {rows : List Row} {ts us X Y : List Tok} {heads : List (Char × String)}

theorem labelSingle {c : Char} (upper : c.isUpper = true) : rhymeLabel (String.singleton c) = some c := by
  have chars : (String.singleton c).toList = [c] := by simp
  unfold rhymeLabel
  rw [chars]
  exact if_pos upper

/- What follows tokens that are not labelled, and is no text itself, does not make them so. -/
theorem labelledMore (some_ : ts ≠ []) (other : ∀ s, X.head? ≠ some (.str s)) : labelled (ts ++ X) = labelled ts := by
  obtain ⟨t,ts,rfl⟩ := List.exists_cons_of_ne_nil some_
  cases t
  case ident l =>
    cases ts with
    | nil =>
      cases X with
      | nil => rfl
      | cons x X =>
        cases x
        case str s => exact absurd rfl (other s)
        all_goals rfl
    | cons u ts => cases u <;> rfl
  all_goals rfl

/- Tokens of a line are left as they are. -/
theorem lineStrips (line : ∀ t ∈ ts, t ≠ .newline) (matched : braces d ts = some m) (untold : b = true → labelled (ts ++ X) = false)
    (later : ∀ b, Strips (m+1) b X Y heads) : Strips (d+1) b (ts ++ X) (ts ++ Y) heads := by
  induction ts generalizing d b with
  | nil =>
    obtain rfl : d = m := Option.some.inj matched
    exact later b
  | cons t ts ih =>
    rw [bracesCons] at matched
    obtain ⟨k,taken,rest⟩ := Option.bind_eq_some_iff.mp matched
    have more : Strips (k+1) false (ts ++ X) (ts ++ Y) heads := ih (fun t mem => line t (.tail _ mem)) rest nofun
    cases t
    case newline => exact absurd rfl (line _ List.mem_cons_self)
    case lbrace =>
      cases taken
      exact .lbrace more
    case rbrace =>
      rw [braceAfter] at taken
      split at taken
      · cases taken
      · cases taken
        refine .rbrace (by omega) ?_
        rwa [show d - 1 + 1 = d from by omega] at more
    all_goals
      cases taken
      exact .other rfl untold more

theorem rowsNoText (behind : b = true) (other : ∀ s, X.head? ≠ some (.str s)) (s : String) : (sungTokens b rows ++ X).head? ≠ some (.str s) := by
  subst behind
  cases rows with
  | nil => exact other s
  | cons r rows => nofun

/- The heads are taken out line by line. -/
theorem rowsStrip (calm : Calms rows) (matched : braces d (rows.flatMap Row.tokens) = some m) (start : b = false → b' = true)
    (other : ∀ s, X.head? ≠ some (.str s)) (later : ∀ b, Strips (m+1) b X Y heads) :
    Strips (d+1) b' (sungTokens b rows ++ X) (leftTokens b rows ++ Y) (rowHeads rows ++ heads) := by
  induction rows generalizing d b b' with
  | nil =>
    obtain rfl : d = m := Option.some.inj matched
    exact later b'
  | cons r rows ih =>
    rw [List.flatMap_cons,bracesAppend] at matched
    obtain ⟨k,taken,rest⟩ := Option.bind_eq_some_iff.mp matched
    have is_ := calm r List.mem_cons_self
    have more {b₁ b₂ : Bool} (start : b₁ = false → b₂ = true) :=
      @ih k b₁ b₂ (fun r mem => calm r (.tail _ mem)) rest start
    -- from the start of the line on
    have line : Strips (d+1) true (headTokens r.head ++ (r.tokens ++ (sungTokens r.opens rows ++ X)))
        (r.tokens ++ (leftTokens r.opens rows ++ Y)) (rowHeads (r :: rows) ++ heads) := by
      obtain ⟨head,tokens⟩ := r
      cases head with
      | some h =>
        obtain ⟨c,s⟩ := h
        have behind : Strips (d+1) false (tokens ++ (sungTokens true rows ++ X)) (tokens ++ (leftTokens true rows ++ Y)) (rowHeads rows ++ heads) :=
          lineStrips (fun t mem => (is_.line t mem).1) taken nofun fun b => more nofun
        exact .head (labelSingle (is_.label c s rfl)) behind
      | none =>
        cases tokens with
        | nil =>
          obtain rfl : d = k := Option.some.inj taken
          exact more fun _ => rfl
        | cons t tokens =>
          have whole : Strips (d+1) true (t :: tokens ++ (sungTokens true rows ++ X)) (t :: tokens ++ (leftTokens true rows ++ Y)) (rowHeads rows ++ heads) := by
            refine lineStrips (fun t mem => (is_.line t mem).1) taken (fun _ => ?_) fun b => more nofun
            exact (labelledMore (List.cons_ne_nil t tokens) (rowsNoText rfl other)).trans is_.unlabelled
          exact whole
    rw [sungTokens,leftTokens]
    simp only [List.append_assoc]
    cases b with
    | true => exact .newline line
    | false =>
      rw [start rfl]
      exact line

/- A line that has tokens is followed by a line break on both sides. -/
theorem rowsClosedUp (calm : Calms rows) :
    closedUp true (leftTokens b rows ++ X) = closedUp true (plainTokens b' rows ++ X) := by
  induction rows generalizing b b' with
  | nil => rfl
  | cons r rows ih =>
    have ih {b₁ b₂ : Bool} := @ih b₁ b₂ fun r mem => calm r (.tail _ mem)
    have breaks (b : Bool) (ts : List Tok) : closedUp true (lineBreak b ++ ts) = closedUp true ts := by cases b <;> rfl
    rw [leftTokens,plainTokens]
    simp only [List.append_assoc,breaks]
    have is_ := calm r List.mem_cons_self
    obtain ⟨head,tokens⟩ := r
    cases tokens with
    | nil => exact ih
    | cons t tokens =>
      have opens : Row.opens ⟨head,t :: tokens⟩ = true := Bool.or_true _
      rw [opens,show Row.filled ⟨head,t :: tokens⟩ = true from rfl]
      cases rows with
      | nil => rfl
      | cons r rows =>
        have later : closedUp true (leftTokens false (r :: rows) ++ X) = closedUp true (plainTokens false (r :: rows) ++ X) := ih
        have plain : ∀ u ∈ t :: tokens, u.isNewline = false := fun u mem => by
          have other := (is_.line u mem).1
          cases u <;> first | rfl | exact absurd rfl other
        exact closedUpLater plain later

/- The braces of a line, whatever is between the lines. -/
theorem rowsBraces (calm : Calms rows) : braces d (leftTokens b rows) = braces d (rows.flatMap Row.tokens) ∧
    braces d (plainTokens b rows) = braces d (rows.flatMap Row.tokens) := by
  induction rows generalizing b d with
  | nil => exact ⟨rfl,rfl⟩
  | cons r rows ih =>
    have breaks (b : Bool) (ts : List Tok) : braces d (lineBreak b ++ ts) = braces d ts := by cases b <;> rfl
    have ih {b : Bool} {d : Nat} := ih (b := b) (d := d) fun r mem => calm r (.tail _ mem)
    rw [leftTokens,plainTokens,breaks,breaks,List.flatMap_cons,bracesAppend,bracesAppend,bracesAppend]
    refine ⟨?_,?_⟩
    · exact congrArg _ (funext fun d => ih.1)
    · exact congrArg _ (funext fun d => ih.2)

theorem rowsPlain (calm : Calms rows) : (∀ t ∈ leftTokens b rows, t ≠ .semi) ∧ ∀ t ∈ plainTokens b rows, t ≠ .semi := by
  induction rows generalizing b with
  | nil => exact ⟨nofun,nofun⟩
  | cons r rows ih =>
    have breaks (b : Bool) : ∀ t ∈ lineBreak b, t ≠ .semi := by cases b <;> simp [lineBreak]
    have ih {b : Bool} := ih (b := b) fun r mem => calm r (.tail _ mem)
    have line := fun t mem => ((calm r List.mem_cons_self).line t mem).2
    rw [leftTokens,plainTokens]
    simp only [List.forall_mem_append]
    exact ⟨⟨breaks b,line,ih.1⟩,breaks b,line,ih.2⟩

theorem rowsUnlabelled (calm : Calms rows) (other : ∀ s, X.head? ≠ some (.str s)) (last : labelled (X.dropWhile Tok.isNewline) = false) :
    labelled (List.dropWhile Tok.isNewline (plainTokens b rows ++ X)) = false := by
  induction rows generalizing b with
  | nil => exact last
  | cons r rows ih =>
    have breaks (b : Bool) (ts : List Tok) : List.dropWhile Tok.isNewline (lineBreak b ++ ts) = ts.dropWhile Tok.isNewline := by cases b <;> rfl
    have ih {b : Bool} := ih (b := b) fun r mem => calm r (.tail _ mem)
    have is_ := calm r List.mem_cons_self
    rw [plainTokens,List.append_assoc,breaks,List.append_assoc]
    obtain ⟨head,tokens⟩ := r
    cases tokens with
    | nil => exact ih
    | cons t tokens =>
      have plain : t.isNewline = false := by
        have other := (is_.line t List.mem_cons_self).1
        cases t <;> first | rfl | exact absurd rfl other
      have follows (s : String) : (plainTokens true rows ++ X).head? ≠ some (.str s) := by
        cases rows with
        | nil => exact other s
        | cons r rows => nofun
      have whole : labelled (t :: tokens ++ (plainTokens true rows ++ X)) = false :=
        (labelledMore (List.cons_ne_nil t tokens) follows).trans is_.unlabelled
      rw [List.cons_append,List.dropWhile_cons_of_neg (by simp [plain])]
      exact whole

theorem closedUpBlank {newlines : List Tok} (blank : ∀ t ∈ newlines, t.isNewline = true) (ts : List Tok) : closedUp true (newlines ++ ts) = closedUp true ts := by
  induction newlines with
  | nil => rfl
  | cons t newlines ih =>
    have is_ := blank t List.mem_cons_self
    cases t <;> cases is_
    exact ih fun t mem => blank t (.tail _ mem)

theorem closedUpBlanks {newlines : List Tok} (blank : ∀ t ∈ newlines, t.isNewline = true) (some_ : newlines ≠ []) (ts : List Tok) :
    closedUp false (newlines ++ ts) = .newline :: closedUp true ts := by
  obtain ⟨t,newlines,rfl⟩ := List.exists_cons_of_ne_nil some_
  have is_ := blank t List.mem_cons_self
  cases t <;> cases is_
  exact congrArg _ (closedUpBlank (fun t mem => blank t (.tail _ mem)) ts)

/- The lines of a verse that opens with a head, behind the line of its brace. -/
theorem rowsLower {newlines : List Tok} (calm : Calms rows) (matched : braces 0 (rows.flatMap Row.tokens) = some 0)
    (first : ∃ r, rows.head? = some r ∧ r.head.isSome = true) (blank : ∀ t ∈ newlines, t.isNewline = true) (behind : b = true ∨ newlines ≠ []) :
    Lowers (newlines ++ sungTokens b rows) (newlines ++ plainTokens b rows) (rowHeads rows) := by
  obtain ⟨⟨head,tokens⟩,first,headed⟩ := first
  cases rows with
  | nil => cases first
  | cons r rows =>
  cases first
  cases head with
  | none => cases headed
  | some h =>
  obtain ⟨c,s⟩ := h
  generalize whole : Row.mk (some (c,s)) tokens :: rows = all at *
  have breaks : ∀ t ∈ newlines ++ lineBreak b, t.isNewline = true := by
    simp only [List.forall_mem_append]
    exact ⟨blank,by cases b <;> simp [lineBreak,Tok.isNewline]⟩
  have someBreak : newlines ++ lineBreak b ≠ [] := by
    rcases behind with rfl | some_
    · exact List.append_ne_nil_of_right_ne_nil _ (List.cons_ne_nil _ _)
    · exact List.append_ne_nil_of_left_ne_nil some_ _
  have sung_ : sungTokens b all = lineBreak b ++ sungTokens false all := by rw [← whole]; rfl
  have plain_ : plainTokens b all = lineBreak b ++ plainTokens false all := by rw [← whole]; rfl
  have closes (ts : List Tok) (matched : braces 0 ts = some 0) (plain : ∀ t ∈ ts, t ≠ .semi) : (Nesting.inside 1).through (ts ++ [.rbrace]) = some (.inside 0) :=
    closesThrough (bracesClose matched) (List.forall_mem_append.mpr ⟨plain,by simp⟩)
  refine ⟨⟨newlines ++ lineBreak b,sungTokens false all,leftTokens false all,by rw [sung_,List.append_assoc],breaks,fun ts => ⟨?_,?_⟩,?_,?_⟩,?_,?_⟩
  · rw [← whole,sungTokens]
    exact Option.isSome_iff_exists.mpr ⟨c,labelSingle ((calm _ (whole ▸ List.mem_cons_self)).label c s rfl)⟩
  · have strips : Strips 1 true (sungTokens false all ++ .rbrace :: ts) (leftTokens false all ++ .rbrace :: ts) (rowHeads all ++ []) := rowsStrip calm matched (fun _ => rfl) nofun fun b => .close (Nat.le_refl 1)
    rwa [List.append_nil] at strips
  · rw [plain_,← List.append_assoc,List.append_assoc (newlines ++ lineBreak b),closedUpBlanks breaks someBreak,
      List.append_assoc (newlines ++ lineBreak b),closedUpBlanks breaks someBreak,rowsClosedUp calm]
  · exact closes _ ((rowsBraces calm).1.trans matched) (rowsPlain calm).1
  · rw [List.append_assoc,throughAppend,(newlinesThrough (d := 0) Nesting.insideLive blank).1]
    exact closes _ ((rowsBraces calm).2.trans matched) (rowsPlain calm).2
  · rw [List.append_assoc,List.dropWhile_append_of_pos blank]
    exact rowsUnlabelled calm nofun rfl

theorem rowsLast {head : Option (Char × String)} : sungTokens b (rows ++ [⟨head,ts ++ us⟩]) = sungTokens b (rows ++ [⟨head,ts⟩]) ++ us ∧
    plainTokens b (rows ++ [⟨head,ts ++ us⟩]) = plainTokens b (rows ++ [⟨head,ts⟩]) ++ us := by
  induction rows generalizing b with
  | nil => simp [sungTokens,plainTokens]
  | cons r rows ih =>
    have ih {b : Bool} := ih (b := b)
    simp only [List.cons_append,sungTokens,plainTokens,ih.1,ih.2,List.append_assoc,and_self]

end Rows

end Officium.Parser
