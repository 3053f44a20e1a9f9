import Officium.Kernel.Console

/-! The line that is typed at a prompt of the shell, and what the console shows of it. -/
namespace Officium.Screen
open Console

/- `char::is_control` -/
def isControl (ch : Char) : Bool := ch.val < 32 || (127 ≤ ch.val && ch.val < 160)

/- Backspace (^H) or delete. -/
def erases (ch : Char) : Bool := ch == Char.ofNat 8 || ch == Char.ofNat 127

def enters (ch : Char) : Bool := ch == '\n' || ch == '\r'

/- The two places a line is edited at. -/
inductive Prompt where | run | readScore
  deriving DecidableEq, Repr

def Prompt.text : Prompt → String
  | .run => "> "
  | .readScore => "| "

structure Editing where
  line : List Char
  console : Console

/- A panic of the console, or a line that is entered. -/
inductive Stop where
  | panic (p : Panic)
  | entered (line : List Char) (console : Console)

def printed (line : List Char) : Except Panic Console → Except Stop Editing
  | .ok c => .ok ⟨line,c⟩
  | .error p => .error (.panic p)

/- One decoded key, in `run` and in `read_score` alike. -/
def key (font : Char → Option Glyph) (e : Editing) (ch : Char) : Except Stop Editing :=
  if enters ch then
    match e.console.writeStr font "\n" with
    | .ok c => .error (.entered e.line c)
    | .error p => .error (.panic p)
  else if erases ch then
    if e.line = [] then .ok e else printed e.line.dropLast (e.console.writeStr font (String.singleton (Char.ofNat 8)))
  else if isControl ch then .ok e
  else printed (e.line ++ [ch]) (e.console.writeStr font (String.singleton ch))

/- From the prompt on. -/
def edited (font : Char → Option Glyph) (c : Console) (prompt : Prompt) (keys : List Char) : Except Stop Editing :=
  match printed [] (c.writeStr font prompt.text) with
  | .ok e => keys.foldlM (key font) e
  | .error s => .error s

section Terminal
variable {width height : Nat}

namespace Terminal

/- Where the cursor is on the page, counted along the rows. -/
def place (t : Terminal width height) : Nat := (t.top + t.row) * width + t.col

def at_ (t : Terminal width height) (p : Nat) : Option Char := t.page (p / width) (p % width)

/- What the page holds from a place to the cursor, read across the rows. -/
def since (t : Terminal width height) (start : Nat) : List (Option Char) := (List.range' start (t.place - start)).map t.at_

/- A character that takes a cell. -/
def Takes (ch : Char) : Prop := ch ≠ '\n' ∧ ch ≠ '\r' ∧ ch ≠ Char.ofNat 8

theorem newlinePlace (t : Terminal width height) (full : ¬t.col < width) : t.newline.place = t.place ∧ t.newline.page = t.page := by
  have across := t.across
  have col : t.col = width := by omega
  unfold newline
  split
  · refine ⟨?_,rfl⟩
    rw [place,place,col,← Nat.add_assoc,Nat.succ_mul]
    rfl
  · refine ⟨?_,rfl⟩
    rw [place,place,col,Nat.add_right_comm,Nat.succ_mul]
    rfl

theorem writeAt (t : Terminal width height) {c : Nat} (room : c < width) (v : Option Char) (p : Nat) :
    t.write c v (p / width) (p % width) = if p = (t.top + t.row) * width + c then v else t.at_ p :=
  if_congr (rowsApart (Nat.zero_lt_of_lt room) room) rfl rfl

theorem typePlace (t : Terminal width height) (ch : Char) (room : t.col < width) :
    (t.type ch room).place = t.place + 1 ∧ ∀ p, (t.type ch room).at_ p = if p = t.place then some ch else t.at_ p :=
  ⟨rfl,t.writeAt room (some ch)⟩

/- A character typed is put at the cursor's place, wherever the row ends. -/
theorem putPlace (wide : 0 < width) (t : Terminal width height) {ch : Char} (takes : Takes ch) :
    (t.put wide ch).place = t.place + 1 ∧ ∀ p, (t.put wide ch).at_ p = if p = t.place then some ch else t.at_ p := by
  unfold put
  rw [if_neg takes.1,if_neg takes.2.1,if_neg takes.2.2]
  split
  · rename_i room
    exact t.typePlace ch room
  · rename_i full
    obtain ⟨same,page⟩ := t.newlinePlace full
    obtain ⟨place_,at'⟩ := t.newline.typePlace ch (t.newlineCol ▸ wide)
    refine ⟨place_.trans (by rw [same]),fun p => (at' p).trans ?_⟩
    rw [same,at_,page]
    rfl

theorem backspacePlace (wide : 0 < width) (t : Terminal width height) (some_ : 0 < t.col) :
    (t.put wide (Char.ofNat 8)).place + 1 = t.place ∧
      ∀ p, (t.put wide (Char.ofNat 8)).at_ p = if p + 1 = t.place then none else t.at_ p := by
  have room : t.col - 1 < width := Nat.lt_of_lt_of_le (Nat.sub_one_lt_of_lt some_) t.across
  have back : (t.top + t.row) * width + (t.col - 1) + 1 = t.place := by
    rw [place,Nat.add_assoc,Nat.sub_add_cancel some_]
  rw [show t.put wide (Char.ofNat 8) = t.backspace from rfl,backspace,if_pos some_]
  refine ⟨back,fun p => (t.writeAt room none p).trans (if_congr ?_ rfl rfl)⟩
  rw [← back]
  exact Nat.succ_inj.symm

theorem backspaceStuck (wide : 0 < width) (t : Terminal width height) (none_ : t.col = 0) : t.put wide (Char.ofNat 8) = t :=
  (show t.put wide (Char.ofNat 8) = t.backspace from rfl).trans (if_neg (Nat.not_lt_of_le (Nat.le_of_eq none_)))

variable {start : Nat}

theorem sinceLength (t : Terminal width height) : (t.since start).length = t.place - start := by
  rw [since,List.length_map,List.length_range']

theorem sincePut (wide : 0 < width) (t : Terminal width height) {ch : Char} (takes : Takes ch) (from_ : start ≤ t.place) :
    (t.put wide ch).since start = t.since start ++ [some ch] := by
  obtain ⟨next,at'⟩ := t.putPlace wide takes
  rw [since,since,next,Nat.sub_add_comm from_,List.range'_1_concat,List.map_append,List.map_singleton,at',Nat.add_sub_cancel' from_,if_pos rfl]
  congr 1
  refine List.map_congr_left fun p mem => ?_
  rw [at',if_neg]
  have below := (List.mem_range'_1.mp mem).2
  omega

theorem sinceErase (wide : 0 < width) (t : Terminal width height) (some_ : 0 < t.col) (from_ : start < t.place) :
    (t.put wide (Char.ofNat 8)).since start = (t.since start).dropLast := by
  obtain ⟨back,at'⟩ := t.backspacePlace wide some_
  have size : t.place - start = (t.put wide (Char.ofNat 8)).place - start + 1 := by omega
  rw [since,since,size,List.range'_1_concat,List.map_append,List.map_singleton,List.dropLast_concat]
  refine List.map_congr_left fun p mem => ?_
  rw [at',if_neg]
  have below := (List.mem_range'_1.mp mem).2
  omega

end Terminal

end Terminal

section Echo
variable {font : Char → Option Glyph} {info : FrameBufferInfo}

/- The line and the terminal that shows it. -/
abbrev Shown (info : FrameBufferInfo) := List Char × Window info

/- A key other than enter, on the terminal. -/
def typeKey (fit : Fit info) (s : Shown info) (ch : Char) : Shown info :=
  if erases ch then
    if s.1 = [] then s else (s.1.dropLast,s.2.put fit.across (Char.ofNat 8))
  else if isControl ch then s
  else (s.1 ++ [ch],s.2.put fit.across ch)

def shown (fit : Fit info) (t : Window info) (prompt : Prompt) (keys : List Char) : Shown info :=
  keys.foldl (typeKey fit) ([],t.writeStr fit.across prompt.text)

theorem keyDrawn (fit : Fit info) (s : Shown info) {ch : Char} (other : enters ch = false) :
    key font ⟨s.1,drawn font s.2⟩ ch = .ok ⟨(typeKey fit s ch).1,drawn font (typeKey fit s ch).2⟩ := by
  have one (ch : Char) : (drawn font s.2).writeStr font (String.singleton ch) = .ok (drawn font (s.2.put fit.across ch)) := by
    rw [writeStrDrawn fit fit.across,Terminal.writeStr,String.toList_singleton]
    rfl
  unfold key typeKey
  rw [if_neg (by rw [other]; decide)]
  split
  · split
    · rfl
    · rw [one]
      rfl
  · split
    · rfl
    · rw [one]
      rfl

theorem editedDrawn (fit : Fit info) (t : Window info) (prompt : Prompt) (keys : List Char) (other : ∀ ch ∈ keys, enters ch = false) :
    edited font (drawn font t) prompt keys = .ok ⟨(shown fit t prompt keys).1,drawn font (shown fit t prompt keys).2⟩ := by
  have from_ (s : Shown info) : keys.foldlM (key font) ⟨s.1,drawn font s.2⟩ =
      .ok ⟨(keys.foldl (typeKey fit) s).1,drawn font (keys.foldl (typeKey fit) s).2⟩ := by
    induction keys generalizing s with
    | nil => rfl
    | cons ch keys ih =>
      rw [List.foldlM_cons,keyDrawn fit s (other ch List.mem_cons_self)]
      exact ih (fun ch mem => other ch (List.mem_cons_of_mem _ mem)) (typeKey fit s ch)
  rw [edited,writeStrDrawn fit fit.across]
  exact from_ ([],t.writeStr fit.across prompt.text)

theorem controlTakes {ch : Char} (plain : isControl ch = false) : Terminal.Takes ch := by
  refine ⟨?_,?_,?_⟩ <;> (rintro rfl; exact absurd plain (by decide))

/- The text from the prompt to the cursor is the prompt and the line. -/
def Mirrors (t : Window info) (prompt : Prompt) (s : Shown info) : Prop := s.2.since t.place = (prompt.text.toList ++ s.1).map some

/- No key erases a character of the line while the cursor stands at the left edge. -/
def Orderly (fit : Fit info) : Shown info → List Char → Prop
  | _, [] => True
  | s, ch :: rest => (erases ch → s.1 ≠ [] → s.2.col ≠ 0) ∧ Orderly fit (typeKey fit s ch) rest

variable {t : Window info} {prompt : Prompt} {s : Shown info}

theorem mirrorsPlace (mirrors : Mirrors t prompt s) : s.2.place - t.place = prompt.text.toList.length + s.1.length := by
  have size := congrArg List.length mirrors
  rwa [Terminal.sinceLength,List.length_map,List.length_append] at size

theorem noneOf {test : Char → Bool} {text : List Char} (none_ : text.any test = false) : ∀ ch ∈ text, test ch = false :=
  fun ch mem => Bool.not_eq_true _ ▸ List.any_eq_false.mp none_ ch mem

theorem promptLong (prompt : Prompt) : 0 < prompt.text.toList.length := by cases prompt <;> decide

theorem keyMirrors (fit : Fit info) (mirrors : Mirrors t prompt s) {ch : Char} :
    Mirrors t prompt (typeKey fit s ch) ↔ (erases ch → s.1 ≠ [] → s.2.col ≠ 0) := by
  have place := mirrorsPlace mirrors
  have long := promptLong prompt
  unfold typeKey
  split
  · rename_i erase
    split
    · rename_i none_
      exact iff_of_true mirrors fun _ some_ => absurd none_ some_
    · rename_i some_
      have line : 0 < s.1.length := List.length_pos_iff.mpr some_
      constructor
      · intro still _ _ edge
        have place' := mirrorsPlace still
        simp only [Terminal.backspaceStuck fit.across s.2 edge,List.length_dropLast] at place'
        omega
      · intro inside
        have some' : 0 < s.2.col := Nat.pos_of_ne_zero (inside erase some_)
        rw [Mirrors,Terminal.sinceErase fit.across s.2 some' (by omega),mirrors,← List.map_dropLast,List.dropLast_append_of_ne_nil some_]
  · rename_i other
    split
    · exact iff_of_true mirrors fun erase => absurd erase other
    · rename_i plain
      refine iff_of_true ?_ fun erase => absurd erase other
      rw [Mirrors,Terminal.sincePut fit.across s.2 (controlTakes (Bool.not_eq_true _ ▸ plain)) (by omega),mirrors]
      simp only [List.map_append,List.map_cons,List.map_nil,List.append_assoc]

theorem promptMirrors (fit : Fit info) (t : Window info) (prompt : Prompt) : Mirrors t prompt ([],t.writeStr fit.across prompt.text) := by
  have from_ (cs : List Char) (takes : ∀ ch ∈ cs, isControl ch = false) (t' : Window info) (reached : t.place ≤ t'.place) :
      (cs.foldl (Terminal.put fit.across) t').since t.place = t'.since t.place ++ cs.map some := by
    induction cs generalizing t' with
    | nil => exact (List.append_nil _).symm
    | cons ch cs ih =>
      have takes' := controlTakes (takes ch List.mem_cons_self)
      have next := (t'.putPlace fit.across takes').1
      rw [List.foldl_cons,ih (fun ch mem => takes ch (List.mem_cons_of_mem _ mem)) _ (by omega),
        Terminal.sincePut fit.across t' takes' reached,List.append_assoc]
      rfl
  have plain : ∀ ch ∈ prompt.text.toList, isControl ch = false := noneOf (by cases prompt <;> rfl)
  have start : t.since t.place = [] := by rw [Terminal.since,Nat.sub_self]; rfl
  rw [Mirrors,List.append_nil,Terminal.writeStr,from_ _ plain t (Nat.le_refl _),start]
  rfl

theorem orderlyMirrors (fit : Fit info) (keys : List Char) (mirrors : Mirrors t prompt s) :
    (∀ before after, keys = before ++ after → Mirrors t prompt (before.foldl (typeKey fit) s)) ↔ Orderly fit s keys := by
  induction keys generalizing s with
  | nil =>
    refine iff_of_true ?_ trivial
    intro before after none_
    rw [(List.append_eq_nil_iff.mp none_.symm).1]
    exact mirrors
  | cons ch keys ih =>
    constructor
    · intro all
      have next : Mirrors t prompt (typeKey fit s ch) := all [ch] keys rfl
      exact ⟨(keyMirrors fit mirrors).mp next,(ih next).mp fun before after split_ => all (ch :: before) after (congrArg (ch :: ·) split_)⟩
    · rintro ⟨here,later⟩ before after split_
      have next := (keyMirrors fit mirrors).mpr here
      cases before with
      | nil => exact mirrors
      | cons ch' before =>
        obtain ⟨rfl,rest⟩ := List.cons.inj split_
        exact (ih next).mpr later before after rest

/- What is typed is what is seen: the console shows the terminal all along, and its text from the prompt to the cursor is
the prompt and the line after every key exactly if no character is erased at the left edge. -/
theorem shellShows (font : Char → Option Glyph) (fit : Fit info) (t : Window info) (prompt : Prompt) (keys : List Char)
    (other : ∀ ch ∈ keys, enters ch = false) :
    (∀ before after, keys = before ++ after →
      edited font (drawn font t) prompt before = .ok ⟨(shown fit t prompt before).1,drawn font (shown fit t prompt before).2⟩ ∧
      Mirrors t prompt (shown fit t prompt before)) ↔ Orderly fit ([],t.writeStr fit.across prompt.text) keys := by
  rw [← orderlyMirrors fit keys (promptMirrors fit t prompt)]
  refine forall_congr' fun before => forall_congr' fun after => imp_congr_right fun split_ => and_iff_right ?_
  exact editedDrawn fit t prompt before fun ch mem => other ch (split_ ▸ List.mem_append_left _ mem)

/- Two cells a row: the prompt fills the first, `ab` the second, and two erasures come back over its edge. -/
def overEdge : List Char := ['a','b','c',Char.ofNat 8,Char.ofNat 127]

theorem shellShowsRow : (∀ before after, ['a',Char.ofNat 8,'b'] = before ++ after →
      edited (fun _ => none) (drawn (fun _ => none) (terminal fitSmall [])) .run before =
        .ok ⟨(shown fitSmall (terminal fitSmall []) .run before).1,drawn (fun _ => none) (shown fitSmall (terminal fitSmall []) .run before).2⟩ ∧
      Mirrors (terminal fitSmall []) .run (shown fitSmall (terminal fitSmall []) .run before)) ↔
    Orderly fitSmall ([],(terminal fitSmall []).writeStr fitSmall.across Prompt.run.text) ['a',Char.ofNat 8,'b'] :=
  shellShows _ fitSmall _ .run _ (noneOf rfl)

theorem shellLags : ¬∀ (info : FrameBufferInfo) (fit : Fit info) (t : Window info) (prompt : Prompt) (keys : List Char),
    (∀ ch ∈ keys, enters ch = false) → Mirrors t prompt (shown fit t prompt keys) := by
  intro all
  have last := all small fitSmall (terminal fitSmall []) .run overEdge (noneOf rfl)
  unfold Mirrors at last
  exact absurd last (by decide)

end Echo

end Officium.Screen
