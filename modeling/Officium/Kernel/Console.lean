import Mathlib.Data.List.FinRange

/-! The framebuffer console: characters drawn as glyphs into a buffer of bytes. What it shows is kept
against a terminal that has a page of characters and a window on it. The font is given. -/
namespace Officium.Screen

/- A slice or an index out of range, or a subtraction below zero. -/
inductive Panic where | slice | index | subtract
  deriving DecidableEq, Repr

inductive PixelFormat where | rgb | bgr | u8 | unknown
  deriving DecidableEq, Repr

structure FrameBufferInfo where
  width : Nat
  height : Nat
  stride : Nat
  bytesPerPixel : Nat
  pixelFormat : PixelFormat
  deriving DecidableEq, Repr

/- `[u8; 8]` -/
abbrev Glyph := Fin 8 → UInt8

def scale : Nat := 2
def charW : Nat := 8 * scale
def charH : Nat := 8 * scale

/- `Color::LightGray` -/
def lightGray : UInt32 := 0xAAAAAA

structure Console where
  buffer : List UInt8
  info : FrameBufferInfo
  col : Nat
  row : Nat
  fg : UInt32

namespace Console

def widthChars (c : Console) : Nat := c.info.width / charW
def heightChars (c : Console) : Nat := c.info.height / charH

def clear (c : Console) : Console := { c with buffer := List.replicate c.buffer.length 0, col := 0, row := 0 }

def red (color : UInt32) : UInt8 := (color >>> 16).toUInt8
def green (color : UInt32) : UInt8 := (color >>> 8).toUInt8
def blue (color : UInt32) : UInt8 := color.toUInt8

def setPixel (c : Console) (x y : Nat) (color : UInt32) : Except Panic Console :=
  let index := (y * c.info.stride + x) * c.info.bytesPerPixel
  if index + c.info.bytesPerPixel ≤ c.buffer.length then
    match c.info.pixelFormat with
    | .rgb =>
      if 3 ≤ c.info.bytesPerPixel then
        .ok { c with buffer := ((c.buffer.set index (red color)).set (index+1) (green color)).set (index+2) (blue color) }
      else .error .index
    | .bgr =>
      if 3 ≤ c.info.bytesPerPixel then
        .ok { c with buffer := ((c.buffer.set index (blue color)).set (index+1) (green color)).set (index+2) (red color) }
      else .error .index
    | .u8 | .unknown =>
      if 1 ≤ c.info.bytesPerPixel then
        .ok { c with buffer := c.buffer.set index (max (max (red color) (green color)) (blue color)) }
      else .error .index
  else .error .slice

/- Bit `x` of row `y`. -/
def lit (glyph : Glyph) (y x : Fin 8) : Bool := glyph y &&& (1 <<< UInt8.ofNat x) != 0

structure Dot where
  x : Nat
  y : Nat
  color : UInt32

/- The pixels `draw_glyph` sets, one after the other. -/
def dots (fg : UInt32) (col row : Nat) (glyph : Glyph) : List Dot :=
  let x0 := col * charW
  let y0 := row * charH
  (List.finRange 8).flatMap fun y => (List.finRange 8).flatMap fun x =>
    let color := if lit glyph y x then fg else 0
    (List.range scale).flatMap fun dy => (List.range scale).map fun dx => ⟨x0 + x * scale + dx,y0 + y * scale + dy,color⟩

def drawGlyph (c : Console) (col row : Nat) (glyph : Glyph) : Except Panic Console :=
  (dots c.fg col row glyph).foldlM (fun c dot => c.setPixel dot.x dot.y dot.color) c

/- Shift the whole screen up by one text row. -/
def scroll (c : Console) : Except Panic Console :=
  let rowBytes := charH * c.info.stride * c.info.bytesPerPixel
  let len := c.buffer.length
  if rowBytes ≤ len then
    let moved := c.buffer.drop rowBytes ++ c.buffer.drop (len - rowBytes)
    .ok { c with buffer := moved.take (len - rowBytes) ++ List.replicate rowBytes 0 }
  else .error .slice

def newline (c : Console) : Except Panic Console :=
  let c := { c with col := 0, row := c.row + 1 }
  if c.heightChars ≤ c.row then
    match c.scroll with
    | .error p => .error p
    | .ok c => if 1 ≤ c.heightChars then .ok { c with row := c.heightChars - 1 } else .error .subtract
  else .ok c

def backspace (c : Console) : Except Panic Console :=
  if 0 < c.col then { c with col := c.col - 1 }.drawGlyph (c.col - 1) c.row (fun _ => 0) else .ok c

section Font
variable (font : Char → Option Glyph)

/- The glyph, the one of `?` for a character the font lacks, or nothing if it lacks that too. -/
def glyphOf (ch : Char) : Glyph := ((font ch).or (font '?')).getD (fun _ => 0)

def putChar (c : Console) (ch : Char) : Except Panic Console :=
  if ch = '\n' then c.newline
  else if ch = '\r' then .ok { c with col := 0 }
  else if ch = Char.ofNat 8 then c.backspace
  else
    match if c.widthChars ≤ c.col then c.newline else .ok c with
    | .error p => .error p
    | .ok c =>
      match c.drawGlyph c.col c.row (glyphOf font ch) with
      | .error p => .error p
      | .ok c => .ok { c with col := c.col + 1 }

def writeStr (c : Console) (s : String) : Except Panic Console := s.toList.foldlM (putChar font) c

end Font

def init (buffer : List UInt8) (info : FrameBufferInfo) : Console := clear ⟨buffer,info,0,0,lightGray⟩

end Console

section Painting
open Console

/- The buffers the claims are about. -/
structure Fit (info : FrameBufferInfo) : Prop where
  wide : charW ≤ info.width
  high : charH ≤ info.height
  stride : info.width ≤ info.stride
  bytes : info.bytesPerPixel = 3 ∨ info.bytesPerPixel = 4
  format : info.pixelFormat = .rgb ∨ info.pixelFormat = .bgr

/- A color at each place, rows first. -/
abbrev Picture := Nat → Nat → UInt32

def channel (format : PixelFormat) (color : UInt32) (k : Nat) : UInt8 :=
  match format with
  | .rgb => [red color,green color,blue color].getD k 0
  | _ => [blue color,green color,red color].getD k 0

def size (info : FrameBufferInfo) : Nat := info.stride * info.height * info.bytesPerPixel

/- The buffer that shows a picture. -/
def painted (info : FrameBufferInfo) (pic : Picture) : List UInt8 :=
  (List.range (size info)).map fun i =>
    channel info.pixelFormat (pic (i / info.bytesPerPixel / info.stride) (i / info.bytesPerPixel % info.stride)) (i % info.bytesPerPixel)

def dotted (pic : Picture) (dot : Dot) : Picture := fun y x => if y = dot.y ∧ x = dot.x then dot.color else pic y x

variable {info : FrameBufferInfo} {pic : Picture}

theorem paintedLength (info : FrameBufferInfo) (pic : Picture) : (painted info pic).length = size info := by
  rw [painted,List.length_map,List.length_range]

theorem paintedAt {i : Nat} (inside : i < size info) : (painted info pic)[i]? =
    some (channel info.pixelFormat (pic (i / info.bytesPerPixel / info.stride) (i / info.bytesPerPixel % info.stride)) (i % info.bytesPerPixel)) := by
  rw [painted,List.getElem?_map,List.getElem?_range inside]
  rfl

theorem channelPad (format : PixelFormat) (color : UInt32) {k : Nat} (pad : 3 ≤ k) : channel format color k = 0 := by
  have past (a b d : UInt8) : [a,b,d].getD k 0 = 0 := by
    rw [List.getD_eq_getElem?_getD,List.getElem?_eq_none pad]
    rfl
  cases format <;> exact past _ _ _

theorem rowsApart {stride : Nat} (wide : 0 < stride) {p x y : Nat} (inside : x < stride) :
    (p / stride = y ∧ p % stride = x) ↔ p = y * stride + x := by
  rw [Nat.mul_comm]
  exact ⟨fun ⟨row,col⟩ => by rw [← row,← col]; exact (Nat.div_add_mod p stride).symm,
    fun is_ => by rw [is_]; exact ⟨by rw [Nat.mul_add_div wide,Nat.div_eq_of_lt inside,Nat.add_zero],by rw [Nat.mul_add_mod,Nat.mod_eq_of_lt inside]⟩⟩

/- A buffer with three bytes written from an index on. -/
theorem threeSet (l : List UInt8) (a b d : UInt8) {index i : Nat} (inside : i < l.length) :
    (((l.set index a).set (index+1) b).set (index+2) d)[i]? =
      if i = index + 2 then some d else if i = index + 1 then some b else if i = index then some a else l[i]? := by
  have put (l : List UInt8) (v : UInt8) (at_ : Nat) (inside : i < l.length) : (l.set at_ v)[i]? = if i = at_ then some v else l[i]? := by
    rw [List.getElem?_set]
    split
    · rename_i same
      rw [if_pos same.symm,if_pos (same ▸ inside)]
    · rename_i other
      rw [if_neg (Ne.symm other)]
  rw [put _ d _ (by simpa using inside),put _ b _ (by simpa using inside),put _ a _ inside]

/- Three bytes written where a pixel lies. -/
theorem threePaint (bytes : info.bytesPerPixel = 3 ∨ info.bytesPerPixel = 4) (dot : Dot) (inside : dot.x < info.stride) {index : Nat}
    (at_ : index = (dot.y * info.stride + dot.x) * info.bytesPerPixel) :
    (((painted info pic).set index (channel info.pixelFormat dot.color 0)).set (index+1) (channel info.pixelFormat dot.color 1)).set (index+2)
      (channel info.pixelFormat dot.color 2) = painted info (dotted pic dot) := by
  apply List.ext_getElem?
  intro i
  by_cases low : i < size info
  · rw [threeSet _ _ _ _ (by rwa [paintedLength]),paintedAt low,paintedAt low,dotted,
      if_congr (rowsApart (Nat.zero_lt_of_lt inside) inside) rfl rfl]
    generalize dot.y * info.stride + dot.x = place at at_ ⊢
    have cut := Nat.div_add_mod i info.bytesPerPixel
    have less : i % info.bytesPerPixel < info.bytesPerPixel := Nat.mod_lt i (by omega)
    by_cases here : i / info.bytesPerPixel = place
    · rw [if_pos here]
      have from_ : i = index + i % info.bytesPerPixel := by
        rw [at_,← here,Nat.mul_comm]
        exact cut.symm
      generalize i % info.bytesPerPixel = k at from_ less ⊢
      rcases Nat.lt_or_ge k 3 with channel_ | pad
      · match k with
        | 0 => rw [if_neg (by omega),if_neg (by omega),if_pos (show i = index from from_)]
        | 1 => rw [if_neg (by omega),if_pos from_]
        | 2 => rw [if_pos from_]
      · rw [if_neg (by omega),if_neg (by omega),if_neg (by omega),channelPad _ _ pad,channelPad _ _ pad]
    · have apart : i < index ∨ index + 3 ≤ i := by
        rcases bytes with three | four
        · rw [three] at at_ here
          omega
        · rw [four] at at_ here
          omega
      rw [if_neg here,if_neg (by omega),if_neg (by omega),if_neg (by omega)]
  · rw [List.getElem?_eq_none (by simp only [List.length_set,paintedLength]; omega),List.getElem?_eq_none (by rw [paintedLength]; omega)]

theorem dotInside (dot : Dot) (wide : dot.x < info.stride) (high : dot.y < info.height) :
    (dot.y * info.stride + dot.x) * info.bytesPerPixel + info.bytesPerPixel ≤ size info := by
  have row : dot.y * info.stride + dot.x + 1 ≤ info.stride * info.height := by
    calc dot.y * info.stride + dot.x + 1 ≤ dot.y * info.stride + info.stride := Nat.add_le_add_left wide _
      _ = (dot.y + 1) * info.stride := (Nat.succ_mul _ _).symm
      _ ≤ info.height * info.stride := Nat.mul_le_mul_right _ high
      _ = info.stride * info.height := Nat.mul_comm _ _
  rw [← Nat.succ_mul]
  exact Nat.mul_le_mul_right _ row

theorem setPixelPaints {c : Console} (fit : Fit c.info) (shows : c.buffer = painted c.info pic) (dot : Dot) (wide : dot.x < c.info.stride)
    (high : dot.y < c.info.height) : c.setPixel dot.x dot.y dot.color = .ok { c with buffer := painted c.info (dotted pic dot) } := by
  have room : (dot.y * c.info.stride + dot.x) * c.info.bytesPerPixel + c.info.bytesPerPixel ≤ (painted c.info pic).length := by
    rw [paintedLength]
    exact dotInside dot wide high
  have three : 3 ≤ c.info.bytesPerPixel := by
    rcases fit.bytes with h | h <;> omega
  have paint := @threePaint c.info pic fit.bytes dot wide _ rfl
  unfold setPixel
  rcases fit.format with rgb | bgr
  · simp only [shows,if_pos room,rgb,if_pos three]
    rw [rgb] at paint
    rw [← paint]
    rfl
  · simp only [shows,if_pos room,bgr,if_pos three]
    rw [bgr] at paint
    rw [← paint]
    rfl

theorem foldDots {c : Console} (fit : Fit c.info) (ds : List Dot) (shows : c.buffer = painted c.info pic)
    (inside : ∀ d ∈ ds, d.x < c.info.stride ∧ d.y < c.info.height) :
    ds.foldlM (fun c dot => setPixel c dot.x dot.y dot.color) c = .ok { c with buffer := painted c.info (ds.foldl dotted pic) } := by
  induction ds generalizing c pic with
  | nil => rw [List.foldl_nil,← shows]; rfl
  | cons d ds ih =>
    obtain ⟨wide,high⟩ := inside d List.mem_cons_self
    rw [List.foldlM_cons,setPixelPaints fit shows d wide high]
    exact ih (c := { c with buffer := painted c.info (dotted pic d) }) fit rfl (fun d' mem => inside d' (List.mem_cons_of_mem _ mem))

/- The picture one text row further up. -/
def raised (info : FrameBufferInfo) (pic : Picture) : Picture := fun y x => if y + charH < info.height then pic (y + charH) x else 0

theorem channelBlack (format : PixelFormat) (k : Nat) : channel format 0 k = 0 := by
  have zeros : [(0 : UInt8),0,0].getD k 0 = 0 := by
    match k with
    | 0 | 1 | 2 => rfl
    | k+3 => rfl
  cases format <;> exact zeros

theorem scrollPaints {c : Console} (fit : Fit c.info) (shows : c.buffer = painted c.info pic) :
    c.scroll = .ok { c with buffer := painted c.info (raised c.info pic) } := by
  have pixel : 0 < c.info.bytesPerPixel := by
    rcases fit.bytes with h | h <;> omega
  have wide : 0 < c.info.stride := Nat.lt_of_lt_of_le (by decide) (Nat.le_trans fit.wide fit.stride)
  -- how many bytes a row of pixels has
  have line : 0 < c.info.bytesPerPixel * c.info.stride := Nat.mul_pos pixel wide
  have rows : size c.info = c.info.height * (c.info.bytesPerPixel * c.info.stride) := by
    rw [size,Nat.mul_right_comm,Nat.mul_comm,Nat.mul_comm c.info.stride]
  have rowBytes : charH * c.info.stride * c.info.bytesPerPixel = charH * (c.info.bytesPerPixel * c.info.stride) := by
    rw [Nat.mul_assoc,Nat.mul_comm c.info.stride]
  have room : charH * (c.info.bytesPerPixel * c.info.stride) ≤ size c.info := by
    rw [rows]
    exact Nat.mul_le_mul_right _ fit.high
  have lower (i : Nat) : i / c.info.bytesPerPixel / c.info.stride + charH < c.info.height ↔
      i < size c.info - charH * (c.info.bytesPerPixel * c.info.stride) := by
    rw [rows,← Nat.sub_mul,Nat.div_div_eq_div_mul,← Nat.div_lt_iff_lt_mul line,Nat.lt_sub_iff_add_lt]
  have bytes : (((painted c.info pic).drop (charH * (c.info.bytesPerPixel * c.info.stride)) ++
      (painted c.info pic).drop (size c.info - charH * (c.info.bytesPerPixel * c.info.stride))).take
        (size c.info - charH * (c.info.bytesPerPixel * c.info.stride)) ++ List.replicate (charH * (c.info.bytesPerPixel * c.info.stride)) 0) =
      painted c.info (raised c.info pic) := by
    rw [List.take_left' (by rw [List.length_drop,paintedLength])]
    apply List.ext_getElem?
    intro i
    rcases Nat.lt_or_ge i (size c.info - charH * (c.info.bytesPerPixel * c.info.stride)) with upper | strip
    · rw [List.getElem?_append_left (by rwa [List.length_drop,paintedLength]),List.getElem?_drop,paintedAt (by omega),paintedAt (by omega),
        raised,if_pos ((lower i).mpr upper)]
      have down : (charH * (c.info.bytesPerPixel * c.info.stride) + i) / c.info.bytesPerPixel = charH * c.info.stride + i / c.info.bytesPerPixel := by
        rw [Nat.mul_left_comm,Nat.mul_add_div pixel]
      rw [down,Nat.mul_comm charH,Nat.mul_add_div wide,Nat.mul_add_mod,Nat.mul_comm charH,Nat.mul_assoc,Nat.mul_add_mod,
        Nat.add_comm charH]
    · rw [List.getElem?_append_right (by rwa [List.length_drop,paintedLength]),List.length_drop,paintedLength]
      rcases Nat.lt_or_ge i (size c.info) with inside | past
      · rw [List.getElem?_replicate,if_pos (by omega),paintedAt inside,raised,if_neg (fun up => absurd ((lower i).mp up) (Nat.not_lt_of_ge strip)),
          channelBlack]
      · rw [List.getElem?_eq_none (by rw [List.length_replicate]; omega),List.getElem?_eq_none (by rwa [paintedLength])]
  unfold scroll
  simp only [shows,paintedLength,rowBytes]
  rw [if_pos room,bytes]

end Painting

section Terminal

/- The page of characters and the window on it: `top` is the page's row at the top of the window. Rows
below the window are blank. -/
structure Terminal (width height : Nat) where
  page : Nat → Nat → Option Char
  top : Nat
  col : Nat
  row : Nat
  across : col ≤ width
  down : row < height
  fresh : ∀ r c, top + height ≤ r → page r c = none

namespace Terminal
variable {width height : Nat}

def blank (high : 0 < height) : Terminal width height := ⟨fun _ _ => none,0,0,0,Nat.zero_le _,high,fun _ _ _ => rfl⟩

/- The character in a cell of the window. -/
def cell (t : Terminal width height) (r c : Nat) : Option Char := t.page (t.top + r) c

def write (t : Terminal width height) (c : Nat) (v : Option Char) : Nat → Nat → Option Char :=
  fun r c' => if r = t.top + t.row ∧ c' = c then v else t.page r c'

theorem writeFresh (t : Terminal width height) (c : Nat) (v : Option Char) :
    ∀ r c', t.top + height ≤ r → t.write c v r c' = none := by
  intro r c' below
  have down := t.down
  rw [write,if_neg (by omega)]
  exact t.fresh r c' below

/- To the next row; at the bottom the window moves down by one. -/
def newline (t : Terminal width height) : Terminal width height :=
  if below : t.row + 1 < height then { t with col := 0, row := t.row + 1, across := Nat.zero_le _, down := below }
  else { t with top := t.top + 1, col := 0, across := Nat.zero_le _, fresh := fun r c h => t.fresh r c (by omega) }

def home (t : Terminal width height) : Terminal width height := { t with col := 0, across := Nat.zero_le _ }

/- Only within the row. -/
def backspace (t : Terminal width height) : Terminal width height :=
  if 0 < t.col then
    { t with page := t.write (t.col - 1) none, col := t.col - 1, across := Nat.le_trans (Nat.sub_le _ _) t.across,
             fresh := t.writeFresh _ _ }
  else t

/- A character where there is room for it in the row. -/
def type (t : Terminal width height) (ch : Char) (room : t.col < width) : Terminal width height :=
  { t with page := t.write t.col (some ch), col := t.col + 1, across := room, fresh := t.writeFresh _ _ }

theorem newlineCol (t : Terminal width height) : t.newline.col = 0 := by
  unfold newline
  split
  · rfl
  · rfl

/- The wrap waits for the next character. -/
def put (wide : 0 < width) (t : Terminal width height) (ch : Char) : Terminal width height :=
  if ch = '\n' then t.newline
  else if ch = '\r' then t.home
  else if ch = Char.ofNat 8 then t.backspace
  else if room : t.col < width then t.type ch room
  else t.newline.type ch (t.newlineCol ▸ wide)

def writeStr (wide : 0 < width) (t : Terminal width height) (s : String) : Terminal width height := s.toList.foldl (put wide) t

end Terminal

end Terminal

section Drawing
open Console
variable {font : Char → Option Glyph} {info : FrameBufferInfo} {pic : Picture}

/- The terminal of a framebuffer. -/
abbrev Window (info : FrameBufferInfo) := Terminal (info.width / charW) (info.height / charH)

def cellGlyph (font : Char → Option Glyph) : Option Char → Glyph
  | none => fun _ => 0
  | some ch => glyphOf font ch

/- A glyph at twice its size, in the foreground on black. -/
def inked (glyph : Glyph) (y x : Nat) : UInt32 :=
  if lit glyph (Fin.ofNat 8 (y % charH / scale)) (Fin.ofNat 8 (x % charW / scale)) then lightGray else 0

/- The text cells; all else is black. -/
def picture (font : Char → Option Glyph) (t : Window info) : Picture := fun y x =>
  if y / charH < info.height / charH ∧ x / charW < info.width / charW then inked (cellGlyph font (t.cell (y / charH) (x / charW))) y x else 0

/- The console that shows a terminal. -/
def drawn (font : Char → Option Glyph) (t : Window info) : Console := ⟨painted info (picture font t),info,t.col,t.row,lightGray⟩

theorem foldDotted (f : Picture) (ds : List Dot) (colors : ∀ d ∈ ds, d.color = f d.y d.x) (y x : Nat) :
    ds.foldl dotted pic y x = if ∃ d ∈ ds, d.y = y ∧ d.x = x then f y x else pic y x := by
  induction ds generalizing pic with
  | nil => exact (if_neg (by rintro ⟨d,mem,-⟩; cases mem)).symm
  | cons d ds ih =>
    rw [List.foldl_cons,ih (fun d' mem => colors d' (List.mem_cons_of_mem _ mem))]
    by_cases later : ∃ d ∈ ds, d.y = y ∧ d.x = x
    · obtain ⟨d',mem,here⟩ := later
      rw [if_pos ⟨d',mem,here⟩,if_pos ⟨d',List.mem_cons_of_mem _ mem,here⟩]
    · rw [if_neg later,dotted]
      by_cases here : y = d.y ∧ x = d.x
      · rw [if_pos here,if_pos ⟨d,List.mem_cons_self,here.1.symm,here.2.symm⟩,colors d List.mem_cons_self,here.1,here.2]
      · rw [if_neg here,if_neg]
        rintro ⟨d',mem,at_⟩
        rcases List.mem_cons.mp mem with rfl | mem
        · exact here ⟨at_.1.symm,at_.2.symm⟩
        · exact later ⟨d',mem,at_⟩

theorem dotsMem {fg : UInt32} {col row : Nat} {glyph : Glyph} {d : Dot} : d ∈ dots fg col row glyph ↔
    ∃ (y x : Fin 8) (dy dx : Nat), dy < scale ∧ dx < scale ∧
      d = ⟨col * charW + x * scale + dx,row * charH + y * scale + dy,if lit glyph y x then fg else 0⟩ := by
  simp only [dots,List.mem_flatMap,List.mem_map,List.mem_range,List.mem_finRange,true_and]
  constructor
  · rintro ⟨y,x,dy,less,dx,less',rfl⟩
    exact ⟨y,x,dy,dx,less,less',rfl⟩
  · rintro ⟨y,x,dy,dx,less,less',rfl⟩
    exact ⟨y,x,dy,less,dx,less',rfl⟩

/- A glyph's dots are the pixels of its cell. -/
theorem dotsPaint (pic : Picture) (col row : Nat) (glyph : Glyph) (y x : Nat) :
    (dots lightGray col row glyph).foldl dotted pic y x = if y / charH = row ∧ x / charW = col then inked glyph y x else pic y x := by
  have cell (place : Nat) {k sub : Nat} (less : k < 8) (less' : sub < scale) : (place * charH + k * scale + sub) / charH = place ∧
      (place * charH + k * scale + sub) % charH / scale = k := by
    unfold charH scale at *
    omega
  rw [foldDotted (inked glyph) (dots lightGray col row glyph)]
  · refine if_congr ?_ rfl rfl
    constructor
    · rintro ⟨d,mem,rfl,rfl⟩
      obtain ⟨gy,gx,dy,dx,less,less',rfl⟩ := dotsMem.mp mem
      exact ⟨(cell _ gy.isLt less).1,(cell _ gx.isLt less').1⟩
    · rintro ⟨rfl,rfl⟩
      have split_ (y : Nat) : y % charH / scale < 8 ∧ y % scale < scale ∧ y / charH * charH + y % charH / scale * scale + y % scale = y := by
        unfold charH scale
        omega
      obtain ⟨row_,sub_,whole⟩ := split_ y
      obtain ⟨col_,sub',whole'⟩ := split_ x
      exact ⟨_,dotsMem.mpr ⟨⟨y % charH / scale,row_⟩,⟨x % charW / scale,col_⟩,y % scale,x % scale,sub_,sub',rfl⟩,whole,whole'⟩
  · intro d mem
    obtain ⟨gy,gx,dy,dx,less,less',rfl⟩ := dotsMem.mp mem
    have at_ := (cell row gy.isLt less).2
    have at' : (col * charW + gx * scale + dx) % charW / scale = gx := (cell col gx.isLt less').2
    have fin_ (k : Fin 8) : Fin.ofNat 8 k.val = k := Fin.ext (Nat.mod_eq_of_lt k.isLt)
    rw [inked]
    dsimp only
    rw [at_,at',fin_,fin_]

variable {t : Window info}

/- A glyph drawn into a cell of the window is a character written there. -/
theorem drawGlyphDrawn (fit : Fit info) {col row : Nat} (across : col < info.width / charW) (down : row < info.height / charH) (v : Option Char)
    (n m : Nat) : (⟨painted info (picture font t),info,n,m,lightGray⟩ : Console).drawGlyph col row (cellGlyph font v) =
      .ok ⟨painted info (fun y x => if y / charH = row ∧ x / charW = col then inked (cellGlyph font v) y x else picture font t y x),
        info,n,m,lightGray⟩ := by
  have far {place k sub total bound : Nat} (less : k < 8) (less' : sub < scale) (inside : place < total / charH) (within : total ≤ bound) :
      place * charH + k * scale + sub < bound := by
    have fits := Nat.div_mul_le_self total charH
    have next := Nat.mul_le_mul_right charH (Nat.succ_le_of_lt inside)
    rw [Nat.succ_mul] at next
    unfold charH scale at *
    omega
  have inside : ∀ d ∈ dots lightGray col row (cellGlyph font v), d.x < info.stride ∧ d.y < info.height := by
    intro d mem
    obtain ⟨gy,gx,dy,dx,less,less',rfl⟩ := dotsMem.mp mem
    exact ⟨far gx.isLt less' across fit.stride,far gy.isLt less down (Nat.le_refl _)⟩
  rw [drawGlyph,@foldDots (picture font t) ⟨_,info,n,m,lightGray⟩ fit _ rfl inside]
  congr 3
  funext y x
  exact dotsPaint _ _ _ _ y x

theorem pictureWrite {c : Nat} (v : Option Char) (t' : Window info) (across : c < info.width / charW) (page : t'.page = t.write c v)
    (top : t'.top = t.top) : (fun y x => if y / charH = t.row ∧ x / charW = c then inked (cellGlyph font v) y x else picture font t y x) =
      picture font t' := by
  funext y x
  have at_ : t.top + y / charH = t.top + t.row ↔ y / charH = t.row := Nat.add_left_cancel_iff
  unfold picture Terminal.cell
  rw [page,top,Terminal.write]
  by_cases here : y / charH = t.row ∧ x / charW = c
  · rw [if_pos here,if_pos ⟨here.1 ▸ t.down,here.2 ▸ across⟩,if_pos ⟨at_.mpr here.1,here.2⟩]
  · rw [if_neg here,if_neg (show ¬(t.top + y / charH = t.top + t.row ∧ x / charW = c) from fun both => here ⟨at_.mp both.1,both.2⟩)]

theorem inkedNothing (y x : Nat) : inked (fun _ => 0) y x = 0 := by
  have dark (a b : Fin 8) : lit (fun _ => 0) a b = false := by
    rw [lit,UInt8.zero_and]
    rfl
  rw [inked,dark]
  rfl

/- A scroll is the window moved down by a row. -/
theorem pictureScroll (t' : Window info) (page : t'.page = t.page) (top : t'.top = t.top + 1) :
    raised info (picture font t) = picture font t' := by
  funext y x
  have next : (y + charH) / charH = y / charH + 1 := Nat.add_div_right y (by decide)
  have cell_ : t'.cell (y / charH) (x / charW) = t.cell (y / charH + 1) (x / charW) := by
    rw [Terminal.cell,page,top,Terminal.cell,Nat.add_assoc,Nat.add_comm 1]
  have inked_ : inked (cellGlyph font (t.cell (y / charH + 1) (x / charW))) (y + charH) x =
      inked (cellGlyph font (t.cell (y / charH + 1) (x / charW))) y x := by
    rw [inked,Nat.add_mod_right]
    rfl
  rw [raised,picture,picture,next,cell_,inked_]
  by_cases last : y / charH + 1 < info.height / charH
  · have above : y + charH < info.height := by
      rw [← next] at last
      exact Nat.lt_of_not_le fun past => absurd (Nat.div_le_div_right past) (Nat.not_le_of_lt last)
    rw [if_pos above,if_congr (and_congr_left' (iff_of_true last (Nat.lt_of_succ_lt last))) rfl rfl]
  · have none_ : t.cell (y / charH + 1) (x / charW) = none := t.fresh _ _ (by omega)
    rw [none_,show cellGlyph font none = fun _ => 0 from rfl,inkedNothing,ite_self,ite_self,ite_self]

theorem newlineDrawn (fit : Fit info) (t : Window info) : (drawn font t).newline = .ok (drawn font t.newline) := by
  have high : 1 ≤ info.height / charH := (Nat.one_le_div_iff (by decide)).mpr fit.high
  change (if info.height / charH ≤ t.row + 1 then
      match Console.scroll ⟨painted info (picture font t),info,0,t.row + 1,lightGray⟩ with
      | .error p => .error p
      | .ok c => if 1 ≤ c.heightChars then .ok { c with row := c.heightChars - 1 } else .error .subtract
    else .ok ⟨painted info (picture font t),info,0,t.row + 1,lightGray⟩ : Except Panic Console) = _
  by_cases last : t.row + 1 < info.height / charH
  · have kept : t.newline = { t with col := 0, row := t.row + 1, across := Nat.zero_le _, down := last } := dif_pos last
    rw [if_neg (Nat.not_le_of_lt last),kept]
    rfl
  · have moved : t.newline = { t with top := t.top + 1, col := 0, across := Nat.zero_le _, fresh := fun r c h => t.fresh r c (by omega) } :=
      dif_neg last
    have row : t.row = info.height / charH - 1 := by
      have down := t.down
      omega
    rw [if_pos (Nat.le_of_not_lt last),@scrollPaints (picture font t) ⟨_,info,0,t.row + 1,lightGray⟩ fit rfl]
    refine (if_pos (show 1 ≤ info.height / charH from high)).trans ?_
    change Except.ok (Console.mk (painted info (raised info (picture font t))) info 0 (info.height / charH - 1) lightGray) = _
    rw [pictureScroll t.newline (by rw [moved]) (by rw [moved]),← row,moved]
    rfl

theorem backspaceDrawn (fit : Fit info) (t : Window info) : (drawn font t).backspace = .ok (drawn font t.backspace) := by
  unfold Console.backspace Terminal.backspace
  change (if 0 < t.col then Console.drawGlyph ⟨painted info (picture font t),info,t.col - 1,t.row,lightGray⟩ (t.col - 1) t.row (fun _ => 0)
    else .ok (drawn font t)) = _
  by_cases some_ : 0 < t.col
  · have across : t.col - 1 < info.width / charW := Nat.lt_of_lt_of_le (Nat.sub_one_lt_of_lt some_) t.across
    rw [if_pos some_,if_pos some_]
    exact (drawGlyphDrawn fit across t.down none _ _).trans (congrArg Except.ok (congrArg (Console.mk · info _ _ _)
      (congrArg (painted info) (pictureWrite none _ across rfl rfl))))
  · rw [if_neg some_,if_neg some_]

theorem typeDrawn (fit : Fit info) (t : Window info) (ch : Char) (room : t.col < info.width / charW) :
    (drawn font t).drawGlyph t.col t.row (glyphOf font ch) = .ok { drawn font (t.type ch room) with col := t.col } := by
  refine (drawGlyphDrawn fit room t.down (some ch) _ _).trans ?_
  rw [pictureWrite (some ch) (t.type ch room) room rfl rfl]
  rfl

/- One character: the console does what the terminal does. -/
theorem putCharDrawn (fit : Fit info) (wide : 0 < info.width / charW) (t : Window info) (ch : Char) :
    (drawn font t).putChar font ch = .ok (drawn font (t.put wide ch)) := by
  unfold putChar Terminal.put
  split
  · exact newlineDrawn fit t
  split
  · rfl
  split
  · exact backspaceDrawn fit t
  have typed (t : Window info) (room : t.col < info.width / charW) :
      (match (drawn font t).drawGlyph t.col t.row (glyphOf font ch) with
        | .error p => .error p
        | .ok c => .ok { c with col := c.col + 1 }) = Except.ok (drawn font (t.type ch room)) := by
    rw [typeDrawn fit t ch room]
    rfl
  by_cases room : t.col < info.width / charW
  · rw [if_neg (show ¬(drawn font t).widthChars ≤ (drawn font t).col from Nat.not_le_of_lt room),dif_pos room]
    exact typed t room
  · rw [if_pos (show (drawn font t).widthChars ≤ (drawn font t).col from Nat.le_of_not_lt room),dif_neg room,newlineDrawn fit t]
    exact typed t.newline (t.newlineCol ▸ wide)

theorem writeStrDrawn (fit : Fit info) (wide : 0 < info.width / charW) (t : Window info) (s : String) :
    (drawn font t).writeStr font s = .ok (drawn font (t.writeStr wide s)) := by
  unfold Console.writeStr Terminal.writeStr
  generalize s.toList = cs
  induction cs generalizing t with
  | nil => rfl
  | cons ch cs ih =>
    rw [List.foldlM_cons,putCharDrawn fit wide t ch]
    exact ih _

theorem clearDrawn (high : 0 < info.height / charH) {c : Console} (of_ : c.info = info) (ink : c.fg = lightGray)
    (whole : c.buffer.length = size info) : c.clear = drawn font (Terminal.blank high : Window info) := by
  have black : picture font (Terminal.blank high : Window info) = fun _ _ => 0 := by
    funext y x
    rw [picture,show Terminal.cell (Terminal.blank high : Window info) (y / charH) (x / charW) = none from rfl,
      show cellGlyph font none = fun _ => 0 from rfl,inkedNothing,ite_self]
  have zeros : painted info (fun _ _ => 0) = List.replicate (size info) 0 := by
    rw [painted]
    simp only [channelBlack]
    rw [List.map_const',List.length_range]
  rw [clear,drawn,black,zeros,whole,of_,ink]
  rfl

end Drawing

section Calls
variable (font : Char → Option Glyph) {info : FrameBufferInfo}

inductive Call where
  | writeStr (s : String)
  | clear

def call (c : Console) : Call → Except Panic Console
  | .writeStr s => c.writeStr font s
  | .clear => .ok c.clear

def Terminal.call {width height : Nat} (wide : 0 < width) (high : 0 < height) (t : Terminal width height) : Call → Terminal width height
  | .writeStr s => t.writeStr wide s
  | .clear => .blank high

theorem Fit.across (fit : Fit info) : 0 < info.width / charW := Nat.div_pos fit.wide (by decide)

theorem Fit.down (fit : Fit info) : 0 < info.height / charH := Nat.div_pos fit.high (by decide)

/- The terminal after these calls. -/
def terminal (fit : Fit info) (calls : List Call) : Window info := calls.foldl (Terminal.call fit.across fit.down) (.blank fit.down)

theorem callsDrawn (fit : Fit info) (t : Window info) (calls : List Call) :
    calls.foldlM (call font) (drawn font t) = .ok (drawn font (calls.foldl (Terminal.call fit.across fit.down) t)) := by
  induction calls generalizing t with
  | nil => rfl
  | cons one calls ih =>
    cases one with
    | writeStr s =>
      rw [List.foldlM_cons,call,writeStrDrawn fit fit.across t s]
      exact ih _
    | clear =>
      rw [List.foldlM_cons,call,clearDrawn fit.down rfl rfl (paintedLength info (picture font t))]
      exact ih _

/- At the bottom the rows of the window move up by one and a blank one comes in. -/
theorem scrollCells {width height : Nat} (t : Terminal width height) (last : t.row + 1 = height) (r c : Nat) (inside : r < height) :
    t.newline.cell r c = if r + 1 < height then t.cell (r+1) c else none := by
  rw [Terminal.newline,dif_neg (by omega),Terminal.cell,Terminal.cell,Nat.add_assoc,Nat.add_comm 1]
  split
  · rfl
  · exact t.fresh _ _ (by omega)

/- After any calls the console shows the terminal: no call panics and the cursor is in its bounds. -/
theorem consoleTerminal (buffer : List UInt8) (fit : Fit info) (whole : buffer.length = size info) (calls : List Call) :
    ∃ c, calls.foldlM (call font) (Console.init buffer info) = .ok c ∧ c = drawn font (terminal fit calls) ∧
      c.col ≤ info.width / charW ∧ c.row < info.height / charH := by
  refine ⟨drawn font (terminal fit calls),?_,rfl,(terminal fit calls).across,(terminal fit calls).down⟩
  rw [Console.init,@clearDrawn font info fit.down _ rfl rfl whole]
  exact callsDrawn font fit _ calls

def small : FrameBufferInfo := ⟨40,20,48,3,.bgr⟩

theorem fitSmall : Fit small := ⟨by decide,by decide,by decide,.inl rfl,.inr rfl⟩

theorem consoleTerminalSmall : ∃ c, [Call.writeStr "ab\nc",.clear,.writeStr "abc"].foldlM (call fun _ => none)
      (Console.init (List.replicate 2880 255) small) = .ok c ∧
    c = drawn (fun _ => none) (terminal fitSmall [.writeStr "ab\nc",.clear,.writeStr "abc"]) ∧
    c.col ≤ small.width / charW ∧ c.row < small.height / charH :=
  consoleTerminal _ _ fitSmall List.length_replicate _

end Calls

end Officium.Screen
