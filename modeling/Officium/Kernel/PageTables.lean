import Officium.Kernel.Frames

/-! What the kernel relies on the paging crate for. The page tables are seen through three readings: where a
page leads, which frames hold tables, and how many tables a page still lacks. Tables of four levels are one
mapper of which all that is relied on is so. -/
namespace Officium.PageTables
open Clients (Client serve)
open Frames

theorem pageSame {page other : Page} : page.startAddress = other.startAddress ↔ page = other := by
  cases page
  cases other
  exact ⟨fun same => (by cases same; rfl),fun same => congrArg Page.startAddress same⟩

instance : DecidableEq Page := fun page other => decidable_of_iff (page.startAddress = other.startAddress) pageSame

/- The readings of a mapper's state. A page in a huge page leads somewhere as well. -/
structure Paging (μ : Type) where
  translate : μ → Page → Option PhysFrame
  tableFrames : μ → List PhysFrame
  missing : μ → Page → Nat

/- The allocator has this many frames to hand out one after the other. -/
def Supplies : Nat → BootInfoFrameAllocator → Prop
  | 0, _ => True
  | n+1, frames =>
    match allocateFrame frames with
    | .ok (some _,after) => Supplies n after
    | _ => False

/- The allocator after so many more frames. -/
def past (frames : BootInfoFrameAllocator) (n : Nat) : BootInfoFrameAllocator :=
  { frames with next := frames.next + n }

section Reliance
variable {μ : Type} (paging : Paging μ)

/- What mapping a page did to the tables, with the frames it was handed for new ones. -/
structure Mapped (page : Page) (frame : PhysFrame) (before : μ) (handed : List PhysFrame) (result : Except MapToError Unit) (after : μ) :
    Prop where
  installs : result = .ok () → paging.translate after page = some frame
  refuses : result ≠ .ok () → paging.translate after page = paging.translate before page
  others : ∀ other, other ≠ page → paging.translate after other = paging.translate before other
  tables : ∀ table ∈ paging.tableFrames after, table ∈ paging.tableFrames before ∨ table ∈ handed

/- A page is mapped exactly where it leads nowhere yet and there is a frame for each table it lacks. -/
structure Maps (map : Page → PhysFrame → μ → Drawing (Except MapToError Unit × μ)) : Prop where
  mapped : ∀ page frame before frames result after frames',
    (serve allocateFrame (map page frame before) frames).result = .ok ((result,after),frames') →
      Mapped paging page frame before (serve allocateFrame (map page frame before) frames).handed result after
  succeeds : ∀ page frame before frames,
    (∃ after frames', (serve allocateFrame (map page frame before) frames).result = .ok ((.ok (),after),frames')) ↔
      paging.translate before page = none ∧ Supplies (paging.missing before page) frames

/- Both ways the kernel maps a page. -/
structure Faithful (tables : Mapper μ) : Prop where
  mapTo : ∀ flags, Maps paging (fun page frame => tables.mapTo page frame flags)
  withTableFlags : ∀ flags parent, Maps paging (fun page frame => tables.mapToWithTableFlags page frame flags parent)

/- Pages of one table of the lowest level. -/
def Neighbours (page other : Page) : Prop := page.startAddress / 2 ^ 21 = other.startAddress / 2 ^ 21

/- A page that was mapped took just the frames of its tables, and its neighbours lack none after it. A page that leads
somewhere and lacks no table is refused without a frame. -/
structure Frugal (tables : Mapper μ) : Prop extends Faithful paging tables where
  spends : ∀ page frame flags parent before frames after frames',
    (serve allocateFrame (tables.mapToWithTableFlags page frame flags parent before) frames).result = .ok ((.ok (),after),frames') →
      frames' = past frames (paging.missing before page) ∧ ∀ other, Neighbours page other → paging.missing after other = 0
  occupied : ∀ page frame flags parent before frames, paging.missing before page = 0 → paging.translate before page ≠ none →
    ∃ e after, (serve allocateFrame (tables.mapToWithTableFlags page frame flags parent before) frames).result = .ok ((.error e,after),frames)

end Reliance

section Allocator
variable {frames : BootInfoFrameAllocator}

theorem allocateNext {x : Option PhysFrame} {after : BootInfoFrameAllocator} (h : allocateFrame frames = .ok (x,after)) :
    after = past frames 1 := by
  unfold allocateFrame at h
  cases found : nth frames.next frames.usableFrames with
  | error panic =>
    rw [found] at h
    cases h
  | ok frame =>
    rw [found] at h
    change (if frames.next + 1 = 2 ^ 64 then _ else _) = _ at h
    split at h
    · cases h
    · cases h
      rfl

theorem suppliesSucc (n : Nat) : Supplies (n + 1) frames ↔
    ∃ frame, allocateFrame frames = .ok (some frame,past frames 1) ∧ Supplies n (past frames 1) := by
  rw [Supplies]
  cases given : allocateFrame frames with
  | error panic => exact ⟨nofun,fun ⟨_,same,_⟩ => nomatch same⟩
  | ok r =>
    obtain ⟨x,after⟩ := r
    obtain rfl := allocateNext given
    cases x with
    | none => exact ⟨nofun,fun ⟨_,same,_⟩ => nomatch same⟩
    | some frame => exact ⟨fun more => ⟨frame,rfl,more⟩,fun ⟨_,_,more⟩ => more⟩

theorem pastPast (m n : Nat) : past (past frames m) n = past frames (m + n) := by
  unfold past
  rw [Nat.add_assoc]

theorem suppliesAdd (m n : Nat) : Supplies (m + n) frames ↔ Supplies m frames ∧ Supplies n (past frames m) := by
  induction m generalizing frames with
  | zero =>
    rw [Nat.zero_add]
    exact ⟨fun h => ⟨trivial,h⟩,fun h => h.2⟩
  | succ m ih =>
    rw [Nat.add_right_comm,suppliesSucc,suppliesSucc,Nat.add_comm m 1,← pastPast]
    constructor
    · rintro ⟨frame,given,more⟩
      obtain ⟨first,second⟩ := ih.mp more
      exact ⟨⟨frame,given,first⟩,second⟩
    · rintro ⟨⟨frame,given,first⟩,second⟩
      exact ⟨frame,given,ih.mpr ⟨first,second⟩⟩

end Allocator

section Levels

/- Tables by level and place, and the pages mapped. A level is the number of bits that a table of it covers. -/
structure Levels where
  tables : List ((Nat × Nat) × PhysFrame)
  leaves : List (Page × PhysFrame)

def Levels.has (t : Levels) (key : Nat × Nat) : Bool := t.tables.any (fun entry => entry.1 == key)

/- The tables on the way to a page, below the root. -/
def path (page : Page) : List (Nat × Nat) := [39,30,21].map (fun bits => (bits,page.startAddress / 2 ^ bits))

def lacks (t : Levels) (keys : List (Nat × Nat)) : Nat := keys.countP (fun key => !t.has key)

/- Tables that are missing are made on the way down, and stay when a later one cannot be made. -/
def descend : List (Nat × Nat) → Levels → Drawing (Bool × Levels)
  | [], t => .done (true,t)
  | key :: rest, t =>
    if t.has key then descend rest t
    else .ask (fun drawn =>
      match drawn with
      | none => .done (false,t)
      | some frame => descend rest { t with tables := (key,frame) :: t.tables })

/- The entry of a page, once there is a table for it. -/
def Levels.enter (page : Page) (frame : PhysFrame) (reached : Bool) (t : Levels) : Except MapToError Unit × Levels :=
  if reached then
    match t.leaves.lookup page with
    | some old => (.error (.pageAlreadyMapped old),t)
    | none => (.ok (),{ t with leaves := (page,frame) :: t.leaves })
  else (.error .frameAllocationFailed,t)

def mapPage (page : Page) (frame : PhysFrame) (t : Levels) : Drawing (Except MapToError Unit × Levels) := do
  let (reached,t) ← descend (path page) t
  return t.enter page frame reached

def levelMapper : Mapper Levels := ⟨fun page frame _ => mapPage page frame,fun page frame _ _ => mapPage page frame⟩

def levelPaging : Paging Levels where
  translate := fun t page => t.leaves.lookup page
  tableFrames := fun t => t.tables.map Prod.snd
  missing := fun t page => lacks t (path page)

variable {t : Levels} {keys : List (Nat × Nat)}

theorem hasMore (key other : Nat × Nat) (frame : PhysFrame) : ({ t with tables := (key,frame) :: t.tables } : Levels).has other = (key == other || t.has other) :=
  rfl

theorem lacksMore {key : Nat × Nat} (fresh : key ∉ keys) (frame : PhysFrame) :
    lacks { t with tables := (key,frame) :: t.tables } keys = lacks t keys := by
  refine List.countP_congr fun other mem => ?_
  have differs : (key == other) = false := beq_eq_false_iff_ne.mpr (fun same => fresh (same ▸ mem))
  rw [hasMore,differs,Bool.false_or]

/- What the way down leaves alone. -/
theorem descendKeeps {s : List PhysFrame} (given : List PhysFrame) (keys : List (Nat × Nat)) (t : Levels) (known : ∀ f ∈ t.tables.map Prod.snd, f ∈ s ∨ f ∈ given) :
    Clients.Returns allocateFrame given (fun handed r => r.2.leaves = t.leaves ∧ ∀ f ∈ r.2.tables.map Prod.snd, f ∈ s ∨ f ∈ handed)
      (descend keys t) := by
  induction keys generalizing t given with
  | nil => exact Clients.returnsDone ⟨rfl,known⟩
  | cons key rest ih =>
    rw [descend]
    split
    · exact ih given t known
    · refine Clients.returnsAsk fun x => ?_
      cases x with
      | none =>
        rw [Option.toList,List.append_nil]
        exact Clients.returnsDone ⟨rfl,known⟩
      | some frame =>
        refine ih (given ++ [frame]) { t with tables := (key,frame) :: t.tables } fun f mem => ?_
        rcases List.mem_cons.mp mem with rfl | before
        · exact .inr (List.mem_append_right _ (List.mem_singleton.mpr rfl))
        · exact (known f before).imp_right (List.mem_append_left _)

/- The way down ends at the page exactly where there is a frame for each table it lacks. -/
theorem descendReaches (apart : keys.Nodup) (t : Levels) (frames : BootInfoFrameAllocator) :
    (∃ t' frames', (serve allocateFrame (descend keys t) frames).result = .ok ((true,t'),frames')) ↔ Supplies (lacks t keys) frames := by
  induction keys generalizing t frames with
  | nil => exact ⟨fun _ => trivial,fun _ => ⟨t,frames,rfl⟩⟩
  | cons key rest ih =>
    obtain ⟨fresh,apart'⟩ := List.nodup_cons.mp apart
    rw [descend,lacks,List.countP_cons]
    cases there : t.has key with
    | true => exact ih apart' t frames
    | false =>
      simp only [Bool.false_eq_true,if_false,Bool.not_false,if_true]
      rw [suppliesSucc,serve]
      cases given : allocateFrame frames with
      | error panic =>
        constructor
        · rintro ⟨t',frames',same⟩
          cases same
        · rintro ⟨frame,same,-⟩
          cases same
      | ok r =>
        obtain ⟨x,after⟩ := r
        obtain rfl := allocateNext given
        cases x with
        | none =>
          constructor
          · rintro ⟨t',frames',same⟩
            cases same
          · rintro ⟨frame,same,-⟩
            cases same
        | some frame =>
          have later := ih apart' { t with tables := (key,frame) :: t.tables } (past frames 1)
          rw [lacksMore fresh] at later
          refine later.trans ⟨fun more => ⟨frame,rfl,more⟩,?_⟩
          rintro ⟨-,-,more⟩
          exact more

/- It takes a frame for each of them, and afterwards none of them is missing. -/
theorem descendEnds (apart : keys.Nodup) {t t' : Levels} {frames frames' : BootInfoFrameAllocator}
    (h : (serve allocateFrame (descend keys t) frames).result = .ok ((true,t'),frames')) :
    frames' = past frames (lacks t keys) ∧ (∀ key, t.has key = true → t'.has key = true) ∧ ∀ key ∈ keys, t'.has key = true := by
  induction keys generalizing t frames with
  | nil =>
    cases h
    exact ⟨rfl,fun _ has => has,nofun⟩
  | cons key rest ih =>
    obtain ⟨fresh,apart'⟩ := List.nodup_cons.mp apart
    rw [descend] at h
    rw [lacks,List.countP_cons]
    cases there : t.has key with
    | true =>
      rw [there] at h
      obtain ⟨spent,kept,made⟩ := ih apart' h
      exact ⟨spent,kept,List.forall_mem_cons.mpr ⟨kept key there,made⟩⟩
    | false =>
      rw [there] at h
      simp only [Bool.false_eq_true,if_false,serve] at h
      cases given : allocateFrame frames with
      | error panic =>
        rw [given] at h
        cases h
      | ok r =>
        obtain ⟨x,after⟩ := r
        obtain rfl := allocateNext given
        rw [given] at h
        cases x with
        | none => cases h
        | some frame =>
          obtain ⟨spent,kept,made⟩ := ih apart' h
          rw [lacksMore fresh,pastPast,Nat.add_comm] at spent
          have now : ({ t with tables := (key,frame) :: t.tables } : Levels).has key = true := by
            rw [hasMore,beq_self_eq_true,Bool.true_or]
          have before (other : Nat × Nat) (has : t.has other = true) : ({ t with tables := (key,frame) :: t.tables } : Levels).has other = true := by
            rw [hasMore,has,Bool.or_true]
          exact ⟨spent,fun other has => kept other (before other has),List.forall_mem_cons.mpr ⟨kept key now,made⟩⟩

theorem descendNone (there : ∀ key ∈ keys, t.has key = true) (frames : BootInfoFrameAllocator) :
    serve allocateFrame (descend keys t) frames = ⟨[],.ok ((true,t),frames)⟩ := by
  induction keys with
  | nil => rfl
  | cons key rest ih =>
    rw [descend,if_pos (there key List.mem_cons_self)]
    exact ih fun other mem => there other (List.mem_cons_of_mem _ mem)

theorem pathApart (page : Page) : (path page).Nodup := by
  refine List.Nodup.map (fun a b same => congrArg Prod.fst same) ?_
  decide

/- Two pages of one lowest table have the same way down. -/
theorem pathNeighbours {page other : Page} (near : Neighbours page other) : path page = path other := by
  have upper (a b : Nat) : a / 2 ^ (21 + b) = a / 2 ^ 21 / 2 ^ b := by rw [Nat.pow_add,Nat.div_div_eq_div_mul]
  refine List.map_congr_left fun bits mem => ?_
  obtain ⟨b,rfl⟩ : ∃ b, bits = 21 + b := Nat.exists_eq_add_of_le (by
    revert bits
    decide)
  rw [upper,upper,near]

/- What mapping a page returns, by the way down. -/
theorem mapPageServed (page : Page) (frame : PhysFrame) (t : Levels) (frames : BootInfoFrameAllocator) :
    serve allocateFrame (mapPage page frame t) frames = ⟨(serve allocateFrame (descend (path page) t) frames).handed,
      (serve allocateFrame (descend (path page) t) frames).result.map (fun r => (r.1.2.enter page frame r.1.1,r.2))⟩ := by
  rw [mapPage,Clients.serveBind]
  cases down : serve allocateFrame (descend (path page) t) frames with
  | mk handed result =>
    cases result with
    | error panic => rfl
    | ok r => exact congrArg (Clients.Served.mk · _) (List.append_nil handed)

theorem mapPageReturned {page : Page} {frame : PhysFrame} {t after : Levels} {frames frames' : BootInfoFrameAllocator} {result : Except MapToError Unit}
    (h : (serve allocateFrame (mapPage page frame t) frames).result = .ok ((result,after),frames')) :
    ∃ reached t', (serve allocateFrame (descend (path page) t) frames).result = .ok ((reached,t'),frames') ∧
      t'.enter page frame reached = (result,after) := by
  obtain ⟨⟨⟨reached,t'⟩,left⟩,down,entered⟩ := Clients.resultBindOk.mp h
  have same : (t'.enter page frame reached,left) = ((result,after),frames') := Except.ok.inj entered
  obtain ⟨entered',rfl⟩ := Prod.mk.inj same
  exact ⟨reached,t',down,entered'⟩

/- An entry is made exactly in the table of a page that has none. -/
theorem enterCases {page : Page} {frame : PhysFrame} {reached : Bool} {t after : Levels} {result : Except MapToError Unit}
    (h : t.enter page frame reached = (result,after)) :
    (result = .ok () ∧ reached = true ∧ t.leaves.lookup page = none ∧ after = { t with leaves := (page,frame) :: t.leaves }) ∨
      (result ≠ .ok () ∧ (reached = true → t.leaves.lookup page ≠ none) ∧ after = t) := by
  unfold Levels.enter at h
  split at h
  · split at h
    · rename_i found
      cases h
      exact .inr ⟨nofun,fun _ none_ => (nomatch found.symm.trans none_),rfl⟩
    · rename_i found
      cases h
      exact .inl ⟨rfl,by assumption,found,rfl⟩
  · rename_i short
    cases h
    exact .inr ⟨nofun,fun reached_ => absurd reached_ short,rfl⟩

theorem levelMaps : Maps levelPaging mapPage where
  mapped := by
    intro page frame before frames result after frames' h
    obtain ⟨reached,t',down,entered⟩ := mapPageReturned h
    have handed : (serve allocateFrame (mapPage page frame before) frames).handed = (serve allocateFrame (descend (path page) before) frames).handed := by
      rw [mapPageServed]
    obtain ⟨leaves,tables⟩ := descendKeeps [] (path page) before (fun f mem => .inl mem) frames _ _ down
    rw [List.nil_append,← handed] at tables
    rcases enterCases entered with ⟨rfl,-,-,rfl⟩ | ⟨failed,-,rfl⟩
    · refine ⟨fun _ => List.lookup_cons_self,fun other => absurd rfl other,fun other differs => ?_,tables⟩
      change List.lookup other ((page,frame) :: t'.leaves) = List.lookup other before.leaves
      rw [List.lookup_cons,beq_false_of_ne differs,leaves]
    · refine ⟨fun same => absurd same failed,fun _ => ?_,fun other _ => ?_,tables⟩
      all_goals
        change List.lookup _ after.leaves = List.lookup _ before.leaves
        rw [leaves]
  succeeds := by
    intro page frame before frames
    constructor
    · rintro ⟨after,frames',h⟩
      obtain ⟨reached,t',down,entered⟩ := mapPageReturned h
      obtain ⟨leaves,-⟩ := descendKeeps [] (path page) before (fun f mem => .inl mem) frames _ _ down
      rcases enterCases entered with ⟨-,rfl,free,-⟩ | ⟨failed,-⟩
      · have free' : before.leaves.lookup page = none := leaves ▸ free
        exact ⟨free',(descendReaches (pathApart page) before frames).mp ⟨t',frames',down⟩⟩
      · exact absurd rfl failed
    · rintro ⟨free,supplies⟩
      obtain ⟨t',frames',down⟩ := (descendReaches (pathApart page) before frames).mpr supplies
      obtain ⟨leaves,-⟩ := descendKeeps [] (path page) before (fun f mem => .inl mem) frames _ _ down
      have free' : t'.leaves.lookup page = none := leaves ▸ free
      refine ⟨{ t' with leaves := (page,frame) :: t'.leaves },frames',?_⟩
      rw [mapPageServed,down]
      change Except.ok (t'.enter page frame true,frames') = _
      rw [Levels.enter,if_pos rfl,free']

/- The mapper of four levels is relied on rightly. -/
theorem levelFrugal : Frugal levelPaging levelMapper where
  mapTo := fun _ => levelMaps
  withTableFlags := fun _ _ => levelMaps
  spends := by
    intro page frame flags parent before frames after frames' h
    obtain ⟨reached,t',down,entered⟩ := mapPageReturned h
    rcases enterCases entered with ⟨-,rfl,-,rfl⟩ | ⟨failed,-⟩
    · obtain ⟨spent,-,made⟩ := descendEnds (pathApart page) down
      refine ⟨spent,fun other near => List.countP_eq_zero.mpr fun key mem => ?_⟩
      rw [← pathNeighbours near] at mem
      have there : t'.has key = true := made key mem
      change ¬(!t'.has key) = true
      rw [there]
      decide
    · exact absurd rfl failed
  occupied := by
    intro page frame flags parent before frames whole leads
    have there : ∀ key ∈ path page, before.has key = true := by
      intro key mem
      simpa using List.countP_eq_zero.mp whole key mem
    have down : serve allocateFrame (descend (path page) before) frames = ⟨[],.ok ((true,before),frames)⟩ := descendNone there frames
    obtain ⟨old,found⟩ := Option.ne_none_iff_exists'.mp leads
    refine ⟨.pageAlreadyMapped old,before,?_⟩
    change (serve allocateFrame (mapPage page frame before) frames).result = _
    rw [mapPageServed,down]
    change Except.ok (before.enter page frame true,frames) = _
    have found' : before.leaves.lookup page = some old := found
    rw [Levels.enter,if_pos rfl,found']

end Levels

end Officium.PageTables
