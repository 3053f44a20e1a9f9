import Mathlib.Data.List.Forall2
import Officium.Kernel.UserPages

/-! The memory behind the heap. Where `init_heap` returns `Ok`, every byte of the heap is backed by a byte of its own, in frames
that nobody had before and that hold no page table; whatever it returns, no page outside the heap leads elsewhere than before. -/
namespace Officium.Heap
open Clients (serve stretch Returns returnsDone returnsBind returnsDraw returnsWeaken)
open Frames PageTables UserPages
open Plays (play)

def heapPages : List Page := pageRange HEAP_START (HEAP_START + HEAP_SIZE - 1)

section Pages

theorem pageRangeNodup (first last : Nat) : (pageRange first last).Nodup := by
  refine List.nodup_range.map fun i j same => ?_
  have starts := congrArg Page.startAddress same
  unfold frameSize at starts
  dsimp only at starts
  omega

/- The pages of the range are those that have an address of it. -/
theorem pageRangeMem {first last : Nat} (order : first ≤ last) (page : Page) : page ∈ pageRange first last ↔
    ∃ a, first ≤ a ∧ a ≤ last ∧ page.startAddress = a - a % frameSize := by
  unfold pageRange
  rw [List.mem_map]
  constructor
  · rintro ⟨i,inside,rfl⟩
    have i_ := List.mem_range.mp inside
    refine ⟨max first (first - first % frameSize + frameSize * i),?_⟩
    unfold frameSize at i_ ⊢
    dsimp only
    omega
  · rintro ⟨a,above,below,start⟩
    refine ⟨(a - (first - first % frameSize)) / frameSize,List.mem_range.mpr ?_,pageSame.mp ?_⟩
    · unfold frameSize
      omega
    · rw [start]
      unfold frameSize
      dsimp only
      omega

end Pages

section Laying
variable {μ : Type} {tables : Mapper μ} (paging : Paging μ) (before : μ)

def Leads (mapper : μ) (page : Page) (frame : PhysFrame) : Prop := paging.translate mapper page = some frame

/- These pages have got a frame each; the other frames that were handed out went into tables, or nowhere. -/
structure Laid (pages : List Page) (handed : List PhysFrame) (mapper : μ) : Prop where
  backed : ∃ frames spent, handed.Perm (frames ++ spent) ∧ List.Forall₂ (Leads paging mapper) pages frames ∧
    ∀ table ∈ paging.tableFrames mapper, table ∈ paging.tableFrames before ∨ table ∈ spent
  others : ∀ other, other ∉ pages → paging.translate mapper other = paging.translate before other

variable {paging before} {pages : List Page} {handed : List PhysFrame} {mapper : μ}

theorem laidNone : Laid paging before [] [] before :=
  ⟨⟨[],[],.nil,.nil,fun _ mem => .inl mem⟩,fun _ _ => rfl⟩

/- Frames that were handed out and not used for a page. -/
theorem laidMore (laid : Laid paging before pages handed mapper) (later : List PhysFrame) : Laid paging before pages (handed ++ later) mapper := by
  obtain ⟨frames,spent,all,leads,tables⟩ := laid.backed
  refine ⟨⟨frames,spent ++ later,?_,leads,fun table mem => (tables table mem).imp_right (List.mem_append_left later)⟩,laid.others⟩
  rw [← List.append_assoc]
  exact all.append_right later

theorem leadsSame {page : Page} {frame : PhysFrame} {later : List PhysFrame} {result : Except MapToError Unit} {after : μ} (fresh : page ∉ pages)
    (mapped : Mapped paging page frame mapper later result after) {frames : List PhysFrame} (leads : List.Forall₂ (Leads paging mapper) pages frames) :
    List.Forall₂ (Leads paging after) pages frames := by
  refine (List.forall₂_iff_get.mpr ⟨leads.length_eq,fun i inside inside' => ?_⟩)
  have here := leads.get inside inside'
  have other : pages.get ⟨i,inside⟩ ≠ page := fun same => fresh (same ▸ List.get_mem pages ⟨i,inside⟩)
  exact (mapped.others _ other).trans here

theorem laidPage {page : Page} {frame : PhysFrame} {later : List PhysFrame} {after : μ} (laid : Laid paging before pages handed mapper)
    (fresh : page ∉ pages) (mapped : Mapped paging page frame mapper later (.ok ()) after) :
    Laid paging before (pages ++ [page]) (handed ++ [frame] ++ later) after := by
  obtain ⟨frames,spent,all,leads,tables⟩ := laid.backed
  refine ⟨⟨frames ++ [frame],spent ++ later,?_,?_,fun table mem => ?_⟩,fun other out => ?_⟩
  · have swap : (handed ++ [frame]).Perm (frames ++ [frame] ++ spent) := by
      rw [List.append_assoc]
      exact (all.append_right [frame]).trans (by rw [List.append_assoc]; exact List.perm_append_comm.append_left frames)
    rw [← List.append_assoc]
    exact swap.append_right later
  · exact List.rel_append (leadsSame fresh mapped leads) (.cons (mapped.installs rfl) .nil)
  · rcases mapped.tables table mem with old | new
    · exact (tables table old).imp_right (List.mem_append_left later)
    · exact .inr (List.mem_append_right spent new)
  · obtain ⟨out,differs⟩ := not_or.mp (fun mem => out (List.mem_append.mpr mem))
    exact (mapped.others other (fun same => differs (List.mem_singleton.mpr same))).trans (laid.others other out)

theorem laidRefused {page : Page} {frame : PhysFrame} {later : List PhysFrame} {e : MapToError} {after : μ}
    (laid : Laid paging before pages handed mapper) (fresh : page ∉ pages) (mapped : Mapped paging page frame mapper later (.error e) after) :
    Laid paging before pages (handed ++ [frame] ++ later) after := by
  obtain ⟨frames,spent,all,leads,tables⟩ := (laidMore laid [frame]).backed
  refine ⟨⟨frames,spent ++ later,?_,leadsSame fresh mapped leads,fun table mem => ?_⟩,fun other out => ?_⟩
  · rw [← List.append_assoc]
    exact all.append_right later
  · rcases mapped.tables table mem with old | new
    · exact (tables table old).imp_right (List.mem_append_left later)
    · exact .inr (List.mem_append_right spent new)
  · by_cases same : other = page
    · subst same
      exact (mapped.refuses nofun).trans (laid.others other out)
    · exact (mapped.others other same).trans (laid.others other out)

/- `Ok` says that all of the pages are laid; an error leaves those before it. -/
theorem mapHeapLays (faithful : Faithful paging tables) (rest : List Page) (distinct : (pages ++ rest).Nodup)
    (laid : Laid paging before pages handed mapper) :
    Returns allocateFrame handed (fun handed r => ∃ done_, done_ <+: pages ++ rest ∧ (r.1 = .ok () → done_ = pages ++ rest) ∧
      Laid paging before done_ handed r.2) (mapHeap tables rest mapper) := by
  induction rest generalizing pages handed mapper with
  | nil => exact returnsDone ⟨pages,List.prefix_append pages [],fun _ => (List.append_nil pages).symm,laid⟩
  | cons page rest ih =>
    have fresh : page ∉ pages := fun mem => (List.nodup_append.mp distinct).2.2 page mem page List.mem_cons_self rfl
    have shift : pages ++ page :: rest = pages ++ [page] ++ rest := (List.append_assoc pages [page] rest).symm
    refine returnsDraw fun x => ?_
    cases x with
    | none => exact returnsDone ⟨pages,List.prefix_append _ _,nofun,laidMore laid _⟩
    | some frame =>
      have maps : Returns allocateFrame (handed ++ [frame]) (fun handed' r => ∃ later, handed' = handed ++ [frame] ++ later ∧
          Mapped paging page frame mapper later r.1 r.2) (tables.mapTo page frame ⟨true,true,false⟩ mapper) :=
        fun frames r frames' returned => ⟨_,rfl,(faithful.mapTo _).mapped page frame mapper frames r.1 r.2 frames' returned⟩
      refine returnsBind (returnsWeaken maps ?_)
      rintro handed' ⟨result,after⟩ ⟨later,rfl,mapped⟩
      cases result with
      | error e => exact returnsDone ⟨pages,List.prefix_append _ _,nofun,laidRefused laid fresh mapped⟩
      | ok _ =>
        rw [shift] at distinct ⊢
        exact ih distinct (laidPage laid fresh mapped)

end Laying

section Heap
variable {μ : Type} {tables : Mapper μ} (paging : Paging μ)

def InHeap (a : Nat) : Prop := HEAP_START ≤ a ∧ a < HEAP_START + HEAP_SIZE

/- Where an access to an address goes. -/
def physical (mapper : μ) (a : Nat) : Option Nat := do
  let page ← (Page.containingAddress a).toOption
  let frame ← paging.translate mapper page
  some (frame.startAddress + a % frameSize)

variable {paging} {mapper : μ} {pages : List Page} {frames : List PhysFrame}

theorem leadsFrame (leads : List.Forall₂ (Leads paging mapper) pages frames) {page : Page} (mem : page ∈ pages) :
    ∃ frame ∈ frames, paging.translate mapper page = some frame := by
  induction leads with
  | nil => cases mem
  | cons here rest ih =>
    rcases List.mem_cons.mp mem with rfl | mem
    · exact ⟨_,List.mem_cons_self,here⟩
    · obtain ⟨frame,inside,found⟩ := ih mem
      exact ⟨frame,List.mem_cons_of_mem _ inside,found⟩

/- No two of the pages share a frame. -/
theorem leadsApart (leads : List.Forall₂ (Leads paging mapper) pages frames) (distinct : frames.Nodup) {page other : Page} (mem : page ∈ pages)
    (mem' : other ∈ pages) (same : paging.translate mapper page = paging.translate mapper other) : page = other := by
  induction leads with
  | nil => cases mem
  | @cons first _ later _ here rest ih =>
    obtain ⟨new,distinct⟩ := List.nodup_cons.mp distinct
    have elsewhere {page : Page} (mem : page ∈ later) : paging.translate mapper first ≠ paging.translate mapper page := by
      intro same
      obtain ⟨frame,inside,found⟩ := leadsFrame rest mem
      rw [found,here] at same
      cases same
      exact new inside
    rcases List.mem_cons.mp mem with rfl | behind
    · rcases List.mem_cons.mp mem' with rfl | behind'
      · rfl
      · exact absurd same (elsewhere behind')
    · rcases List.mem_cons.mp mem' with rfl | behind'
      · exact absurd same.symm (elsewhere behind)
      · exact ih distinct behind behind'

theorem heapPage {a : Nat} (inside : InHeap a) : ∃ page ∈ heapPages, Page.containingAddress a = .ok page ∧ page.startAddress = a - a % frameSize := by
  obtain ⟨above,below⟩ := inside
  have canonical : a < 2 ^ 47 := by
    unfold HEAP_START HEAP_SIZE at below
    omega
  refine ⟨⟨a - a % frameSize,alignedDown a⟩,(pageRangeMem (by decide) _).mpr ⟨a,above,Nat.le_sub_one_of_lt below,rfl⟩,if_pos (.inl canonical),rfl⟩

theorem physicalPage {a : Nat} {page : Page} {frame : PhysFrame} (there : Page.containingAddress a = .ok page)
    (leads : paging.translate mapper page = some frame) : physical paging mapper a = some (frame.startAddress + a % frameSize) := by
  unfold physical
  rw [there]
  change (paging.translate mapper page).bind _ = _
  rw [leads]
  rfl

theorem frameStart {frame other : PhysFrame} {i j : Nat} (small : i < frameSize) (small' : j < frameSize)
    (same : frame.startAddress + i = other.startAddress + j) : frame = other ∧ i = j := by
  obtain ⟨start,k,rfl⟩ := frame
  obtain ⟨start',k',rfl⟩ := other
  unfold frameSize at small small' same
  dsimp only at same
  have places : k = k' := by omega
  subst places
  exact ⟨rfl,by omega⟩

variable {memoryRegions : List MemoryRegion} {boot : μ} {calls : List Call} {m : Memory μ}

theorem initHeapLays (faithful : Faithful paging tables) {result : Except MapToError Unit} {parked : Bool} {after : BootInfoFrameAllocator}
    (returned : (served tables m .initHeap).result = .ok ((.heap result,mapper,parked),after)) :
    ∃ done_, done_ <+: heapPages ∧ (result = .ok () → done_ = heapPages) ∧ Laid paging m.mapper done_ (served tables m .initHeap).handed mapper := by
  have lays : Returns allocateFrame [] (fun handed r => ∀ result, r.1 = .heap result → ∃ done_, done_ <+: heapPages ∧
      (result = .ok () → done_ = heapPages) ∧ Laid paging m.mapper done_ handed r.2.1) (Call.client tables m .initHeap) := by
    refine returnsBind (returnsWeaken (mapHeapLays faithful heapPages (pageRangeNodup _ _) laidNone) ?_)
    rintro handed ⟨result,mapper⟩ laid
    refine returnsDone ?_
    rintro result' same
    cases same
    exact laid
  exact lays m.frames _ _ returned result rfl

/- Every byte of the heap has a byte of memory of its own, which nobody had before and which is in no page table. -/
theorem heapLaid (sound : Sound memoryRegions) (faithful : Faithful paging tables)
    (unused : ∀ table ∈ paging.tableFrames boot, table.startAddress ∉ frameStarts memoryRegions)
    (run : play (callStep tables) (.boot memoryRegions boot) calls = .ok m) {result : Except MapToError Unit} {parked : Bool}
    {after : BootInfoFrameAllocator} (returned : (served tables m .initHeap).result = .ok ((.heap result,mapper,parked),after)) :
    (∀ page, page ∉ heapPages → paging.translate mapper page = paging.translate m.mapper page) ∧
      (result = .ok () →
        (∀ a, InHeap a → ∃ frame, physical paging mapper a = some (frame.startAddress + a % frameSize) ∧
          (∃ region ∈ usable memoryRegions, frame.Inside region) ∧ frame ∉ handedOut tables calls (.boot memoryRegions boot) ∧
          frame ∉ paging.tableFrames mapper) ∧
        ∀ a b, InHeap a → InHeap b → physical paging mapper a = physical paging mapper b → a = b) := by
  obtain ⟨done_,before,whole,laid⟩ := initHeapLays faithful returned
  refine ⟨fun page out => laid.others page fun mem => out (before.subset mem),fun ok => ?_⟩
  rw [whole ok] at laid
  obtain ⟨n,handed,next,same⟩ := playHanded run
  have distinct : Clients.Distinct (frameAt m.frames) := same ▸ frameAtDistinct sound rfl
  obtain ⟨k,now,-⟩ := Clients.serveStretch allocateSequence (Call.client tables m .initHeap) m.frames
  obtain ⟨frames,spent,all,leads,spends⟩ := laid.backed
  have nodup : (frames ++ spent).Nodup := all.nodup_iff.mp (by rw [served,now]; exact Clients.stretchNodup distinct _ _)
  obtain ⟨apart,-,unspent⟩ := List.nodup_append.mp nodup
  have drawn {frame : PhysFrame} (mem : frame ∈ frames) : ∃ i, m.frames.next ≤ i ∧ frameAt m.frames i = some frame := by
    have given : frame ∈ stretch (frameAt m.frames) m.frames.next k := by
      rw [← now]
      exact all.mem_iff.mpr (List.mem_append_left spent mem)
    obtain ⟨i,there⟩ := Clients.stretchItem given
    exact ⟨i,(Clients.stretchPlace distinct given there).1,there⟩
  have new {frame : PhysFrame} (mem : frame ∈ frames) : frame ∉ handedOut tables calls (.boot memoryRegions boot) := by
    obtain ⟨i,late,there⟩ := drawn mem
    intro given
    rw [handed,← same] at given
    have place := Clients.stretchPlace distinct given there
    omega
  constructor
  · intro a inside
    obtain ⟨page,mem,there,-⟩ := heapPage inside
    obtain ⟨frame,backs,found⟩ := leadsFrame leads mem
    obtain ⟨i,-,at_⟩ := drawn backs
    refine ⟨frame,physicalPage there found,frameAtInside sound rfl (same ▸ at_),new backs,fun table => ?_⟩
    rcases spends frame table with old | spent_
    · have dealt := dealtPlay faithful dealtBoot run
      rw [List.nil_append] at dealt
      rcases dealt.tables frame old with booted | given
      · have start := frameAtStart sound rfl (same ▸ at_)
        exact unused frame booted (List.mem_of_getElem? start)
      · exact new backs given
    · exact unspent frame backs frame spent_ rfl
  · intro a b inside inside' equal
    obtain ⟨page,mem,there,start⟩ := heapPage inside
    obtain ⟨other,mem',there',start'⟩ := heapPage inside'
    obtain ⟨frame,-,found⟩ := leadsFrame leads mem
    obtain ⟨frame',-,found'⟩ := leadsFrame leads mem'
    rw [physicalPage there found,physicalPage there' found'] at equal
    obtain ⟨shared,offset⟩ := frameStart (Nat.mod_lt a (by decide)) (Nat.mod_lt b (by decide)) (Option.some.inj equal)
    have one := leadsApart leads apart mem mem' (by rw [found,found',shared])
    have starts : a - a % frameSize = b - b % frameSize := by rw [← start,← start',one]
    have := Nat.mod_le a frameSize
    have := Nat.mod_le b frameSize
    omega

/- Some memory is handed out before the heap is laid. -/
theorem heapLaidHoled : ∃ mapper parked after m, play (callStep levelMapper) (.boot holedMap bootLevels) [.allocContiguous 4] = .ok m ∧
    (served levelMapper m .initHeap).result = .ok ((.heap (.ok ()),mapper,parked),after) ∧
      ∀ a b, InHeap a → InHeap b → physical levelPaging mapper a = physical levelPaging mapper b → a = b := by
  have run : play (callStep levelMapper) (.boot holedMap bootLevels) [.allocContiguous 4] = .ok ⟨⟨holedMap,7⟩,bootLevels,false⟩ := rfl
  obtain ⟨mapper,parked,after,returned⟩ : ∃ mapper parked after,
    (served levelMapper ⟨⟨holedMap,7⟩,bootLevels,false⟩ .initHeap).result = .ok ((.heap (.ok ()),mapper,parked),after) := ⟨_,_,_,rfl⟩
  exact ⟨mapper,parked,after,_,run,returned,((heapLaid holedMapSound levelFrugal.toFaithful laidUnused run returned).2 rfl).2⟩

end Heap

end Officium.Heap
