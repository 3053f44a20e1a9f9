import Mathlib.Algebra.Ring.Nat
import Officium.Library.Clients
import Mathlib.Data.List.Pairwise

/-! Who owns which frame of physical memory. Every frame comes out of one allocator, which counts through
the usable part of the boot memory map and never goes back; its callers see it only as a source of
frames. The page-table code it is lent to is the paging crate's: any program that draws frames. -/
namespace Officium.Frames
open Clients (Client serve Served Sequence Distinct stretch)

inductive MemoryRegionKind where
  | usable
  | bootloader
  | unknownUefi (n : UInt32)
  | unknownBios (n : UInt32)
  deriving DecidableEq

structure MemoryRegion where
  start : UInt64
  end_ : UInt64
  kind : MemoryRegionKind

/- What ends the kernel instead of a call. -/
inductive Panic where
  | physAddr
  | virtAddr
  | overflow
  | unwrap

def frameSize : Nat := 4096

structure PhysFrame where
  startAddress : Nat
  aligned : frameSize ∣ startAddress
  deriving DecidableEq

structure Page where
  startAddress : Nat
  aligned : frameSize ∣ startAddress

theorem alignedDown (a : Nat) : frameSize ∣ a - a % frameSize := Nat.dvd_sub_mod a

/- Physical addresses have 52 bits. -/
def PhysFrame.containingAddress (a : Nat) : Except Panic PhysFrame :=
  if a < 2 ^ 52 then .ok ⟨a - a % frameSize,alignedDown a⟩ else .error .physAddr

/- A virtual address is canonical where its top 17 bits agree. -/
def Page.containingAddress (a : Nat) : Except Panic Page :=
  if a < 2 ^ 47 ∨ (2 ^ 64 - 2 ^ 47 ≤ a ∧ a < 2 ^ 64) then .ok ⟨a - a % frameSize,alignedDown a⟩
  else .error .virtAddr

section Allocator

structure BootInfoFrameAllocator where
  memoryRegions : List MemoryRegion
  next : Nat

def BootInfoFrameAllocator.init (memoryRegions : List MemoryRegion) : BootInfoFrameAllocator := ⟨memoryRegions,0⟩

/- `(start..end).step_by(4096)` -/
def stepBy (start end_ : Nat) : List Nat :=
  (List.range ((end_ - start + (frameSize - 1)) / frameSize)).map (start + frameSize * ·)

def usable (memoryRegions : List MemoryRegion) : List MemoryRegion :=
  memoryRegions.filter (·.kind = .usable)

def frameStarts (memoryRegions : List MemoryRegion) : List Nat :=
  (usable memoryRegions).flatMap (fun region => stepBy region.start.toNat region.end_.toNat)

def BootInfoFrameAllocator.usableFrames (frames : BootInfoFrameAllocator) : List (Except Panic PhysFrame) :=
  (frameStarts frames.memoryRegions).map PhysFrame.containingAddress

/- The iterator is lazy: the address of every frame passed over is looked at, none of a later one. -/
def nth : Nat → List (Except Panic PhysFrame) → Except Panic (Option PhysFrame)
  | _, [] => .ok none
  | 0, frame :: _ => frame.map some
  | n+1, frame :: rest => frame.bind (fun _ => nth n rest)

def allocateFrame (frames : BootInfoFrameAllocator) : Except Panic (Option PhysFrame × BootInfoFrameAllocator) := do
  let frame ← nth frames.next frames.usableFrames
  if frames.next + 1 = 2 ^ 64 then throw .overflow
  return (frame,{ frames with next := frames.next + 1 })

end Allocator

section Callers

abbrev Drawing := Client PhysFrame Panic

/- Whether a frame goes on with the run of `have_` frames from `start`. -/
def contiguous (start : Option PhysFrame) (have_ : Nat) (frame : PhysFrame) : Bool :=
  match start with
  | some s => frame.startAddress == s.startAddress + have_ * frameSize
  | none => false

/- The passes of `alloc_contiguous` that are left. -/
def contiguousLoop (count : Nat) : Nat → Option PhysFrame → Nat → Drawing (Option Nat)
  | 0, _, _ => .done none
  | n+1, start, have_ => do
    match ← Client.draw with
    | none => return none
    | some frame =>
      let goesOn := contiguous start have_ frame
      let start := if goesOn then start else some frame
      let have_ := (if goesOn then have_ else 0) + 1
      if have_ = count then
        match start with
        | some s => return some s.startAddress
        | none => .fail .unwrap
      else contiguousLoop count n start have_

def allocContiguous (count : Nat) : Drawing (Option Nat) := contiguousLoop count 4096 none 0

structure PageTableFlags where
  present : Bool
  writable : Bool
  userAccessible : Bool

inductive MapToError where
  | frameAllocationFailed
  | parentEntryHugePage
  | pageAlreadyMapped (frame : PhysFrame)

/- The page tables, changed by code outside the repository that is lent the allocator for new tables. -/
structure Mapper (μ : Type) where
  mapTo : Page → PhysFrame → PageTableFlags → μ → Drawing (Except MapToError Unit × μ)
  mapToWithTableFlags : Page → PhysFrame → PageTableFlags → PageTableFlags → μ → Drawing (Except MapToError Unit × μ)

variable {μ : Type} (tables : Mapper μ)

def mapUserPage (va : UInt64) (writable : Bool) (mapper : μ) : Drawing (Except String Unit × μ) :=
  match Page.containingAddress va.toNat with
  | .error panic => .fail panic
  | .ok page => do
    match ← Client.draw with
    | none => return (.error "out of frames",mapper)
    | some frame =>
      let flags := ⟨true,writable,true⟩
      let parent := ⟨true,true,true⟩
      let (mapped,mapper) ← tables.mapToWithTableFlags page frame flags parent mapper
      return (mapped.mapError (fun _ => "map_to failed"),mapper)

def HEAP_START : Nat := 0x444444440000
def HEAP_SIZE : Nat := 100 * 1024

/- The pages from the first address's to the last one's. -/
def pageRange (first last : Nat) : List Page :=
  let page := first - first % frameSize
  (List.range ((last - page) / frameSize + 1)).map
    (fun i => ⟨page + frameSize * i,Nat.dvd_add (alignedDown first) (Nat.dvd_mul_right _ _)⟩)

def mapHeap : List Page → μ → Drawing (Except MapToError Unit × μ)
  | [], mapper => .done (.ok (),mapper)
  | page :: rest, mapper => do
    match ← Client.draw with
    | none => return (.error .frameAllocationFailed,mapper)
    | some frame =>
      match ← tables.mapTo page frame ⟨true,true,false⟩ mapper with
      | (.error e,mapper) => return (.error e,mapper)
      | (.ok (),mapper) => mapHeap rest mapper

def initHeap (mapper : μ) : Drawing (Except MapToError Unit × μ) :=
  mapHeap tables (pageRange HEAP_START (HEAP_START + HEAP_SIZE - 1)) mapper

end Callers

section Calls

/- `parked` says that `MEM` holds the mapper and the allocator. -/
structure Memory (μ : Type) where
  frames : BootInfoFrameAllocator
  mapper : μ
  parked : Bool

def Memory.boot {μ : Type} (memoryRegions : List MemoryRegion) (mapper : μ) : Memory μ :=
  ⟨.init memoryRegions,mapper,false⟩

inductive Call where
  | allocateFrame
  | allocContiguous (count : Nat)
  | initHeap
  | initGlobal
  | mapUserPage (va : UInt64) (writable : Bool)

inductive Reply where
  | frame (frame : Option PhysFrame)
  | address (address : Option Nat)
  | heap (result : Except MapToError Unit)
  | parked
  | mapped (result : Except String Unit)

variable {μ : Type} (tables : Mapper μ)

def Call.client (m : Memory μ) : Call → Drawing (Reply × μ × Bool)
  | .allocateFrame => do return (.frame (← Client.draw),m.mapper,m.parked)
  | .allocContiguous count => do return (.address (← Frames.allocContiguous count),m.mapper,m.parked)
  | .initHeap => do
    let (result,mapper) ← Frames.initHeap tables m.mapper
    return (.heap result,mapper,m.parked)
  | .initGlobal => .done (.parked,m.mapper,true)
  | .mapUserPage va writable =>
    if m.parked then do
      let (result,mapper) ← Frames.mapUserPage tables va writable m.mapper
      return (.mapped result,mapper,m.parked)
    else .done (.mapped (.error "memory subsystem not initialized"),m.mapper,m.parked)

/- One call as seen from the allocator: the frames it was handed, and its reply unless it panicked. -/
structure Event where
  call : Call
  handed : List PhysFrame
  reply : Except Panic Reply

def served (m : Memory μ) (call : Call) : Served BootInfoFrameAllocator PhysFrame Panic (Reply × μ × Bool) :=
  serve allocateFrame (call.client tables m) m.frames

def runCalls : List Call → Memory μ → List Event
  | [], _ => []
  | call :: rest, m =>
    let now := served tables m call
    match now.result with
    | .error panic => [⟨call,now.handed,.error panic⟩]
    | .ok ((reply,mapper,parked),frames) => ⟨call,now.handed,.ok reply⟩ :: runCalls rest ⟨frames,mapper,parked⟩

end Calls

section Order

/- The frame at a place of the map, unless its address is out of range. -/
def frameAt (frames : BootInfoFrameAllocator) (i : Nat) : Option PhysFrame :=
  frames.usableFrames[i]?.bind Except.toOption

theorem nthItem {n : Nat} {l : List (Except Panic PhysFrame)} {x : Option PhysFrame} (h : nth n l = .ok x) :
    x = l[n]?.bind Except.toOption := by
  induction l generalizing n with
  | nil => cases n <;> (cases h; rfl)
  | cons frame rest ih =>
    cases frame with
    | error panic => cases n <;> cases h
    | ok frame =>
      cases n with
      | zero => cases h; rfl
      | succ n => exact ih h

theorem allocateSequence : Sequence allocateFrame BootInfoFrameAllocator.next frameAt := by
  intro frames x after h
  unfold allocateFrame at h
  cases found : nth frames.next frames.usableFrames with
  | error panic =>
    rw [found] at h
    cases h
  | ok frame =>
    rw [found] at h
    change (if frames.next + 1 = 2 ^ 64 then _ else _) = _ at h
    split at h
    · cases h
    · cases h
      exact ⟨nthItem found,rfl,rfl⟩

end Order

section Map
variable {memoryRegions : List MemoryRegion}

def MemoryRegion.Aligned (region : MemoryRegion) : Prop :=
  frameSize ∣ region.start.toNat ∧ frameSize ∣ region.end_.toNat

def MemoryRegion.Holds (region : MemoryRegion) (a : Nat) : Prop := region.start.toNat ≤ a ∧ a < region.end_.toNat

def MemoryRegion.Apart (region other : MemoryRegion) : Prop := ∀ a, region.Holds a → ¬other.Holds a

/- A frame all of whose bytes lie in the region. -/
def PhysFrame.Inside (frame : PhysFrame) (region : MemoryRegion) : Prop :=
  region.start.toNat ≤ frame.startAddress ∧ frame.startAddress + frameSize ≤ region.end_.toNat

/- What the loader promises of the usable part of its map. -/
structure Sound (memoryRegions : List MemoryRegion) : Prop where
  aligned : ∀ region ∈ usable memoryRegions, region.Aligned
  disjoint : (usable memoryRegions).Pairwise MemoryRegion.Apart

theorem stepByMem {start end_ a : Nat} (h : a ∈ stepBy start end_) : ∃ i, a = start + frameSize * i ∧ a < end_ := by
  obtain ⟨i,below,rfl⟩ := List.mem_map.mp h
  have small := List.mem_range.mp below
  refine ⟨i,rfl,?_⟩
  unfold frameSize at small ⊢
  omega

theorem stepByNodup (start end_ : Nat) : (stepBy start end_).Nodup := by
  refine List.Nodup.map ?_ List.nodup_range
  intro i j same
  change start + 4096 * i = start + 4096 * j at same
  omega

theorem stepByInside {region : MemoryRegion} (aligned : region.Aligned) {a : Nat}
    (h : a ∈ stepBy region.start.toNat region.end_.toNat) :
    frameSize ∣ a ∧ region.start.toNat ≤ a ∧ a + frameSize ≤ region.end_.toNat := by
  obtain ⟨i,rfl,below⟩ := stepByMem h
  obtain ⟨start,end_⟩ := aligned
  refine ⟨Nat.dvd_add start (Nat.dvd_mul_right _ _),Nat.le_add_right _ _,?_⟩
  unfold frameSize at start end_ below ⊢
  omega

theorem startsInside (sound : Sound memoryRegions) {a : Nat} (h : a ∈ frameStarts memoryRegions) :
    ∃ region ∈ usable memoryRegions, frameSize ∣ a ∧ region.start.toNat ≤ a ∧ a + frameSize ≤ region.end_.toNat := by
  obtain ⟨region,mem,stepped⟩ := List.mem_flatMap.mp h
  exact ⟨region,mem,stepByInside (sound.aligned region mem) stepped⟩

theorem startsNodup (sound : Sound memoryRegions) : (frameStarts memoryRegions).Nodup := by
  refine List.nodup_flatMap.mpr ⟨fun region _ => stepByNodup _ _,?_⟩
  refine sound.disjoint.imp ?_
  intro region other apart a here there
  obtain ⟨i,same,below⟩ := stepByMem here
  obtain ⟨j,same',below'⟩ := stepByMem there
  exact apart a ⟨by omega,below⟩ ⟨by omega,below'⟩

/- On a sound map the frame at a place starts where the map says. -/
theorem frameAtStart (sound : Sound memoryRegions) {frames : BootInfoFrameAllocator}
    (same : frames.memoryRegions = memoryRegions) {i : Nat} {frame : PhysFrame} (h : frameAt frames i = some frame) :
    (frameStarts memoryRegions)[i]? = some frame.startAddress := by
  unfold frameAt BootInfoFrameAllocator.usableFrames at h
  rw [List.getElem?_map,same] at h
  cases found : (frameStarts memoryRegions)[i]? with
  | none =>
    rw [found] at h
    cases h
  | some a =>
    rw [found] at h
    obtain ⟨-,-,aligned,-⟩ := startsInside sound (List.mem_of_getElem? found)
    change (PhysFrame.containingAddress a).toOption = some frame at h
    unfold PhysFrame.containingAddress at h
    split at h
    · cases h
      simp [Nat.mod_eq_zero_of_dvd aligned]
    · cases h

theorem frameAtDistinct (sound : Sound memoryRegions) {frames : BootInfoFrameAllocator}
    (same : frames.memoryRegions = memoryRegions) : Distinct (frameAt frames) := by
  intro i j frame here there
  have first := frameAtStart sound same here
  have second := frameAtStart sound same there
  obtain ⟨within,-⟩ := List.getElem?_eq_some_iff.mp first
  exact (List.getElem?_inj within (startsNodup sound)).mp (first.trans second.symm)

theorem frameAtInside (sound : Sound memoryRegions) {frames : BootInfoFrameAllocator}
    (same : frames.memoryRegions = memoryRegions) {i : Nat} {frame : PhysFrame} (h : frameAt frames i = some frame) :
    ∃ region ∈ usable memoryRegions, frame.Inside region := by
  obtain ⟨region,mem,-,inside⟩ := startsInside sound (List.mem_of_getElem? (frameAtStart sound same h))
  exact ⟨region,mem,inside⟩

end Map

section Contiguous

/- The frames from address `a` on, `count` of them, are among those handed out. -/
def Owned (handed : List PhysFrame) (a count : Nat) : Prop :=
  ∀ i < count, ∃ frame ∈ handed, frame.startAddress = a + i * frameSize

theorem ownedFirst (frame : PhysFrame) {handed : List PhysFrame} (mem : frame ∈ handed) :
    Owned handed frame.startAddress 1 := by
  intro i small
  obtain rfl : i = 0 := by omega
  exact ⟨frame,mem,by rw [Nat.zero_mul,Nat.add_zero]⟩

theorem ownedSucc {handed : List PhysFrame} {a count : Nat} {frame : PhysFrame} (owned : Owned handed a count)
    (mem : frame ∈ handed) (next : frame.startAddress = a + count * frameSize) : Owned handed a (count + 1) := by
  intro i small
  rcases Nat.lt_succ_iff_lt_or_eq.mp small with before | rfl
  · exact owned i before
  · exact ⟨frame,mem,next⟩

theorem ownedMore {handed : List PhysFrame} {a count : Nat} (owned : Owned handed a count) (later : List PhysFrame) :
    Owned (handed ++ later) a count := by
  intro i small
  obtain ⟨frame,mem,at_⟩ := owned i small
  exact ⟨frame,List.mem_append_left later mem,at_⟩

/- The run of frames that the search has found so far. -/
def Running (handed : List PhysFrame) (start : Option PhysFrame) (have_ : Nat) : Prop :=
  ∀ s, start = some s → Owned handed s.startAddress have_

/- One pass: the frame drawn goes on with the run or starts one. -/
theorem runningNext {handed : List PhysFrame} {start : Option PhysFrame} {have_ : Nat}
    (running : Running handed start have_) (frame : PhysFrame) :
    Running (handed ++ [frame]) (if contiguous start have_ frame then start else some frame)
      ((if contiguous start have_ frame then have_ else 0) + 1) := by
  intro s found
  have drawn : frame ∈ handed ++ [frame] := List.mem_append_right handed (List.mem_singleton.mpr rfl)
  cases on : contiguous start have_ frame with
  | false =>
    rw [on] at found
    obtain rfl : frame = s := Option.some.inj found
    exact ownedFirst frame drawn
  | true =>
    rw [on] at found
    obtain rfl : start = some s := found
    exact ownedSucc (ownedMore (running s rfl) [frame]) drawn (eq_of_beq on)

/- An address returned is that of a run of `count` frames drawn since the search began. -/
theorem contiguousOwned {count n : Nat} {start : Option PhysFrame} {have_ : Nat} {frames : BootInfoFrameAllocator}
    {handed : List PhysFrame} (running : Running handed start have_) {a : Nat} {after : BootInfoFrameAllocator}
    (h : (serve allocateFrame (contiguousLoop count n start have_) frames).result = .ok (some a,after)) :
    Owned (handed ++ (serve allocateFrame (contiguousLoop count n start have_) frames).handed) a count := by
  induction n generalizing start have_ frames handed with
  | zero => cases h
  | succ n ih =>
    rw [contiguousLoop] at h ⊢
    simp only [Clients.serveBind,Client.draw,serve] at h ⊢
    cases given : allocateFrame frames with
    | error panic =>
      rw [given] at h
      cases h
    | ok r =>
      obtain ⟨x,frames'⟩ := r
      rw [given] at h
      cases x with
      | none => cases h
      | some frame =>
        have next := runningNext running frame
        simp only [Option.toList,List.append_nil,← List.append_assoc] at h ⊢
        generalize (if contiguous start have_ frame then start else some frame) = start' at next h ⊢
        generalize (if contiguous start have_ frame then have_ else 0) + 1 = have' at next h ⊢
        by_cases full : have' = count
        · rw [if_pos full] at h ⊢
          cases start' with
          | none => cases h
          | some s =>
            cases h
            exact full ▸ ownedMore (next s rfl) []
        · rw [if_neg full] at h ⊢
          exact ih next h

end Contiguous

section Runs
variable {μ : Type} {tables : Mapper μ}

theorem runCallsStretch (tables : Mapper μ) (calls : List Call) (m : Memory μ) :
    ∃ k, (runCalls tables calls m).flatMap Event.handed = stretch (frameAt m.frames) m.frames.next k := by
  induction calls generalizing m with
  | nil => exact ⟨0,rfl⟩
  | cons call rest ih =>
    obtain ⟨k,handed,ended⟩ := Clients.serveStretch allocateSequence (call.client tables m) m.frames
    rw [runCalls]
    cases reply : (served tables m call).result with
    | error panic => exact ⟨k,(List.append_nil _).trans handed⟩
    | ok r =>
      obtain ⟨⟨reply',mapper,parked⟩,frames⟩ := r
      obtain ⟨next,same⟩ := ended _ _ reply
      obtain ⟨l,later⟩ := ih ⟨frames,mapper,parked⟩
      refine ⟨k + l,?_⟩
      rw [← Clients.stretchAppend,← handed,← next,← same,← later]
      rfl

/- Every event of a run is one call, made on some state of the memory subsystem. -/
theorem runCallsServed {calls : List Call} {m : Memory μ} {event : Event} (h : event ∈ runCalls tables calls m) :
    ∃ m' : Memory μ, event.handed = (served tables m' event.call).handed ∧
      event.reply = (served tables m' event.call).result.map (·.1.1) := by
  induction calls generalizing m with
  | nil => cases h
  | cons call rest ih =>
    rw [runCalls] at h
    cases reply : (served tables m call).result with
    | error panic =>
      rw [reply] at h
      obtain rfl := List.mem_singleton.mp h
      exact ⟨m,rfl,by rw [reply]; rfl⟩
    | ok r =>
      obtain ⟨⟨reply',mapper,parked⟩,frames⟩ := r
      rw [reply] at h
      rcases List.mem_cons.mp h with rfl | later
      · exact ⟨m,rfl,by rw [reply]; rfl⟩
      · exact ih later

theorem servedOwned {m : Memory μ} {count a : Nat}
    (h : (served tables m (.allocContiguous count)).result.map (·.1.1) = .ok (.address (some a))) :
    Owned (served tables m (.allocContiguous count)).handed a count := by
  unfold served Call.client at h ⊢
  simp only [Clients.serveBind] at h ⊢
  cases searched : (serve allocateFrame (allocContiguous count) m.frames).result with
  | error panic =>
    rw [searched] at h
    cases h
  | ok r =>
    obtain ⟨x,after⟩ := r
    rw [searched] at h
    cases h
    have running : Running [] none 0 := fun s none => by cases none
    have owned := contiguousOwned running searched
    exact ownedMore owned []

/- Each event was handed frames of its own, whole and usable, and a buffer is made of its call's frames. -/
theorem framesOwned (tables : Mapper μ) {memoryRegions : List MemoryRegion} (sound : Sound memoryRegions)
    (mapper : μ) (calls : List Call) :
    ((runCalls tables calls (.boot memoryRegions mapper)).flatMap Event.handed).Nodup ∧
      ∀ event ∈ runCalls tables calls (.boot memoryRegions mapper),
        (∀ frame ∈ event.handed, ∃ region ∈ usable memoryRegions, frame.Inside region) ∧
          ∀ count a, event.call = .allocContiguous count → event.reply = .ok (.address (some a)) →
            Owned event.handed a count := by
  obtain ⟨k,handed⟩ := runCallsStretch tables calls (.boot memoryRegions mapper)
  refine ⟨?_,fun event mem => ⟨fun frame drawn => ?_,?_⟩⟩
  · rw [handed]
    exact Clients.stretchNodup (frameAtDistinct sound rfl) _ _
  · have drawn' := List.mem_flatMap_of_mem mem drawn
    rw [handed] at drawn'
    obtain ⟨i,found⟩ := Clients.stretchItem drawn'
    exact frameAtInside sound rfl found
  · obtain ⟨m,same,answered⟩ := runCallsServed mem
    intro count a call reply
    rw [same,call]
    rw [answered,call] at reply
    exact servedOwned reply

/- A map with a hole after its third usable frame, and page tables that take a frame for every page. -/
def holedMap : List MemoryRegion :=
  [⟨0x1000,0x4000,.usable⟩,⟨0x4000,0x6000,.bootloader⟩,⟨0x6000,0x40000,.usable⟩]

def drawTable (_ : Unit) : Drawing (Except MapToError Unit × Unit) := do
  match ← Client.draw with
  | none => return (.error .frameAllocationFailed,())
  | some _ => return (.ok (),())

def onlyTables : Mapper Unit := ⟨fun _ _ _ => drawTable,fun _ _ _ _ => drawTable⟩

def bootCalls : List Call := [.allocateFrame,.allocContiguous 3,.initGlobal,.mapUserPage 0x40000000 true]

theorem holedMapSound : Sound holedMap where
  aligned := by
    unfold MemoryRegion.Aligned
    decide
  disjoint := by
    refine List.pairwise_pair.mpr ?_
    rintro a ⟨-,below⟩ ⟨above,-⟩
    have low : a < 0x4000 := below
    have high : 0x6000 ≤ a := above
    omega

/- The buffer lies past the hole; the two frames before it that the search drew stay unused. -/
theorem framesOwnedHoled :
    (runCalls onlyTables bootCalls (.boot holedMap ())).map (·.handed.map PhysFrame.startAddress) =
        [[0x1000],[0x2000,0x3000,0x6000,0x7000,0x8000],[],[0x9000,0xa000]] ∧
      ((runCalls onlyTables bootCalls (.boot holedMap ())).flatMap Event.handed).Nodup :=
  ⟨by decide,(framesOwned onlyTables holedMapSound () bootCalls).1⟩

end Runs

end Officium.Frames
