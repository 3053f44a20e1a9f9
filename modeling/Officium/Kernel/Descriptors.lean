import Mathlib.Data.List.Perm.Subperm
import Officium.Library.Streaks
import Officium.Kernel.Frames

/-! The addresses the sound card is programmed with. The card takes 32 bits of an address; the pages come from
wherever the search for five consecutive frames ends up, so the addresses are true exactly where that is below
4 GiB. -/
namespace Officium.Ac97
open Clients (Client serve)
open Frames
open Streaks (StreakAt First Standing)

/- Port offsets of the mixer and of the PCM-out bus master channel. -/
def MIXER_RESET : UInt16 := 0x00
def MIXER_MASTER_VOLUME : UInt16 := 0x02
def MIXER_PCM_OUT_VOLUME : UInt16 := 0x18
def PO_BDBAR : UInt16 := 0x10
def PO_LVI : UInt16 := 0x15
def PO_SR : UInt16 := 0x16
def PO_CR : UInt16 := 0x1b
def GLOB_CNT : UInt16 := 0x2c

def SR_INT_BITS : UInt16 := 0x1c
def CR_RPBM : UInt8 := 0x01
def CR_RR : UInt8 := 0x02
def CR_IOCE : UInt8 := 0x10

def BDL_ENTRIES : Nat := 32
def BUFFERS : Nat := 4
def FRAMES_PER_BUFFER : Nat := 1024
def SAMPLES_PER_BUFFER : Nat := FRAMES_PER_BUFFER * 2
def BDL_IOC : UInt16 := 0x8000

section Pci

/- What a device on the bus answers in its configuration space. -/
abbrev PciDevice := UInt8 → UInt32

def PciDevice.ioBar (device : PciDevice) (index : UInt8) : Option UInt16 :=
  let bar := device (0x10 + index * 4)
  if bar &&& 1 = 1 then some (bar &&& ~~~3).toUInt16 else none

def PciDevice.interruptLine (device : PciDevice) : UInt8 := (device 0x3c &&& 0xff).toUInt8

def registerPciSoundIrq (line : UInt8) : Except String Unit :=
  if 9 ≤ line && line ≤ 11 then .ok () else .error "PCI IRQ line outside the expected 9-11 range"

def okOr {α : Type} (o : Option α) (message : String) : Except String α := o.elim (.error message) .ok

/- `init` up to its first port: the bases of the mixer's and the bus master's ports. -/
def detect (found : Option PciDevice) : Except String (UInt16 × UInt16) := do
  let device ← okOr found "no AC97 on the PCI bus"
  let mixer ← okOr (device.ioBar 0) "mixer BAR is not I/O"
  let nabm ← okOr (device.ioBar 1) "bus master BAR is not I/O"
  let irqLine := device.interruptLine
  if irqLine = 0 ∨ 16 ≤ irqLine then .error "firmware routed no usable IRQ line"
  else
    registerPciSoundIrq irqLine
    return (mixer,nabm)

end Pci

/- A write to the port at an offset from a base. -/
inductive PortWrite where
  | byte (base offset : UInt16) (value : UInt8)
  | word (base offset : UInt16) (value : UInt16)
  | long (base offset : UInt16) (value : UInt32)
  deriving DecidableEq

structure BdlEntry where
  addr : UInt32
  samples : UInt16
  control : UInt16
  deriving DecidableEq

/- What `init` leaves: the descriptor list and the samples, at virtual addresses. -/
structure Driver where
  bdl : Nat
  entries : List BdlEntry
  buffer : Nat
  deriving DecidableEq

def canonical (a : Nat) : Prop := a < 2 ^ 47 ∨ (2 ^ 64 - 2 ^ 47 ≤ a ∧ a < 2 ^ 64)

instance (a : Nat) : Decidable (canonical a) := inferInstanceAs (Decidable (_ ∨ _))

def virtAdd (base n : Nat) : Except Panic Nat := if canonical (base + n) then .ok (base + n) else .error .virtAddr

def bdlEntry (buffersPhys i : Nat) : BdlEntry :=
  ⟨UInt32.ofNat (buffersPhys + i % BUFFERS * 4096),UInt16.ofNat SAMPLES_PER_BUFFER,BDL_IOC⟩

/- The writes before the frames are allocated, and the ones that start the channel. -/
def codecWrites (mixer nabm : UInt16) : List PortWrite :=
  [.long nabm GLOB_CNT 0x2,.word mixer MIXER_RESET 0,.word mixer MIXER_MASTER_VOLUME 0x0000,.word mixer MIXER_PCM_OUT_VOLUME 0x0808]

def channelWrites (nabm : UInt16) (phys : Nat) : List PortWrite :=
  [.byte nabm PO_CR CR_RR,.long nabm PO_BDBAR (UInt32.ofNat phys),.byte nabm PO_LVI (UInt8.ofNat (BDL_ENTRIES - 1)),
    .word nabm PO_SR SR_INT_BITS,.byte nabm PO_CR (CR_RPBM ||| CR_IOCE)]

def ofExcept {α : Type} : Except Panic α → Drawing α
  | .ok a => .done a
  | .error panic => .fail panic

/- The port writes and the result. -/
def init (found : Option PciDevice) (physMemOffset : Nat) : Drawing (List PortWrite × Except String Driver) :=
  match detect found with
  | .error message => .done ([],.error message)
  | .ok (mixer,nabm) => do
    match ← allocContiguous (1 + BUFFERS) with
    | none => return (codecWrites mixer nabm,.error "no contiguous memory")
    | some phys =>
      let virt ← ofExcept (virtAdd physMemOffset phys)
      let buffersPhys := phys + 4096
      let buffer ← ofExcept (virtAdd physMemOffset buffersPhys)
      return (codecWrites mixer nabm ++ channelWrites nabm phys,.ok ⟨virt,(List.range BDL_ENTRIES).map (bdlEntry buffersPhys),buffer⟩)

section Addresses

/- The whole physical memory is mapped at the offset. -/
def physical (physMemOffset virt : Nat) : Nat := virt - physMemOffset

/- The page that `run_synth` fills for a buffer, samples of two bytes. -/
def ringPage (physMemOffset : Nat) (driver : Driver) (buf : Nat) : Nat :=
  physical physMemOffset (driver.buffer + buf * SAMPLES_PER_BUFFER * 2)

def bdbar (writes : List PortWrite) : Option UInt32 :=
  writes.findSome? (fun w => match w with | .long _ offset value => if offset = PO_BDBAR then some value else none | _ => none)

/- The card has the addresses of the list and of the pages, and they are the driver's. -/
structure TrueAddresses (physMemOffset : Nat) (handed : List PhysFrame) (writes : List PortWrite) (driver : Driver) : Prop where
  list : ∃ value, bdbar writes = some value ∧ value.toNat = physical physMemOffset driver.bdl ∧
    ∃ frame ∈ handed, frame.startAddress = value.toNat
  full : driver.entries.length = BDL_ENTRIES
  pages : ∀ i entry, driver.entries[i]? = some entry → entry.addr.toNat = ringPage physMemOffset driver (i % BUFFERS) ∧
    ∃ frame ∈ handed, frame.startAddress = entry.addr.toNat

/- Whenever `init` returns `Ok` the card is programmed with the true addresses. -/
def CardTrue (found : Option PciDevice) (physMemOffset : Nat) (frames : BootInfoFrameAllocator) : Prop :=
  ∀ writes driver after, (serve allocateFrame (init found physMemOffset) frames).result = .ok ((writes,.ok driver),after) →
    TrueAddresses physMemOffset (serve allocateFrame (init found physMemOffset) frames).handed writes driver

/- The starts of the frames that are left, in the order of the map. -/
def remaining (frames : BootInfoFrameAllocator) (i : Nat) : Option Nat := (frameStarts frames.memoryRegions)[frames.next + i]?

/- Where the card is there and the first five consecutive frames among the next 4096 can be reached, they lie below 4 GiB. -/
def LowFrames (found : Option PciDevice) (physMemOffset : Nat) (frames : BootInfoFrameAllocator) : Prop :=
  (∃ bases, detect found = .ok bases) → ∀ j a, j + (1 + BUFFERS) ≤ 4096 → First (remaining frames) frameSize (1 + BUFFERS) j a →
    canonical (physMemOffset + a) → canonical (physMemOffset + (a + 4096)) → a + (1 + BUFFERS) * frameSize ≤ 2 ^ 32

end Addresses

section Search
variable {memoryRegions : List MemoryRegion} {next : Nat}

/- Usable memory ends where physical addresses do. -/
def InRange (memoryRegions : List MemoryRegion) : Prop := ∀ region ∈ usable memoryRegions, region.end_.toNat ≤ 2 ^ 52

theorem startsRange (sound : Sound memoryRegions) (inRange : InRange memoryRegions) {a : Nat} (mem : a ∈ frameStarts memoryRegions) :
    a < 2 ^ 52 ∧ frameSize ∣ a := by
  obtain ⟨region,among,aligned,-,inside⟩ := startsInside sound mem
  have end_ := inRange region among
  unfold frameSize at inside
  exact ⟨by omega,aligned⟩

/- Every frame of the map can be handed out. -/
theorem usableRuns (sound : Sound memoryRegions) (inRange : InRange memoryRegions) (n : Nat) {l : List Nat}
    (among : ∀ a ∈ l, a ∈ frameStarts memoryRegions) :
    ∃ x, nth n (l.map PhysFrame.containingAddress) = .ok x ∧ x.map PhysFrame.startAddress = l[n]? := by
  induction l generalizing n with
  | nil => cases n <;> exact ⟨none,rfl,rfl⟩
  | cons a rest ih =>
    obtain ⟨low,aligned⟩ := startsRange sound inRange (among a List.mem_cons_self)
    have here : PhysFrame.containingAddress a = .ok ⟨a - a % frameSize,alignedDown a⟩ := if_pos low
    cases n with
    | zero =>
      refine ⟨some ⟨a - a % frameSize,alignedDown a⟩,?_,?_⟩
      · rw [List.map_cons,nth,here]
        rfl
      · simp [Nat.mod_eq_zero_of_dvd aligned]
    | succ n =>
      obtain ⟨x,later,same⟩ := ih n (fun b mem => among b (List.mem_cons_of_mem _ mem))
      refine ⟨x,?_,same⟩
      rw [List.map_cons,nth,here]
      exact later

theorem allocateIs (sound : Sound memoryRegions) (inRange : InRange memoryRegions) (next : Nat) :
    ∃ x : Option PhysFrame, x.map PhysFrame.startAddress = (frameStarts memoryRegions)[next]? ∧
      allocateFrame ⟨memoryRegions,next⟩ = if next + 1 = 2 ^ 64 then .error .overflow else .ok (x,⟨memoryRegions,next + 1⟩) := by
  obtain ⟨x,found,same⟩ := usableRuns sound inRange next (l := frameStarts memoryRegions) (fun _ mem => mem)
  refine ⟨x,same,?_⟩
  unfold allocateFrame BootInfoFrameAllocator.usableFrames
  dsimp only
  rw [found]
  change (if next + 1 = 2 ^ 64 then _ else _) = _
  split <;> rfl

theorem remainingEnds {frames : BootInfoFrameAllocator} {i k : Nat} (ended : remaining frames i = none) (le : i ≤ k) : remaining frames k = none := by
  have past := List.getElem?_eq_none_iff.mp ended
  exact List.getElem?_eq_none (by omega)

/- What the search returns, if it does: the first run there is, or nothing where none ends within its passes. -/
theorem searchFinds (sound : Sound memoryRegions) (inRange : InRange memoryRegions) {count n i have_ : Nat} {start : Option PhysFrame} (some_ : 0 < count)
    (standing : Standing (remaining ⟨memoryRegions,next⟩) frameSize count i (start.map PhysFrame.startAddress) have_) {r : Option Nat}
    {after : BootInfoFrameAllocator} (h : (serve allocateFrame (contiguousLoop count n start have_) ⟨memoryRegions,next + i⟩).result = .ok (r,after)) :
    (∀ a, r = some a → ∃ j, j + count ≤ i + n ∧ First (remaining ⟨memoryRegions,next⟩) frameSize count j a) ∧
      (r = none → ∀ j a, j + count ≤ i + n → ¬StreakAt (remaining ⟨memoryRegions,next⟩) frameSize count j a) := by
  induction n generalizing start have_ i with
  | zero =>
    cases h
    exact ⟨fun _ never => (by cases never),fun _ j a le => standing.before j a le⟩
  | succ n ih =>
    obtain ⟨x,here,given⟩ := allocateIs sound inRange (next + i)
    change x.map PhysFrame.startAddress = remaining ⟨memoryRegions,next⟩ i at here
    rw [contiguousLoop] at h
    simp only [Clients.serveBind,Client.draw,serve] at h
    rw [given] at h
    by_cases last : next + i + 1 = 2 ^ 64
    · rw [if_pos last] at h
      cases h
    · rw [if_neg last] at h
      cases x with
      | none =>
        cases h
        exact ⟨fun _ never => (by cases never),fun _ j a _ => Streaks.standingEnd standing (fun k le => remainingEnds here.symm le) some_ j a⟩
      | some frame =>
        have here' : remaining ⟨memoryRegions,next⟩ i = some frame.startAddress := here.symm
        have later {start : Option PhysFrame} {have_ : Nat}
            (standing : Standing (remaining ⟨memoryRegions,next⟩) frameSize count (i + 1) (start.map PhysFrame.startAddress) have_)
            (h : (serve allocateFrame (contiguousLoop count n start have_) ⟨memoryRegions,next + i + 1⟩).result = .ok (r,after)) := ih standing h
        rw [Nat.add_assoc i 1 n,Nat.add_comm 1 n] at later
        cases on : contiguous start have_ frame with
        | true =>
          cases start with
          | none => cases on
          | some s =>
            have follows : frame.startAddress = s.startAddress + have_ * frameSize := eq_of_beq on
            simp only [on,if_true] at h
            by_cases full : have_ + 1 = count
            · rw [if_pos full] at h
              cases h
              obtain ⟨-,-,le,-⟩ := standing.within s.startAddress rfl
              refine ⟨fun a same => ?_,fun never => by cases never⟩
              cases same
              exact ⟨i - have_,by omega,Streaks.standingFull standing here' follows full⟩
            · rw [if_neg full] at h
              exact @later (some s) _ (Streaks.standingNext standing here' follows full) h
        | false =>
          have off : ∀ s, start.map PhysFrame.startAddress = some s → frame.startAddress ≠ s + have_ * frameSize := by
            intro s found same
            obtain ⟨s',rfl,rfl⟩ := Option.map_eq_some_iff.mp found
            exact absurd (on.symm.trans (beq_iff_eq.mpr same)) (by decide)
          simp only [on,Bool.false_eq_true,if_false] at h
          by_cases full : 1 = count
          · subst full
            cases h
            refine ⟨fun a same => ?_,fun never => by cases never⟩
            cases same
            exact ⟨i,by omega,Streaks.standingAlone standing here'⟩
          · rw [Nat.zero_add,if_neg full] at h
            exact @later (some frame) _ (Streaks.standingNew standing here' off full some_) h

/- The search ends without a panic where the allocator cannot overflow before. -/
theorem searchEnds (sound : Sound memoryRegions) (inRange : InRange memoryRegions) {count n have_ : Nat} {start : Option PhysFrame}
    (room : next + n < 2 ^ 64) :
    ∃ r after, (serve allocateFrame (contiguousLoop count n start have_) ⟨memoryRegions,next⟩).result = .ok (r,after) := by
  induction n generalizing next start have_ with
  | zero => exact ⟨none,_,rfl⟩
  | succ n ih =>
    obtain ⟨x,-,given⟩ := allocateIs sound inRange next
    rw [if_neg (by omega)] at given
    rw [contiguousLoop]
    simp only [Clients.serveBind,Client.draw,serve]
    rw [given]
    cases x with
    | none => exact ⟨none,_,rfl⟩
    | some frame =>
      have later {start : Option PhysFrame} {have_ : Nat} := @ih (next + 1) have_ start (by omega)
      cases on : contiguous start have_ frame with
      | true =>
        cases start with
        | none => cases on
        | some s =>
          simp only [on,if_true]
          split
          · exact ⟨_,_,rfl⟩
          · exact later
      | false =>
        simp only [on,Bool.false_eq_true,if_false]
        split
        · exact ⟨_,_,rfl⟩
        · exact later

/- A map has fewer frames than the allocator can count. -/
theorem startsFew (sound : Sound memoryRegions) (inRange : InRange memoryRegions) : (frameStarts memoryRegions).length ≤ 2 ^ 52 := by
  have among : frameStarts memoryRegions ⊆ List.range (2 ^ 52) := fun a mem => List.mem_range.mpr (startsRange sound inRange mem).1
  have le := (List.subperm_of_subset (startsNodup sound) among).length_le
  rwa [List.length_range] at le

end Search

section Init
variable {found : Option PciDevice} {physMemOffset : Nat} {frames : BootInfoFrameAllocator}

/- What `init` leaves where it found the card and its frames. -/
def driverAt (physMemOffset phys : Nat) : Driver :=
  ⟨physMemOffset + phys,(List.range BDL_ENTRIES).map (bdlEntry (phys + 4096)),physMemOffset + (phys + 4096)⟩

/- `init` returns `Ok` where the card is there, the search found its frames and they can be reached. -/
theorem initOk {writes : List PortWrite} {driver : Driver} {after : BootInfoFrameAllocator}
    (h : (serve allocateFrame (init found physMemOffset) frames).result = .ok ((writes,.ok driver),after)) :
    ∃ mixer nabm phys, detect found = .ok (mixer,nabm) ∧ (serve allocateFrame (allocContiguous (1 + BUFFERS)) frames).result = .ok (some phys,after) ∧
      canonical (physMemOffset + phys) ∧ canonical (physMemOffset + (phys + 4096)) ∧
      writes = codecWrites mixer nabm ++ channelWrites nabm phys ∧ driver = driverAt physMemOffset phys ∧
      ∃ more, (serve allocateFrame (init found physMemOffset) frames).handed =
        (serve allocateFrame (allocContiguous (1 + BUFFERS)) frames).handed ++ more := by
  unfold init at h ⊢
  cases card : detect found with
  | error message =>
    rw [card] at h
    cases h
  | ok bases =>
    obtain ⟨mixer,nabm⟩ := bases
    rw [card] at h
    simp only [Clients.serveBind] at h ⊢
    cases searched : (serve allocateFrame (allocContiguous (1 + BUFFERS)) frames).result with
    | error panic =>
      rw [searched] at h
      cases h
    | ok r =>
      obtain ⟨x,after'⟩ := r
      rw [searched] at h
      cases x with
      | none => cases h
      | some phys =>
        dsimp only [virtAdd] at h
        by_cases list : canonical (physMemOffset + phys)
        · by_cases pages : canonical (physMemOffset + (phys + 4096))
          · rw [if_pos list,if_pos pages] at h
            cases h
            exact ⟨mixer,nabm,phys,rfl,rfl,list,pages,rfl,rfl,_,rfl⟩
          · rw [if_pos list,if_neg pages] at h
            cases h
        · rw [if_neg list] at h
          cases h

theorem initRuns {mixer nabm : UInt16} {phys : Nat} {after : BootInfoFrameAllocator} (card : detect found = .ok (mixer,nabm))
    (searched : (serve allocateFrame (allocContiguous (1 + BUFFERS)) frames).result = .ok (some phys,after))
    (list : canonical (physMemOffset + phys)) (pages : canonical (physMemOffset + (phys + 4096))) :
    (serve allocateFrame (init found physMemOffset) frames).result =
      .ok ((codecWrites mixer nabm ++ channelWrites nabm phys,.ok (driverAt physMemOffset phys)),after) := by
  unfold init virtAdd
  simp only [card,Clients.serveBind,searched,if_pos list,if_pos pages]
  rfl

theorem entryAt {phys i : Nat} {entry : BdlEntry} (h : (driverAt physMemOffset phys).entries[i]? = some entry) :
    i < BDL_ENTRIES ∧ entry.addr.toNat = (phys + 4096 + i % BUFFERS * 4096) % 2 ^ 32 ∧
      ringPage physMemOffset (driverAt physMemOffset phys) (i % BUFFERS) = phys + 4096 + i % BUFFERS * 4096 := by
  unfold driverAt at h
  rw [List.getElem?_map,Option.map_eq_some_iff] at h
  obtain ⟨k,listed,rfl⟩ := h
  obtain ⟨lt,same⟩ := List.getElem?_eq_some_iff.mp listed
  rw [List.length_range] at lt
  rw [List.getElem_range] at same
  subst same
  refine ⟨lt,UInt32.toNat_ofNat',?_⟩
  simp only [ringPage,physical,driverAt,SAMPLES_PER_BUFFER,FRAMES_PER_BUFFER]
  omega

/- The addresses survive the narrowing where the last page starts below 4 GiB. -/
theorem addressesTrue {handed : List PhysFrame} {mixer nabm : UInt16} {phys : Nat} (owned : Owned handed phys (1 + BUFFERS))
    (low : phys + (1 + BUFFERS) * frameSize ≤ 2 ^ 32) :
    TrueAddresses physMemOffset handed (codecWrites mixer nabm ++ channelWrites nabm phys) (driverAt physMemOffset phys) := by
  unfold BUFFERS frameSize at low
  have own (i : Nat) (lt : i < 5) : ∃ frame ∈ handed, frame.startAddress = phys + i * 4096 := owned i lt
  constructor
  · have value : (UInt32.ofNat phys).toNat = phys := UInt32.toNat_ofNat_of_lt' (by change phys < 2 ^ 32; omega)
    refine ⟨UInt32.ofNat phys,rfl,?_,?_⟩
    · rw [value]
      exact (Nat.add_sub_cancel_left ..).symm
    · obtain ⟨frame,mem,at_⟩ := own 0 (by decide)
      exact ⟨frame,mem,by rw [at_,value,Nat.zero_mul,Nat.add_zero]⟩
  · rfl
  · intro i entry listed
    obtain ⟨-,addr,page⟩ := entryAt listed
    have four : i % BUFFERS < 4 := Nat.mod_lt i (by decide)
    rw [addr,page,Nat.mod_eq_of_lt (by omega)]
    refine ⟨rfl,?_⟩
    obtain ⟨frame,mem,at_⟩ := own (1 + i % BUFFERS) (by omega)
    exact ⟨frame,mem,by rw [at_]; omega⟩

theorem addressesLow {handed : List PhysFrame} {writes : List PortWrite} {phys : Nat} (aligned : frameSize ∣ phys)
    (true_ : TrueAddresses physMemOffset handed writes (driverAt physMemOffset phys)) : phys + (1 + BUFFERS) * frameSize ≤ 2 ^ 32 := by
  have third : (driverAt physMemOffset phys).entries[3]? = some (bdlEntry (phys + 4096) 3) := rfl
  have same := (true_.pages 3 _ third).1
  obtain ⟨-,addr,page⟩ := entryAt third
  rw [addr,page] at same
  unfold frameSize at aligned ⊢
  unfold BUFFERS at same ⊢
  omega

/- The card gets true addresses exactly where the frames found for it lie below 4 GiB. -/
theorem cardTrue (found : Option PciDevice) (physMemOffset : Nat) {memoryRegions : List MemoryRegion} (sound : Sound memoryRegions)
    (inRange : InRange memoryRegions) (next : Nat) :
    CardTrue found physMemOffset ⟨memoryRegions,next⟩ ↔ LowFrames found physMemOffset ⟨memoryRegions,next⟩ := by
  have start : Standing (remaining ⟨memoryRegions,next⟩) frameSize (1 + BUFFERS) 0 none 0 := Streaks.standingStart (by decide)
  have finds {r : Option Nat} {after : BootInfoFrameAllocator}
      (searched : (serve allocateFrame (allocContiguous (1 + BUFFERS)) ⟨memoryRegions,next⟩).result = .ok (r,after)) :=
    @searchFinds _ next sound inRange _ _ _ _ none (by decide) start _ _ searched
  constructor
  · rintro true_ ⟨⟨mixer,nabm⟩,card⟩ j a within first list pages
    have place : remaining ⟨memoryRegions,next⟩ j = some a := by simpa using first.here 0 (by decide)
    obtain ⟨below,-⟩ := List.getElem?_eq_some_iff.mp place
    change next + j < (frameStarts memoryRegions).length at below
    have few := startsFew sound inRange
    obtain ⟨r,after,searched⟩ := @searchEnds _ next sound inRange (1 + BUFFERS) 4096 0 none (by omega)
    obtain ⟨run,none_⟩ := finds searched
    cases r with
    | none => exact absurd first.here (none_ rfl j a (by omega))
    | some phys =>
      obtain ⟨i,-,first'⟩ := run phys rfl
      obtain rfl := Streaks.firstUnique (by decide) first first'
      have aligned := (startsRange sound inRange (List.mem_of_getElem? place)).2
      exact addressesLow aligned (true_ _ _ _ (initRuns card searched list pages))
  · intro low writes driver after h
    obtain ⟨mixer,nabm,phys,card,searched,list,pages,rfl,rfl,more,handed⟩ := initOk h
    obtain ⟨j,within,first⟩ := (finds searched).1 phys rfl
    have running : Running [] none 0 := nofun
    have owned : Owned _ phys (1 + BUFFERS) := contiguousOwned running searched
    rw [handed]
    exact addressesTrue (ownedMore owned more) (low ⟨_,card⟩ j phys (by omega) first list pages)

/- An AC'97 on IRQ line 11, with its ports at 0xd000 and 0xd100. -/
def ac97Device : PciDevice := fun register =>
  if register = 0x10 then 0xd001 else if register = 0x14 then 0xd101 else if register = 0x3c then 0x10b else 0

/- A map with two usable frames below 4 GiB and eight above. -/
def highMap : List MemoryRegion := [⟨0x1000,0x3000,.usable⟩,⟨0x100000000,0x100008000,.usable⟩]

theorem highMapSound : Sound highMap where
  aligned := by
    unfold MemoryRegion.Aligned
    decide
  disjoint := by
    refine List.pairwise_pair.mpr ?_
    rintro a ⟨-,below⟩ ⟨above,-⟩
    have low : a < 0x3000 := below
    have high : 0x100000000 ≤ a := above
    omega

theorem holedMapRange : InRange holedMap := by
  unfold InRange
  decide

/- After one frame the buffers of the holed map lie past its hole. -/
theorem cardTrueHoled : CardTrue (some ac97Device) 0x18000000000 ⟨holedMap,1⟩ ↔ LowFrames (some ac97Device) 0x18000000000 ⟨holedMap,1⟩ :=
  cardTrue (some ac97Device) 0x18000000000 holedMapSound holedMapRange 1

/- The list lies at 4 GiB and the card is given the address 0. -/
theorem cardMisled : ¬∀ (found : Option PciDevice) (physMemOffset : Nat) (memoryRegions : List MemoryRegion) (next : Nat), Sound memoryRegions →
    InRange memoryRegions → CardTrue found physMemOffset ⟨memoryRegions,next⟩ := by
  intro all
  have true_ := all (some ac97Device) 0x18000000000 highMap 2 highMapSound (by unfold InRange; decide)
  obtain ⟨value,written,same,-⟩ := (true_ _ (driverAt 0x18000000000 0x100000000) ⟨highMap,7⟩ rfl).list
  cases written
  exact absurd same (by decide)

end Init

end Officium.Ac97
