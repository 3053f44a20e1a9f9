import Mathlib.Data.List.FinRange
import Mathlib.Data.List.Pairwise
import Mathlib.Order.Basic
import Officium.Kernel.Descriptors

/-! The scan of the PCI configuration space through its two ports. It comes to the first function in the order of the
buses that is there and answers to the ids, where a slot has functions past the first only if that one says so. -/
namespace Officium.Pci

/- `find` builds no other devices: a slot and a function have five and three bits. -/
@[ext]
structure PciDevice where
  bus : Fin 256
  device : Fin 32
  function : Fin 8
  deriving DecidableEq

/- A slot has a function 0. -/
local instance eightFunctions : NeZero 8 := ⟨by decide⟩

/- What a read of a register of a function gives; without a function there all the bits are set. -/
abbrev Config := PciDevice → UInt8 → UInt32

/- The address port keeps what was written last; what is written to the data port goes to the register it names. -/
structure Ports where
  address : UInt32
  config : Config
  written : List (PciDevice × UInt8 × UInt32)

/- How the host bridge takes an address apart; bit 31 enables it. -/
def decode (a : Nat) : Option (PciDevice × UInt8) :=
  if a / 2^31 % 2 = 1 then
    some (⟨⟨a / 2^16 % 256,Nat.mod_lt _ (by decide)⟩,⟨a / 2^11 % 32,Nat.mod_lt _ (by decide)⟩,⟨a / 2^8 % 8,Nat.mod_lt _ (by decide)⟩⟩,
      UInt8.ofNat (a % 256 / 4 * 4))
  else none

namespace Ports

def writeAddress (p : Ports) (address : UInt32) : Ports := { p with address := address }

def readData (p : Ports) : UInt32 :=
  match decode p.address.toNat with
  | some (d,register) => p.config d register
  | none => 0xFFFFFFFF

def writeData (p : Ports) (value : UInt32) : Ports :=
  match decode p.address.toNat with
  | some (d,register) => { p with written := p.written ++ [(d,register,value)] }
  | none => p

end Ports

namespace PciDevice

def configAddress (d : PciDevice) (offset : UInt8) : UInt32 :=
  (0x80000000 : UInt32) ||| UInt32.ofNat d.bus <<< 16 ||| UInt32.ofNat d.device <<< 11 ||| UInt32.ofNat d.function <<< 8 |||
    (offset.toUInt32 &&& 0xFC)

def configRead (d : PciDevice) (offset : UInt8) (p : Ports) : UInt32 × Ports :=
  let p := p.writeAddress (d.configAddress offset)
  (p.readData,p)

def configWrite (d : PciDevice) (offset : UInt8) (value : UInt32) (p : Ports) : Ports :=
  (p.writeAddress (d.configAddress offset)).writeData value

/- Base address of an I/O BAR (bit 0 set); none for memory BARs. -/
def ioBar (d : PciDevice) (index : UInt8) (p : Ports) : Option UInt16 × Ports :=
  let (bar,p) := d.configRead (0x10 + index * 4) p
  (if bar &&& 1 = 1 then some (bar &&& ~~~3).toUInt16 else none,p)

def interruptLine (d : PciDevice) (p : Ports) : UInt8 × Ports :=
  let (line,p) := d.configRead 0x3C p
  ((line &&& 0xFF).toUInt8,p)

def enableIoAndBusMaster (d : PciDevice) (p : Ports) : Ports :=
  let (command,p) := d.configRead 0x04 p
  d.configWrite 0x04 (command ||| 5) p

end PciDevice

def matches_ (vendor device : UInt16) (id : UInt32) : Bool := (id &&& 0xFFFF).toUInt16 == vendor && (id >>> 16).toUInt16 == device

def multifunction (header : UInt32) : Bool := header >>> 16 &&& 0x80 != 0

section Scan
variable (vendor device : UInt16)

/- The functions of a slot; both breaks leave this loop alone. -/
def scanFunctions (bus : Fin 256) (dev : Fin 32) : List (Fin 8) → Ports → Option PciDevice × Ports
  | [], p => (none,p)
  | function :: rest, p =>
    let candidate : PciDevice := ⟨bus,dev,function⟩
    let (id,p) := candidate.configRead 0x00 p
    if id = 0xFFFFFFFF then
      if function = 0 then (none,p) else scanFunctions bus dev rest p
    else if matches_ vendor device id then (some candidate,p)
    else
      let (header,p) := candidate.configRead 0x0C p
      if function = 0 ∧ ¬multifunction header then (none,p) else scanFunctions bus dev rest p

def unlessFound (next : Ports → Option PciDevice × Ports) : Option PciDevice × Ports → Option PciDevice × Ports
  | (some d,p) => (some d,p)
  | (none,p) => next p

def scanDevices (bus : Fin 256) : List (Fin 32) → Ports → Option PciDevice × Ports
  | [], p => (none,p)
  | dev :: rest, p => unlessFound (scanDevices bus rest) (scanFunctions vendor device bus dev (List.finRange 8) p)

def scanBuses : List (Fin 256) → Ports → Option PciDevice × Ports
  | [], p => (none,p)
  | bus :: rest, p => unlessFound (scanBuses rest) (scanDevices vendor device bus (List.finRange 32) p)

def find (p : Ports) : Option PciDevice × Ports := scanBuses vendor device [0,1,2,3,4,5,6,7] p

end Scan

section Addresses
variable {d : PciDevice} {offset : UInt8}

theorem configAddressNat : (d.configAddress offset).toNat =
    2^31 + d.bus * 2^16 + d.device * 2^11 + d.function * 2^8 + offset.toNat / 4 * 4 := by
  have bus := d.bus.isLt
  have device := d.device.isLt
  have function := d.function.isLt
  have low := offset.toNat_lt
  have bits : (offset.toUInt32 &&& 0xFC).toNat = offset.toNat / 4 * 4 := by
    rw [UInt32.toNat_and,UInt8.toNat_toUInt32]
    have each : ∀ n : Fin 256, (n : Nat) &&& 0xFC = n / 4 * 4 := by decide +kernel
    exact each ⟨offset.toNat,low⟩
  have shifted {n k : Nat} (small : n * 2^k < 2^32) (k_ : k < 32) : (UInt32.ofNat n <<< UInt32.ofNat k).toNat = n * 2^k := by
    rw [UInt32.toNat_shiftLeft,UInt32.toNat_ofNat_of_lt' (by
      have := Nat.le_mul_of_pos_right n (Nat.two_pow_pos k)
      exact Nat.lt_of_le_of_lt this small),UInt32.toNat_ofNat_of_lt' (Nat.lt_trans k_ (by decide)),Nat.mod_eq_of_lt k_,Nat.shiftLeft_eq,
      Nat.mod_eq_of_lt small]
  have above {a b k : Nat} (small : b < 2^k) : a * 2^k ||| b = a * 2^k + b := by
    rw [Nat.mul_comm,Nat.two_pow_add_eq_or_of_lt small]
  refine Eq.trans (b := (((2^15 + (d.bus : Nat)) * 2^5 + d.device) * 2^3 + d.function) * 2^8 + offset.toNat / 4 * 4) ?_ (by omega)
  unfold PciDevice.configAddress
  rw [UInt32.toNat_or,UInt32.toNat_or,UInt32.toNat_or,UInt32.toNat_or,bits]
  rw [show (UInt32.ofNat d.bus <<< 16).toNat = d.bus * 2^16 from shifted (k := 16) (by omega) (by decide)]
  rw [show (UInt32.ofNat d.device <<< 11).toNat = d.device * 2^11 from shifted (k := 11) (by omega) (by decide)]
  rw [show (UInt32.ofNat d.function <<< 8).toNat = d.function * 2^8 from shifted (k := 8) (by omega) (by decide)]
  rw [show (0x80000000 : UInt32).toNat = 1 * 2^31 from rfl, above (by omega)]
  rw [show 1 * 2^31 + (d.bus : Nat) * 2^16 = (2^15 + d.bus) * 2^16 by omega, above (by omega)]
  rw [show (2^15 + (d.bus : Nat)) * 2^16 + d.device * 2^11 = ((2^15 + d.bus) * 2^5 + d.device) * 2^11 by omega, above (by omega)]
  rw [show ((2^15 + (d.bus : Nat)) * 2^5 + d.device) * 2^11 + d.function * 2^8 =
    (((2^15 + d.bus) * 2^5 + d.device) * 2^3 + d.function) * 2^8 by omega, above (by omega)]

/- The bridge reads an address as it was meant; the low two bits of an offset are nobody's. -/
theorem decodeAddress : decode (d.configAddress offset).toNat = some (d,UInt8.ofNat (offset.toNat / 4 * 4)) := by
  have bus := d.bus.isLt
  have device := d.device.isLt
  have function := d.function.isLt
  have low := offset.toNat_lt
  rw [configAddressNat]
  unfold decode
  rw [if_pos (by omega)]
  simp only [Option.some.injEq,Prod.mk.injEq,PciDevice.ext_iff,Fin.ext_iff]
  refine ⟨⟨?_,?_,?_⟩,congrArg UInt8.ofNat ?_⟩ <;> omega

end Addresses

section Finding
variable {vendor device : UInt16}

/- The first function of the slot of a function. -/
def slot (d : PciDevice) : PciDevice := { d with function := 0 }

def present (c : Config) (d : PciDevice) : Bool := c d 0x00 != 0xFFFFFFFF

/- There, in a slot that is there, and past the first function only where that one says there are more. -/
def reachable (c : Config) (d : PciDevice) : Bool :=
  present c (slot d) && (d.function == 0 || multifunction (c (slot d) 0x0C)) && present c d

def answers (vendor device : UInt16) (c : Config) (d : PciDevice) : Bool := reachable c d && matches_ vendor device (c d 0x00)

/- The functions in the order they are asked. -/
def ofDevice (bus : Fin 256) (dev : Fin 32) : List PciDevice := (List.finRange 8).map fun function => ⟨bus,dev,function⟩

def ofBus (bus : Fin 256) : List PciDevice := (List.finRange 32).flatMap (ofDevice bus)

def candidates : List PciDevice := [0,1,2,3,4,5,6,7].flatMap ofBus

/- Nothing but the address port is touched. -/
def Scanned (p : Ports) (found : Option PciDevice) (r : Option PciDevice × Ports) : Prop := ∃ address, r = (found,{ p with address := address })

theorem scannedLater {p : Ports} {address : UInt32} {found : Option PciDevice} {r : Option PciDevice × Ports}
    (h : Scanned { p with address := address } found r) : Scanned p found r := h

theorem readRegister (d : PciDevice) {offset : UInt8} (aligned : offset.toNat / 4 * 4 = offset.toNat) (p : Ports) :
    d.configRead offset p = (p.config d offset,{ p with address := d.configAddress offset }) := by
  unfold PciDevice.configRead Ports.readData Ports.writeAddress
  dsimp only
  rw [decodeAddress,aligned,UInt8.ofNat_toNat]

theorem readId (d : PciDevice) (p : Ports) : d.configRead 0x00 p = (p.config d 0x00,{ p with address := d.configAddress 0x00 }) :=
  readRegister d rfl p

theorem readHeader (d : PciDevice) (p : Ports) : d.configRead 0x0C p = (p.config d 0x0C,{ p with address := d.configAddress 0x0C }) :=
  readRegister d rfl p

/- Past the first function of a slot that has more, what is not there is passed over. -/
theorem scanMore {bus : Fin 256} {dev : Fin 32} (p : Ports) (more : multifunction (p.config ⟨bus,dev,0⟩ 0x0C) = true)
    (there : present p.config ⟨bus,dev,0⟩ = true) (functions : List (Fin 8)) (later : ∀ f ∈ functions, f ≠ 0) :
    Scanned p ((functions.map fun f => (⟨bus,dev,f⟩ : PciDevice)).find? (answers vendor device p.config))
      (scanFunctions vendor device bus dev functions p) := by
  induction functions generalizing p with
  | nil => exact ⟨p.address,rfl⟩
  | cons f rest ih =>
    have past : f ≠ 0 := later f List.mem_cons_self
    have first : slot ⟨bus,dev,f⟩ = ⟨bus,dev,0⟩ := rfl
    have next (address : UInt32) : Scanned p ((rest.map fun f => (⟨bus,dev,f⟩ : PciDevice)).find? (answers vendor device p.config))
        (scanFunctions vendor device bus dev rest { p with address := address }) :=
      scannedLater (ih { p with address := address } more there fun f mem => later f (List.mem_cons_of_mem _ mem))
    rw [scanFunctions]
    simp only [readId,readHeader,past,false_and,if_false]
    rw [List.map_cons,List.find?_cons]
    by_cases id : p.config ⟨bus,dev,f⟩ 0x00 = 0xFFFFFFFF
    · have absent : answers vendor device p.config ⟨bus,dev,f⟩ = false := by
        unfold answers reachable present
        rw [id]
        simp
      rw [if_pos id,absent]
      exact next _
    · have asked : answers vendor device p.config ⟨bus,dev,f⟩ = matches_ vendor device (p.config ⟨bus,dev,f⟩ 0x00) := by
        have here : present p.config ⟨bus,dev,f⟩ = true := bne_iff_ne.mpr id
        unfold answers reachable
        rw [first,there,more,here]
        simp
      rw [if_neg id,asked]
      cases matches_ vendor device (p.config ⟨bus,dev,f⟩ 0x00) with
      | true => exact ⟨_,rfl⟩
      | false => exact next _

theorem scanSlot (bus : Fin 256) (dev : Fin 32) (p : Ports) :
    Scanned p ((ofDevice bus dev).find? (answers vendor device p.config)) (scanFunctions vendor device bus dev (List.finRange 8) p) := by
  have order : List.finRange 8 = 0 :: [1,2,3,4,5,6,7] := by decide
  have first (f : Fin 8) : slot ⟨bus,dev,f⟩ = ⟨bus,dev,0⟩ := rfl
  have none_ {fs : List (Fin 8)} (out : ∀ f ∈ fs, answers vendor device p.config ⟨bus,dev,f⟩ = false) :
      (fs.map fun f => (⟨bus,dev,f⟩ : PciDevice)).find? (answers vendor device p.config) = none := by
    rw [List.find?_eq_none]
    intro d mem
    obtain ⟨f,inside,rfl⟩ := List.mem_map.mp mem
    rw [out f inside]
    exact Bool.false_ne_true
  unfold ofDevice
  rw [order,scanFunctions]
  simp only [readId,readHeader,if_true,true_and]
  by_cases id : p.config ⟨bus,dev,0⟩ 0x00 = 0xFFFFFFFF
  · rw [if_pos id,none_]
    · exact ⟨_,rfl⟩
    · intro f _
      unfold answers reachable present
      rw [first,id]
      simp
  · have there : present p.config ⟨bus,dev,0⟩ = true := bne_iff_ne.mpr id
    have asked : answers vendor device p.config ⟨bus,dev,0⟩ = matches_ vendor device (p.config ⟨bus,dev,0⟩ 0x00) := by
      unfold answers reachable
      rw [first,there]
      simp
    rw [if_neg id]
    cases ids : matches_ vendor device (p.config ⟨bus,dev,0⟩ 0x00) with
    | true =>
      rw [if_pos rfl,List.map_cons,List.find?_cons,asked,ids]
      exact ⟨_,rfl⟩
    | false =>
      rw [if_neg Bool.false_ne_true]
      cases more : multifunction (p.config ⟨bus,dev,0⟩ 0x0C) with
      | false =>
        rw [if_pos Bool.false_ne_true,none_]
        · exact ⟨_,rfl⟩
        · intro f _
          by_cases zero : f = 0
          · rw [zero,asked,ids]
          · unfold answers reachable
            rw [first,more]
            simp [zero]
      | true =>
        rw [if_neg (not_not_intro rfl),List.map_cons,List.find?_cons,asked,ids]
        exact scannedLater (scanMore { p with address := _ } more there _ (by decide))

/- A loop over slots, or over buses, that goes on where one has nothing. -/
theorem scannedThen {p : Ports} {first rest : List PciDevice} {r : Option PciDevice × Ports} {next : Ports → Option PciDevice × Ports}
    (here : Scanned p (first.find? (answers vendor device p.config)) r)
    (later : ∀ address, Scanned p (rest.find? (answers vendor device p.config)) (next { p with address := address })) :
    Scanned p ((first ++ rest).find? (answers vendor device p.config)) (unlessFound next r) := by
  obtain ⟨address,rfl⟩ := here
  rw [List.find?_append]
  cases first.find? (answers vendor device p.config) with
  | some d => exact ⟨address,rfl⟩
  | none => exact later address

theorem scanDevicesIs (bus : Fin 256) (devs : List (Fin 32)) (p : Ports) :
    Scanned p ((devs.flatMap (ofDevice bus)).find? (answers vendor device p.config)) (scanDevices vendor device bus devs p) := by
  induction devs generalizing p with
  | nil => exact ⟨p.address,rfl⟩
  | cons dev rest ih =>
    rw [scanDevices,List.flatMap_cons]
    exact scannedThen (scanSlot bus dev p) fun address => scannedLater (ih { p with address := address })

theorem scanBusesIs (buses : List (Fin 256)) (p : Ports) :
    Scanned p ((buses.flatMap ofBus).find? (answers vendor device p.config)) (scanBuses vendor device buses p) := by
  induction buses generalizing p with
  | nil => exact ⟨p.address,rfl⟩
  | cons bus rest ih =>
    rw [scanBuses,List.flatMap_cons]
    exact scannedThen (scanDevicesIs bus _ p) fun address => scannedLater (ih { p with address := address })

end Finding

section Order

/- By bus, slot and function. -/
def Before (d other : PciDevice) : Prop :=
  d.bus < other.bus ∨ d.bus = other.bus ∧ (d.device < other.device ∨ d.device = other.device ∧ d.function < other.function)

theorem beforeOnce {d other : PciDevice} (h : Before d other) : ¬Before other d := by
  unfold Before at *
  omega

/- In a list in order the search comes to the first of what is searched for. -/
theorem findFirst {α : Type} {R : α → α → Prop} (once : ∀ {a b}, R a b → ¬R b a) {l : List α} (order : l.Pairwise R) {p : α → Bool} {a : α} :
    l.find? p = some a ↔ a ∈ l ∧ p a = true ∧ ∀ b ∈ l, R b a → p b = false := by
  rw [List.find?_eq_some_iff_append]
  constructor
  · rintro ⟨here,earlier,later,rfl,none_⟩
    refine ⟨List.mem_append_right _ List.mem_cons_self,here,fun b mem before => ?_⟩
    rcases List.mem_append.mp mem with mem | mem
    · exact Bool.not_eq_true' _ ▸ none_ b mem
    · rcases List.mem_cons.mp mem with rfl | mem
      · exact absurd before (once before)
      · have after := (List.pairwise_cons.mp (List.pairwise_append.mp order).2.1).1 b mem
        exact absurd before (once after)
  · rintro ⟨mem,here,first⟩
    obtain ⟨earlier,later,rfl⟩ := List.append_of_mem mem
    refine ⟨here,earlier,later,rfl,fun b inside => ?_⟩
    have before := (List.pairwise_append.mp order).2.2 b inside a List.mem_cons_self
    rw [first b (List.mem_append_left _ inside) before]
    rfl

theorem ofDeviceMem {bus : Fin 256} {dev : Fin 32} {d : PciDevice} : d ∈ ofDevice bus dev ↔ d.bus = bus ∧ d.device = dev := by
  unfold ofDevice
  rw [List.mem_map]
  constructor
  · rintro ⟨f,-,rfl⟩
    exact ⟨rfl,rfl⟩
  · rintro ⟨rfl,rfl⟩
    exact ⟨d.function,List.mem_finRange _,rfl⟩

theorem ofBusMem {bus : Fin 256} {d : PciDevice} : d ∈ ofBus bus ↔ d.bus = bus := by
  unfold ofBus
  rw [List.mem_flatMap]
  exact ⟨fun ⟨_,_,mem⟩ => (ofDeviceMem.mp mem).1,fun same => ⟨d.device,List.mem_finRange _,ofDeviceMem.mpr ⟨same,rfl⟩⟩⟩

theorem candidatesMem {d : PciDevice} : d ∈ candidates ↔ d.bus < 8 := by
  have buses : ∀ bus : Fin 256, bus ∈ [0,1,2,3,4,5,6,7] ↔ bus < 8 := by decide +kernel
  unfold candidates
  rw [List.mem_flatMap,← buses]
  exact ⟨fun ⟨bus,mem,inside⟩ => ofBusMem.mp inside ▸ mem,fun mem => ⟨d.bus,mem,ofBusMem.mpr rfl⟩⟩

theorem candidatesOrder : candidates.Pairwise Before := by
  refine List.pairwise_flatMap.mpr ⟨fun bus _ => List.pairwise_flatMap.mpr ⟨fun dev _ => List.pairwise_map.mpr ?_,?_⟩,?_⟩
  · exact (List.pairwise_lt_finRange 8).imp fun less => .inr ⟨rfl,.inr ⟨rfl,less⟩⟩
  · refine (List.pairwise_lt_finRange 32).imp fun less d mem other mem' => ?_
    obtain ⟨bus_,dev_⟩ := ofDeviceMem.mp mem
    obtain ⟨bus',dev'⟩ := ofDeviceMem.mp mem'
    exact .inr ⟨bus_.trans bus'.symm,.inl (by rwa [dev_,dev'])⟩
  · have order : [0,1,2,3,4,5,6,7].Pairwise (fun bus bus' : Fin 256 => bus < bus') := by decide
    refine order.imp fun less d mem other mem' => .inl ?_
    rwa [ofBusMem.mp mem,ofBusMem.mp mem']

end Order

/- The scan comes to the first function that answers, and to none only if none does. -/
theorem scanExact (vendor device : UInt16) (p : Ports) : ∃ found address, find vendor device p = (found,{ p with address := address }) ∧
    (∀ d, found = some d ↔ d.bus < 8 ∧ answers vendor device p.config d = true ∧
      ∀ other, other.bus < 8 → Before other d → answers vendor device p.config other = false) ∧
    (found = none ↔ ∀ d, d.bus < 8 → answers vendor device p.config d = false) := by
  obtain ⟨address,scanned⟩ : ∃ address, find vendor device p = (_,{ p with address := address }) := scanBusesIs [0,1,2,3,4,5,6,7] p
  refine ⟨_,address,scanned,fun d => ?_,?_⟩
  · refine (findFirst beforeOnce candidatesOrder).trans ?_
    rw [candidatesMem]
    exact and_congr_right fun _ => and_congr_right fun _ =>
      ⟨fun first other low => first other (candidatesMem.mpr low),fun first other mem => first other (candidatesMem.mp mem)⟩
  · rw [List.find?_eq_none]
    exact ⟨fun none_ d low => Bool.eq_false_iff.mpr (none_ d (candidatesMem.mpr low)),
      fun none_ d mem => Bool.eq_false_iff.mp (none_ d (candidatesMem.mp mem))⟩

section Detecting

def VENDOR_INTEL : UInt16 := 0x8086
def DEVICE_82801AA : UInt16 := 0x2415

/- `init` of the sound card up to its first port, through the ports. -/
def detect (p : Ports) : Except String (UInt16 × UInt16) × Ports :=
  match find VENDOR_INTEL DEVICE_82801AA p with
  | (none,p) => (.error "no AC97 on the PCI bus",p)
  | (some device,p) =>
    match device.ioBar 0 (device.enableIoAndBusMaster p) with
    | (none,p) => (.error "mixer BAR is not I/O",p)
    | (some mixer,p) =>
      match device.ioBar 1 p with
      | (none,p) => (.error "bus master BAR is not I/O",p)
      | (some nabm,p) =>
        let (irqLine,p) := device.interruptLine p
        (if irqLine = 0 ∨ 16 ≤ irqLine then .error "firmware routed no usable IRQ line"
          else (Ac97.registerPciSoundIrq irqLine).map fun _ => (mixer,nabm),p)

/- One write enables the device: to its command register, of which it leaves the other bits alone. -/
def enabling (c : Config) (d : PciDevice) : PciDevice × UInt8 × UInt32 := (d,0x04,c d 0x04 ||| 5)

variable {p : Ports} {d : PciDevice}

theorem enableWrites : ∃ address, d.enableIoAndBusMaster p = { p with address := address, written := p.written ++ [enabling p.config d] } := by
  unfold PciDevice.enableIoAndBusMaster
  rw [readRegister d (by decide)]
  unfold PciDevice.configWrite Ports.writeData Ports.writeAddress
  dsimp only
  rw [decodeAddress]
  exact ⟨_,rfl⟩

theorem ioBarReads (index : UInt8) (aligned : (0x10 + index * 4).toNat / 4 * 4 = (0x10 + index * 4).toNat) :
    ∃ address, d.ioBar index p = (Ac97.PciDevice.ioBar (p.config d) index,{ p with address := address }) := by
  unfold PciDevice.ioBar
  rw [readRegister d aligned]
  exact ⟨_,rfl⟩

theorem interruptLineReads : ∃ address, d.interruptLine p = (Ac97.PciDevice.interruptLine (p.config d),{ p with address := address }) := by
  unfold PciDevice.interruptLine
  rw [readRegister d (by decide)]
  exact ⟨_,rfl⟩

theorem detectCases (device : Ac97.PciDevice) : Ac97.detect (some device) =
    match device.ioBar 0, device.ioBar 1 with
    | none, _ => .error "mixer BAR is not I/O"
    | some _, none => .error "bus master BAR is not I/O"
    | some mixer, some nabm =>
      if device.interruptLine = 0 ∨ 16 ≤ device.interruptLine then .error "firmware routed no usable IRQ line"
      else (Ac97.registerPciSoundIrq device.interruptLine).map fun _ => (mixer,nabm) := by
  unfold Ac97.detect Ac97.okOr
  simp only [Option.elim_some,bind,Except.bind]
  cases device.ioBar 0 with
  | none => rfl
  | some mixer =>
    cases device.ioBar 1 with
    | none => rfl
    | some nabm =>
      by_cases line : device.interruptLine = 0 ∨ 16 ≤ device.interruptLine
      · exact (if_pos line).trans (if_pos line).symm
      · refine (if_neg line).trans (.trans ?_ (if_neg line).symm)
        cases Ac97.registerPciSoundIrq device.interruptLine <;> rfl

/- The card that is detected through the ports is the first that answers, seen by its registers; the one write on the way
enables it. -/
theorem cardDetected (p : Ports) : ∃ found : Option PciDevice,
    (∀ d, found = some d ↔ d.bus < 8 ∧ answers VENDOR_INTEL DEVICE_82801AA p.config d = true ∧
      ∀ other, other.bus < 8 → Before other d → answers VENDOR_INTEL DEVICE_82801AA p.config other = false) ∧
    (found = none ↔ ∀ d, d.bus < 8 → answers VENDOR_INTEL DEVICE_82801AA p.config d = false) ∧
    ∃ address, detect p = (Ac97.detect (found.map p.config),
      { p with address := address, written := p.written ++ found.toList.map (enabling p.config) }) := by
  obtain ⟨found,address,scanned,first,none_⟩ := scanExact VENDOR_INTEL DEVICE_82801AA p
  refine ⟨found,first,none_,?_⟩
  unfold detect
  rw [scanned]
  cases found with
  | none => exact ⟨address,by rw [Option.toList_none,List.map_nil,List.append_nil]; rfl⟩
  | some d =>
    obtain ⟨a₁,enabled⟩ := enableWrites (p := { p with address := address }) (d := d)
    obtain ⟨a₂,mixer⟩ := ioBarReads (d := d) (p := { p with address := a₁, written := p.written ++ [enabling p.config d] }) 0 (by decide)
    obtain ⟨a₃,nabm⟩ := ioBarReads (d := d) (p := { p with address := a₂, written := p.written ++ [enabling p.config d] }) 1 (by decide)
    obtain ⟨a₄,line⟩ := interruptLineReads (d := d) (p := { p with address := a₃, written := p.written ++ [enabling p.config d] })
    dsimp only at enabled mixer nabm line ⊢
    rw [enabled,mixer]
    cases first_ : Ac97.PciDevice.ioBar (p.config d) 0 with
    | none =>
      refine ⟨a₂,?_⟩
      rw [Option.map_some,detectCases,first_]
      rfl
    | some m =>
      dsimp only
      rw [nabm]
      cases second_ : Ac97.PciDevice.ioBar (p.config d) 1 with
      | none =>
        refine ⟨a₃,?_⟩
        rw [Option.map_some,detectCases,first_,second_]
        rfl
      | some n =>
        refine ⟨a₄,?_⟩
        dsimp only
        rw [line,Option.map_some,detectCases,first_,second_]
        rfl

end Detecting

end Officium.Pci
