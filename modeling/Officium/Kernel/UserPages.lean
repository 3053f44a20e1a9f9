import Officium.Library.Plays
import Officium.Kernel.PageTables

/-! The pages laid down for ring 3. Each gets a frame of its own, but nothing is written to the frame: what
ring 3 reads in a fresh page is what physical memory held there before. -/
namespace Officium.UserPages
open Clients (serve stretch Returns)
open Frames PageTables
open Plays (play playCons)

section Runs
variable {μ : Type} (tables : Mapper μ)

/- The memory subsystem after a call. -/
def callStep (m : Memory μ) (call : Call) : Except Panic (Memory μ) :=
  (served tables m call).result.map (fun r => ⟨r.2,r.1.2.1,r.1.2.2⟩)

def handedOut (calls : List Call) (m : Memory μ) : List PhysFrame := (runCalls tables calls m).flatMap Event.handed

variable {tables}

theorem callStepServed {m t : Memory μ} {call : Call} (h : callStep tables m call = .ok t) :
    ∃ reply, (served tables m call).result = .ok ((reply,t.mapper,t.parked),t.frames) := by
  unfold callStep at h
  cases reply : (served tables m call).result with
  | error panic =>
    rw [reply] at h
    cases h
  | ok r =>
    rw [reply] at h
    cases h
    exact ⟨r.1.1,rfl⟩

theorem handedOutCons {m t : Memory μ} {call : Call} (h : callStep tables m call = .ok t) (rest : List Call) :
    handedOut tables (call :: rest) m = (served tables m call).handed ++ handedOut tables rest t := by
  obtain ⟨reply,returned⟩ := callStepServed h
  rw [handedOut,runCalls]
  simp only [returned]
  rfl

/- What was handed out is the stretch of the map that the allocator went over. -/
theorem playHanded {m t : Memory μ} {calls : List Call} (h : play (callStep tables) m calls = .ok t) :
    ∃ k, handedOut tables calls m = stretch (frameAt m.frames) m.frames.next k ∧ t.frames.next = m.frames.next + k ∧
      frameAt t.frames = frameAt m.frames := by
  induction calls generalizing m with
  | nil =>
    cases h
    exact ⟨0,rfl,rfl,rfl⟩
  | cons call rest ih =>
    obtain ⟨u,now,later⟩ := playCons h
    obtain ⟨reply,returned⟩ := callStepServed now
    obtain ⟨k,handed,ended⟩ := Clients.serveStretch allocateSequence (call.client tables m) m.frames
    obtain ⟨next,same⟩ := ended _ _ returned
    obtain ⟨l,handed',next',same'⟩ := ih later
    refine ⟨k + l,?_,by omega,same'.trans same⟩
    rw [handedOutCons now,handed',next,same,← Clients.stretchAppend]
    exact congrArg (· ++ _) handed

end Runs

section Deals
variable {μ : Type} {tables : Mapper μ} (paging : Paging μ) (boot : μ)

/- Beyond what there was at boot, tables and pages are in frames that were handed out. -/
structure Dealt (handed : List PhysFrame) (mapper : μ) : Prop where
  tables : ∀ table ∈ paging.tableFrames mapper, table ∈ paging.tableFrames boot ∨ table ∈ handed
  pages : ∀ page frame, paging.translate boot page = none → paging.translate mapper page = some frame → frame ∈ handed

variable {paging boot} {handed : List PhysFrame} {mapper : μ}

theorem dealtMore (dealt : Dealt paging boot handed mapper) (later : List PhysFrame) : Dealt paging boot (handed ++ later) mapper where
  tables := fun table mem => (dealt.tables table mem).imp_right (List.mem_append_left later)
  pages := fun page frame free leads => List.mem_append_left later (dealt.pages page frame free leads)

theorem dealtMapped {page : Page} {frame : PhysFrame} {later : List PhysFrame} {result : Except MapToError Unit} {after : μ}
    (dealt : Dealt paging boot handed mapper) (drawn : frame ∈ handed) (mapped : Mapped paging page frame mapper later result after) :
    Dealt paging boot (handed ++ later) after where
  tables := by
    intro table mem
    rcases mapped.tables table mem with before | new
    · exact (dealtMore dealt later).tables table before
    · exact .inr (List.mem_append_right handed new)
  pages := by
    intro other f free leads
    by_cases same : other = page
    · subst same
      by_cases done : result = .ok ()
      · obtain rfl := Option.some.inj ((mapped.installs done).symm.trans leads)
        exact List.mem_append_left later drawn
      · exact (dealtMore dealt later).pages other f free ((mapped.refuses done).symm.trans leads)
    · exact (dealtMore dealt later).pages other f free ((mapped.others other same).symm.trans leads)

theorem dealtMap {map : Page → PhysFrame → μ → Drawing (Except MapToError Unit × μ)} (maps : Maps paging map) {page : Page} {frame : PhysFrame}
    (dealt : Dealt paging boot handed mapper) (drawn : frame ∈ handed) :
    Returns allocateFrame handed (fun handed r => Dealt paging boot handed r.2) (map page frame mapper) :=
  fun frames r frames' returned => dealtMapped dealt drawn (maps.mapped page frame mapper frames r.1 r.2 frames' returned)

theorem dealtUser (faithful : Faithful paging tables) (dealt : Dealt paging boot handed mapper) (va : UInt64) (writable : Bool) :
    Returns allocateFrame handed (fun handed r => Dealt paging boot handed r.2) (mapUserPage tables va writable mapper) := by
  unfold mapUserPage
  split
  · exact Clients.returnsFail _
  · refine Clients.returnsDraw fun x => ?_
    cases x with
    | none => exact Clients.returnsDone (dealtMore dealt _)
    | some frame =>
      have drawn : frame ∈ handed ++ [frame] := List.mem_append_right _ (List.mem_singleton.mpr rfl)
      exact Clients.returnsBind (Clients.returnsWeaken (dealtMap (faithful.withTableFlags _ _) (dealtMore dealt [frame]) drawn)
        fun handed r kept => Clients.returnsDone kept)

theorem dealtHeap (faithful : Faithful paging tables) (pages : List Page) (dealt : Dealt paging boot handed mapper) :
    Returns allocateFrame handed (fun handed r => Dealt paging boot handed r.2) (mapHeap tables pages mapper) := by
  induction pages generalizing handed mapper with
  | nil => exact Clients.returnsDone dealt
  | cons page rest ih =>
    refine Clients.returnsDraw fun x => ?_
    cases x with
    | none => exact Clients.returnsDone (dealtMore dealt _)
    | some frame =>
      have drawn : frame ∈ handed ++ [frame] := List.mem_append_right _ (List.mem_singleton.mpr rfl)
      refine Clients.returnsBind (Clients.returnsWeaken (dealtMap (faithful.mapTo _) (dealtMore dealt [frame]) drawn) fun handed r kept => ?_)
      obtain ⟨result,after⟩ := r
      cases result with
      | error e => exact Clients.returnsDone kept
      | ok _ => exact ih kept

theorem dealtCall (faithful : Faithful paging tables) (m : Memory μ) (dealt : Dealt paging boot handed m.mapper) (call : Call) :
    Returns allocateFrame handed (fun handed r => Dealt paging boot handed r.2.1) (call.client tables m) := by
  cases call with
  | allocateFrame => exact Clients.returnsDraw fun x => Clients.returnsDone (dealtMore dealt _)
  | allocContiguous count => exact Clients.returnsBind fun frames a after _ => Clients.returnsDone (dealtMore dealt _)
  | initHeap =>
    exact Clients.returnsBind (Clients.returnsWeaken (dealtHeap faithful _ dealt) fun handed r kept => Clients.returnsDone kept)
  | initGlobal => exact Clients.returnsDone dealt
  | mapUserPage va writable =>
    rw [Call.client]
    split
    · exact Clients.returnsBind (Clients.returnsWeaken (dealtUser faithful dealt va writable) fun handed r kept => Clients.returnsDone kept)
    · exact Clients.returnsDone dealt

/- So it is after every run of calls. -/
theorem dealtPlay (faithful : Faithful paging tables) {calls : List Call} {m t : Memory μ} (dealt : Dealt paging boot handed m.mapper)
    (h : play (callStep tables) m calls = .ok t) : Dealt paging boot (handed ++ handedOut tables calls m) t.mapper := by
  induction calls generalizing m handed with
  | nil =>
    cases h
    exact dealtMore dealt _
  | cons call rest ih =>
    obtain ⟨u,now,later⟩ := playCons h
    obtain ⟨reply,returned⟩ := callStepServed now
    have kept := ih (dealtCall faithful m dealt call m.frames _ _ returned) later
    rw [handedOutCons now]
    rwa [List.append_assoc] at kept

theorem dealtBoot : Dealt paging boot [] boot where
  tables := fun _ mem => .inl mem
  pages := fun _ _ free leads => nomatch free.symm.trans leads

end Deals

section Pages
variable {μ : Type} {tables : Mapper μ} {paging : Paging μ} {va : UInt64} {writable : Bool} {page : Page} {mapper mapper' : μ}
variable {frames frames' : BootInfoFrameAllocator}

/- A call that returns was out of frames, or returns what the mapper made of its frame. -/
theorem userReturned (there : Page.containingAddress va.toNat = .ok page) {result : Except String Unit}
    (h : (serve allocateFrame (mapUserPage tables va writable mapper) frames).result = .ok ((result,mapper'),frames')) :
    (allocateFrame frames = .ok (none,frames') ∧ result = .error "out of frames" ∧ mapper' = mapper) ∨
      ∃ frame mapped, allocateFrame frames = .ok (some frame,past frames 1) ∧ result = mapped.mapError (fun _ => "map_to failed") ∧
        (serve allocateFrame (tables.mapToWithTableFlags page frame ⟨true,writable,true⟩ ⟨true,true,true⟩ mapper) (past frames 1)).result =
          .ok ((mapped,mapper'),frames') := by
  rw [mapUserPage,there] at h
  obtain ⟨⟨drawn,after⟩,given,h⟩ := Clients.resultBindOk.mp h
  rw [Clients.resultDraw] at given
  cases drawn with
  | none =>
    cases h
    exact .inl ⟨given,rfl,rfl⟩
  | some frame =>
    obtain rfl := allocateNext given
    obtain ⟨⟨⟨mapped,mapper''⟩,left⟩,mapping,h⟩ := Clients.resultBindOk.mp h
    cases h
    exact .inr ⟨frame,mapped,given,rfl,mapping⟩

theorem userMapped (there : Page.containingAddress va.toNat = .ok page) {after : BootInfoFrameAllocator} {frame : PhysFrame}
    {mapped : Except MapToError Unit} (given : allocateFrame frames = .ok (some frame,after))
    (mapping : (serve allocateFrame (tables.mapToWithTableFlags page frame ⟨true,writable,true⟩ ⟨true,true,true⟩ mapper) after).result =
      .ok ((mapped,mapper'),frames')) :
    (serve allocateFrame (mapUserPage tables va writable mapper) frames).result = .ok ((mapped.mapError (fun _ => "map_to failed"),mapper'),frames') := by
  rw [mapUserPage,there]
  exact Clients.resultBindOk.mpr ⟨_,(Clients.resultDraw frames).trans given,Clients.resultBindOk.mpr ⟨_,mapping,rfl⟩⟩

/- What a page is laid down with, and what that did. -/
theorem userOk (faithful : Faithful paging tables) (there : Page.containingAddress va.toNat = .ok page)
    (h : (serve allocateFrame (mapUserPage tables va writable mapper) frames).result = .ok ((.ok (),mapper'),frames')) :
    ∃ frame k, allocateFrame frames = .ok (some frame,past frames 1) ∧ paging.translate mapper page = none ∧
      Supplies (paging.missing mapper page + 1) frames ∧
      Mapped paging page frame mapper (stretch (frameAt frames) (frames.next + 1) k) (.ok ()) mapper' ∧
      (serve allocateFrame (tables.mapToWithTableFlags page frame ⟨true,writable,true⟩ ⟨true,true,true⟩ mapper) (past frames 1)).result =
        .ok ((.ok (),mapper'),frames') := by
  rcases userReturned there h with ⟨-,never,-⟩ | ⟨frame,mapped,given,same,mapping⟩
  · cases never
  · cases mapped with
    | error e => cases same
    | ok _ =>
      have maps := faithful.withTableFlags ⟨true,writable,true⟩ ⟨true,true,true⟩
      obtain ⟨free,supplies⟩ := (maps.succeeds page frame mapper (past frames 1)).mp ⟨_,_,mapping⟩
      obtain ⟨k,handed,-⟩ := Clients.serveStretch allocateSequence
        (tables.mapToWithTableFlags page frame ⟨true,writable,true⟩ ⟨true,true,true⟩ mapper) (past frames 1)
      have did := maps.mapped page frame mapper _ _ _ _ mapping
      exact ⟨frame,k,given,free,(suppliesSucc _).mpr ⟨frame,given,supplies⟩,handed ▸ did,mapping⟩

theorem userReturns (faithful : Faithful paging tables) (there : Page.containingAddress va.toNat = .ok page) (writable : Bool)
    (free : paging.translate mapper page = none) (supplies : Supplies (paging.missing mapper page + 1) frames) :
    ∃ mapper' frames', (serve allocateFrame (mapUserPage tables va writable mapper) frames).result = .ok ((.ok (),mapper'),frames') := by
  obtain ⟨frame,given,more⟩ := (suppliesSucc _).mp supplies
  obtain ⟨mapper',frames',mapping⟩ := ((faithful.withTableFlags ⟨true,writable,true⟩ ⟨true,true,true⟩).succeeds page frame mapper _).mpr ⟨free,more⟩
  exact ⟨mapper',frames',userMapped there given mapping⟩

end Pages

section Fresh
variable {μ : Type} (tables : Mapper μ) (paging : Paging μ) (free : Page → Prop) (handed : List PhysFrame) (m : Memory μ) (ram : Nat → UInt8)
variable (va : UInt64) (writable : Bool)

/- The byte read at an address. `ram` is what physical memory holds outside the page tables, which are not read here. -/
def load (mapper : μ) (a : Nat) : Option UInt8 := do
  let page ← (Page.containingAddress a).toOption
  let frame ← paging.translate mapper page
  if frame ∈ paging.tableFrames mapper then none else some (ram (frame.startAddress + a % frameSize))

/- The page leads to a frame that nobody had, no other page of the user's does, and all of it reads zero. -/
structure Fresh (mapper : μ) : Prop where
  alone : ∃ page frame, Page.containingAddress va.toNat = .ok page ∧ paging.translate mapper page = some frame ∧ frame ∉ handed ∧
    ∀ other, free other → paging.translate mapper other = some frame → other = page
  zeroed : ∀ i < frameSize, load paging ram mapper (va.toNat + i) = some 0

def UserPageFresh : Prop := ∀ mapper parked frames,
  (served tables m (.mapUserPage va writable)).result = .ok ((.mapped (.ok ()),mapper,parked),frames) → Fresh paging free handed ram va mapper

/- Where there are frames for the page and the tables it lacks, the next frame of the map holds only zeros. -/
def CleanAhead : Prop := m.parked = true → ∀ page, Page.containingAddress va.toNat = .ok page → paging.translate m.mapper page = none →
  Supplies (paging.missing m.mapper page + 1) m.frames →
    ∀ frame after, allocateFrame m.frames = .ok (some frame,after) → ∀ i < frameSize, ram (frame.startAddress + i) = 0

variable {tables paging m va writable}

theorem callReturned {mapper : μ} {parked : Bool} {frames : BootInfoFrameAllocator} : (served tables m (.mapUserPage va writable)).result =
      .ok ((.mapped (.ok ()),mapper,parked),frames) ↔ m.parked = true ∧ parked = true ∧
        (serve allocateFrame (mapUserPage tables va writable m.mapper) m.frames).result = .ok ((.ok (),mapper),frames) := by
  rw [served,Call.client]
  cases m.parked with
  | false =>
    constructor
    · intro never
      cases never
    · rintro ⟨never,-⟩
      cases never
  | true =>
    rw [if_pos rfl]
    refine Clients.resultBindOk.trans ⟨?_,?_⟩
    · rintro ⟨⟨⟨result,after⟩,left⟩,laid,h⟩
      cases h
      exact ⟨rfl,rfl,laid⟩
    · rintro ⟨-,rfl,laid⟩
      exact ⟨_,laid,rfl⟩

/- The addresses of an aligned page. -/
theorem pageThere {va : Nat} (aligned : frameSize ∣ va) {page : Page} (there : Page.containingAddress va = .ok page) {i : Nat} (small : i < frameSize) :
    Page.containingAddress (va + i) = .ok page ∧ (va + i) % frameSize = i := by
  obtain ⟨k,rfl⟩ := aligned
  have offset : (frameSize * k + i) % frameSize = i := by rw [Nat.mul_add_mod,Nat.mod_eq_of_lt small]
  refine ⟨?_,offset⟩
  unfold Page.containingAddress at there ⊢
  split at there
  · rename_i canonical
    have within : frameSize * k + i < 2 ^ 47 ∨ (2 ^ 64 - 2 ^ 47 ≤ frameSize * k + i ∧ frameSize * k + i < 2 ^ 64) := by
      unfold frameSize at small canonical ⊢
      omega
    rw [if_pos within,← there]
    congr 2
    rw [offset,Nat.mul_mod_right,Nat.add_sub_cancel,Nat.sub_zero]
  · cases there

section Run
variable {memoryRegions : List MemoryRegion} {boot : μ} {calls : List Call}

/- The frame of a page just mapped is nobody's, holds no table, and leads nowhere else. -/
theorem frameAlone (sound : Sound memoryRegions) (faithful : Faithful paging tables)
    (unused : ∀ table ∈ paging.tableFrames boot, table.startAddress ∉ frameStarts memoryRegions)
    (run : play (callStep tables) (.boot memoryRegions boot) calls = .ok m) {page : Page} {frame : PhysFrame} {after : BootInfoFrameAllocator}
    (given : allocateFrame m.frames = .ok (some frame,after)) {k : Nat} {mapper : μ}
    (mapped : Mapped paging page frame m.mapper (stretch (frameAt m.frames) (m.frames.next + 1) k) (.ok ()) mapper) :
    frame ∉ handedOut tables calls (.boot memoryRegions boot) ∧ frame ∉ paging.tableFrames mapper ∧
      ∀ other, paging.translate boot other = none → paging.translate mapper other = some frame → other = page := by
  obtain ⟨here,-⟩ := allocateSequence m.frames (some frame) after given
  obtain ⟨n,handed,next,same⟩ := playHanded run
  have distinct : Clients.Distinct (frameAt m.frames) := same ▸ frameAtDistinct sound rfl
  have dealt := dealtPlay faithful dealtBoot run
  rw [List.nil_append] at dealt
  have new : frame ∉ handedOut tables calls (.boot memoryRegions boot) := by
    intro mem
    rw [handed,← same] at mem
    have place := Clients.stretchPlace distinct mem here.symm
    omega
  have later : frame ∉ stretch (frameAt m.frames) (m.frames.next + 1) k := by
    intro mem
    have place := Clients.stretchPlace distinct mem here.symm
    omega
  refine ⟨new,fun mem => ?_,fun other free leads => ?_⟩
  · rcases mapped.tables frame mem with before | drawn
    · rcases dealt.tables frame before with booted | given'
      · have start := frameAtStart sound rfl (same ▸ here.symm)
        exact unused frame booted (List.mem_of_getElem? start)
      · exact new given'
    · exact later drawn
  · by_contra differs
    exact new (dealt.pages other frame free ((mapped.others other differs).symm.trans leads))

/- Ring 3 finds a page of zeros exactly where the frame it gets held them already. -/
theorem userPageFresh (sound : Sound memoryRegions) (faithful : Faithful paging tables)
    (unused : ∀ table ∈ paging.tableFrames boot, table.startAddress ∉ frameStarts memoryRegions)
    (run : play (callStep tables) (.boot memoryRegions boot) calls = .ok m) (ram : Nat → UInt8) (aligned : frameSize ∣ va.toNat) (writable : Bool) :
    UserPageFresh tables paging (fun page => paging.translate boot page = none) (handedOut tables calls (.boot memoryRegions boot)) m ram va writable ↔
      CleanAhead paging m ram va := by
  have reads {page : Page} {frame : PhysFrame} {k : Nat} {mapper : μ} (there : Page.containingAddress va.toNat = .ok page)
      (given : allocateFrame m.frames = .ok (some frame,past m.frames 1))
      (mapped : Mapped paging page frame m.mapper (stretch (frameAt m.frames) (m.frames.next + 1) k) (.ok ()) mapper) {i : Nat} (small : i < frameSize) :
      load paging ram mapper (va.toNat + i) = some (ram (frame.startAddress + i)) := by
    obtain ⟨-,plain,-⟩ := frameAlone sound faithful unused run given mapped
    obtain ⟨same,offset⟩ := pageThere aligned there small
    rw [load,same,offset]
    change (paging.translate mapper page).bind _ = _
    rw [mapped.installs rfl]
    exact if_neg plain
  constructor
  · intro fresh parked page there free supplies frame after given i small
    obtain ⟨mapper,frames,returned⟩ := userReturns faithful there writable free supplies
    obtain ⟨-,zeroed⟩ := fresh mapper true frames (callReturned.mpr ⟨parked,rfl,returned⟩)
    obtain ⟨frame',k,given',-,-,mapped,-⟩ := userOk faithful there returned
    cases given'.symm.trans given
    exact Option.some.inj ((reads there given' mapped small).symm.trans (zeroed i small))
  · intro clean mapper parked' frames returned
    obtain ⟨parked,-,returned'⟩ := callReturned.mp returned
    cases there : Page.containingAddress va.toNat with
    | error panic =>
      rw [mapUserPage,there] at returned'
      cases returned'
    | ok page =>
      obtain ⟨frame,k,given,free,supplies,mapped,-⟩ := userOk faithful there returned'
      obtain ⟨new,-,alone⟩ := frameAlone sound faithful unused run given mapped
      refine ⟨⟨page,frame,there,mapped.installs rfl,new,alone⟩,fun i small => ?_⟩
      rw [reads there given mapped small,clean parked page there free supplies frame _ given i small]

end Run

end Fresh

section Levels

/- At boot there is one table below the root, in memory that is the loader's. -/
def bootLevels : Levels := ⟨[((39,0),⟨0x4000,by decide⟩)],[]⟩

def laidCalls : List Call := [.allocateFrame,.allocContiguous 3,.initGlobal]

def laid : Memory Levels := ⟨⟨holedMap,6⟩,bootLevels,true⟩

theorem laidUnused : ∀ table ∈ levelPaging.tableFrames bootLevels, table.startAddress ∉ frameStarts holedMap := by
  intro table mem
  rw [List.mem_singleton.mp mem]
  decide

/- All of memory is dirty but the frame that comes next. -/
theorem userPageFreshLevels :
    (∃ r after, (served levelMapper laid (.mapUserPage 0x40000000 true)).result = .ok ((.mapped (.ok ()),r),after)) ∧
      UserPageFresh levelMapper levelPaging (fun page => levelPaging.translate bootLevels page = none)
        (handedOut levelMapper laidCalls (.boot holedMap bootLevels)) laid (fun a => if 0x9000 ≤ a ∧ a < 0xa000 then 0 else 0xa5) 0x40000000 true := by
  refine ⟨⟨_,_,rfl⟩,(userPageFresh holedMapSound levelFrugal.toFaithful laidUnused rfl _ (by decide) true).mpr ?_⟩
  rintro - page - - - frame after given i small
  obtain rfl : frame = ⟨0x9000,by decide⟩ := by
    cases given
    rfl
  have within : 0x9000 ≤ 0x9000 + i ∧ 0x9000 + i < 0xa000 := ⟨Nat.le_add_right _ _,Nat.add_lt_add_left small 0x9000⟩
  exact if_pos within

/- The same call on memory that is dirty throughout gives ring 3 a page of what was there. -/
theorem userPageStale :
    Frugal levelPaging levelMapper ∧ Sound holedMap ∧ (∀ table ∈ levelPaging.tableFrames bootLevels, table.startAddress ∉ frameStarts holedMap) ∧
      play (callStep levelMapper) (.boot holedMap bootLevels) laidCalls = .ok laid ∧
      ¬UserPageFresh levelMapper levelPaging (fun page => levelPaging.translate bootLevels page = none)
        (handedOut levelMapper laidCalls (.boot holedMap bootLevels)) laid (fun _ => 0xa5) 0x40000000 true := by
  refine ⟨levelFrugal,holedMapSound,laidUnused,rfl,fun fresh => ?_⟩
  obtain ⟨-,zeroed⟩ := fresh _ _ _ rfl
  exact absurd (zeroed 0 (by decide)) (by decide)

end Levels

end Officium.UserPages
