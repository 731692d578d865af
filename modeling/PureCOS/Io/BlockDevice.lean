import PureCOS.Lib.Run

/-!
# Block devices

`io/storage/block_device.c`: reads and writes go to the active device.  The swap code reaches
another disk by `block_device_raw_run`, which replaces the active device for a while under the
lock of the fixed disks.  A read or write looks at the active transport before it takes a lock.

Threads run in any order.  A step is one access to a shared variable or one call of a driver;
drivers perform every sector on the device that is selected in them at that moment.
-/

namespace PureCOS.Io

open List

/-- `STORAGE_TRANSPORT_*` and `BLOCK_TRANSPORT_NONE` -/
inductive Transport where
  | none
  | ataPio
  | ahci
  | usbMsc
  | usbEhci
deriving DecidableEq

structure Device where
  transport : Transport
  index : Nat
deriving DecidableEq

/-- How many devices each driver has found. -/
structure Disks where
  ataCount : Nat
  ahciCount : Nat
  xhciCount : Nat
  ehciCount : Nat

def Disks.count (disks : Disks) : Transport → Nat
  | .none => 0
  | .ataPio => disks.ataCount
  | .ahci => disks.ahciCount
  | .usbMsc => disks.xhciCount
  | .usbEhci => disks.ehciCount

def ioLockChunkSectors : Nat := 8
def blockMultiMaxSectors : Nat := 32

/-- The arguments of `block_run`; the buffer is not null. -/
structure BlockCall where
  write : Bool
  lba : Nat
  count : Nat
deriving DecidableEq

/-- Where a thread is in `block_run`, `usb_run` and `fixed_run`. -/
inductive BlockPoint where
  | start
  | startMsc
  | usbChoose
  | usbLock (ehci : Bool)
  | usbRun (ehci : Bool) (lba left : Nat)
  | usbUnlock
  | fixedCheck
  | fixedLock (lba left : Nat)
  | fixedRun (lba left chunk done : Nat)
  | fixedUnlock (lba left chunk : Nat) (ok : Bool)
deriving DecidableEq

/-- The arguments of `block_device_raw_run`; the buffer is not null. -/
structure RawCall where
  deviceIndex : Nat
  write : Bool
  lba : Nat
  count : Nat
deriving DecidableEq

/-- Where a thread is in `block_device_raw_run`, with its local variables. -/
inductive RawPoint where
  | lock
  | save
  | select (saved : Device)
  | setTransport (saved : Device)
  | setIndex (saved : Device)
  | run (saved : Device) (done : Nat)
  | restoreTransport (saved : Device) (ok : Bool)
  | restoreIndex (saved : Device) (ok : Bool)
  | reselect (saved : Device) (ok : Bool)
  | unlock (ok : Bool)
deriving DecidableEq

inductive Thread where
  | idle
  | block (call : BlockCall) (point : BlockPoint)
  | raw (call : RawCall) (target : Device) (point : RawPoint)
deriving DecidableEq

/-- The shared variables; a lock names the thread that has it. -/
structure State where
  activeTransport : Transport
  activeIndex : Nat
  ataSelected : Nat
  ahciSelected : Nat
  xhciSelected : Nat
  ehciSelected : Nat
  devBusy : Option Nat
  usbBusy : Option Nat
  threads : Nat → Thread

/-- What can be seen from outside: sectors that drivers perform, and returns of calls. -/
inductive Shown where
  | sector (t : Nat) (raw : Bool) (device : Device) (write : Bool) (lba : Nat)
  | returned (t : Nat) (ok : Bool)
  | rawReturned (t : Nat) (ok : Bool) (active : Device)
  | rawRejected (t : Nat)
deriving DecidableEq

variable (s : State) (disks : Disks)

def State.goto (t : Nat) (thread : Thread) : State :=
  { s with threads := fun u => if u = t then thread else s.threads u }

/-- `ata_pio_select_device`, `ahci_select_device`, `xhci_select_device`, `ehci_select_device` -/
def State.driverSelect (d : Device) : State × Bool :=
  if d.index < disks.count d.transport then
    match d.transport with
    | .none => (s, false)
    | .ataPio => ({ s with ataSelected := d.index }, true)
    | .ahci => ({ s with ahciSelected := d.index }, true)
    | .usbMsc => ({ s with xhciSelected := d.index }, true)
    | .usbEhci => ({ s with ehciSelected := d.index }, true)
  else
    (s, false)

/-- The device with this number. -/
def Disks.device (index : Nat) : Device :=
  if index < disks.ataCount then
    ⟨.ataPio, index⟩
  else
    let relative := index - disks.ataCount
    if relative < disks.ahciCount then
      ⟨.ahci, relative⟩
    else
      let usbIndex := relative - disks.ahciCount
      if usbIndex < disks.xhciCount then ⟨.usbMsc, usbIndex⟩
        else ⟨.usbEhci, usbIndex - disks.xhciCount⟩

def State.blockDeviceSelect (index : Nat) : State × Bool :=
  match s.driverSelect disks (disks.device index) with
  | (s, true) =>
    ({ s with
       activeTransport := (disks.device index).transport
       activeIndex := (disks.device index).index }, true)
  | (s, false) => (s, false)

def fixedTransport (transport : Transport) : Bool := transport == .ahci || transport == .ataPio

/-- `fixed_sector_op`: the device on which the driver performs it. -/
def State.fixedSectorOp : Option Device :=
  if s.activeTransport = .ahci then
    some ⟨.ahci, s.ahciSelected⟩
  else if s.activeTransport = .ataPio then
    some ⟨.ataPio, s.ataSelected⟩
  else
    none

/-- The device on which a USB driver performs sectors. -/
def State.usbDevice (ehci : Bool) : Device :=
  if ehci then ⟨.usbEhci, s.ehciSelected⟩ else ⟨.usbMsc, s.xhciSelected⟩

/-- A step of `block_run` -/
def State.blockStep (t : Nat) (b : BlockCall) : BlockPoint → State × List Shown
  | .start =>
    if b.count = 0 then
      (s.goto t .idle, [.returned t true])
    else if s.activeTransport = .usbEhci then
      (s.goto t (.block b .usbChoose), [])
    else
      (s.goto t (.block b .startMsc), [])
  | .startMsc =>
    if s.activeTransport = .usbMsc then
      (s.goto t (.block b .usbChoose), [])
    else
      (s.goto t (.block b .fixedCheck), [])
  | .usbChoose => (s.goto t (.block b (.usbLock (s.activeTransport == .usbEhci))), [])
  | .usbLock ehci =>
    if s.usbBusy = none then
      (({ s with usbBusy := some t } : State).goto t (.block b (.usbRun ehci b.lba b.count)), [])
    else
      (s, [])
  | .usbRun ehci lba left =>
    if left = 0 then
      (s.goto t (.block b .usbUnlock), [])
    else
      let n := min left blockMultiMaxSectors
      (s.goto t (.block b (.usbRun ehci (lba + n) (left - n))),
        (range n).map fun k => .sector t false (s.usbDevice ehci) b.write (lba + k))
  | .usbUnlock => (({ s with usbBusy := none } : State).goto t .idle, [.returned t true])
  | .fixedCheck =>
    if fixedTransport s.activeTransport then
      (s.goto t (.block b (.fixedLock b.lba b.count)), [])
    else
      (s.goto t .idle, [.returned t false])
  | .fixedLock lba left =>
    if left = 0 then
      (s.goto t .idle, [.returned t true])
    else if s.devBusy = none then
      (({ s with devBusy := some t } : State).goto t
        (.block b (.fixedRun lba left (min left ioLockChunkSectors) 0)), [])
    else
      (s, [])
  | .fixedRun lba left chunk done =>
    if done < chunk then
      match s.fixedSectorOp with
      | some device =>
        (s.goto t (.block b (.fixedRun lba left chunk (done + 1))),
          [.sector t false device b.write (lba + done)])
      | none => (s.goto t (.block b (.fixedUnlock lba left chunk false)), [])
    else
      (s.goto t (.block b (.fixedUnlock lba left chunk true)), [])
  | .fixedUnlock lba left chunk ok =>
    if ok then
      (({ s with devBusy := none } : State).goto t
        (.block b (.fixedLock (lba + chunk) (left - chunk))), [])
    else
      (({ s with devBusy := none } : State).goto t .idle, [.returned t false])

/-- A step of `block_device_raw_run` -/
def State.rawStep (t : Nat) (r : RawCall) (target : Device) :
    RawPoint → State × List Shown
  | .lock =>
    if s.devBusy = none then
      (({ s with devBusy := some t } : State).goto t (.raw r target .save), [])
    else
      (s, [])
  | .save => (s.goto t (.raw r target (.select ⟨s.activeTransport, s.activeIndex⟩)), [])
  | .select saved =>
    match s.driverSelect disks target with
    | (s, true) => (s.goto t (.raw r target (.setTransport saved)), [])
    | (s, false) => (s.goto t (.raw r target (.unlock false)), [])
  | .setTransport saved =>
    (({ s with activeTransport := target.transport } : State).goto t
      (.raw r target (.setIndex saved)), [])
  | .setIndex saved =>
    (({ s with activeIndex := target.index } : State).goto t (.raw r target (.run saved 0)), [])
  | .run saved done =>
    if done < r.count then
      match s.fixedSectorOp with
      | some device =>
        (s.goto t (.raw r target (.run saved (done + 1))),
          [.sector t true device r.write (r.lba + done)])
      | none => (s.goto t (.raw r target (.restoreTransport saved false)), [])
    else
      (s.goto t (.raw r target (.restoreTransport saved true)), [])
  | .restoreTransport saved ok =>
    (({ s with activeTransport := saved.transport } : State).goto t
      (.raw r target (.restoreIndex saved ok)), [])
  | .restoreIndex saved ok =>
    (({ s with activeIndex := saved.index } : State).goto t (.raw r target (.reselect saved ok)),
      [])
  | .reselect saved ok =>
    if fixedTransport saved.transport then
      ((s.driverSelect disks saved).1.goto t (.raw r target (.unlock ok)), [])
    else
      (s.goto t (.raw r target (.unlock ok)), [])
  | .unlock ok =>
    (({ s with devBusy := none } : State).goto t .idle,
      [.rawReturned t ok ⟨s.activeTransport, s.activeIndex⟩])

inductive Event where
  | block (t : Nat) (call : BlockCall)
  | raw (t : Nat) (call : RawCall)
  | go (t : Nat)
deriving DecidableEq

/-- An idle thread starts a call, or a thread makes a step of its call. -/
def State.step (s : State) : Event → State × List Shown
  | .block t call => if s.threads t = .idle then (s.goto t (.block call .start), []) else (s, [])
  | .raw t call =>
    if s.threads t = .idle then
      -- USB devices are not raw devices
      if call.count = 0 ∨ disks.ataCount + disks.ahciCount ≤ call.deviceIndex then
        (s, [.rawRejected t])
      else
        (s.goto t (.raw call (disks.device call.deviceIndex) .lock), [])
    else
      (s, [])
  | .go t =>
    match s.threads t with
    | .idle => (s, [])
    | .block call point => s.blockStep t call point
    | .raw call target point => s.rawStep disks t call target point

/-! ## What holds at every point -/

/-- A thread that has the lock of the fixed disks. -/
def Thread.Holds : Thread → Prop
  | .block _ (.fixedRun ..) | .block _ (.fixedUnlock ..) => True
  | .block .. | .idle | .raw _ _ .lock => False
  | .raw .. => True

/-- A raw run that has replaced the active transport and not yet restored it. -/
def Thread.replaced : Thread → Bool
  | .raw _ _ (.setIndex _) | .raw _ _ (.run ..) | .raw _ _ (.restoreTransport ..) => true
  | _ => false

/-- A read or write that is about to look at the active transport without the lock. -/
def Thread.readsUnlocked : Thread → Bool
  | .block _ .start | .block _ .startMsc | .block _ .usbChoose | .block _ .fixedCheck => true
  | _ => false

/-- The device is selected in its driver, if it is a fixed disk. -/
structure Selected (d : Device) (s : State) : Prop where
  ata : d.transport = .ataPio → s.ataSelected = d.index
  ahci : d.transport = .ahci → s.ahciSelected = d.index

/-- The device is the active one, and selected. -/
structure Settled (d : Device) (s : State) : Prop where
  transport : s.activeTransport = d.transport
  index : s.activeIndex = d.index
  selected : Selected d s

/-- What a thread in a read or write of device `d` knows. -/
def BlockOk (d : Device) (s : State) : BlockPoint → Prop
  | .start => True
  | .startMsc => d.transport ≠ .usbEhci
  | .usbChoose => d.transport = .usbEhci ∨ d.transport = .usbMsc
  | .usbLock ehci | .usbRun ehci _ _ => d.transport = if ehci then .usbEhci else .usbMsc
  | .usbUnlock => True
  | .fixedCheck | .fixedLock .. => fixedTransport d.transport = true
  | .fixedRun .. => fixedTransport d.transport = true ∧ Settled d s
  | .fixedUnlock _ _ _ ok => fixedTransport d.transport = true ∧ Settled d s ∧ ok = true

/-- What a thread in a raw run knows while `d` is the selected device. -/
def RawOk (d : Device) (s : State) (target : Device) : RawPoint → Prop
  | .lock => True
  | .save => Settled d s
  | .select saved => saved = d ∧ Settled d s
  | .setTransport saved => saved = d ∧ s.activeTransport = d.transport ∧ s.activeIndex = d.index
  | .setIndex saved => saved = d ∧ s.activeTransport = target.transport
  | .run saved _ => saved = d ∧ s.activeTransport = target.transport
  | .restoreTransport saved _ => saved = d ∧ s.activeTransport = target.transport
  | .restoreIndex saved _ => saved = d ∧ s.activeTransport = d.transport
  | .reselect saved _ => saved = d ∧ s.activeTransport = d.transport ∧ s.activeIndex = d.index
  | .unlock _ => Settled d s

def ThreadOk (d : Device) (s : State) : Thread → Prop
  | .idle => True
  | .block _ point => BlockOk d s point
  | .raw _ target point => fixedTransport target.transport = true ∧ RawOk d s target point

/-- What holds in every state while `d` is the selected device. -/
structure Inv (d : Device) (s : State) : Prop where
  xhci : d.transport = .usbMsc → s.xhciSelected = d.index
  ehci : d.transport = .usbEhci → s.ehciSelected = d.index
  owner : ∀ t, (s.threads t).Holds ↔ s.devBusy = some t
  free : s.devBusy = none → Settled d s
  threads : ∀ t, ThreadOk d s (s.threads t)

/-- Reads and writes use the selected device and succeed; raw runs leave it as it was. -/
def ShownOk (d : Device) : Shown → Prop
  | .sector _ raw device _ _ => raw = false → device = d
  | .returned _ ok => ok = true
  | .rawReturned _ _ active => active = d
  | .rawRejected _ => True

/-! ## Steps -/

/-- The variables that the lock protects have the same values. -/
structure SameShared (s s' : State) : Prop where
  transport : s'.activeTransport = s.activeTransport
  index : s'.activeIndex = s.activeIndex
  ata : s'.ataSelected = s.ataSelected
  ahci : s'.ahciSelected = s.ahciSelected

section Shared

variable {d target : Device} {s s' : State} {thread : Thread} {t : Nat}

theorem sameShared_goto (s : State) (t : Nat) (thread : Thread) : SameShared s (s.goto t thread) :=
  ⟨rfl, rfl, rfl, rfl⟩

theorem Selected.congr (h : Selected d s) (hs : SameShared s s') : Selected d s' :=
  ⟨fun hd => hs.ata.trans (h.ata hd), fun hd => hs.ahci.trans (h.ahci hd)⟩

theorem Settled.congr (h : Settled d s) (hs : SameShared s s') : Settled d s' :=
  ⟨hs.transport.trans h.transport, hs.index.trans h.index, h.selected.congr hs⟩

theorem ThreadOk.congr (h : ThreadOk d s thread) (hs : SameShared s s') : ThreadOk d s' thread := by
  cases thread with
  | idle => trivial
  | block call point =>
    cases point with
    | start | startMsc | usbChoose | usbLock | usbRun | usbUnlock | fixedCheck | fixedLock =>
      exact h
    | fixedRun => exact ⟨h.1, h.2.congr hs⟩
    | fixedUnlock => exact ⟨h.1, h.2.1.congr hs, h.2.2⟩
  | raw call target point =>
    refine ⟨h.1, ?_⟩
    have h := h.2
    cases point with
    | lock => trivial
    | save => exact h.congr hs
    | select => exact ⟨h.1, h.2.congr hs⟩
    | setTransport => exact ⟨h.1, hs.transport.trans h.2.1, hs.index.trans h.2.2⟩
    | setIndex => exact ⟨h.1, hs.transport.trans h.2⟩
    | run => exact ⟨h.1, hs.transport.trans h.2⟩
    | restoreTransport => exact ⟨h.1, hs.transport.trans h.2⟩
    | restoreIndex => exact ⟨h.1, hs.transport.trans h.2⟩
    | reselect => exact ⟨h.1, hs.transport.trans h.2.1, hs.index.trans h.2.2⟩
    | unlock => exact h.congr hs

/-- A thread without the lock knows nothing about the protected variables. -/
theorem ThreadOk.of_not_holds (h : ThreadOk d s thread) (hno : ¬thread.Holds) :
    ThreadOk d s' thread := by
  cases thread with
  | idle => trivial
  | block call point =>
    cases point with
    | start | startMsc | usbChoose | usbLock | usbRun | usbUnlock | fixedCheck | fixedLock =>
      exact h
    | fixedRun | fixedUnlock => exact absurd trivial hno
  | raw call target point =>
    cases point with
    | lock => exact ⟨h.1, trivial⟩
    | _ => exact absurd trivial hno

/-- A thread goes on; what the lock protects changes only if it has the lock. -/
theorem Inv.goto {s₁ : State} (h : Inv d s) (hthreads : s₁.threads = s.threads)
    (husb : s₁.xhciSelected = s.xhciSelected ∧ s₁.ehciSelected = s.ehciSelected)
    (hshared : (s.threads t).Holds ∨ SameShared s s₁)
    (hbusy : ∀ u, u ≠ t → (s₁.devBusy = some u ↔ s.devBusy = some u))
    (howner : thread.Holds ↔ s₁.devBusy = some t) (hfree : s₁.devBusy = none → Settled d s₁)
    (hok : ThreadOk d s₁ thread) : Inv d (s₁.goto t thread) := by
  have hsame := sameShared_goto s₁ t thread
  refine ⟨fun hd => husb.1.trans (h.xhci hd), fun hd => husb.2.trans (h.ehci hd), fun u => ?_,
    fun hnone => (hfree hnone).congr hsame, fun u => ?_⟩
  · show (if u = t then thread else s₁.threads u).Holds ↔ s₁.devBusy = some u
    by_cases hu : u = t
    · rw [if_pos hu, hu]
      exact howner
    · rw [if_neg hu, hthreads, hbusy u hu]
      exact h.owner u
  show ThreadOk d (s₁.goto t thread) (if u = t then thread else s₁.threads u)
  by_cases hu : u = t
  · rw [if_pos hu]
    exact hok.congr hsame
  rw [if_neg hu, hthreads]
  rcases hshared with hholds | hsame'
  · refine (h.threads u).of_not_holds fun hu' => hu ?_
    exact Option.some.inj (((h.owner u).mp hu').symm.trans ((h.owner t).mp hholds))
  · exact ((h.threads u).congr hsame').congr hsame

/-- A thread without the lock goes on and does not take it. -/
theorem Inv.goto_unlocked (h : Inv d s) (hno : ¬(s.threads t).Holds) (hno' : ¬thread.Holds)
    (hok : ThreadOk d s thread) : Inv d (s.goto t thread) :=
  h.goto rfl ⟨rfl, rfl⟩ (.inr ⟨rfl, rfl, rfl, rfl⟩) (fun _ _ => Iff.rfl)
    ⟨fun hh => absurd hh hno', fun hb => absurd ((h.owner t).mpr hb) hno⟩ h.free hok

/-- The holder of the lock goes on and keeps it. -/
theorem Inv.goto_locked {s₁ : State} (h : Inv d s) (hholds : (s.threads t).Holds)
    (hholds' : thread.Holds) (hthreads : s₁.threads = s.threads) (hbusy : s₁.devBusy = s.devBusy)
    (husb : s₁.xhciSelected = s.xhciSelected ∧ s₁.ehciSelected = s.ehciSelected)
    (hok : ThreadOk d s₁ thread) : Inv d (s₁.goto t thread) := by
  have howner := (h.owner t).mp hholds
  refine h.goto hthreads husb (.inl hholds) (fun u _ => by rw [hbusy]) ?_ (fun hnone => ?_) hok
  · rw [hbusy]
    exact ⟨fun _ => howner, fun _ => hholds'⟩
  · rw [hbusy, howner] at hnone
    cases hnone

/-- A thread takes the lock. -/
theorem Inv.take (h : Inv d s) (hfree : s.devBusy = none) (hholds : thread.Holds)
    (hok : ThreadOk d s thread) : Inv d (({ s with devBusy := some t } : State).goto t thread) := by
  refine h.goto rfl ⟨rfl, rfl⟩ (.inr ⟨rfl, rfl, rfl, rfl⟩) (fun u hu => ?_) ?_ nofun
    (hok.congr ⟨rfl, rfl, rfl, rfl⟩)
  · show some t = some u ↔ s.devBusy = some u
    rw [hfree]
    exact ⟨fun heq => absurd (Option.some.inj heq).symm hu, nofun⟩
  · exact ⟨fun _ => rfl, fun _ => hholds⟩

/-- The holder gives the lock back. -/
theorem Inv.give (h : Inv d s) (hholds : (s.threads t).Holds) (hno : ¬thread.Holds)
    (hsettled : Settled d s) (hok : ThreadOk d s thread) :
    Inv d (({ s with devBusy := none } : State).goto t thread) := by
  have howner := (h.owner t).mp hholds
  refine h.goto rfl ⟨rfl, rfl⟩ (.inl hholds) (fun u hu => ?_) ?_
    (fun _ => hsettled.congr ⟨rfl, rfl, rfl, rfl⟩) (hok.congr ⟨rfl, rfl, rfl, rfl⟩)
  · show none = some u ↔ s.devBusy = some u
    rw [howner]
    exact ⟨nofun, fun heq => absurd (Option.some.inj heq).symm hu⟩
  · exact ⟨fun hh => absurd hh hno, nofun⟩

theorem Inv.usbBusy (h : Inv d s) (busy : Option Nat) : Inv d { s with usbBusy := busy } := by
  have hsame : SameShared s { s with usbBusy := busy } := ⟨rfl, rfl, rfl, rfl⟩
  exact ⟨h.xhci, h.ehci, h.owner, fun hfree => (h.free hfree).congr hsame,
    fun t => (h.threads t).congr hsame⟩

/-- The active transport while nobody has replaced it. -/
theorem Inv.transport_of_not_replaced (h : Inv d s)
    (hno : ∀ u, s.devBusy = some u → (s.threads u).replaced = false) :
    s.activeTransport = d.transport := by
  cases hbusy : s.devBusy with
  | none => exact (h.free hbusy).transport
  | some u =>
    have hreplaced := hno u hbusy
    have hholds := (h.owner u).mpr hbusy
    have hok := h.threads u
    revert hreplaced hholds hok
    cases s.threads u with
    | idle => exact fun _ hh => hh.elim
    | block call point =>
      intro _ hh hok
      cases point with
      | fixedRun => exact hok.2.transport
      | fixedUnlock => exact hok.2.1.transport
      | _ => exact hh.elim
    | raw call target point =>
      intro hr hh hok
      have hok := hok.2
      cases point with
      | lock => exact hh.elim
      | save => exact hok.transport
      | select => exact hok.2.transport
      | setTransport => exact hok.2.1
      | restoreIndex => exact hok.2
      | reselect => exact hok.2.1
      | unlock => exact hok.transport
      | setIndex | run | restoreTransport => cases hr

/-- With a fixed disk selected the active transport is always one of a fixed disk. -/
theorem Inv.fixed_active (h : Inv d s) (hd : fixedTransport d.transport = true) :
    fixedTransport s.activeTransport = true := by
  by_cases hno : ∀ u, s.devBusy = some u → (s.threads u).replaced = false
  · rw [h.transport_of_not_replaced hno]
    exact hd
  push Not at hno
  obtain ⟨u, -, hreplaced⟩ := hno
  have hok := h.threads u
  revert hreplaced hok
  cases s.threads u with
  | idle => exact fun hr => absurd rfl hr
  | block call point => exact fun hr => absurd rfl hr
  | raw call target point =>
    intro hr hok
    cases point with
    | setIndex => exact hok.2.2 ▸ hok.1
    | run => exact hok.2.2 ▸ hok.1
    | restoreTransport => exact hok.2.2 ▸ hok.1
    | _ => exact absurd rfl hr

/-- A sector under the lock goes to the selected device. -/
theorem Settled.fixedSectorOp (h : Settled d s) (hd : fixedTransport d.transport = true) :
    s.fixedSectorOp = some d := by
  obtain ⟨transport, index⟩ := d
  unfold State.fixedSectorOp
  rw [h.transport]
  cases transport with
  | ataPio => simp [h.selected.ata rfl]
  | ahci => simp [h.selected.ahci rfl]
  | none | usbMsc | usbEhci => cases hd

theorem Inv.usbDevice {ehci : Bool} (h : Inv d s)
    (hd : d.transport = if ehci then .usbEhci else .usbMsc) : s.usbDevice ehci = d := by
  obtain ⟨transport, index⟩ := d
  subst hd
  cases ehci with
  | false => simp [State.usbDevice, h.xhci rfl]
  | true => simp [State.usbDevice, h.ehci rfl]

/-- Selecting a device in its driver. -/
theorem driverSelect_spec (disks : Disks) (s : State) (d : Device) :
    let s' := (s.driverSelect disks d).1
    s'.threads = s.threads ∧ s'.devBusy = s.devBusy ∧ s'.activeTransport = s.activeTransport ∧
      s'.activeIndex = s.activeIndex ∧
      (fixedTransport d.transport = true →
        s'.xhciSelected = s.xhciSelected ∧ s'.ehciSelected = s.ehciSelected) ∧
      ((s.driverSelect disks d).2 = false → s' = s) ∧
      (d.index < disks.count d.transport → Selected d s') := by
  obtain ⟨transport, index⟩ := d
  unfold State.driverSelect
  split
  next hlt =>
    cases transport with
    | none => simp [Disks.count] at hlt
    | ataPio =>
      exact ⟨rfl, rfl, rfl, rfl, fun _ => ⟨rfl, rfl⟩, nofun, fun _ => ⟨fun _ => rfl, nofun⟩⟩
    | ahci => exact ⟨rfl, rfl, rfl, rfl, fun _ => ⟨rfl, rfl⟩, nofun, fun _ => ⟨nofun, fun _ => rfl⟩⟩
    | usbMsc => exact ⟨rfl, rfl, rfl, rfl, nofun, nofun, fun _ => ⟨nofun, nofun⟩⟩
    | usbEhci => exact ⟨rfl, rfl, rfl, rfl, nofun, nofun, fun _ => ⟨nofun, nofun⟩⟩
  next hge =>
    exact ⟨rfl, rfl, rfl, rfl, fun _ => ⟨rfl, rfl⟩, fun _ => rfl, fun hlt => absurd hlt hge⟩

end Shared

/-- A raw run has replaced the active transport. -/
def State.replaced (s : State) : Bool :=
  match s.devBusy with
  | none => false
  | some u => (s.threads u).replaced

/--
A fixed disk is selected, or no thread looks at the active transport without the lock while a raw
run has replaced it.
-/
def Undisturbed (d : Device) (s : State) : Event → Prop
  | .go t =>
    fixedTransport d.transport = true ∨ (s.threads t).readsUnlocked = false ∨ s.replaced = false
  | .block .. | .raw .. => True

instance (d : Device) (s : State) : (e : Event) → Decidable (Undisturbed d s e)
  | .go _ => inferInstanceAs (Decidable (_ ∨ _ ∨ _))
  | .block .. | .raw .. => isTrue trivial

/-- What a thread sees that looks at the active transport. -/
def Sees (d : Device) (s : State) : Prop :=
  s.activeTransport = d.transport ∨
    fixedTransport d.transport = true ∧ fixedTransport s.activeTransport = true

section Steps

variable {d : Device} {disks : Disks} {s : State} {t : Nat}

theorem Inv.sees (h : Inv d s) (hu : Undisturbed d s (.go t))
    (hread : (s.threads t).readsUnlocked = true) : Sees d s := by
  rcases hu with hfixed | hno | hno
  · exact .inr ⟨hfixed, h.fixed_active hfixed⟩
  · rw [hread] at hno
    cases hno
  refine .inl (h.transport_of_not_replaced fun u hbusy => ?_)
  unfold State.replaced at hno
  rw [hbusy] at hno
  exact hno

theorem Sees.transport_iff (h : Sees d s) {transport : Transport}
    (husb : fixedTransport transport = false) :
    s.activeTransport = transport ↔ d.transport = transport := by
  rcases h with h | ⟨hd, hs⟩
  · rw [h]
  constructor
  · rintro rfl
    cases husb.symm.trans hs
  · rintro rfl
    cases husb.symm.trans hd

theorem Sees.fixed (h : Sees d s) (hd : fixedTransport d.transport = true) :
    fixedTransport s.activeTransport = true := by
  rcases h with h | ⟨-, hs⟩
  · rw [h]
    exact hd
  · exact hs

theorem fixed_of_not_usb {transport : Transport} (h₀ : transport ≠ .none)
    (h₁ : transport ≠ .usbEhci) (h₂ : transport ≠ .usbMsc) : fixedTransport transport = true := by
  cases transport with
  | none => exact absurd rfl h₀
  | ataPio | ahci => rfl
  | usbMsc => exact absurd rfl h₂
  | usbEhci => exact absurd rfl h₁

/-- A step of a read or write. -/
theorem Inv.blockStep (h : Inv d s) (hd : d.transport ≠ .none) {b : BlockCall} {point : BlockPoint}
    (ht : s.threads t = .block b point) (hsees : (s.threads t).readsUnlocked = true → Sees d s) :
    Inv d (s.blockStep t b point).1 ∧ ∀ x ∈ (s.blockStep t b point).2, ShownOk d x := by
  have hok := h.threads t
  rw [ht] at hok hsees
  have hquiet : ∀ x ∈ ([] : List Shown), ShownOk d x := nofun
  have hret : ∀ x ∈ [Shown.returned t true], ShownOk d x := forall_mem_singleton.mpr rfl
  have hno : ¬(Thread.block b point).Holds → ¬(s.threads t).Holds := ht ▸ id
  have hholds : (Thread.block b point).Holds → (s.threads t).Holds := ht ▸ id
  cases point with
  | start =>
    have hsees := hsees rfl
    dsimp only [State.blockStep]
    split
    · exact ⟨h.goto_unlocked (hno id) id trivial, hret⟩
    · split
      next heq =>
        exact ⟨h.goto_unlocked (hno id) id (.inl ((hsees.transport_iff rfl).mp heq)), hquiet⟩
      next hne =>
        exact ⟨h.goto_unlocked (hno id) id fun heq =>
          hne ((hsees.transport_iff rfl).mpr heq), hquiet⟩
  | startMsc =>
    have hsees := hsees rfl
    dsimp only [State.blockStep]
    split
    next heq =>
      exact ⟨h.goto_unlocked (hno id) id (.inr ((hsees.transport_iff rfl).mp heq)), hquiet⟩
    next hne =>
      refine ⟨h.goto_unlocked (hno id) id ?_, hquiet⟩
      exact fixed_of_not_usb hd hok fun heq => hne ((hsees.transport_iff rfl).mpr heq)
  | usbChoose =>
    have hsees := hsees rfl
    refine ⟨h.goto_unlocked (hno id) id ?_, hquiet⟩
    show d.transport = if (s.activeTransport == .usbEhci) = true then .usbEhci else .usbMsc
    by_cases hehci : d.transport = .usbEhci
    · rw [(hsees.transport_iff rfl).mpr hehci, hehci]
      rfl
    · have hne : s.activeTransport ≠ .usbEhci := fun heq => hehci ((hsees.transport_iff rfl).mp heq)
      rw [if_neg (by simpa using hne)]
      exact hok.resolve_left hehci
  | usbLock ehci =>
    dsimp only [State.blockStep]
    split
    · exact ⟨(h.usbBusy (some t)).goto_unlocked (hno id) id hok, hquiet⟩
    · exact ⟨h, hquiet⟩
  | usbRun ehci lba left =>
    dsimp only [State.blockStep]
    split
    · exact ⟨h.goto_unlocked (hno id) id trivial, hquiet⟩
    · refine ⟨h.goto_unlocked (hno id) id hok, fun x hx => ?_⟩
      obtain ⟨k, -, rfl⟩ := mem_map.mp hx
      exact fun _ => h.usbDevice hok
  | usbUnlock =>
    exact ⟨(h.usbBusy none).goto_unlocked (hno id) id trivial, hret⟩
  | fixedCheck =>
    dsimp only [State.blockStep]
    rw [if_pos ((hsees rfl).fixed hok)]
    exact ⟨h.goto_unlocked (hno id) id hok, hquiet⟩
  | fixedLock lba left =>
    dsimp only [State.blockStep]
    split
    · exact ⟨h.goto_unlocked (hno id) id trivial, hret⟩
    · split
      next hfree => exact ⟨h.take hfree trivial ⟨hok, h.free hfree⟩, hquiet⟩
      · exact ⟨h, hquiet⟩
  | fixedRun lba left chunk done =>
    obtain ⟨hfixed, hsettled⟩ := hok
    dsimp only [State.blockStep]
    split
    · rw [hsettled.fixedSectorOp hfixed]
      exact ⟨h.goto_locked (hholds trivial) trivial rfl rfl ⟨rfl, rfl⟩ ⟨hfixed, hsettled⟩,
        forall_mem_singleton.mpr fun _ => rfl⟩
    · exact ⟨h.goto_locked (hholds trivial) trivial rfl rfl ⟨rfl, rfl⟩
        ⟨hfixed, hsettled, rfl⟩, hquiet⟩
  | fixedUnlock lba left chunk ok =>
    obtain ⟨hfixed, hsettled, rfl⟩ := hok
    dsimp only [State.blockStep]
    rw [if_pos rfl]
    exact ⟨h.give (hholds trivial) id hsettled hfixed, hquiet⟩

/-- A step of a raw run. -/
theorem Inv.rawStep (h : Inv d s) (hd : d.index < disks.count d.transport) {r : RawCall}
    {target : Device} {point : RawPoint} (ht : s.threads t = .raw r target point) :
    Inv d (s.rawStep disks t r target point).1 ∧ ∀ x ∈ (s.rawStep disks t r target point).2,
      ShownOk d x := by
  have hok := h.threads t
  rw [ht] at hok
  obtain ⟨hfixed, hok⟩ := hok
  have hquiet : ∀ x ∈ ([] : List Shown), ShownOk d x := nofun
  by_cases hlock : point = .lock
  · subst hlock
    dsimp only [State.rawStep]
    split
    next hfree => exact ⟨h.take hfree trivial ⟨hfixed, h.free hfree⟩, hquiet⟩
    · exact ⟨h, hquiet⟩
  have hholds : (s.threads t).Holds := by
    rw [ht]
    cases point with
    | lock => exact absurd rfl hlock
    | _ => trivial
  cases point with
  | lock => exact absurd rfl hlock
  | save =>
    refine ⟨h.goto_locked hholds trivial rfl rfl ⟨rfl, rfl⟩ ⟨hfixed, ?_, hok⟩, hquiet⟩
    rw [hok.transport, hok.index]
  | select saved =>
    obtain ⟨hsaved, hsettled⟩ := hok
    obtain ⟨hthreads, hbusy, htransport, hindex, husb, hfail, -⟩ := driverSelect_spec disks s target
    dsimp only [State.rawStep]
    rcases hsel : s.driverSelect disks target with ⟨s₁, _ | _⟩
    · rw [hsel] at hfail
      have hsame : s₁ = s := hfail rfl
      subst hsame
      exact ⟨h.goto_locked hholds trivial rfl rfl ⟨rfl, rfl⟩ ⟨hfixed, hsettled⟩, hquiet⟩
    · rw [hsel] at hthreads hbusy htransport hindex husb
      exact ⟨h.goto_locked hholds trivial hthreads hbusy (husb hfixed)
        ⟨hfixed, hsaved, htransport.trans hsettled.transport, hindex.trans hsettled.index⟩, hquiet⟩
  | setTransport saved =>
    exact ⟨h.goto_locked hholds trivial rfl rfl ⟨rfl, rfl⟩ ⟨hfixed, hok.1, rfl⟩, hquiet⟩
  | setIndex saved =>
    exact ⟨h.goto_locked hholds trivial rfl rfl ⟨rfl, rfl⟩ ⟨hfixed, hok⟩, hquiet⟩
  | run saved done =>
    dsimp only [State.rawStep]
    split
    · cases s.fixedSectorOp with
      | none => exact ⟨h.goto_locked hholds trivial rfl rfl ⟨rfl, rfl⟩ ⟨hfixed, hok⟩, hquiet⟩
      | some device =>
        exact ⟨h.goto_locked hholds trivial rfl rfl ⟨rfl, rfl⟩ ⟨hfixed, hok⟩,
          forall_mem_singleton.mpr nofun⟩
    · exact ⟨h.goto_locked hholds trivial rfl rfl ⟨rfl, rfl⟩ ⟨hfixed, hok⟩, hquiet⟩
  | restoreTransport saved ok =>
    obtain ⟨rfl, -⟩ := hok
    exact ⟨h.goto_locked hholds trivial rfl rfl ⟨rfl, rfl⟩ ⟨hfixed, rfl, rfl⟩, hquiet⟩
  | restoreIndex saved ok =>
    obtain ⟨rfl, htransport⟩ := hok
    exact ⟨h.goto_locked hholds trivial rfl rfl ⟨rfl, rfl⟩ ⟨hfixed, rfl, htransport, rfl⟩, hquiet⟩
  | reselect saved ok =>
    obtain ⟨rfl, htransport, hindex⟩ := hok
    dsimp only [State.rawStep]
    split
    next hsaved =>
      obtain ⟨hthreads, hbusy, htransport', hindex', husb, -, hselected⟩ :=
        driverSelect_spec disks s saved
      exact ⟨h.goto_locked hholds trivial hthreads hbusy (husb hsaved)
        ⟨hfixed, htransport'.trans htransport, hindex'.trans hindex, hselected hd⟩, hquiet⟩
    next hsaved =>
    have hselected : Selected saved s := by
      refine ⟨fun heq => ?_, fun heq => ?_⟩
      · rw [heq] at hsaved
        exact absurd rfl hsaved
      · rw [heq] at hsaved
        exact absurd rfl hsaved
    exact ⟨h.goto_locked hholds trivial rfl rfl ⟨rfl, rfl⟩ ⟨hfixed, htransport, hindex, hselected⟩,
      hquiet⟩
  | unlock ok =>
    refine ⟨h.give hholds id hok trivial, forall_mem_singleton.mpr ?_⟩
    show (⟨s.activeTransport, s.activeIndex⟩ : Device) = d
    rw [hok.transport, hok.index]

theorem fixed_device {index : Nat} (h : index < disks.ataCount + disks.ahciCount) :
    fixedTransport (disks.device index).transport = true := by
  unfold Disks.device
  split
  · rfl
  · rw [if_pos (by omega)]
    rfl

/-- Every undisturbed step keeps the invariant. -/
theorem Inv.step (h : Inv d s) (hd : d.index < disks.count d.transport) (e : Event)
    (hu : Undisturbed d s e) :
    Inv d (State.step disks s e).1 ∧ ∀ x ∈ (State.step disks s e).2, ShownOk d x := by
  have hsome : d.transport ≠ .none := by
    intro heq
    rw [heq] at hd
    exact absurd hd (Nat.not_lt_zero _)
  have hquiet : ∀ x ∈ ([] : List Shown), ShownOk d x := nofun
  have hno : ∀ t, s.threads t = .idle → ¬(s.threads t).Holds := fun t ht => by
    rw [ht]
    exact id
  cases e with
  | block t call =>
    dsimp only [State.step]
    split
    next ht => exact ⟨h.goto_unlocked (hno t ht) id trivial, hquiet⟩
    · exact ⟨h, hquiet⟩
  | raw t call =>
    dsimp only [State.step]
    split
    next ht =>
      split
      · exact ⟨h, forall_mem_singleton.mpr trivial⟩
      next hvalid =>
        exact ⟨h.goto_unlocked (hno t ht) id ⟨fixed_device (by omega), trivial⟩, hquiet⟩
    · exact ⟨h, hquiet⟩
  | go t =>
    dsimp only [State.step]
    cases ht : s.threads t with
    | idle => exact ⟨h, hquiet⟩
    | block call point => exact h.blockStep hsome ht fun hread => h.sees hu hread
    | raw call target point => exact h.rawStep hd ht

end Steps

/-- No call is in progress. -/
structure State.Quiet (s : State) : Prop where
  idle : ∀ t, s.threads t = .idle
  unlocked : s.devBusy = none

/-- After `block_device_select`. -/
theorem inv_select {disks : Disks} {s₀ s : State} {index : Nat} (hquiet : s₀.Quiet)
    (h : s₀.blockDeviceSelect disks index = (s, true)) : Inv (disks.device index) s ∧
    (disks.device index).index < disks.count (disks.device index).transport := by
  unfold State.blockDeviceSelect at h
  generalize disks.device index = d at h
  obtain ⟨transport, i⟩ := d
  unfold State.driverSelect at h
  split at h
  next s₁ hsel =>
    obtain ⟨rfl, -⟩ := Prod.mk.inj h
    split at hsel
    next hlt =>
      refine ⟨?_, hlt⟩
      have hidle : ∀ t, s₁.threads t = .idle ∧ s₁.devBusy = none := by
        intro t
        cases transport <;> cases hsel <;> exact ⟨hquiet.idle t, hquiet.unlocked⟩
      refine ⟨fun heq => ?_, fun heq => ?_, fun t => ?_,
        fun _ => ⟨rfl, rfl, fun heq => ?_, fun heq => ?_⟩, fun t => ?_⟩
      · cases heq
        cases hsel
        rfl
      · cases heq
        cases hsel
        rfl
      · show (s₁.threads t).Holds ↔ s₁.devBusy = some t
        rw [(hidle t).1, (hidle t).2]
        exact ⟨fun hh => hh.elim, nofun⟩
      · cases heq
        cases hsel
        rfl
      · cases heq
        cases hsel
        rfl
      · show ThreadOk _ _ (s₁.threads t)
        rw [(hidle t).1]
        trivial
    · cases hsel
  · cases h

/--
Swap traffic and file-system I/O.  A device is selected, and then threads read and write it and
make raw runs on other disks in any order.  If a fixed disk is selected, or if no read or write
looks at the active transport while a raw run has replaced it, all sectors of reads and writes are
performed on the selected device, none of the calls fails, and every raw run leaves the active
device as it was.
-/
theorem block_io_undiverted (disks : Disks) (s₀ s : State) (index : Nat) (hquiet : s₀.Quiet)
    (hselect : s₀.blockDeviceSelect disks index = (s, true)) (events : List Event)
    (h : Run.Along (State.step disks) (Undisturbed (disks.device index)) s events) :
    ∀ x ∈ (Run.run (State.step disks) s events).2, ShownOk (disks.device index) x := by
  obtain ⟨hinv, hd⟩ := inv_select hquiet hselect
  have hrun := Run.run_induction_of (State.step disks) (Undisturbed (disks.device index))
    (fun shown s => Inv (disks.device index) s ∧ ∀ x ∈ shown, ShownOk (disks.device index) x)
    (fun shown s e hu hs => ⟨(hs.1.step hd e hu).1, fun x hx =>
      (mem_append.mp hx).elim (hs.2 x) ((hs.1.step hd e hu).2 x)⟩)
    ⟨hinv, nofun⟩ h
  exact hrun.2

/-- Nothing selected, no call in progress. -/
def State.initial : State where
  activeTransport := .none
  activeIndex := 0
  ataSelected := 0
  ahciSelected := 0
  xhciSelected := 0
  ehciSelected := 0
  devBusy := none
  usbBusy := none
  threads _ := .idle

/-- Two sectors written to an ATA disk while a raw run on an AHCI disk begins and ends. -/
theorem block_io_undiverted_ata :
    let disks : Disks := ⟨1, 1, 0, 1⟩
    let s := (State.initial.blockDeviceSelect disks 0).1
    let events : List Event :=
      [.block 1 ⟨true, 5, 2⟩, .raw 2 ⟨1, false, 40, 1⟩, .go 2, .go 1, .go 2, .go 2, .go 2, .go 1,
        .go 2, .go 1, .go 1, .go 2, .go 2, .go 2, .go 2, .go 2, .go 2, .go 1, .go 1, .go 1, .go 1,
        .go 1, .go 1]
    (Run.run (State.step disks) s events).2 =
        [.sector 2 true ⟨.ahci, 0⟩ false 40, .rawReturned 2 true ⟨.ataPio, 0⟩,
          .sector 1 false ⟨.ataPio, 0⟩ true 5, .sector 1 false ⟨.ataPio, 0⟩ true 6,
          .returned 1 true] ∧
      ∀ x ∈ (Run.run (State.step disks) s events).2, ShownOk ⟨.ataPio, 0⟩ x := by
  refine ⟨by decide, ?_⟩
  exact block_io_undiverted ⟨1, 1, 0, 1⟩ State.initial _ 0 ⟨fun _ => rfl, rfl⟩ rfl _ (by decide)

/--
A file-system write to a disk on the EHCI controller.  The thread has seen that the transport is a
USB one; then a raw run replaces it with AHCI, so that the thread takes the other USB driver.
-/
theorem block_io_diverted :
    let disks : Disks := ⟨0, 1, 1, 1⟩
    let s := (State.initial.blockDeviceSelect disks 2).1
    let events : List Event :=
      [.block 1 ⟨true, 5, 1⟩, .go 1, .raw 2 ⟨0, true, 9, 1⟩, .go 2, .go 2, .go 2, .go 2, .go 1,
        .go 1, .go 1]
    State.initial.blockDeviceSelect disks 2 = (s, true) ∧ disks.device 2 = ⟨.usbEhci, 0⟩ ∧
      .sector 1 false ⟨.usbMsc, 0⟩ true 5 ∈ (Run.run (State.step disks) s events).2 ∧
      ¬∀ x ∈ (Run.run (State.step disks) s events).2, ShownOk (disks.device 2) x := by
  refine ⟨rfl, rfl, by decide, fun h => ?_⟩
  have hsector := h (.sector 1 false ⟨.usbMsc, 0⟩ true 5) (by decide) rfl
  cases hsector

end PureCOS.Io
