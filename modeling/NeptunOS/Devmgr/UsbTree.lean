import NeptunOS.Util.Word

/-!
# Split transactions (`ehci_send`)

A device slower than high speed is reached through the nearest high-speed hub above it.
`ehci_send` looks for this hub and stores its address and port in fields of seven bits.
-/

namespace NeptunOS.Usb

/-- `UsbSpeed`. -/
inductive Speed where
  | ls
  | fs
  | hs
  | ss
deriving DecidableEq, Repr

/-- `Device`: a host controller, or a device made by `usb_device_add_skeleton(parent, port,
speed)` that has got an address since. -/
inductive Device where
  | controller
  | usb (parent : Device) (loc : UInt8) (speed : Speed) (addr : UInt8)
deriving DecidableEq, Repr

/-- `dev->subsys == DevmgrSubsys::USB`; for a device, `parent` is then not its `hci`. -/
def Device.isUsb : Device → Bool
  | .controller => false
  | .usb .. => true

/-- The loop of `ehci_send`: `dev` and `port` where it ends. -/
def hubLoop : Device → UInt8 → Device × UInt8
  | .controller, port => (.controller, port)
  | .usb parent loc speed addr, port =>
    if parent.isUsb ∧ speed ≠ .hs then hubLoop parent loc else (.usb parent loc speed addr, port)

/-- What `ehci_send` writes to the queue head about the way to the device. -/
structure Route where
  hubAddr : ℕ
  portNum : ℕ
  speed : Speed
deriving DecidableEq, Repr

def Device.addr : Device → UInt8
  | .controller => 0
  | .usb _ _ _ addr => addr

/-- The split transaction setup of `ehci_send(usbdev, ..)`. -/
def route : Device → Except Halt Route
  | .controller => .error (.exception "not a USB device")
  | .usb parent loc speed _ =>
    if parent.isUsb ∧ speed ≠ .hs then
      if speed = .ss then .error (.assertion "speed != UsbSpeed::SS")
      else
        let (dev, port) := hubLoop parent loc
        .ok ⟨dev.addr.toNat % 2 ^ 7, port.toNat % 2 ^ 7, speed⟩
    else if speed = .hs then .ok ⟨0, 0, .hs⟩
    else .error (.assertion "speed == UsbSpeed::HS")

/-- The hubs above a device, from the nearest on, each with the port towards the device. -/
def Device.hubs : Device → List (Device × UInt8)
  | .controller => []
  | .usb parent loc _ _ => if parent.isUsb then (parent, loc) :: parent.hubs else []

def Device.speed : Device → Speed
  | .controller => .ss
  | .usb _ _ speed _ => speed

/-- What is attached to the controller itself is of high speed. -/
def Device.RootHigh : Device → Prop
  | .controller => True
  | .usb parent _ speed _ => (parent = .controller → speed = .hs) ∧ parent.RootHigh

/-- The nearest hub of high speed. -/
def Device.nearest (d : Device) : Option (Device × UInt8) := d.hubs.find? (·.1.speed = .hs)

theorem hubLoop_nearest (loc : UInt8) (speed : Speed) (addr : UInt8) {parent : Device}
    (hroot : parent.RootHigh) (husb : parent.isUsb = true) :
    (Device.usb parent loc speed addr).nearest = some (hubLoop parent loc) := by
  induction parent generalizing loc speed addr with
  | controller => cases husb
  | usb parent loc' speed' addr' ih =>
    rw [hubLoop, Device.nearest, Device.hubs, if_pos husb]
    by_cases hhs : speed' = .hs
    · rw [if_neg fun h => h.2 hhs, List.find?_cons_of_pos (by simp [Device.speed, hhs])]
    · -- a slower hub is not attached to the controller
      have husb' : parent.isUsb = true := by
        cases parent with
        | controller => exact absurd (hroot.1 rfl) hhs
        | usb => rfl
      rw [if_pos ⟨husb', hhs⟩, List.find?_cons_of_neg (by simp [Device.speed, hhs])]
      exact ih loc' speed' addr' hroot.2 husb'

/-- **Split transactions.** Behind a hub the loop ends at the nearest hub of high speed, and the
queue head gets its address and port if these have seven bits. -/
theorem route_nearest_iff {parent : Device} {loc addr : UInt8} {speed : Speed}
    (hroot : parent.RootHigh) (husb : parent.isUsb = true) (hspeed : speed = .ls ∨ speed = .fs) :
    ∃ hub port, (Device.usb parent loc speed addr).nearest = some (hub, port) ∧
      (route (.usb parent loc speed addr) = .ok ⟨hub.addr.toNat, port.toNat, speed⟩ ↔
        hub.addr < 128 ∧ port < 128) := by
  have hnot : speed ≠ .hs ∧ speed ≠ .ss := by
    rcases hspeed with rfl | rfl <;> decide
  refine ⟨_, _, hubLoop_nearest loc speed addr hroot husb, ?_⟩
  rw [route, if_pos ⟨husb, hnot.1⟩, if_neg hnot.2]
  simp only [Except.ok.injEq, Route.mk.injEq, and_true, UInt8.lt_iff_toNat_lt]
  exact and_congr (Nat.mod_eq_iff_lt (by decide)) (Nat.mod_eq_iff_lt (by decide))

/-- A keyboard on a full-speed hub, which is on port 3 of a high-speed one. -/
theorem route_nearest_chained :
    route (.usb (.usb (.usb .controller 0 .hs 1) 3 .fs 2) 1 .ls 0) = .ok ⟨1, 3, .ls⟩ := by
  obtain ⟨hub, port, hnear, hiff⟩ := @route_nearest_iff (.usb (.usb .controller 0 .hs 1) 3 .fs 2)
    1 0 .ls ⟨nofun, fun _ => rfl, trivial⟩ rfl (.inl rfl)
  obtain ⟨rfl, rfl⟩ := Prod.mk.inj (Option.some.inj hnear)
  exact hiff.mpr (by decide)

/-- A device on port 130 is addressed on port 2. -/
theorem route_port_lost :
    (Device.usb (.usb .controller 0 .hs 1) 130 .fs 0).nearest =
        some (.usb .controller 0 .hs 1, 130) ∧
      route (.usb (.usb .controller 0 .hs 1) 130 .fs 0) = .ok ⟨1, 2, .fs⟩ := by
  decide

end NeptunOS.Usb
