import Infos.Lib.Exec
import Infos.Lib.Words
import Infos.Util.Map
import Infos.Util.String

/-!
# The device manager

Devices are registered under the name of their class and its next instance, and
under aliases. The registry is keyed by the hash of the name.
-/
namespace Infos.Kernel
open Infos.Lib Infos.Util Function

abbrev DeviceId := Nat

abbrev ClassId := Nat

structure DeviceManager where
  devices : Map HashType DeviceId
  name : DeviceId → List UInt8
  instances : ClassId → Nat

/-- A class as a device refers to it. -/
structure DeviceClass where
  id : ClassId
  name : List UInt8

/-- The loop of `ToString`, which fills its buffer of 16 bytes from the end. -/
def toStringLoop : Nat → Nat → List UInt8 → List UInt8
  | 0, _, buffer => buffer
  | i + 1, v, buffer =>
      if 0 < v then toStringLoop i (v / 10) (UInt8.ofNat (48 + v % 10) :: buffer) else buffer

def toString (v : Nat) : List UInt8 := if v = 0 then [48] else toStringLoop 16 v []

def acquireInstance (c : DeviceClass) : Exec DeviceManager Nat := do
  let dm ← get
  set { dm with instances := update dm.instances c.id ((dm.instances c.id + 1) % 2 ^ 64) }
  pure (dm.instances c.id)

def addDevice (name : List UInt8) (device : DeviceId) : Exec DeviceManager Unit := do
  let dm ← get
  let devices ← lift (dm.devices.add (getHash name) device)
  set { dm with devices }

/-- `ok` is what `device.init` returns; what it registers are calls of their own. -/
def registerDevice (c : DeviceClass) (device : DeviceId) (ok : Bool) :
    Exec DeviceManager Bool := do
  let n ← acquireInstance c
  let name := c.name ++ toString (toUInt32 n)
  modify fun dm => { dm with name := update dm.name device name }
  addDevice ((← get).name device) device
  pure ok

def addDeviceAlias (name : List UInt8) (device : DeviceId) : Exec DeviceManager Bool := do
  addDevice name device
  pure true

def DeviceManager.tryGetDeviceByName (dm : DeviceManager) (name : List UInt8) : Option DeviceId :=
  dm.devices.tryGetValue (getHash name)

section Runs
variable {dm dm' : DeviceManager}

theorem addDevice_run (sound : dm.devices.Sound) (name : List UInt8) (device : DeviceId) :
    ∃ devices, (addDevice name device).run dm = .ok ((), { dm with devices }) ∧ devices.Sound ∧
      devices.tryGetValue = update dm.devices.tryGetValue (getHash name) (some device) := by
  obtain ⟨devices, run, sound', values⟩ := Map.add_spec (getHash name) device sound
  refine ⟨devices, ?_, sound', values⟩
  rw [addDevice, bind_ok (run_get_eq dm), run]
  rfl

theorem registerDevice_run (sound : dm.devices.Sound) (c : DeviceClass) (device : DeviceId)
    (ok : Bool) :
    ∃ dm', (registerDevice c device ok).run dm = .ok (ok, dm') ∧ dm'.devices.Sound ∧
      dm'.devices.tryGetValue =
        update dm.devices.tryGetValue (getHash (dm'.name device)) (some device) := by
  let name := c.name ++ toString (toUInt32 (dm.instances c.id))
  let dm₁ : DeviceManager := { dm with
    instances := update dm.instances c.id ((dm.instances c.id + 1) % 2 ^ 64)
    name := update dm.name device name }
  have sound₁ : dm₁.devices.Sound := sound
  obtain ⟨devices, run, sound', values⟩ := addDevice_run sound₁ (dm₁.name device) device
  refine ⟨{ dm₁ with devices }, ?_, sound', values⟩
  have acquired : (acquireInstance c).run dm = .ok (dm.instances c.id,
      { dm with instances := update dm.instances c.id ((dm.instances c.id + 1) % 2 ^ 64) }) := rfl
  rw [registerDevice, bind_ok acquired, bind_ok (run_modify_eq _ _), bind_ok (run_get_eq _)]
  exact bind_ok run

theorem addDeviceAlias_run (sound : dm.devices.Sound) (name : List UInt8) (device : DeviceId) :
    ∃ devices, (addDeviceAlias name device).run dm = .ok (true, { dm with devices }) ∧
      devices.Sound ∧
      devices.tryGetValue = update dm.devices.tryGetValue (getHash name) (some device) := by
  obtain ⟨devices, run, sound', values⟩ := addDevice_run sound name device
  exact ⟨devices, bind_ok run, sound', values⟩

end Runs
end Infos.Kernel
