import Wgs.Foundation.Resources

/-!
`dev_fifo_v3/dev_fifo.c`: `dev_fifo_init` and `dev_fifo_exit`, as traces of the resources they
acquire and release.

A kernel is what its functions return; a call that fails acquires nothing.  The labels at the end
of `dev_fifo_init` fall through from one to the next (`unwind`).

* `devFifoInit_leftover`: what is left over after each failure, and after `dev_fifo_exit`;
* `unwinds_iff`: something is, unless nothing was acquired.
-/

namespace Wgs

open Foundation

/-- What `dev_fifo_init` acquires: the array `gcd`, the region of device numbers, the class `cls`,
and the character device and the device node of each `n`. -/
inductive Resource where
  | gcd
  | region
  | cls
  | cdev (n : ℕ)
  | device (n : ℕ)
  deriving DecidableEq

/-- What the kernel functions return: whether `kzalloc` succeeds, and a negative error for each
of the others that fails. -/
structure Kernel where
  kzalloc : Bool
  registerChrdevRegion : ℤ
  allocChrdevRegion : ℤ
  classCreate : ℤ
  cdevAdd : ℕ → ℤ
  deviceCreate : ℕ → ℤ

/-- `-ENOMEM`. -/
def enomem : ℤ := -12

/-- The labels of `dev_fifo_init`. -/
inductive Label where
  | errDeviceCreate
  | errCdevAdd
  | errClassCreate
  | errRegisterChrdevRegion

/-- The statements from `err_register_chrdev_region` on. -/
def errRegisterChrdevRegion : List (Event Resource) := []

/-- The statements from `err_class_create` on. -/
def errClassCreate : List (Event Resource) := .release .region :: errRegisterChrdevRegion

/-- The statements from `err_cdev_add` on, where the counter of the loop is `n`. -/
def errCdevAdd (n : ℕ) : List (Event Resource) :=
  (List.range n).map (fun i => .release (.cdev i)) ++ errClassCreate

/-- The statements from `err_device_create` on, where the counter of the loop is `n`. -/
def errDeviceCreate (n : ℕ) : List (Event Resource) :=
  (List.range n).map (fun i => .release (.device i)) ++ errCdevAdd n

/-- The statements from a label on; each falls through to the next. -/
def unwind (n : ℕ) : Label → List (Event Resource)
  | .errDeviceCreate => errDeviceCreate n
  | .errCdevAdd => errCdevAdd n
  | .errClassCreate => errClassCreate
  | .errRegisterChrdevRegion => errRegisterChrdevRegion

/-- How the loop of `dev_fifo_init` ends: after all devices, or with a jump to a label. -/
inductive LoopEnd where
  | done
  | goto (l : Label) (n : ℕ) (ret : ℤ)

/-- The loop of `dev_fifo_init`, from the device `n` on with `left` devices to go. -/
def addDevices (k : Kernel) : ℕ → ℕ → LoopEnd × List (Event Resource)
  | 0, _ => (.done, [])
  | left + 1, n =>
      if k.cdevAdd n < 0 then (.goto .errCdevAdd n (k.cdevAdd n), [])
      else if k.deviceCreate n < 0 then
        (.goto .errDeviceCreate n (k.deviceCreate n), [.acquire (.cdev n)])
      else
        let (e, T) := addDevices k left (n + 1)
        (e, .acquire (.cdev n) :: .acquire (.device n) :: T)

/-- `dev_fifo_init`: the value returned and the trace. -/
def devFifoInit (k : Kernel) (ndevices : ℕ) : ℤ × List (Event Resource) :=
  if k.kzalloc = false then (enomem, [])
  else if k.registerChrdevRegion < 0 ∧ k.allocChrdevRegion < 0 then
    (k.allocChrdevRegion, .acquire .gcd :: unwind 0 .errRegisterChrdevRegion)
  else if k.classCreate < 0 then
    (k.classCreate, .acquire .gcd :: .acquire .region :: unwind 0 .errClassCreate)
  else
    let (e, T) := addDevices k ndevices 0
    let acquired := .acquire .gcd :: .acquire .region :: .acquire .cls :: T
    match e with
    | .done => (0, acquired)
    | .goto l n ret => (ret, acquired ++ unwind n l)

/-- `dev_fifo_exit`. -/
def devFifoExit (ndevices : ℕ) : List (Event Resource) :=
  (List.range ndevices).map (fun i => .release (.device i))
    ++ .release .cls :: (List.range ndevices).map (fun i => .release (.cdev i))
    ++ [.release .region]

/-! ### The loop -/

/-- The character devices and device nodes of the devices from `n` on, `m` of them. -/
def devicesFrom (n m : ℕ) : List Resource :=
  (List.range' n m).flatMap fun i => [.cdev i, .device i]

lemma devicesFrom_succ (n m : ℕ) :
    devicesFrom n (m + 1) = .cdev n :: .device n :: devicesFrom (n + 1) m := by
  rw [devicesFrom, List.range'_succ, List.flatMap_cons]
  rfl

lemma nodup_devicesFrom (n m : ℕ) : (devicesFrom n m).Nodup := by
  rw [devicesFrom, List.nodup_flatMap]
  refine ⟨fun i _ => by simp, ?_⟩
  refine (List.nodup_range').imp fun {i j} hij => ?_
  simp [Function.onFun, hij.symm]

lemma mem_devicesFrom {n m : ℕ} {r : Resource} :
    r ∈ devicesFrom n m ↔ ∃ i, (n ≤ i ∧ i < n + m) ∧ (r = .cdev i ∨ r = .device i) := by
  simp [devicesFrom, List.mem_flatMap, List.mem_range'_1]

/-- How the loop ends, and what it has acquired by then. -/
lemma addDevices_spec (k : Kernel) (left n : ℕ) :
    addDevices k left n = (.done, (devicesFrom n left).map .acquire)
      ∨ ∃ m, m < left ∧ (k.cdevAdd (n + m) < 0 ∧ addDevices k left n
            = (.goto .errCdevAdd (n + m) (k.cdevAdd (n + m)), (devicesFrom n m).map .acquire)
          ∨ k.deviceCreate (n + m) < 0 ∧ addDevices k left n
            = (.goto .errDeviceCreate (n + m) (k.deviceCreate (n + m)),
                (devicesFrom n m ++ [Resource.cdev (n + m)]).map .acquire)) := by
  induction left generalizing n with
  | zero => exact Or.inl rfl
  | succ left ih =>
      rw [addDevices]
      split_ifs with hcdev hdevice
      · exact Or.inr ⟨0, Nat.succ_pos _, Or.inl ⟨hcdev, rfl⟩⟩
      · exact Or.inr ⟨0, Nat.succ_pos _, Or.inr ⟨hdevice, rfl⟩⟩
      · rcases ih (n + 1) with h | ⟨m, hm, h⟩
        · refine Or.inl ?_
          rw [h, devicesFrom_succ]
          rfl
        · refine Or.inr ⟨m + 1, Nat.succ_lt_succ hm, ?_⟩
          have hsum : n + (m + 1) = n + 1 + m := by omega
          rw [hsum, devicesFrom_succ]
          rcases h with ⟨hneg, h⟩ | ⟨hneg, h⟩
          · exact Or.inl ⟨hneg, by rw [h]; rfl⟩
          · exact Or.inr ⟨hneg, by rw [h]; rfl⟩

/-! ### What is left over -/

/-- What is acquired once the loop has been through `n` devices. -/
def acquiredBefore (n : ℕ) : List Resource := .gcd :: .region :: .cls :: devicesFrom 0 n

lemma nodup_acquiredBefore (n : ℕ) : (acquiredBefore n).Nodup := by
  simp [acquiredBefore, mem_devicesFrom, nodup_devicesFrom]

/-- What the labels release last, once each. -/
lemma nodup_cdevs (n : ℕ) : ((List.range n).map Resource.cdev ++ [Resource.region]).Nodup := by
  rw [List.nodup_append']
  exact ⟨List.nodup_range.map fun _ _ hij => Resource.cdev.inj hij, by simp, by simp⟩

lemma nodup_devices (n : ℕ) : ((List.range n).map Resource.device).Nodup :=
  List.nodup_range.map fun _ _ hij => Resource.device.inj hij

/-- A failure of `cdev_add` leaves `gcd`, the class and the device nodes created so far. -/
lemma replay_errCdevAdd (n : ℕ) :
    replay ∅ ((acquiredBefore n).map .acquire ++ errCdevAdd n)
      = some (insert .gcd (insert .cls ((Finset.range n).image .device))) := by
  have hrs : errCdevAdd n
      = ((List.range n).map Resource.cdev ++ [Resource.region]).map .release := by
    simp [errCdevAdd, errClassCreate, errRegisterChrdevRegion, Function.comp_def]
  rw [hrs, replay_acquires_releases (nodup_acquiredBefore n)]
  · congr 1
    ext r
    cases r <;> simp [acquiredBefore, mem_devicesFrom]
  · exact nodup_cdevs n
  · intro r hr
    cases r <;> simp_all [acquiredBefore, mem_devicesFrom]

/-- A failure of `device_create` leaves `gcd`, the class and the character device just added. -/
lemma replay_errDeviceCreate (n : ℕ) :
    replay ∅ ((acquiredBefore n ++ [Resource.cdev n]).map .acquire ++ errDeviceCreate n)
      = some {.gcd, .cls, .cdev n} := by
  have hrs : errDeviceCreate n = ((List.range n).map Resource.device
      ++ ((List.range n).map Resource.cdev ++ [Resource.region])).map .release := by
    simp [errDeviceCreate, errCdevAdd, errClassCreate, errRegisterChrdevRegion, Function.comp_def]
  rw [hrs, replay_acquires_releases]
  · congr 1
    ext r
    cases r <;> simp [acquiredBefore, mem_devicesFrom]
    omega
  · rw [List.nodup_append']
    refine ⟨nodup_acquiredBefore n, by simp, ?_⟩
    simp [acquiredBefore, mem_devicesFrom]
  · rw [List.nodup_append']
    refine ⟨nodup_devices n, nodup_cdevs n, ?_⟩
    intro r hr hr'
    cases r <;> simp_all
  · intro r hr
    cases r <;> simp_all [acquiredBefore, mem_devicesFrom]

/-- After `dev_fifo_exit` the array `gcd` is left. -/
lemma replay_exit (n : ℕ) :
    replay ∅ ((acquiredBefore n).map .acquire ++ devFifoExit n) = some {.gcd} := by
  have hrs : devFifoExit n = ((List.range n).map Resource.device
      ++ Resource.cls :: ((List.range n).map Resource.cdev ++ [Resource.region])).map .release := by
    simp [devFifoExit, Function.comp_def]
  rw [hrs, replay_acquires_releases (nodup_acquiredBefore n)]
  · congr 1
    ext r
    cases r <;> simp [acquiredBefore, mem_devicesFrom]
  · rw [List.nodup_append', List.nodup_cons]
    refine ⟨nodup_devices n, ⟨by simp, nodup_cdevs n⟩, ?_⟩
    intro r hr hr'
    cases r <;> simp_all
  · intro r hr
    cases r <;> simp_all [acquiredBefore, mem_devicesFrom]

/-- **What is left over**: `gcd` always is.  After a failure of `cdev_add` or `device_create` so is
the class, and the device nodes created before, or the character device added last. -/
theorem devFifoInit_leftover (k : Kernel) (ndevices : ℕ) (hz : k.kzalloc = true) :
    ((devFifoInit k ndevices).1 < 0 ∧ replay ∅ (devFifoInit k ndevices).2 = some {.gcd})
      ∨ (∃ n < ndevices, k.cdevAdd n < 0 ∧ (devFifoInit k ndevices).1 = k.cdevAdd n
        ∧ replay ∅ (devFifoInit k ndevices).2
          = some (insert .gcd (insert .cls ((Finset.range n).image .device))))
      ∨ (∃ n < ndevices, k.deviceCreate n < 0 ∧ (devFifoInit k ndevices).1 = k.deviceCreate n
        ∧ replay ∅ (devFifoInit k ndevices).2 = some {.gcd, .cls, .cdev n})
      ∨ ((devFifoInit k ndevices).1 = 0
        ∧ replay ∅ ((devFifoInit k ndevices).2 ++ devFifoExit ndevices) = some {.gcd}) := by
  by_cases hregion : k.registerChrdevRegion < 0 ∧ k.allocChrdevRegion < 0
  · refine Or.inl ?_
    rw [devFifoInit, if_neg (by simp [hz]), if_pos hregion]
    exact ⟨hregion.2, rfl⟩
  by_cases hclass : k.classCreate < 0
  · refine Or.inl ?_
    rw [devFifoInit, if_neg (by simp [hz]), if_neg hregion, if_pos hclass]
    exact ⟨hclass, rfl⟩
  refine Or.inr ?_
  have hinit : devFifoInit k ndevices = match (addDevices k ndevices 0).1 with
      | .done => (0, .acquire .gcd :: .acquire .region :: .acquire .cls
          :: (addDevices k ndevices 0).2)
      | .goto l n ret => (ret, (.acquire .gcd :: .acquire .region :: .acquire .cls
          :: (addDevices k ndevices 0).2) ++ unwind n l) := by
    rw [devFifoInit, if_neg (by simp [hz]), if_neg hregion, if_neg hclass]
  rcases addDevices_spec k ndevices 0 with h | ⟨n, hn, ⟨hneg, h⟩ | ⟨hneg, h⟩⟩
  · rw [h] at hinit
    refine Or.inr (Or.inr ?_)
    rw [hinit]
    exact ⟨rfl, replay_exit ndevices⟩
  · rw [Nat.zero_add] at hneg h
    rw [h] at hinit
    refine Or.inl ⟨n, hn, hneg, ?_⟩
    rw [hinit]
    exact ⟨rfl, replay_errCdevAdd n⟩
  · rw [Nat.zero_add] at hneg h
    rw [h] at hinit
    refine Or.inr (Or.inl ⟨n, hn, hneg, ?_⟩)
    rw [hinit]
    exact ⟨rfl, replay_errDeviceCreate n⟩

/-- Everything is released: after an error `dev_fifo_init` itself has released what it acquired, and
after a success `dev_fifo_exit` does; once each, and nothing else. -/
def Unwinds (k : Kernel) (ndevices : ℕ) : Prop :=
  if (devFifoInit k ndevices).1 < 0 then replay ∅ (devFifoInit k ndevices).2 = some ∅
  else replay ∅ ((devFifoInit k ndevices).2 ++ devFifoExit ndevices) = some ∅

instance (k : Kernel) (ndevices : ℕ) : Decidable (Unwinds k ndevices) :=
  inferInstanceAs (Decidable (ite _ _ _))

/-- **When everything is released**: only when nothing was acquired, because `kzalloc` itself
failed. -/
theorem unwinds_iff (k : Kernel) (ndevices : ℕ) : Unwinds k ndevices ↔ k.kzalloc = false := by
  constructor
  · intro h
    by_contra hz
    rw [Bool.not_eq_false] at hz
    rw [Unwinds] at h
    rcases devFifoInit_leftover k ndevices hz with ⟨hret, hleft⟩ | ⟨n, -, hneg, hret, hleft⟩
      | ⟨n, -, hneg, hret, hleft⟩ | ⟨hret, hleft⟩
    · rw [if_pos hret, hleft, Option.some_inj] at h
      simp at h
    · rw [if_pos (hret ▸ hneg), hleft, Option.some_inj] at h
      simp at h
    · rw [if_pos (hret ▸ hneg), hleft, Option.some_inj] at h
      simp at h
    · rw [if_neg (by rw [hret]; exact lt_irrefl 0), hleft, Option.some_inj] at h
      simp at h
  · intro hz
    have hinit : devFifoInit k ndevices = (enomem, []) := by rw [devFifoInit, if_pos hz]
    rw [Unwinds, hinit, if_pos (by decide)]
    rfl

/-- **A failure at the second of two devices**: `device_create` fails, and `gcd`, the class and the
character device of the second are never released.  Nor is `gcd` after a success and an exit. -/
theorem unwinds_two_devices :
    (replay ∅ (devFifoInit ⟨true, 0, 0, 0, fun _ => 0, fun n => if n = 1 then -12 else 0⟩ 2).2
        = some {.gcd, .cls, .cdev 1}
      ∧ ¬ Unwinds ⟨true, 0, 0, 0, fun _ => 0, fun n => if n = 1 then -12 else 0⟩ 2)
      ∧ ¬ Unwinds ⟨true, 0, 0, 0, fun _ => 0, fun _ => 0⟩ 1 := by
  decide

end Wgs
