import Nyumt.Lib.Group
import Nyumt.Stats

/-!
# One record for each device

`usage` looks for a device among the records it has made, by their names. With names in the records
it finds each one again; without them it finds none, and a device that is mounted twice is reported
twice (`usage_eq_iff`).
-/

namespace Nyumt.Storage

variable {dbStruct : List StorageOID}

/-- The first mount of each device, in order. -/
def firstMounts (mounts : List Mount) : List Mount :=
  (mounts.filter IsDev).eraseDupsBy fun m m' => m.fsMountedFrom == m'.fsMountedFrom

theorem deviceExists_device (mounts : List Mount) (name : String) :
    deviceExists (mounts.map (device dbStruct)) (.str name)
      ↔ .name ∈ dbStruct ∧ name ∈ mounts.map Mount.fsMountedFrom := by
  simp only [deviceExists, List.any_map, List.any_eq_true, Function.comp_apply, device,
    decide_eq_true_eq, List.mem_map]
  constructor
  · rintro ⟨m, hm, i, hi, rfl, hname⟩
    exact ⟨hi, m, hm, (VarValue.str.inj hname).symm⟩
  · rintro ⟨hi, m, hm, rfl⟩
    exact ⟨m, hm, .name, hi, rfl, rfl⟩

/-- With names in the records, what is made is that of the mounts whose devices are new. -/
theorem devices_of_name (hname : .name ∈ dbStruct) : ∀ (mounts done : List Mount),
    devices dbStruct mounts (done.map (device dbStruct))
      = (done ++ ((mounts.filter IsDev).filter fun m =>
        m.fsMountedFrom ∉ done.map Mount.fsMountedFrom).eraseDupsBy fun m m' =>
          m.fsMountedFrom == m'.fsMountedFrom).map (device dbStruct)
  | [], done => by simp [devices]
  | m :: mounts, done => by
    have hexists : deviceExists (done.map (device dbStruct)) (.str m.fsMountedFrom)
        ↔ m.fsMountedFrom ∈ done.map Mount.fsMountedFrom := by
      rw [deviceExists_device, and_iff_right hname]
    simp only [devices]
    split_ifs with hdev hex
    · rw [devices_of_name hname mounts done, List.filter_cons_of_pos (by simpa using hdev),
        List.filter_cons_of_neg (by simpa using hexists.1 hex)]
    · have hnew : m.fsMountedFrom ∉ done.map Mount.fsMountedFrom := fun h => hex (hexists.2 h)
      have ih := devices_of_name hname mounts (done ++ [m])
      rw [List.map_append, List.map_singleton] at ih
      rw [ih, List.filter_cons_of_pos (by simpa using hdev),
        List.filter_cons_of_pos (by simpa using hnew), List.eraseDupsBy_cons, List.append_assoc,
        List.singleton_append]
      simp only [List.filter_filter]
      congr 4
      refine List.filter_congr fun m' _ => ?_
      rw [Bool.eq_iff_iff]
      simp only [List.map_append, List.map_singleton, List.mem_append, List.mem_singleton,
        Bool.and_eq_true, decide_eq_true_eq, beq_eq_false_iff_ne]
      tauto
    · rw [devices_of_name hname mounts done, List.filter_cons_of_neg (by simpa using hdev)]

theorem devices_of_not_name (hname : .name ∉ dbStruct) : ∀ (mounts done : List Mount),
    devices dbStruct mounts (done.map (device dbStruct))
      = (done ++ mounts.filter IsDev).map (device dbStruct)
  | [], done => by simp [devices]
  | m :: mounts, done => by
    have hexists : deviceExists (done.map (device dbStruct)) (.str m.fsMountedFrom) = false := by
      rw [← Bool.not_eq_true, deviceExists_device]
      exact fun h => hname h.1
    by_cases hdev : IsDev m
    · have hcons := devices_of_not_name hname mounts (done ++ [m])
      rw [List.map_append, List.map_singleton] at hcons
      simp only [devices, hexists, hdev, not_true_eq_false, Bool.false_eq_true, ↓reduceIte]
      rw [hcons, List.filter_cons_of_pos (by simpa using hdev), List.append_assoc,
        List.singleton_append]
    · simp only [devices, hdev, not_false_eq_true, ↓reduceIte]
      rw [devices_of_not_name hname mounts done, List.filter_cons_of_neg (by simpa using hdev)]

/-- Each device is reported once, with what is selected of its first mount, if, and only if, the
name is selected or no device is mounted twice. -/
theorem usage_eq_iff (mounts : List Mount) (dbStruct : List StorageOID) :
    usage (.ok mounts) dbStruct
        = .ok (.storage ((firstMounts mounts).map (device dbStruct)))
      ↔ .name ∈ dbStruct ∨ ((mounts.filter IsDev).map Mount.fsMountedFrom).Nodup := by
  have husage : usage (.ok mounts) dbStruct = .ok (.storage (devices dbStruct mounts [])) := rfl
  rw [husage, Except.ok.injEq, DataType.storage.injEq]
  by_cases hname : .name ∈ dbStruct
  · have hdev := devices_of_name hname mounts []
    simp only [List.map_nil, List.not_mem_nil, not_false_eq_true, decide_true, List.filter_true,
      List.nil_append] at hdev
    exact iff_of_true hdev (.inl hname)
  · have hdev := devices_of_not_name hname mounts []
    rw [List.map_nil, List.nil_append] at hdev
    rw [hdev]
    simp only [hname, false_or]
    constructor
    · intro h
      have hlen := congrArg List.length h
      rw [List.length_map, List.length_map] at hlen
      exact (Group.length_eraseDupsBy_eq_iff Mount.fsMountedFrom _).1 hlen.symm
    · intro h
      rw [firstMounts, Group.eraseDupsBy_eq_self Mount.fsMountedFrom h]

section Witness

/-- A device that is mounted at two places is reported twice if only its free space is asked for. -/
theorem usage_free_twice :
    ¬ ∀ (mounts : List Mount) (dbStruct : List StorageOID), dbStruct ≠ [] →
      usage (.ok mounts) dbStruct
        = .ok (.storage ((firstMounts mounts).map (device dbStruct))) := by
  intro h
  have htwice := h [⟨"/dev/sda1", "ext4", 5, 9, 0, 0⟩, ⟨"/dev/sda1", "ext4", 5, 9, 0, 0⟩] [.free]
    (List.cons_ne_nil _ _)
  have husage : usage (.ok [⟨"/dev/sda1", "ext4", 5, 9, 0, 0⟩, ⟨"/dev/sda1", "ext4", 5, 9, 0, 0⟩])
      [.free] = .ok (.storage [[(.free, .number 5)], [(.free, .number 5)]]) := by
    rfl
  rw [husage, Except.ok.injEq, DataType.storage.injEq] at htwice
  revert htwice
  decide

end Witness

end Nyumt.Storage
