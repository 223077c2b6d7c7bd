import Nyumt.Messages

/-!
# Reports

What a node reports, each value with the object it is of, and `usage` for storage, which makes the
records of the devices from the mounts of the system.
-/

namespace Nyumt

open Borsh

/-- An `f32` by its bits. A NaN is neither written nor read. -/
abbrev F32 := {bits : UInt32 // ¬ 0x7f800000 < bits &&& 0x7fffffff}

inductive VarValue
  | str (v : String)
  | int (v : UInt32)
  | number (v : UInt64)
  | realNumber (v : F32)
  | bool (v : Bool)
  | vecStr (v : List String)
  deriving DecidableEq

/-- `to_string`; `text` is that of an `f32`. -/
def VarValue.toText (text : F32 → String) : VarValue → String
  | .str v => v
  | .int v => toString v.toNat
  | .number v => toString v.toNat
  | .realNumber v => text v
  | .bool v => toString v
  | .vecStr _ => ""

/-- What is reported of one interface or device. -/
abbrev NetworkUsage := List (List (NetOID × VarValue))

abbrev Storage := List (List (StorageOID × VarValue))

inductive DataType
  | cpu (v : List (CpuOID × VarValue))
  | memory (v : List (MemoryOID × VarValue))
  | network (v : NetworkUsage)
  | storage (v : Storage)
  deriving DecidableEq

structure Report where
  data : List DataType
  timestamp : UInt64
  deriving DecidableEq

section Wire

instance : Borsh VarValue where
  ser
    | .str v => variant 0 v
    | .int v => variant 1 v
    | .number v => variant 2 v
    | .realNumber v => variant 3 v
    | .bool v => variant 4 v
    | .vecStr v => variant 5 v
  de
    | 0 :: r => payload .str r
    | 1 :: r => payload .int r
    | 2 :: r => payload .number r
    | 3 :: r => payload .realNumber r
    | 4 :: r => payload .bool r
    | 5 :: r => payload .vecStr r
    | _ => none
  reset := id
  de_ser {x b} r h := by
    cases x <;>
      · obtain ⟨p, hp, rfl⟩ := of_variant h
        exact payload_toVec r hp
  ser_de {b r x} h := by
    split at h
    case h_7 => simp at h
    all_goals
      obtain ⟨y, rfl, -, p, hp, rfl⟩ := of_payload h
      exact ⟨rfl, _ :: p, by simp [variant, hp], rfl⟩

instance : Plain VarValue := ⟨fun _ => rfl⟩

instance : Borsh DataType where
  ser
    | .cpu v => variant 0 v
    | .memory v => variant 1 v
    | .network v => variant 2 v
    | .storage v => variant 3 v
  de
    | 0 :: r => payload .cpu r
    | 1 :: r => payload .memory r
    | 2 :: r => payload .network r
    | 3 :: r => payload .storage r
    | _ => none
  reset := id
  de_ser {x b} r h := by
    cases x <;>
      · obtain ⟨p, hp, rfl⟩ := of_variant h
        exact payload_toVec r hp
  ser_de {b r x} h := by
    split at h
    case h_5 => simp at h
    all_goals
      obtain ⟨y, rfl, -, p, hp, rfl⟩ := of_payload h
      exact ⟨rfl, _ :: p, by simp [variant, hp], rfl⟩

instance : Plain DataType := ⟨fun _ => rfl⟩

instance : Borsh Report :=
  via (fun r => (r.data, r.timestamp)) (fun (d, t) => ⟨d, t⟩) fun _ => rfl

end Wire

section Usage

/-- A mount of `systemstat`; the counts of files are `usize`s as `u64`s. -/
structure Mount where
  fsMountedFrom : String
  fsType : String
  avail : UInt64
  total : UInt64
  filesTotal : UInt64
  filesAvail : UInt64
  deriving DecidableEq

namespace Storage

/-- A record of the list has the name. -/
def deviceExists (list : Storage) (name : VarValue) : Bool :=
  list.any fun mount => mount.any fun val => val.1 = .name ∧ name = val.2

/-- The value of an object for a mount. -/
def value (mount : Mount) : StorageOID → VarValue
  | .name => .str mount.fsMountedFrom
  | .filesystemType => .str mount.fsType
  | .free => .number mount.avail
  | .total => .number mount.total
  | .totalNodes => .number mount.filesTotal
  | .freeNodes => .number mount.filesAvail

def device (dbStruct : List StorageOID) (mount : Mount) : List (StorageOID × VarValue) :=
  dbStruct.map fun i => (i, value mount i)

def IsDev (mount : Mount) : Prop := "/dev".toList <+: mount.fsMountedFrom.toList

instance : DecidablePred IsDev := fun mount =>
  inferInstanceAs (Decidable ("/dev".toList <+: mount.fsMountedFrom.toList))

/-- The loop over the mounts, with the records made so far. -/
def devices (dbStruct : List StorageOID) : List Mount → Storage → Storage
  | [], list => list
  | mount :: mounts, list =>
    if ¬ IsDev mount then devices dbStruct mounts list
    else if deviceExists list (.str mount.fsMountedFrom) then devices dbStruct mounts list
    else devices dbStruct mounts (list ++ [device dbStruct mount])

/-- `usage`; the mounts are the system's, or its error. -/
def usage (mounts : Except String (List Mount)) (dbStruct : List StorageOID) :
    Except String DataType :=
  mounts.map fun mounts => .storage (devices dbStruct mounts [])

end Storage

end Usage

end Nyumt
