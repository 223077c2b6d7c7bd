import Nyumt.Messages

/-!
# Objects by their texts

`parse_oid`, which reads what statistics are asked for from a text such as `0.cpu.total`. The text
is split at its dots and the parts are looked at by their places.
-/

namespace Nyumt

/-- `str::to_uppercase` goes by Unicode's table, character by character; a character may become
several. -/
structure Uppercase where
  map : Char → List Char
  ascii : ∀ c : Char, c.toNat < 128 → map c = [c.toUpper]

namespace Uppercase

variable (U : Uppercase)

def upper (s : String) : String := .ofList (s.toList.flatMap U.map)

/-- The texts differ in their case at most. -/
def Same (s t : String) : Prop := U.upper s = U.upper t

end Uppercase

/-- A class of objects whose variants are written in upper case, as their own names. -/
structure Items (O : Type) where
  all : List O
  name : O → String
  mem : ∀ o, o ∈ all
  injective : ∀ o ∈ all, ∀ o' ∈ all, name o = name o' → o = o'
  upper : ∀ o ∈ all, (name o).toList.all fun c => c.toNat < 128 ∧ c.toUpper = c
  ne_star : ∀ o ∈ all, name o ≠ "*"

def CpuOID.all : List CpuOID :=
  [.total, .user, .nice, .system, .int, .idle]

def CpuOID.items : Items CpuOID where
  all := CpuOID.all
  name
    | .total => "TOTAL"
    | .user => "USER"
    | .nice => "NICE"
    | .system => "SYSTEM"
    | .int => "INT"
    | .idle => "IDLE"
  mem := by rintro ⟨⟩ <;> decide
  injective := by decide
  upper := by decide
  ne_star := by decide

def MemoryOID.all : List MemoryOID := [.total, .used]

def MemoryOID.items : Items MemoryOID where
  all := MemoryOID.all
  name
    | .total => "TOTAL"
    | .used => "USED"
  mem := by rintro ⟨⟩ <;> decide
  injective := by decide
  upper := by decide
  ne_star := by decide

def NetOID.all : List NetOID :=
  [.name, .mac, .ipAddress, .status, .rxPackets, .txPackets, .rxBytes, .txBytes, .rxErrors,
  .txErrors]

def NetOID.items : Items NetOID where
  all := NetOID.all
  name
    | .name => "NAME"
    | .mac => "MAC"
    | .ipAddress => "IP_ADDRESS"
    | .status => "STATUS"
    | .rxPackets => "RX_PACKETS"
    | .txPackets => "TX_PACKETS"
    | .rxBytes => "RX_BYTES"
    | .txBytes => "TX_BYTES"
    | .rxErrors => "RX_ERRORS"
    | .txErrors => "TX_ERRORS"
  mem := by rintro ⟨⟩ <;> decide
  injective := by decide
  upper := by decide
  ne_star := by decide

def StorageOID.all : List StorageOID :=
  [.name, .filesystemType, .free, .total, .totalNodes, .freeNodes]

def StorageOID.items : Items StorageOID where
  all := StorageOID.all
  name
    | .name => "NAME"
    | .filesystemType => "FILESYSTEM_TYPE"
    | .free => "FREE"
    | .total => "TOTAL"
    | .totalNodes => "TOTAL_NODES"
    | .freeNodes => "FREE_NODES"
  mem := by rintro ⟨⟩ <;> decide
  injective := by decide
  upper := by decide
  ne_star := by decide

namespace OID

/-- `key.split(".")`. -/
def parts (key : String) : List String := (key.toList.splitOn '.').map String.ofList

variable (U : Uppercase)

/-- The arm of a class: the third part is `*` or the name of an item. `none` is a panic. -/
def parseItem {O : Type} (I : Items O) (wrap : Option O → OID) (keys : List String)
    (subclass : String) : Option (Except String OID) := do
  let item ← keys[2]?
  if item = "*" then return .ok (wrap none)
  match I.all.find? fun o => I.name o = U.upper item with
  | some o => return .ok (wrap (some o))
  | none => return .error s!"Item {item} not found in {subclass}"

/-- `parse_oid` of a text and its parts; `none` where it indexes a part that is not there. -/
def parseParts (key : String) (keys : List String) : Option (Except String OID) := do
  if keys.length < 2 ∧ 3 < keys.length then return .error s!"Error parsing OID {key}"
  let db ← keys[0]?
  if db ≠ "0" then return .error s!"Unknewn object database {db}"
  let subclass ← keys[1]?
  if subclass = "*" then
    if keys.length = 2 then return .ok .all
    let item ← keys[2]?
    if item = "*" then return .ok .all
    return .error s!"Error parsing OID {db}"
  if U.upper subclass = "CPU" then parseItem U CpuOID.items .cpu keys subclass
  else if U.upper subclass = "MEMORY" then parseItem U MemoryOID.items .memory keys subclass
  else if U.upper subclass = "NETWORK" then parseItem U NetOID.items .network keys subclass
  else if U.upper subclass = "STORAGE" then parseItem U StorageOID.items .storage keys subclass
  else return .error s!"Unknewn subclass {subclass} in {key}"

def parse (key : String) : Option (Except String OID) := parseParts U key (parts key)

end OID

end Nyumt
