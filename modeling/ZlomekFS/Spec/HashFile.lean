import ZlomekFS.Lib.Probing
import ZlomekFS.Spec.FileHandle

/-! The hash file, `lib/hashfile/hashfile.c`: a table with linear probing in a file. File operations
succeed. An operation that does not return is `none`: a probe that finds no empty slot, or a hash value
that is divided by the size zero. The order of the bytes in a slot does not matter here, so the calls of
`encode_f` and `decode_f` are left out. -/

namespace ZFS
open Probing

def HFILE_BUFFER_SIZE : ℕ := 0x4000

inductive SlotStatus
  | empty | deleted | valid
  deriving DecidableEq, Repr

/-- An element begins with its base, which has the key; `rest` is what `base_size` leaves out. -/
structure Slot (β ρ : Type) where
  status : SlotStatus
  base : β
  rest : ρ

structure HFileParams (κ β : Type) where
  key : β → κ
  hash : κ → ℕ
  elementSize : ℕ
  header_le : 8 ≤ elementSize
  le_buffer : elementSize ≤ HFILE_BUFFER_SIZE

structure HFile (β ρ : Type) where
  size : ℕ
  nElements : ℕ
  nDeleted : ℕ
  slots : ℕ → Slot β ρ
  header : ℕ × ℕ

section HashFile
variable {κ β ρ : Type} [DecidableEq κ] [Inhabited β] [Inhabited ρ]

def Slot.zero : Slot β ρ := ⟨.empty, default, default⟩

/-! ## Copying to another file -/

def findEmptySlot (slots : ℕ → Slot β ρ) (size hash : ℕ) : Option ℕ :=
  (walk (fun idx => (slots idx).status = .empty) (fun (_ : Unit) _ => ()) size size (hash % size) ()).map Prod.fst

/-- `chunk_size` is doubled while two chunks fit into the buffer. -/
def chunkSize : ℕ → ℕ → ℕ
  | 0, chunk => chunk
  | fuel + 1, chunk => if chunk ≤ HFILE_BUFFER_SIZE / 2 then chunkSize fuel (2 * chunk) else chunk

def chunkElements (elementSize oldSize : ℕ) : ℕ :=
  let n := chunkSize 14 elementSize / elementSize
  if oldSize < n then oldSize else n

def copyElement (P : HFileParams κ β) (newSize : ℕ) (slots : ℕ → Slot β ρ) (e : Slot β ρ) : Option (ℕ → Slot β ρ) :=
  if e.status = .valid then
    (findEmptySlot slots newSize (P.hash (P.key e.base))).map fun idx => Function.update slots idx e
  else some slots

/-- The loop over the chunks; a chunk that goes beyond the end of the file cannot be read, then the result is
`some none`. -/
def copyElements (P : HFileParams κ β) (old : ℕ → Slot β ρ) (oldSize newSize n : ℕ) :
    ℕ → ℕ → (ℕ → Slot β ρ) → Option (Option (ℕ → Slot β ρ))
  | 0, _, _ => none
  | fuel + 1, pos, slots =>
    if oldSize ≤ pos then some (some slots)
    else if oldSize < pos + n then some none
    else
      match (List.range n).foldlM (fun slots i => copyElement P newSize slots (old (pos + i))) slots with
      | none => none
      | some slots => copyElements P old oldSize newSize n fuel (pos + n) slots

namespace HFile

def create (size : ℕ) : HFile β ρ := ⟨size, 0, 0, fun _ => Slot.zero, (0, 0)⟩

def live (h : HFile β ρ) : ℕ := sub32 h.nElements h.nDeleted

def newSize (h : HFile β ρ) : Option ℕ :=
  if h.size ≤ u32 (2 * h.live) then some (u32 (2 * h.size))
  else if u32 (8 * h.live) ≤ h.size ∧ 32 < h.size then some (h.size / 2)
  else if h.size ≤ u32 (2 * h.nElements) then some h.size
  else none

def expand (P : HFileParams κ β) (h : HFile β ρ) : Option (Bool × HFile β ρ) :=
  match h.newSize with
  | none => some (true, h)
  | some newSize =>
    match copyElements P h.slots h.size newSize (chunkElements P.elementSize h.size) (h.size + 1) 0
        (fun _ => Slot.zero) with
    | none => none
    | some none => some (false, h)
    | some (some slots) => some (true, ⟨newSize, h.live, 0, slots, (h.live, 0)⟩)

/-! ## Operations -/

/-- The loop of `hfile_find_slot` with the first deleted slot that it meets. It stops at an empty slot or at
the element with the key. -/
def findSlot (P : HFileParams κ β) (h : HFile β ρ) (k : κ) : Option (ℕ × Option ℕ) :=
  walk (fun idx => (h.slots idx).status = .empty || ((h.slots idx).status = .valid && P.key (h.slots idx).base = k))
    (fun (firstDeleted : Option ℕ) idx =>
      if (h.slots idx).status = .deleted then firstDeleted.or (some idx) else firstDeleted)
    h.size h.size (P.hash k % h.size) none

/-- `hfile_lookup`; the element is there if its status is `valid`. -/
def lookup (P : HFileParams κ β) (h : HFile β ρ) (k : κ) : Option (Slot β ρ) :=
  (h.findSlot P k).map fun r => h.slots r.1

def write (h : HFile β ρ) (idx : ℕ) (e : Slot β ρ) : HFile β ρ :=
  { h with slots := Function.update h.slots idx e, header := (h.nElements, h.nDeleted) }

/-- The slot in which `hfile_insert` puts an element; without the rest it keeps the bytes that are there. -/
def place (h : HFile β ρ) (idx : ℕ) (x : β × ρ) (baseOnly : Bool) : HFile β ρ :=
  h.write idx ⟨.valid, x.1, if baseOnly then (h.slots idx).rest else x.2⟩

def insert (P : HFileParams κ β) (h : HFile β ρ) (x : β × ρ) (baseOnly : Bool) : Option (Bool × HFile β ρ) :=
  match h.expand P with
  | none => none
  | some (false, h) => some (false, h)
  | some (true, h) =>
    match h.findSlot P (P.key x.1) with
    | none => none
    | some (idx, firstDeleted) =>
      if (h.slots idx).status ≠ .empty then some (true, h.place idx x baseOnly)
      else
        match firstDeleted with
        | some deleted => some (true, { h with nDeleted := sub32 h.nDeleted 1 }.place deleted x baseOnly)
        | none => some (true, { h with nElements := u32 (h.nElements + 1) }.place idx x baseOnly)

def delete (P : HFileParams κ β) (h : HFile β ρ) (k : κ) : Option (Bool × HFile β ρ) :=
  match h.expand P with
  | none => none
  | some (false, h) => some (false, h)
  | some (true, h) =>
    match h.findSlot P k with
    | none => none
    | some (idx, _) =>
      if (h.slots idx).status ≠ .valid then some (true, h)
      else some (true, { h with nDeleted := u32 (h.nDeleted + 1) }.write idx ⟨.deleted, default, default⟩)

end HFile

/-! ## The map that the file stands for -/

abbrev Contents (κ β ρ : Type) := κ → Option (β × ρ)

/-- Inserting the base only keeps the rest of the element with the key; a new element gets zero bytes. -/
def Contents.insert (key : β → κ) (m : Contents κ β ρ) (x : β × ρ) (baseOnly : Bool) : Contents κ β ρ :=
  Function.update m (key x.1)
    (some (x.1, if baseOnly then ((m (key x.1)).map Prod.snd).getD default else x.2))

inductive HFileCall (κ β ρ : Type)
  | insert (x : β × ρ) (baseOnly : Bool)
  | delete (k : κ)

def HFile.call (P : HFileParams κ β) (h : HFile β ρ) : HFileCall κ β ρ → Option (Bool × HFile β ρ)
  | .insert x baseOnly => h.insert P x baseOnly
  | .delete k => h.delete P k

def Contents.call (key : β → κ) (m : Contents κ β ρ) : HFileCall κ β ρ → Contents κ β ρ
  | .insert x baseOnly => m.insert key x baseOnly
  | .delete k => Function.update m k none

end HashFile

end ZFS
