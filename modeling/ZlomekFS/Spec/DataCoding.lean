import ZlomekFS.Lib.Packets
import ZlomekFS.Spec.FileHandle

/-! The data coding buffer, `zfs-protocol/data-coding.c`: encoders and decoders of the simple types, of
strings and of data buffers. The buffer is aligned to 16, so that a pointer into it is aligned when its
offset is; `cur_pos` is that offset. A coder that fails returns `none` for `false`. -/

namespace ZFS.Protocol
open Bytes Packets

def ZFS_DC_SIZE : ℕ := 8888
def ZFS_MAXPATHLEN : ℕ := 1023
def ZFS_MAXNAMELEN : ℕ := 255
def ZFS_MAXNODELEN : ℕ := 256
def MD5_SIZE : ℕ := 16
def ZFS_VERIFY_LEN : ℕ := MD5_SIZE
def ZFS_MAX_MD5_CHUNKS : ℕ := ZFS_MAXDATA / (MD5_SIZE + 2 * 8)

structure DC where
  buffer : ℕ → UInt8
  curPos : ℕ
  maxLength : ℕ
  curLength : ℕ

abbrev Coding (α : Type) := OptionT (StateM DC) α

/-! ## Simple types -/

def encodeSimple (size val : ℕ) : Coding Unit := fun dc =>
  let curLength := u32 (align size dc.curLength + size)
  if dc.maxLength < curLength then (none, dc)
  else
    let pos := align size dc.curPos
    -- the bytes before the aligned offset are cleared
    let buffer := put dc.buffer dc.curPos (List.replicate (pos - dc.curPos) 0)
    (some (), { dc with buffer := put buffer pos (toLE size val), curPos := pos + size, curLength := curLength })

def decodeSimple (size : ℕ) : Coding ℕ := fun dc =>
  let dc := { dc with curLength := u32 (align size dc.curLength + size) }
  if dc.maxLength < dc.curLength then (none, dc)
  else
    let pos := align size dc.curPos
    (some (ofLE (Packets.get dc.buffer pos size)), { dc with curPos := pos + size })

def encodeUchar (val : UInt8) : Coding Unit := encodeSimple 1 val.toNat
def encodeUint16 (val : UInt16) : Coding Unit := encodeSimple 2 val.toNat
def encodeInt16 (val : Int16) : Coding Unit := encodeSimple 2 val.toUInt16.toNat
def encodeUint32 (val : UInt32) : Coding Unit := encodeSimple 4 val.toNat
def encodeInt32 (val : Int32) : Coding Unit := encodeSimple 4 val.toUInt32.toNat
def encodeUint64 (val : UInt64) : Coding Unit := encodeSimple 8 val.toNat
def encodeInt64 (val : Int64) : Coding Unit := encodeSimple 8 val.toUInt64.toNat

def decodeUchar : Coding UInt8 := UInt8.ofNat <$> decodeSimple 1
def decodeUint16 : Coding UInt16 := UInt16.ofNat <$> decodeSimple 2
def decodeInt16 : Coding Int16 := (fun n => (UInt16.ofNat n).toInt16) <$> decodeSimple 2
def decodeUint32 : Coding UInt32 := UInt32.ofNat <$> decodeSimple 4
def decodeInt32 : Coding Int32 := (fun n => (UInt32.ofNat n).toInt32) <$> decodeSimple 4
def decodeUint64 : Coding UInt64 := UInt64.ofNat <$> decodeSimple 8
def decodeInt64 : Coding Int64 := (fun n => (UInt64.ofNat n).toInt64) <$> decodeSimple 8

/-! ## Sequences of bytes -/

/-- The bytes are copied to `cur_pos`. When there is no room for them `cur_length` becomes `prev`. -/
def encodeBytes (prev : ℕ) (l : List UInt8) : Coding Unit := fun dc =>
  let curLength := u32 (dc.curLength + l.length)
  if dc.maxLength < curLength then (none, { dc with curLength := prev })
  else (some (), { dc with
    buffer := put dc.buffer dc.curPos l, curPos := dc.curPos + l.length, curLength := curLength })

def decodeBytes (n : ℕ) : Coding (List.Vector UInt8 n) := fun dc =>
  let dc := { dc with curLength := u32 (dc.curLength + n) }
  if dc.maxLength < dc.curLength then (none, dc)
  else (some ⟨Packets.get dc.buffer dc.curPos n, length_get ..⟩, { dc with curPos := dc.curPos + n })

def encodeFixedBuffer {n : ℕ} (buf : List.Vector UInt8 n) : Coding Unit := do
  let dc ← get
  encodeBytes dc.curLength buf.toList

def decodeFixedBuffer (n : ℕ) : Coding (List.Vector UInt8 n) := decodeBytes n

abbrev Limited (max : ℕ) := { l : List UInt8 // l.length ≤ max }

abbrev DataBuffer := Limited ZFS_MAXDATA
abbrev Filename := Limited ZFS_MAXNAMELEN
abbrev ZfsPath := Limited ZFS_MAXPATHLEN
abbrev Nodename := Limited ZFS_MAXNODELEN

def encodeDataBuffer (data : DataBuffer) : Coding Unit := do
  encodeUint32 (UInt32.ofNat data.1.length)
  let dc ← get
  encodeBytes dc.curLength data.1

def decodeDataBuffer : Coding DataBuffer := do
  let len ← decodeUint32
  if h : len.toNat ≤ ZFS_MAXDATA then
    let buf ← decodeBytes len.toNat
    return ⟨buf.toList, by rw [buf.toList_length]; exact h⟩
  else failure

/-- `encode_string`. When there is no room `cur_length` is what it was before the length was encoded;
`cur_pos` stays behind the length. -/
def encodeString {max : ℕ} (str : Limited max) : Coding Unit := do
  let dc ← get
  encodeUint32 (UInt32.ofNat str.1.length)
  encodeBytes dc.curLength (str.1 ++ [0])

/-- `decode_string`; the string gets its zero byte again. -/
def decodeString (max : ℕ) : Coding (Limited max) := do
  let len ← decodeUint32
  if h : len.toNat ≤ max then
    let str ← decodeBytes (len.toNat + 1)
    modify fun dc => { dc with buffer := put dc.buffer (dc.curPos - 1) [0] }
    return ⟨str.toList.take len.toNat, (List.length_take_le ..).trans h⟩
  else failure

/-! ## Enumerations -/

inductive Direction
  | request | reply | oneway
  deriving DecidableEq, Repr

inductive ConnectionSpeed
  | none | slow | fast
  deriving DecidableEq, Repr

def Direction.code : Direction → UInt8
  | .request => 0
  | .reply => 1
  | .oneway => 2

def Direction.ofCode : UInt8 → Option Direction
  | 0 => some .request
  | 1 => some .reply
  | 2 => some .oneway
  | _ => .none

def ConnectionSpeed.code : ConnectionSpeed → UInt8
  | .none => 0
  | .slow => 1
  | .fast => 2

def ConnectionSpeed.ofCode : UInt8 → Option ConnectionSpeed
  | 0 => some .none
  | 1 => some .slow
  | 2 => some .fast
  | _ => .none

def ftypeCode : FType → UInt8
  | .bad => 0
  | .reg => 1
  | .dir => 2
  | .lnk => 3
  | .blk => 4
  | .chr => 5
  | .sock => 6
  | .fifo => 7

def ftypeOfCode : UInt8 → Option FType
  | 0 => some .bad
  | 1 => some .reg
  | 2 => some .dir
  | 3 => some .lnk
  | 4 => some .blk
  | 5 => some .chr
  | 6 => some .sock
  | 7 => some .fifo
  | _ => .none

/-- The value is refused when it is not below the `LAST_AND_UNUSED` of the enumeration. -/
def decodeEnum {α : Type} (ofCode : UInt8 → Option α) : Coding α := do
  let val ← decodeUchar
  match ofCode val with
  | some a => return a
  | .none => failure

def encodeDirection (dir : Direction) : Coding Unit := encodeUchar dir.code
def decodeDirection : Coding Direction := decodeEnum Direction.ofCode
def encodeFtype (type : FType) : Coding Unit := encodeUchar (ftypeCode type)
def decodeFtype : Coding FType := decodeEnum ftypeOfCode
def encodeConnectionSpeed (speed : ConnectionSpeed) : Coding Unit := encodeUchar speed.code
def decodeConnectionSpeed : Coding ConnectionSpeed := decodeEnum ConnectionSpeed.ofCode

/-! ## Arrays -/

def encodeEach {α : Type} (encode : α → Coding Unit) : {n : ℕ} → List.Vector α n → Coding Unit
  | 0, _ => pure ()
  | _ + 1, v => do
    encode v.head
    encodeEach encode v.tail

def decodeEach {α : Type} (decode : Coding α) : (n : ℕ) → Coding (List.Vector α n)
  | 0 => pure List.Vector.nil
  | n + 1 => do
    let a ← decode
    let v ← decodeEach decode n
    return List.Vector.cons a v

def ignore (encode : Coding Unit) : Coding Unit := fun dc => (some (), (encode dc).2)

end ZFS.Protocol
