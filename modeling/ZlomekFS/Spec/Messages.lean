import ZlomekFS.Spec.DataCoding

/-! The messages of the protocol, `zfs-prot.h`, with their encoders and decoders from `data-coding.c`. -/

namespace ZFS.Protocol
open Packets

def encodeZfsFh (fh : ZfsFh) : Coding Unit := do
  encodeUint32 fh.sid
  encodeUint32 fh.vid
  encodeUint32 fh.dev
  encodeUint32 fh.ino
  encodeUint32 fh.gen

def decodeZfsFh : Coding ZfsFh := do
  let sid ← decodeUint32
  let vid ← decodeUint32
  let dev ← decodeUint32
  let ino ← decodeUint32
  let gen ← decodeUint32
  return ⟨sid, vid, dev, ino, gen⟩

structure ZfsCap where
  fh : ZfsFh
  flags : UInt32
  verify : List.Vector UInt8 ZFS_VERIFY_LEN

def encodeZfsCap (cap : ZfsCap) : Coding Unit := do
  encodeZfsFh cap.fh
  encodeUint32 cap.flags
  encodeFixedBuffer cap.verify

def decodeZfsCap : Coding ZfsCap := do
  let fh ← decodeZfsFh
  let flags ← decodeUint32
  let verify ← decodeFixedBuffer ZFS_VERIFY_LEN
  return ⟨fh, flags, verify⟩

structure Fattr where
  (dev ino : UInt32)
  version : UInt64
  type : FType
  (mode nlink uid gid rdev : UInt32)
  (size blocks : UInt64)
  (blksize atime mtime ctime : UInt32)

def encodeFattr (attr : Fattr) : Coding Unit := do
  encodeUint32 attr.dev
  encodeUint32 attr.ino
  encodeUint64 attr.version
  encodeFtype attr.type
  encodeUint32 attr.mode
  encodeUint32 attr.nlink
  encodeUint32 attr.uid
  encodeUint32 attr.gid
  encodeUint32 attr.rdev
  encodeUint64 attr.size
  encodeUint64 attr.blocks
  encodeUint32 attr.blksize
  encodeUint32 attr.atime
  encodeUint32 attr.mtime
  encodeUint32 attr.ctime

def decodeFattr : Coding Fattr := do
  let dev ← decodeUint32
  let ino ← decodeUint32
  let version ← decodeUint64
  let type ← decodeFtype
  let mode ← decodeUint32
  let nlink ← decodeUint32
  let uid ← decodeUint32
  let gid ← decodeUint32
  let rdev ← decodeUint32
  let size ← decodeUint64
  let blocks ← decodeUint64
  let blksize ← decodeUint32
  let atime ← decodeUint32
  let mtime ← decodeUint32
  let ctime ← decodeUint32
  return ⟨dev, ino, version, type, mode, nlink, uid, gid, rdev, size, blocks, blksize, atime, mtime, ctime⟩

structure Sattr where
  (mode uid gid : UInt32)
  size : UInt64
  (atime mtime : UInt32)

def encodeSattr (attr : Sattr) : Coding Unit := do
  encodeUint32 attr.mode
  encodeUint32 attr.uid
  encodeUint32 attr.gid
  encodeUint64 attr.size
  encodeUint32 attr.atime
  encodeUint32 attr.mtime

def decodeSattr : Coding Sattr := do
  let mode ← decodeUint32
  let uid ← decodeUint32
  let gid ← decodeUint32
  let size ← decodeUint64
  let atime ← decodeUint32
  let mtime ← decodeUint32
  return ⟨mode, uid, gid, size, atime, mtime⟩

def encodeFilename (name : Filename) : Coding Unit := encodeString name
def decodeFilename : Coding Filename := decodeString ZFS_MAXNAMELEN
def encodeZfsPath (path : ZfsPath) : Coding Unit := encodeString path
def decodeZfsPath : Coding ZfsPath := decodeString ZFS_MAXPATHLEN
def encodeNodename (node : Nodename) : Coding Unit := encodeString node
def decodeNodename : Coding Nodename := decodeString ZFS_MAXNODELEN

structure VolumeRootArgs where
  vid : UInt32

def encodeVolumeRootArgs (args : VolumeRootArgs) : Coding Unit := encodeUint32 args.vid

def decodeVolumeRootArgs : Coding VolumeRootArgs := do
  let vid ← decodeUint32
  return ⟨vid⟩

structure SetattrArgs where
  file : ZfsFh
  attr : Sattr

def encodeSetattrArgs (args : SetattrArgs) : Coding Unit := do
  encodeZfsFh args.file
  encodeSattr args.attr

def decodeSetattrArgs : Coding SetattrArgs := do
  let file ← decodeZfsFh
  let attr ← decodeSattr
  return ⟨file, attr⟩

structure DirOpArgs where
  dir : ZfsFh
  name : Filename

def encodeDirOpArgs (args : DirOpArgs) : Coding Unit := do
  encodeZfsFh args.dir
  encodeFilename args.name

def decodeDirOpArgs : Coding DirOpArgs := do
  let dir ← decodeZfsFh
  let name ← decodeFilename
  return ⟨dir, name⟩

structure DirOpRes where
  file : ZfsFh
  attr : Fattr

def encodeDirOpRes (res : DirOpRes) : Coding Unit := do
  encodeZfsFh res.file
  encodeFattr res.attr

def decodeDirOpRes : Coding DirOpRes := do
  let file ← decodeZfsFh
  let attr ← decodeFattr
  return ⟨file, attr⟩

structure CreateArgs where
  where_ : DirOpArgs
  flags : UInt32
  attr : Sattr

def encodeCreateArgs (args : CreateArgs) : Coding Unit := do
  encodeDirOpArgs args.where_
  encodeUint32 args.flags
  encodeSattr args.attr

def decodeCreateArgs : Coding CreateArgs := do
  let where_ ← decodeDirOpArgs
  let flags ← decodeUint32
  let attr ← decodeSattr
  return ⟨where_, flags, attr⟩

structure CreateRes where
  cap : ZfsCap
  dor : DirOpRes

def encodeCreateRes (res : CreateRes) : Coding Unit := do
  encodeZfsCap res.cap
  encodeZfsFh res.dor.file
  encodeFattr res.dor.attr

def decodeCreateRes : Coding CreateRes := do
  let cap ← decodeZfsCap
  let file ← decodeZfsFh
  let attr ← decodeFattr
  return ⟨cap, ⟨file, attr⟩⟩

structure OpenArgs where
  file : ZfsFh
  flags : UInt32

def encodeOpenArgs (args : OpenArgs) : Coding Unit := do
  encodeZfsFh args.file
  encodeUint32 args.flags

def decodeOpenArgs : Coding OpenArgs := do
  let file ← decodeZfsFh
  let flags ← decodeUint32
  return ⟨file, flags⟩

structure ReadDirArgs where
  cap : ZfsCap
  cookie : Int32
  count : UInt32

def encodeReadDirArgs (args : ReadDirArgs) : Coding Unit := do
  encodeZfsCap args.cap
  encodeInt32 args.cookie
  encodeUint32 args.count

def decodeReadDirArgs : Coding ReadDirArgs := do
  let cap ← decodeZfsCap
  let cookie ← decodeInt32
  let count ← decodeUint32
  return ⟨cap, cookie, count⟩

structure DirEntry where
  ino : UInt32
  cookie : Int32
  name : Filename

def encodeDirEntry (entry : DirEntry) : Coding Unit := do
  encodeUint32 entry.ino
  encodeInt32 entry.cookie
  encodeFilename entry.name

def decodeDirEntry : Coding DirEntry := do
  let ino ← decodeUint32
  let cookie ← decodeInt32
  let name ← decodeFilename
  return ⟨ino, cookie, name⟩

/-- The entries follow the list as messages of their own. -/
structure DirList where
  n : UInt32
  eof : UInt8

def encodeDirList (list : DirList) : Coding Unit := do
  encodeUint32 list.n
  encodeUchar list.eof

def decodeDirList : Coding DirList := do
  let n ← decodeUint32
  let eof ← decodeUchar
  return ⟨n, eof⟩

structure MkdirArgs where
  where_ : DirOpArgs
  attr : Sattr

def encodeMkdirArgs (args : MkdirArgs) : Coding Unit := do
  encodeDirOpArgs args.where_
  encodeSattr args.attr

def decodeMkdirArgs : Coding MkdirArgs := do
  let where_ ← decodeDirOpArgs
  let attr ← decodeSattr
  return ⟨where_, attr⟩

structure RenameArgs where
  (from_ to_ : DirOpArgs)

def encodeRenameArgs (args : RenameArgs) : Coding Unit := do
  encodeDirOpArgs args.from_
  encodeDirOpArgs args.to_

def decodeRenameArgs : Coding RenameArgs := do
  let from_ ← decodeDirOpArgs
  let to_ ← decodeDirOpArgs
  return ⟨from_, to_⟩

structure LinkArgs where
  from_ : ZfsFh
  to_ : DirOpArgs

def encodeLinkArgs (args : LinkArgs) : Coding Unit := do
  encodeZfsFh args.from_
  encodeDirOpArgs args.to_

def decodeLinkArgs : Coding LinkArgs := do
  let from_ ← decodeZfsFh
  let to_ ← decodeDirOpArgs
  return ⟨from_, to_⟩

structure ReadArgs where
  cap : ZfsCap
  offset : UInt64
  count : UInt32

def encodeReadArgs (args : ReadArgs) : Coding Unit := do
  encodeZfsCap args.cap
  encodeUint64 args.offset
  encodeUint32 args.count

def decodeReadArgs : Coding ReadArgs := do
  let cap ← decodeZfsCap
  let offset ← decodeUint64
  let count ← decodeUint32
  return ⟨cap, offset, count⟩

structure ReadRes where
  data : DataBuffer
  version : UInt64

def encodeReadRes (res : ReadRes) : Coding Unit := do
  encodeDataBuffer res.data
  encodeUint64 res.version

def decodeReadRes : Coding ReadRes := do
  let data ← decodeDataBuffer
  let version ← decodeUint64
  return ⟨data, version⟩

/-- The field `remote` is not transmitted. -/
structure WriteArgs where
  cap : ZfsCap
  offset : UInt64
  data : DataBuffer

def encodeWriteArgs (args : WriteArgs) : Coding Unit := do
  encodeZfsCap args.cap
  encodeUint64 args.offset
  encodeDataBuffer args.data

def decodeWriteArgs : Coding WriteArgs := do
  let cap ← decodeZfsCap
  let offset ← decodeUint64
  let data ← decodeDataBuffer
  return ⟨cap, offset, data⟩

structure WriteRes where
  written : UInt32
  version : UInt64

def encodeWriteRes (res : WriteRes) : Coding Unit := do
  encodeUint32 res.written
  encodeUint64 res.version

def decodeWriteRes : Coding WriteRes := do
  let written ← decodeUint32
  let version ← decodeUint64
  return ⟨written, version⟩

structure ReadLinkRes where
  path : ZfsPath

def encodeReadLinkRes (res : ReadLinkRes) : Coding Unit := encodeZfsPath res.path

def decodeReadLinkRes : Coding ReadLinkRes := do
  let path ← decodeZfsPath
  return ⟨path⟩

structure SymlinkArgs where
  from_ : DirOpArgs
  to_ : ZfsPath
  attr : Sattr

def encodeSymlinkArgs (args : SymlinkArgs) : Coding Unit := do
  encodeDirOpArgs args.from_
  encodeZfsPath args.to_
  encodeSattr args.attr

def decodeSymlinkArgs : Coding SymlinkArgs := do
  let from_ ← decodeDirOpArgs
  let to_ ← decodeZfsPath
  let attr ← decodeSattr
  return ⟨from_, to_, attr⟩

structure MknodArgs where
  where_ : DirOpArgs
  attr : Sattr
  type : FType
  rdev : UInt32

def encodeMknodArgs (args : MknodArgs) : Coding Unit := do
  encodeDirOpArgs args.where_
  encodeSattr args.attr
  encodeFtype args.type
  encodeUint32 args.rdev

def decodeMknodArgs : Coding MknodArgs := do
  let where_ ← decodeDirOpArgs
  let attr ← decodeSattr
  let type ← decodeFtype
  let rdev ← decodeUint32
  return ⟨where_, attr, type, rdev⟩

structure AuthStage1Args where
  node : Nodename

def encodeAuthStage1Args (args : AuthStage1Args) : Coding Unit := encodeNodename args.node

def decodeAuthStage1Args : Coding AuthStage1Args := do
  let node ← decodeNodename
  return ⟨node⟩

structure AuthStage1Res where
  node : Nodename

def encodeAuthStage1Res (res : AuthStage1Res) : Coding Unit := encodeNodename res.node

def decodeAuthStage1Res : Coding AuthStage1Res := do
  let node ← decodeNodename
  return ⟨node⟩

structure AuthStage2Args where
  speed : ConnectionSpeed

def encodeAuthStage2Args (args : AuthStage2Args) : Coding Unit := encodeConnectionSpeed args.speed

def decodeAuthStage2Args : Coding AuthStage2Args := do
  let speed ← decodeConnectionSpeed
  return ⟨speed⟩

structure FileInfoRes where
  path : ZfsPath

def encodeFileInfoRes (res : FileInfoRes) : Coding Unit := encodeZfsPath res.path

def decodeFileInfoRes : Coding FileInfoRes := do
  let path ← decodeZfsPath
  return ⟨path⟩

structure ReintegrateArgs where
  fh : ZfsFh
  status : UInt8

def encodeReintegrateArgs (args : ReintegrateArgs) : Coding Unit := do
  encodeZfsFh args.fh
  encodeUchar args.status

def decodeReintegrateArgs : Coding ReintegrateArgs := do
  let fh ← decodeZfsFh
  let status ← decodeUchar
  return ⟨fh, status⟩

structure ReintegrateAddArgs where
  (fh dir : ZfsFh)
  name : Filename

def encodeReintegrateAddArgs (args : ReintegrateAddArgs) : Coding Unit := do
  encodeZfsFh args.fh
  encodeZfsFh args.dir
  encodeFilename args.name

def decodeReintegrateAddArgs : Coding ReintegrateAddArgs := do
  let fh ← decodeZfsFh
  let dir ← decodeZfsFh
  let name ← decodeFilename
  return ⟨fh, dir, name⟩

structure ReintegrateDelArgs where
  (fh dir : ZfsFh)
  name : Filename
  destroyP : UInt8

def encodeReintegrateDelArgs (args : ReintegrateDelArgs) : Coding Unit := do
  encodeZfsFh args.fh
  encodeZfsFh args.dir
  encodeFilename args.name
  encodeUchar args.destroyP

def decodeReintegrateDelArgs : Coding ReintegrateDelArgs := do
  let fh ← decodeZfsFh
  let dir ← decodeZfsFh
  let name ← decodeFilename
  let destroyP ← decodeUchar
  return ⟨fh, dir, name, destroyP⟩

structure ReintegrateVerArgs where
  fh : ZfsFh
  versionInc : UInt64

def encodeReintegrateVerArgs (args : ReintegrateVerArgs) : Coding Unit := do
  encodeZfsFh args.fh
  encodeUint64 args.versionInc

def decodeReintegrateVerArgs : Coding ReintegrateVerArgs := do
  let fh ← decodeZfsFh
  let versionInc ← decodeUint64
  return ⟨fh, versionInc⟩

structure RereadConfigArgs where
  path : ZfsPath

def encodeRereadConfigArgs (args : RereadConfigArgs) : Coding Unit := encodeZfsPath args.path

def decodeRereadConfigArgs : Coding RereadConfigArgs := do
  let path ← decodeZfsPath
  return ⟨path⟩

/-! ## Checksums

The two encoders do not look at the results of the encoders they call. -/

/-- `offset` and `length` have `count` elements that are used. -/
structure Md5sumArgs where
  cap : ZfsCap
  count : UInt32
  limit : count.toNat ≤ ZFS_MAX_MD5_CHUNKS
  ignoreChanges : UInt8
  offset : List.Vector UInt64 count.toNat
  length : List.Vector UInt32 count.toNat

def encodeMd5sumArgs (args : Md5sumArgs) : Coding Unit := do
  ignore (encodeZfsCap args.cap)
  ignore (encodeUint32 args.count)
  ignore (encodeUchar args.ignoreChanges)
  encodeEach (fun offset => ignore (encodeUint64 offset)) args.offset
  encodeEach (fun length => ignore (encodeUint32 length)) args.length

def decodeMd5sumArgs : Coding Md5sumArgs := do
  let cap ← decodeZfsCap
  let count ← decodeUint32
  let ignoreChanges ← decodeUchar
  if h : count.toNat ≤ ZFS_MAX_MD5_CHUNKS then
    let offset ← decodeEach decodeUint64 count.toNat
    let length ← decodeEach decodeUint32 count.toNat
    return ⟨cap, count, h, ignoreChanges, offset, length⟩
  else failure

structure Md5sumRes where
  count : UInt32
  limit : count.toNat ≤ ZFS_MAX_MD5_CHUNKS
  size : UInt64
  version : UInt64
  offset : List.Vector UInt64 count.toNat
  length : List.Vector UInt32 count.toNat
  md5sum : List.Vector (List.Vector UInt8 MD5_SIZE) count.toNat

def encodeMd5sumRes (res : Md5sumRes) : Coding Unit := do
  ignore (encodeUint32 res.count)
  ignore (encodeUint64 res.size)
  ignore (encodeUint64 res.version)
  encodeEach (fun offset => ignore (encodeUint64 offset)) res.offset
  encodeEach (fun length => ignore (encodeUint32 length)) res.length
  encodeEach (fun md5sum => ignore (encodeFixedBuffer md5sum)) res.md5sum

def decodeMd5sumRes : Coding Md5sumRes := do
  let count ← decodeUint32
  if h : count.toNat ≤ ZFS_MAX_MD5_CHUNKS then
    let size ← decodeUint64
    let version ← decodeUint64
    let offset ← decodeEach decodeUint64 count.toNat
    let length ← decodeEach decodeUint32 count.toNat
    let md5sum ← decodeEach (decodeFixedBuffer MD5_SIZE) count.toNat
    return ⟨count, h, size, version, offset, length, md5sum⟩
  else failure

/-! ## All messages -/

/-- What a packet is made of; `status` is the result code of a reply, an `int32_t`. The length of a fixed buffer
is an `int`. -/
inductive MessageType
  | uchar | int16 | uint16 | uint32 | int64 | uint64 | fixedBuffer (len : Fin (2 ^ 31)) | ftype | connectionSpeed
  | direction | filename | zfsPath | nodename | dataBuffer | status | zfsFh | zfsCap | fattr | sattr
  | volumeRootArgs | setattrArgs | dirOpArgs | dirOpRes | createArgs | createRes | openArgs | readDirArgs
  | dirEntry | dirList | mkdirArgs | renameArgs | linkArgs | readArgs | readRes | writeArgs | writeRes
  | readLinkRes | symlinkArgs | mknodArgs | authStage1Args | authStage1Res | authStage2Args | fileInfoRes
  | reintegrateArgs | reintegrateAddArgs | reintegrateDelArgs | reintegrateVerArgs | rereadConfigArgs
  | md5sumArgs | md5sumRes
  deriving DecidableEq, Repr

structure Codec where
  Value : Type
  encode : Value → Coding Unit
  decode : Coding Value

def MessageType.codec : MessageType → Codec
  | .uchar => ⟨UInt8, encodeUchar, decodeUchar⟩
  | .int16 => ⟨Int16, encodeInt16, decodeInt16⟩
  | .uint16 => ⟨UInt16, encodeUint16, decodeUint16⟩
  | .uint32 => ⟨UInt32, encodeUint32, decodeUint32⟩
  | .int64 => ⟨Int64, encodeInt64, decodeInt64⟩
  | .uint64 => ⟨UInt64, encodeUint64, decodeUint64⟩
  | .fixedBuffer len => ⟨List.Vector UInt8 len, encodeFixedBuffer, decodeFixedBuffer len⟩
  | .ftype => ⟨FType, encodeFtype, decodeFtype⟩
  | .connectionSpeed => ⟨ConnectionSpeed, encodeConnectionSpeed, decodeConnectionSpeed⟩
  | .direction => ⟨Direction, encodeDirection, decodeDirection⟩
  | .filename => ⟨Filename, encodeFilename, decodeFilename⟩
  | .zfsPath => ⟨ZfsPath, encodeZfsPath, decodeZfsPath⟩
  | .nodename => ⟨Nodename, encodeNodename, decodeNodename⟩
  | .dataBuffer => ⟨DataBuffer, encodeDataBuffer, decodeDataBuffer⟩
  | .status => ⟨Int32, encodeInt32, decodeInt32⟩
  | .zfsFh => ⟨ZfsFh, encodeZfsFh, decodeZfsFh⟩
  | .zfsCap => ⟨ZfsCap, encodeZfsCap, decodeZfsCap⟩
  | .fattr => ⟨Fattr, encodeFattr, decodeFattr⟩
  | .sattr => ⟨Sattr, encodeSattr, decodeSattr⟩
  | .volumeRootArgs => ⟨VolumeRootArgs, encodeVolumeRootArgs, decodeVolumeRootArgs⟩
  | .setattrArgs => ⟨SetattrArgs, encodeSetattrArgs, decodeSetattrArgs⟩
  | .dirOpArgs => ⟨DirOpArgs, encodeDirOpArgs, decodeDirOpArgs⟩
  | .dirOpRes => ⟨DirOpRes, encodeDirOpRes, decodeDirOpRes⟩
  | .createArgs => ⟨CreateArgs, encodeCreateArgs, decodeCreateArgs⟩
  | .createRes => ⟨CreateRes, encodeCreateRes, decodeCreateRes⟩
  | .openArgs => ⟨OpenArgs, encodeOpenArgs, decodeOpenArgs⟩
  | .readDirArgs => ⟨ReadDirArgs, encodeReadDirArgs, decodeReadDirArgs⟩
  | .dirEntry => ⟨DirEntry, encodeDirEntry, decodeDirEntry⟩
  | .dirList => ⟨DirList, encodeDirList, decodeDirList⟩
  | .mkdirArgs => ⟨MkdirArgs, encodeMkdirArgs, decodeMkdirArgs⟩
  | .renameArgs => ⟨RenameArgs, encodeRenameArgs, decodeRenameArgs⟩
  | .linkArgs => ⟨LinkArgs, encodeLinkArgs, decodeLinkArgs⟩
  | .readArgs => ⟨ReadArgs, encodeReadArgs, decodeReadArgs⟩
  | .readRes => ⟨ReadRes, encodeReadRes, decodeReadRes⟩
  | .writeArgs => ⟨WriteArgs, encodeWriteArgs, decodeWriteArgs⟩
  | .writeRes => ⟨WriteRes, encodeWriteRes, decodeWriteRes⟩
  | .readLinkRes => ⟨ReadLinkRes, encodeReadLinkRes, decodeReadLinkRes⟩
  | .symlinkArgs => ⟨SymlinkArgs, encodeSymlinkArgs, decodeSymlinkArgs⟩
  | .mknodArgs => ⟨MknodArgs, encodeMknodArgs, decodeMknodArgs⟩
  | .authStage1Args => ⟨AuthStage1Args, encodeAuthStage1Args, decodeAuthStage1Args⟩
  | .authStage1Res => ⟨AuthStage1Res, encodeAuthStage1Res, decodeAuthStage1Res⟩
  | .authStage2Args => ⟨AuthStage2Args, encodeAuthStage2Args, decodeAuthStage2Args⟩
  | .fileInfoRes => ⟨FileInfoRes, encodeFileInfoRes, decodeFileInfoRes⟩
  | .reintegrateArgs => ⟨ReintegrateArgs, encodeReintegrateArgs, decodeReintegrateArgs⟩
  | .reintegrateAddArgs => ⟨ReintegrateAddArgs, encodeReintegrateAddArgs, decodeReintegrateAddArgs⟩
  | .reintegrateDelArgs => ⟨ReintegrateDelArgs, encodeReintegrateDelArgs, decodeReintegrateDelArgs⟩
  | .reintegrateVerArgs => ⟨ReintegrateVerArgs, encodeReintegrateVerArgs, decodeReintegrateVerArgs⟩
  | .rereadConfigArgs => ⟨RereadConfigArgs, encodeRereadConfigArgs, decodeRereadConfigArgs⟩
  | .md5sumArgs => ⟨Md5sumArgs, encodeMd5sumArgs, decodeMd5sumArgs⟩
  | .md5sumRes => ⟨Md5sumRes, encodeMd5sumRes, decodeMd5sumRes⟩

abbrev Message := Σ t : MessageType, t.codec.Value

def Message.encode (m : Message) : Coding Unit := m.1.codec.encode m.2

/-- Messages that are put into a packet one after another, whatever the encoders return. -/
def encodeAll (dc : DC) (ms : List Message) : DC := ms.foldl (fun dc m => (m.encode dc).2) dc

def MessageType.firstSize : MessageType → ℕ
  | .uchar | .ftype | .connectionSpeed | .direction | .authStage2Args => 1
  | .int16 | .uint16 => 2
  | .int64 | .uint64 => 8
  | _ => 4

/-- Where the first value of a message ends; a fixed buffer is not aligned. -/
def MessageType.firstStop (pos : ℕ) : MessageType → ℕ
  | .fixedBuffer len => pos + len
  | t => align t.firstSize pos + t.firstSize

def md5sumArgsStop (count pos : ℕ) : ℕ :=
  if count = 0 then align 4 pos + 45 else align 8 (align 4 pos + 45) + 12 * count

def md5sumResStop (count pos : ℕ) : ℕ := align 8 (align 4 pos + 4) + 16 + 28 * count

/-- There is room for the message. The encoders of the other messages find out by themselves. -/
def Message.LeavesRoom : Message → DC → Prop
  | ⟨.md5sumArgs, args⟩, dc => md5sumArgsStop (Md5sumArgs.count args).toNat dc.curLength ≤ dc.maxLength
  | ⟨.md5sumRes, res⟩, dc => md5sumResStop (Md5sumRes.count res).toNat dc.curLength ≤ dc.maxLength
  | _, _ => True

end ZFS.Protocol
