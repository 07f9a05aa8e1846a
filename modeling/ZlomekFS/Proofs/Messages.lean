import ZlomekFS.Proofs.DataCoding
import ZlomekFS.Spec.Messages

/-! Every message of the protocol is decoded to what was encoded, at any position of a packet. -/

namespace ZFS.Protocol
open Bytes Packets Layout

/-! ## Messages whose encoders look at every result -/

/-- The encoder and the decoder are exact for some layout of the value, which begins with a value of the size `s`. -/
def Coded {α : Type} (s : ℕ) (e : Coding Unit) (d : Coding α) (a : α) : Prop := Starts s e ∧ ∃ w, Exact e d a w

section Coded
variable {α β : Type} {s s' : ℕ} {e e' : Coding Unit} {d : Coding α} {f : α → Coding β} {a : α} {b : β}

theorem Coded.seq (h : Coded s e d a) (h' : Coded s' e' (f a) b) : Coded s (e >>= fun _ => e') (d >>= f) b := by
  obtain ⟨hs, w, hw⟩ := h
  obtain ⟨-, w', hw'⟩ := h'
  exact ⟨hs.seq hw'.toAgree, w.seq w', hw.seq hw'⟩

theorem Coded.last (h : Coded s e d a) {g : α → β} (hb : g a = b) : Coded s e (d >>= fun x => pure (g x)) b := by
  obtain ⟨hs, w, hw⟩ := h
  exact ⟨hs, w, hw.last hb⟩

end Coded

theorem coded_uchar (v : UInt8) : Coded 1 (encodeUchar v) decodeUchar v := ⟨starts_uchar v, _, exact_uchar v⟩
theorem coded_uint16 (v : UInt16) : Coded 2 (encodeUint16 v) decodeUint16 v :=
  ⟨starts_simple (by decide) (by decide) v.toNat_lt, _, exact_uint16 v⟩
theorem coded_int16 (v : Int16) : Coded 2 (encodeInt16 v) decodeInt16 v :=
  ⟨starts_simple (by decide) (by decide) v.toUInt16.toNat_lt, _, exact_int16 v⟩
theorem coded_uint32 (v : UInt32) : Coded 4 (encodeUint32 v) decodeUint32 v := ⟨starts_uint32 v, _, exact_uint32 v⟩
theorem coded_int32 (v : Int32) : Coded 4 (encodeInt32 v) decodeInt32 v :=
  ⟨starts_simple (by decide) (by decide) v.toUInt32.toNat_lt, _, exact_int32 v⟩
theorem coded_uint64 (v : UInt64) : Coded 8 (encodeUint64 v) decodeUint64 v :=
  ⟨starts_simple (by decide) (by decide) v.toNat_lt, _, exact_uint64 v⟩
theorem coded_int64 (v : Int64) : Coded 8 (encodeInt64 v) decodeInt64 v :=
  ⟨starts_simple (by decide) (by decide) v.toUInt64.toNat_lt, _, exact_int64 v⟩
theorem coded_dataBuffer (data : DataBuffer) : Coded 4 (encodeDataBuffer data) decodeDataBuffer data :=
  ⟨(starts_uint32 _).seq (Exact.get fun dc => exact_bytes dc.curLength ⟨data.1, rfl⟩ (data.2.trans_lt (by decide))).toAgree,
    _, exact_dataBuffer data⟩
theorem coded_string {max : ℕ} (hmax : max < 2 ^ 31 - 1) (str : Limited max) :
    Coded 4 (encodeString str) (decodeString max) str := by
  have hlen : (str.1 ++ [0]).length < 2 ^ 31 := by
    have := str.2
    rw [List.length_append, List.length_singleton]
    omega
  have hstarts : ∀ prev, Starts 4 (encodeUint32 (UInt32.ofNat str.1.length) >>= fun _ => encodeBytes prev (str.1 ++ [0])) :=
    fun prev => (starts_uint32 _).seq (exact_bytes prev ⟨str.1 ++ [0], rfl⟩ hlen).toAgree
  exact ⟨⟨fun dc => (hstarts dc.curLength).refuses dc, fun dc => (hstarts dc.curLength).moves dc⟩, _, exact_string hmax str⟩
theorem coded_filename (name : Filename) : Coded 4 (encodeFilename name) decodeFilename name :=
  coded_string (by decide) name
theorem coded_zfsPath (path : ZfsPath) : Coded 4 (encodeZfsPath path) decodeZfsPath path :=
  coded_string (by decide) path
theorem coded_nodename (node : Nodename) : Coded 4 (encodeNodename node) decodeNodename node :=
  coded_string (by decide) node
theorem coded_direction (dir : Direction) : Coded 1 (encodeDirection dir) decodeDirection dir :=
  ⟨starts_uchar _, _, exact_enum (by cases dir <;> rfl)⟩
theorem coded_ftype (type : FType) : Coded 1 (encodeFtype type) decodeFtype type :=
  ⟨starts_uchar _, _, exact_enum (by cases type <;> rfl)⟩
theorem coded_connectionSpeed (speed : ConnectionSpeed) :
    Coded 1 (encodeConnectionSpeed speed) decodeConnectionSpeed speed :=
  ⟨starts_uchar _, _, exact_enum (by cases speed <;> rfl)⟩

/-- The layout of a file handle; the end of a capability is needed below. -/
def zfsFhLayout (fh : ZfsFh) : Layout :=
  (scalar 4 fh.sid.toNat).seq ((scalar 4 fh.vid.toNat).seq ((scalar 4 fh.dev.toNat).seq
    ((scalar 4 fh.ino.toNat).seq (scalar 4 fh.gen.toNat))))

def ZfsCap.layout (cap : ZfsCap) : Layout :=
  (zfsFhLayout cap.fh).seq ((scalar 4 cap.flags.toNat).seq (raw cap.verify.toList))

theorem exact_zfsFh (fh : ZfsFh) : Exact (encodeZfsFh fh) decodeZfsFh fh (zfsFhLayout fh) := by
  apply (exact_uint32 fh.sid).seq
  apply (exact_uint32 fh.vid).seq
  apply (exact_uint32 fh.dev).seq
  apply (exact_uint32 fh.ino).seq
  exact (exact_uint32 fh.gen).last rfl

theorem exact_zfsCap (cap : ZfsCap) : Exact (encodeZfsCap cap) decodeZfsCap cap cap.layout := by
  apply (exact_zfsFh cap.fh).seq
  apply (exact_uint32 cap.flags).seq
  exact (exact_fixedBuffer cap.verify (by decide)).last rfl

theorem coded_zfsFh (fh : ZfsFh) : Coded 4 (encodeZfsFh fh) decodeZfsFh fh := by
  apply (coded_uint32 fh.sid).seq
  apply (coded_uint32 fh.vid).seq
  apply (coded_uint32 fh.dev).seq
  apply (coded_uint32 fh.ino).seq
  exact (coded_uint32 fh.gen).last rfl

theorem coded_zfsCap (cap : ZfsCap) : Coded 4 (encodeZfsCap cap) decodeZfsCap cap := by
  have hrest := (exact_uint32 cap.flags).seq (f := fun _ => decodeFixedBuffer _)
    (exact_fixedBuffer cap.verify (by decide))
  exact ⟨(coded_zfsFh cap.fh).1.seq hrest.toAgree, _, exact_zfsCap cap⟩

theorem coded_fattr (attr : Fattr) : Coded 4 (encodeFattr attr) decodeFattr attr := by
  apply (coded_uint32 attr.dev).seq
  apply (coded_uint32 attr.ino).seq
  apply (coded_uint64 attr.version).seq
  apply (coded_ftype attr.type).seq
  apply (coded_uint32 attr.mode).seq
  apply (coded_uint32 attr.nlink).seq
  apply (coded_uint32 attr.uid).seq
  apply (coded_uint32 attr.gid).seq
  apply (coded_uint32 attr.rdev).seq
  apply (coded_uint64 attr.size).seq
  apply (coded_uint64 attr.blocks).seq
  apply (coded_uint32 attr.blksize).seq
  apply (coded_uint32 attr.atime).seq
  apply (coded_uint32 attr.mtime).seq
  exact (coded_uint32 attr.ctime).last rfl

theorem coded_sattr (attr : Sattr) : Coded 4 (encodeSattr attr) decodeSattr attr := by
  apply (coded_uint32 attr.mode).seq
  apply (coded_uint32 attr.uid).seq
  apply (coded_uint32 attr.gid).seq
  apply (coded_uint64 attr.size).seq
  apply (coded_uint32 attr.atime).seq
  exact (coded_uint32 attr.mtime).last rfl

theorem coded_dirOpArgs (args : DirOpArgs) : Coded 4 (encodeDirOpArgs args) decodeDirOpArgs args := by
  apply (coded_zfsFh args.dir).seq
  exact (coded_filename args.name).last rfl

/-! ## Checksums -/

theorem ZfsCap.stop_layout (cap : ZfsCap) (pos : ℕ) : cap.layout.stop pos = align 4 pos + 40 := by
  have hverify : cap.verify.toList.length = 16 := cap.verify.toList_length
  simp only [ZfsCap.layout, zfsFhLayout, stop_seq, stop_raw, stop_scalar (by decide : 0 < 4),
    hverify, align]
  omega

def Md5sumArgs.layout (args : Md5sumArgs) : Layout :=
  args.cap.layout.seq ((scalar 4 args.count.toNat).seq ((scalar 1 args.ignoreChanges.toNat).seq
    ((eachLayout (fun offset => scalar 8 offset.toNat) args.offset).seq
      (eachLayout (fun length => scalar 4 length.toNat) args.length))))

def Md5sumRes.layout (res : Md5sumRes) : Layout :=
  (scalar 4 res.count.toNat).seq ((scalar 8 res.size.toNat).seq ((scalar 8 res.version.toNat).seq
    ((eachLayout (fun offset => scalar 8 offset.toNat) res.offset).seq
      ((eachLayout (fun length => scalar 4 length.toNat) res.length).seq
        (eachLayout (fun md5sum => raw md5sum.toList) res.md5sum)))))

theorem agree_md5sumArgs (args : Md5sumArgs) : Agree (encodeMd5sumArgs args) decodeMd5sumArgs args args.layout := by
  apply (exact_zfsCap args.cap).toAgree.ignore.seq
  apply (exact_uint32 args.count).toAgree.ignore.seq
  apply (exact_uchar args.ignoreChanges).toAgree.ignore.seq
  rw [dif_pos args.limit]
  apply (agree_each (fun offset => (exact_uint64 offset).toAgree.ignore) args.offset).seq
  exact (agree_each (fun length => (exact_uint32 length).toAgree.ignore) args.length).last rfl

theorem agree_md5sumRes (res : Md5sumRes) : Agree (encodeMd5sumRes res) decodeMd5sumRes res res.layout := by
  apply (exact_uint32 res.count).toAgree.ignore.seq
  rw [dif_pos res.limit]
  apply (exact_uint64 res.size).toAgree.ignore.seq
  apply (exact_uint64 res.version).toAgree.ignore.seq
  apply (agree_each (fun offset => (exact_uint64 offset).toAgree.ignore) res.offset).seq
  apply (agree_each (fun length => (exact_uint32 length).toAgree.ignore) res.length).seq
  exact (agree_each (fun md5sum => (exact_fixedBuffer md5sum (by decide)).toAgree.ignore) res.md5sum).last rfl

theorem Md5sumArgs.stop_layout (args : Md5sumArgs) (pos : ℕ) :
    args.layout.stop pos = md5sumArgsStop args.count.toNat pos := by
  simp only [Md5sumArgs.layout, stop_seq, stop_scalar (by decide : 0 < 4),
    stop_scalar (by decide : 0 < 1), ZfsCap.stop_layout,
    stop_eachScalar _ (by decide : 0 < 8), stop_eachScalar _ (by decide : 0 < 4), md5sumArgsStop, align]
  split_ifs
  · omega
  · omega

theorem Md5sumRes.stop_layout (res : Md5sumRes) (pos : ℕ) : res.layout.stop pos = md5sumResStop res.count.toNat pos := by
  have hmd5 : ∀ pos, (eachLayout (fun md5sum => raw md5sum.toList) res.md5sum).stop pos =
      pos + 16 * res.count.toNat := stop_eachRaw res.md5sum
  simp only [Md5sumRes.layout, stop_seq, stop_scalar (by decide : 0 < 4),
    stop_scalar (by decide : 0 < 8),
    stop_eachScalar _ (by decide : 0 < 8), stop_eachScalar _ (by decide : 0 < 4), hmd5,
    md5sumResStop, align]
  split_ifs
  · omega
  · omega

/-! ## All messages -/

theorem coded_message (m : Message) (hargs : m.1 ≠ .md5sumArgs) (hres : m.1 ≠ .md5sumRes)
    (hbuffer : ∀ len, m.1 ≠ .fixedBuffer len) : Coded m.1.firstSize m.encode m.1.codec.decode m.2 := by
  obtain ⟨t, v⟩ := m
  cases t with
  | uchar => exact coded_uchar v
  | int16 => exact coded_int16 v
  | uint16 => exact coded_uint16 v
  | uint32 => exact coded_uint32 v
  | int64 => exact coded_int64 v
  | uint64 => exact coded_uint64 v
  | fixedBuffer len => exact absurd rfl (hbuffer len)
  | ftype => exact coded_ftype v
  | connectionSpeed => exact coded_connectionSpeed v
  | direction => exact coded_direction v
  | filename => exact coded_filename v
  | zfsPath => exact coded_zfsPath v
  | nodename => exact coded_nodename v
  | dataBuffer => exact coded_dataBuffer v
  | status => exact coded_int32 v
  | zfsFh => exact coded_zfsFh v
  | zfsCap => exact coded_zfsCap v
  | fattr => exact coded_fattr v
  | sattr => exact coded_sattr v
  | volumeRootArgs => exact (coded_uint32 v.vid).last rfl
  | setattrArgs =>
    apply (coded_zfsFh v.file).seq
    exact (coded_sattr v.attr).last rfl
  | dirOpArgs => exact coded_dirOpArgs v
  | dirOpRes =>
    apply (coded_zfsFh v.file).seq
    exact (coded_fattr v.attr).last rfl
  | createArgs =>
    apply (coded_dirOpArgs v.where_).seq
    apply (coded_uint32 v.flags).seq
    exact (coded_sattr v.attr).last rfl
  | createRes =>
    apply (coded_zfsCap v.cap).seq
    apply (coded_zfsFh v.dor.file).seq
    exact (coded_fattr v.dor.attr).last rfl
  | openArgs =>
    apply (coded_zfsFh v.file).seq
    exact (coded_uint32 v.flags).last rfl
  | readDirArgs =>
    apply (coded_zfsCap v.cap).seq
    apply (coded_int32 v.cookie).seq
    exact (coded_uint32 v.count).last rfl
  | dirEntry =>
    apply (coded_uint32 v.ino).seq
    apply (coded_int32 v.cookie).seq
    exact (coded_filename v.name).last rfl
  | dirList =>
    apply (coded_uint32 v.n).seq
    exact (coded_uchar v.eof).last rfl
  | mkdirArgs =>
    apply (coded_dirOpArgs v.where_).seq
    exact (coded_sattr v.attr).last rfl
  | renameArgs =>
    apply (coded_dirOpArgs v.from_).seq
    exact (coded_dirOpArgs v.to_).last rfl
  | linkArgs =>
    apply (coded_zfsFh v.from_).seq
    exact (coded_dirOpArgs v.to_).last rfl
  | readArgs =>
    apply (coded_zfsCap v.cap).seq
    apply (coded_uint64 v.offset).seq
    exact (coded_uint32 v.count).last rfl
  | readRes =>
    apply (coded_dataBuffer v.data).seq
    exact (coded_uint64 v.version).last rfl
  | writeArgs =>
    apply (coded_zfsCap v.cap).seq
    apply (coded_uint64 v.offset).seq
    exact (coded_dataBuffer v.data).last rfl
  | writeRes =>
    apply (coded_uint32 v.written).seq
    exact (coded_uint64 v.version).last rfl
  | readLinkRes => exact (coded_zfsPath v.path).last rfl
  | symlinkArgs =>
    apply (coded_dirOpArgs v.from_).seq
    apply (coded_zfsPath v.to_).seq
    exact (coded_sattr v.attr).last rfl
  | mknodArgs =>
    apply (coded_dirOpArgs v.where_).seq
    apply (coded_sattr v.attr).seq
    apply (coded_ftype v.type).seq
    exact (coded_uint32 v.rdev).last rfl
  | authStage1Args | authStage1Res => exact (coded_nodename v.node).last rfl
  | authStage2Args => exact (coded_connectionSpeed v.speed).last rfl
  | fileInfoRes => exact (coded_zfsPath v.path).last rfl
  | reintegrateArgs =>
    apply (coded_zfsFh v.fh).seq
    exact (coded_uchar v.status).last rfl
  | reintegrateAddArgs =>
    apply (coded_zfsFh v.fh).seq
    apply (coded_zfsFh v.dir).seq
    exact (coded_filename v.name).last rfl
  | reintegrateDelArgs =>
    apply (coded_zfsFh v.fh).seq
    apply (coded_zfsFh v.dir).seq
    apply (coded_filename v.name).seq
    exact (coded_uchar v.destroyP).last rfl
  | reintegrateVerArgs =>
    apply (coded_zfsFh v.fh).seq
    exact (coded_uint64 v.versionInc).last rfl
  | rereadConfigArgs => exact (coded_zfsPath v.path).last rfl
  | md5sumArgs => exact absurd rfl hargs
  | md5sumRes => exact absurd rfl hres

/-- Encoder and decoder agree on every message, and the encoder returns true only where there is room. -/
theorem agree_message (m : Message) :
    ∃ w, Agree m.encode m.1.codec.decode m.2 w ∧
      ∀ dc, dc.Ready → m.LeavesRoom dc → (m.encode dc).1 = some () → w.stop dc.curLength ≤ dc.maxLength := by
  by_cases hargs : m.1 = .md5sumArgs
  · obtain ⟨_, v⟩ := m
    subst hargs
    exact ⟨_, agree_md5sumArgs v, fun dc _ hroom _ => (Md5sumArgs.stop_layout v _).le.trans hroom⟩
  by_cases hres : m.1 = .md5sumRes
  · obtain ⟨_, v⟩ := m
    subst hres
    exact ⟨_, agree_md5sumRes v, fun dc _ hroom _ => (Md5sumRes.stop_layout v _).le.trans hroom⟩
  obtain ⟨w, hw⟩ : ∃ w, Exact m.encode m.1.codec.decode m.2 w := by
    by_cases hbuffer : ∃ len, m.1 = .fixedBuffer len
    · obtain ⟨_, v⟩ := m
      obtain ⟨len, rfl⟩ := hbuffer
      exact ⟨_, exact_fixedBuffer v len.isLt⟩
    · exact (coded_message m hargs hres (not_exists.mp hbuffer)).2
  refine ⟨w, hw.toAgree, fun dc hdc _ hsome => ?_⟩
  by_contra hroom
  rw [hw.refuses dc hdc (by omega)] at hsome
  cases hsome

theorem encodeAll_keeps (ms : List Message) (dc : DC) : ∀ i < dc.curPos, (encodeAll dc ms).buffer i = dc.buffer i := by
  induction ms generalizing dc with
  | nil => exact fun _ _ => rfl
  | cons m ms ih =>
    intro i hi
    obtain ⟨w, hw, -⟩ := agree_message m
    rw [← hw.keeps dc i hi]
    exact ih _ i (hi.trans_le (hw.le_pos dc))

/-- A message is encoded behind any prefix and other messages behind it. A decoder that starts where the
encoder started gets the message back and stops where the encoder stopped; the message does not depend on the
rest of the packet. -/
theorem decode_encode (m : Message) {dc : DC} (hdc : dc.Ready) (hroom : m.LeavesRoom dc)
    (henc : (m.encode dc).1 = some ()) (after : List Message) {dd : DC} (hdd : dd.Ready)
    (hstart : dd.curLength = dc.curLength) (hmax : (m.encode dc).2.curLength ≤ dd.maxLength)
    (hbuffer : ∀ i, dc.curLength ≤ i → i < (m.encode dc).2.curLength →
      dd.buffer i = (encodeAll (m.encode dc).2 after).buffer i) :
    m.1.codec.decode dd =
      (some m.2, { dd with curPos := (m.encode dc).2.curPos, curLength := (m.encode dc).2.curLength }) := by
  obtain ⟨w, hw, hfits⟩ := agree_message m
  have hlen := hfits dc hdc hroom henc
  have hadd := hw.writes dc hdc hlen
  have hkeeps := encodeAll_keeps after (m.encode dc).2
  rw [hadd] at hmax hbuffer hkeeps ⊢
  have hstop : (dc.add (w dc.curLength)).curPos = dc.curLength + (w dc.curLength).length := by
    rw [← hdc.sync]
    rfl
  have hlies : Lies dd.buffer dd.curLength (w dd.curLength) := by
    rw [hstart]
    refine (lies_put dc.buffer dc.curLength (w dc.curLength)).congr fun i hi hi' => ?_
    rw [hbuffer i hi hi', hkeeps i (by rw [hstop]; exact hi')]
    rw [← hdc.sync]
    rfl
  have hread := hw.reads dd hdd (by rw [hstart]; exact hmax) hlies
  rw [hread, hstart]
  refine congrArg (Prod.mk _) ?_
  unfold DC.skip DC.add
  rw [hdd.sync, hstart, hdc.sync]

/-- One checksum after a prefix of 5 bytes, and a status after it. -/
theorem decode_encode_md5sumRes : let dc : DC := ⟨fun _ => 0, 5, 8888, 5⟩
    let res : Md5sumRes := ⟨1, by decide, 7, 2, ⟨[0], rfl⟩, ⟨[7], rfl⟩, ⟨[⟨List.replicate 16 9, rfl⟩], rfl⟩⟩
    let m : Message := ⟨.md5sumRes, res⟩
    let after : List Message := [⟨.status, (-20 : Int32)⟩]
    let dd : DC := { encodeAll (m.encode dc).2 after with curPos := 5, curLength := 5 }
    decodeMd5sumRes dd = (some res, { dd with curPos := 60, curLength := 60 }) := by
  intro dc res m after dd
  have hend : (m.encode dc).2.curPos = 60 ∧ (m.encode dc).2.curLength = 60 := by decide +kernel
  have hroom : m.LeavesRoom dc := show md5sumResStop 1 5 ≤ 8888 by decide
  have hdd : dd.Ready := ⟨rfl, by decide +kernel, by decide +kernel⟩
  have hdecode := decode_encode m ⟨rfl, by decide, by decide⟩ hroom rfl after hdd rfl (by decide +kernel) fun _ _ _ => rfl
  rw [hend.1, hend.2] at hdecode
  exact hdecode

end ZFS.Protocol
