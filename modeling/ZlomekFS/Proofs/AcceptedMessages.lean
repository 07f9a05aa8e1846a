import ZlomekFS.Proofs.Decoders

/-! All decoders of the protocol on arbitrary packets: the parts of what they accept stand in the packet and
are within the limits of the protocol, except for the lengths of the ranges in the checksum messages. -/

namespace ZFS.Protocol
open Bytes Packets List

/-! ## The parts of a message -/

def Md5sumArgs.items (args : Md5sumArgs) : List Item := .count args.count :: args.length.toList.map .length

def Md5sumRes.items (res : Md5sumRes) : List Item := .count res.count :: res.length.toList.map .length

def DirOpArgs.items (args : DirOpArgs) : List Item := [.string ZFS_MAXNAMELEN args.name.1]

def MessageType.items : (t : MessageType) → t.codec.Value → List Item
  | .filename => fun name : Filename => [.string ZFS_MAXNAMELEN name.1]
  | .zfsPath => fun path : ZfsPath => [.string ZFS_MAXPATHLEN path.1]
  | .nodename => fun node : Nodename => [.string ZFS_MAXNODELEN node.1]
  | .dataBuffer => fun data : DataBuffer => [.data data.1]
  | .dirOpArgs => DirOpArgs.items
  | .createArgs => fun args : CreateArgs => args.where_.items
  | .dirEntry => fun entry : DirEntry => [.string ZFS_MAXNAMELEN entry.name.1]
  | .mkdirArgs => fun args : MkdirArgs => args.where_.items
  | .renameArgs => fun args : RenameArgs => args.from_.items ++ args.to_.items
  | .linkArgs => fun args : LinkArgs => args.to_.items
  | .readRes => fun res : ReadRes => [.data res.data.1]
  | .writeArgs => fun args : WriteArgs => [.data args.data.1]
  | .readLinkRes => fun res : ReadLinkRes => [.string ZFS_MAXPATHLEN res.path.1]
  | .symlinkArgs => fun args : SymlinkArgs => args.from_.items ++ [.string ZFS_MAXPATHLEN args.to_.1]
  | .mknodArgs => fun args : MknodArgs => args.where_.items
  | .authStage1Args => fun args : AuthStage1Args => [.string ZFS_MAXNODELEN args.node.1]
  | .authStage1Res => fun res : AuthStage1Res => [.string ZFS_MAXNODELEN res.node.1]
  | .fileInfoRes => fun res : FileInfoRes => [.string ZFS_MAXPATHLEN res.path.1]
  | .reintegrateAddArgs => fun args : ReintegrateAddArgs => [.string ZFS_MAXNAMELEN args.name.1]
  | .reintegrateDelArgs => fun args : ReintegrateDelArgs => [.string ZFS_MAXNAMELEN args.name.1]
  | .rereadConfigArgs => fun args : RereadConfigArgs => [.string ZFS_MAXPATHLEN args.path.1]
  | .md5sumArgs => Md5sumArgs.items
  | .md5sumRes => Md5sumRes.items
  | .uchar | .int16 | .uint16 | .uint32 | .int64 | .uint64 | .fixedBuffer _ | .ftype | .connectionSpeed
  | .direction | .status | .zfsFh | .zfsCap | .fattr | .sattr | .volumeRootArgs | .setattrArgs | .dirOpRes | .createRes
  | .openArgs | .readDirArgs | .dirList | .readArgs | .writeRes | .authStage2Args | .reintegrateArgs
  | .reintegrateVerArgs => fun _ => []

/-! ## Decoders without limits -/

theorem sound_fixedBuffer {n : ℕ} (hn : n < 2 ^ 31) : Sound [] (decodeFixedBuffer n) fun _ => [] := sound_bytes hn

theorem sound_zfsFh : Sound [] decodeZfsFh fun _ => [] :=
  sound_uint32.seq fun _ => sound_uint32.seq fun _ => sound_uint32.seq fun _ => sound_uint32.seq fun _ =>
    sound_uint32.seq fun _ => sound_pure (Subset.refl _)

theorem sound_zfsCap : Sound [] decodeZfsCap fun _ => [] :=
  sound_zfsFh.seq fun _ => sound_uint32.seq fun _ => (sound_fixedBuffer (by decide)).seq fun _ =>
    sound_pure (Subset.refl _)

theorem sound_fattr : Sound [] decodeFattr fun _ => [] :=
  sound_uint32.seq fun _ => sound_uint32.seq fun _ => sound_uint64.seq fun _ => (sound_enum ftypeOfCode).seq fun _ =>
    sound_uint32.seq fun _ => sound_uint32.seq fun _ => sound_uint32.seq fun _ => sound_uint32.seq fun _ =>
    sound_uint32.seq fun _ => sound_uint64.seq fun _ => sound_uint64.seq fun _ => sound_uint32.seq fun _ =>
    sound_uint32.seq fun _ => sound_uint32.seq fun _ => sound_uint32.seq fun _ => sound_pure (Subset.refl _)

theorem sound_sattr : Sound [] decodeSattr fun _ => [] :=
  sound_uint32.seq fun _ => sound_uint32.seq fun _ => sound_uint32.seq fun _ => sound_uint64.seq fun _ =>
    sound_uint32.seq fun _ => sound_uint32.seq fun _ => sound_pure (Subset.refl _)

/-! ## Decoders of strings and buffers -/

theorem sound_filename : Sound [] decodeFilename fun name => [.string ZFS_MAXNAMELEN name.1] := sound_string (by decide)

theorem sound_zfsPath : Sound [] decodeZfsPath fun path => [.string ZFS_MAXPATHLEN path.1] := sound_string (by decide)

theorem sound_nodename : Sound [] decodeNodename fun node => [.string ZFS_MAXNODELEN node.1] := sound_string (by decide)

theorem sound_dirOpArgs : Sound [] decodeDirOpArgs DirOpArgs.items :=
  sound_zfsFh.seq fun _ => sound_filename.seq fun _ => sound_pure (subset_append_left _ _)

/-! ## Arrays -/

theorem sound_each {α : Type} {d : Coding α} {item : α → List Item} (h : Sound [] d item) (n : ℕ) :
    Sound [] (decodeEach d n) fun v => v.toList.flatMap item := by
  induction n with
  | zero => exact sound_pure (Subset.refl _)
  | succ n ih =>
    refine h.seq fun a => ih.seq fun v => sound_pure ?_
    rw [Vector.toList_cons, flatMap_cons, append_nil]
    intro i hi
    rw [mem_append] at hi ⊢
    exact hi.symm

theorem sound_lengths (n : ℕ) : Sound [] (decodeEach decodeUint32 n) fun v => v.toList.map .length := by
  have hlength : Sound [] decodeUint32 fun n => [.length n] :=
    sound_uint32_item _ fun n i hi => by rw [mem_singleton.mp hi]; rfl
  have heach := sound_each hlength n
  simpa only [← map_eq_flatMap] using heach

theorem sound_each_plain {α : Type} {d : Coding α} (h : Sound [] d fun _ => []) (n : ℕ) :
    Sound [] (decodeEach d n) fun _ => [] := by
  induction n with
  | zero => exact sound_pure (Subset.refl _)
  | succ n ih => exact h.seq fun _ => ih.seq fun _ => sound_pure (Subset.refl _)

theorem sound_count : Sound [] decodeUint32 fun n => [.count n] :=
  sound_uint32_item _ fun n i hi => by rw [mem_singleton.mp hi]; rfl

theorem sound_md5sumArgs : Sound [] decodeMd5sumArgs Md5sumArgs.items := by
  refine sound_zfsCap.seq fun cap => sound_count.seq fun count => sound_uchar.seq fun ignoreChanges => ?_
  split_ifs with h
  · refine (sound_each_plain sound_uint64 _).seq fun offset => (sound_lengths _).seq fun length => sound_pure ?_
    intro i hi
    simpa [Md5sumArgs.items, or_comm] using hi
  · exact sound_failure

theorem sound_md5sumRes : Sound [] decodeMd5sumRes Md5sumRes.items := by
  refine sound_count.seq fun count => ?_
  split_ifs with h
  · refine sound_uint64.seq fun size => sound_uint64.seq fun version => (sound_each_plain sound_uint64 _).seq fun offset =>
      (sound_lengths _).seq fun length => (sound_each_plain (sound_fixedBuffer (by decide)) _).seq fun md5sum => sound_pure ?_
    intro i hi
    simpa [Md5sumRes.items, or_comm] using hi
  · exact sound_failure

/-! ## All messages -/

theorem sound_message (t : MessageType) : Sound [] t.codec.decode t.items := by
  cases t with
  | uchar => exact sound_uchar
  | int16 => exact sound_int16
  | uint16 => exact sound_uint16
  | uint32 => exact sound_uint32
  | int64 => exact sound_int64
  | uint64 => exact sound_uint64
  | fixedBuffer len => exact sound_fixedBuffer len.isLt
  | ftype => exact sound_enum ftypeOfCode
  | connectionSpeed => exact sound_enum ConnectionSpeed.ofCode
  | direction => exact sound_enum Direction.ofCode
  | filename => exact sound_filename
  | zfsPath => exact sound_zfsPath
  | nodename => exact sound_nodename
  | dataBuffer => exact sound_dataBuffer
  | status => exact sound_int32
  | zfsFh => exact sound_zfsFh
  | zfsCap => exact sound_zfsCap
  | fattr => exact sound_fattr
  | sattr => exact sound_sattr
  | volumeRootArgs => exact sound_uint32.seq fun _ => sound_pure (Subset.refl _)
  | setattrArgs => exact sound_zfsFh.seq fun _ => sound_sattr.seq fun _ => sound_pure (Subset.refl _)
  | dirOpArgs => exact sound_dirOpArgs
  | dirOpRes => exact sound_zfsFh.seq fun _ => sound_fattr.seq fun _ => sound_pure (Subset.refl _)
  | createArgs =>
    exact sound_dirOpArgs.seq fun _ => sound_uint32.seq fun _ => sound_sattr.seq fun _ =>
      sound_pure (subset_append_left _ _)
  | createRes =>
    exact sound_zfsCap.seq fun _ => sound_zfsFh.seq fun _ => sound_fattr.seq fun _ => sound_pure (Subset.refl _)
  | openArgs => exact sound_zfsFh.seq fun _ => sound_uint32.seq fun _ => sound_pure (Subset.refl _)
  | readDirArgs =>
    exact sound_zfsCap.seq fun _ => sound_int32.seq fun _ => sound_uint32.seq fun _ => sound_pure (Subset.refl _)
  | dirEntry =>
    exact sound_uint32.seq fun _ => sound_int32.seq fun _ => sound_filename.seq fun _ =>
      sound_pure (subset_append_left _ _)
  | dirList => exact sound_uint32.seq fun _ => sound_uchar.seq fun _ => sound_pure (Subset.refl _)
  | mkdirArgs =>
    exact sound_dirOpArgs.seq fun _ => sound_sattr.seq fun _ => sound_pure (subset_append_left _ _)
  | renameArgs =>
    refine sound_dirOpArgs.seq fun from_ => sound_dirOpArgs.seq fun to_ => sound_pure ?_
    intro i hi
    simpa [MessageType.items, or_comm] using hi
  | linkArgs => exact sound_zfsFh.seq fun _ => sound_dirOpArgs.seq fun _ => sound_pure (subset_append_left _ _)
  | readArgs =>
    exact sound_zfsCap.seq fun _ => sound_uint64.seq fun _ => sound_uint32.seq fun _ => sound_pure (Subset.refl _)
  | readRes =>
    exact sound_dataBuffer.seq fun _ => sound_uint64.seq fun _ => sound_pure (subset_append_left _ _)
  | writeArgs =>
    exact sound_zfsCap.seq fun _ => sound_uint64.seq fun _ => sound_dataBuffer.seq fun _ =>
      sound_pure (subset_append_left _ _)
  | writeRes => exact sound_uint32.seq fun _ => sound_uint64.seq fun _ => sound_pure (Subset.refl _)
  | readLinkRes => exact sound_zfsPath.seq fun _ => sound_pure (subset_append_left _ _)
  | symlinkArgs =>
    refine sound_dirOpArgs.seq fun from_ => sound_zfsPath.seq fun to_ => sound_sattr.seq fun attr => sound_pure ?_
    intro i hi
    simpa [MessageType.items, or_comm] using hi
  | mknodArgs =>
    exact sound_dirOpArgs.seq fun _ => sound_sattr.seq fun _ => (sound_enum ftypeOfCode).seq fun _ =>
      sound_uint32.seq fun _ => sound_pure (subset_append_left _ _)
  | authStage1Args | authStage1Res => exact sound_nodename.seq fun _ => sound_pure (subset_append_left _ _)
  | authStage2Args => exact (sound_enum ConnectionSpeed.ofCode).seq fun _ => sound_pure (Subset.refl _)
  | fileInfoRes => exact sound_zfsPath.seq fun _ => sound_pure (subset_append_left _ _)
  | reintegrateArgs => exact sound_zfsFh.seq fun _ => sound_uchar.seq fun _ => sound_pure (Subset.refl _)
  | reintegrateAddArgs =>
    exact sound_zfsFh.seq fun _ => sound_zfsFh.seq fun _ => sound_filename.seq fun _ =>
      sound_pure (subset_append_left _ _)
  | reintegrateDelArgs =>
    exact sound_zfsFh.seq fun _ => sound_zfsFh.seq fun _ => sound_filename.seq fun _ => sound_uchar.seq fun _ =>
      sound_pure (subset_append_left _ _)
  | reintegrateVerArgs => exact sound_zfsFh.seq fun _ => sound_uint64.seq fun _ => sound_pure (Subset.refl _)
  | rereadConfigArgs => exact sound_zfsPath.seq fun _ => sound_pure (subset_append_left _ _)
  | md5sumArgs => exact sound_md5sumArgs
  | md5sumRes => exact sound_md5sumRes

theorem withinLimit_items (t : MessageType) (a : t.codec.Value) {item : Item} (hitem : item ∈ t.items a)
    (hlength : ∀ n, item ≠ .length n) : item.WithinLimit := by
  have hdirOp (args : DirOpArgs) (h : item ∈ args.items) : item.WithinLimit := by
    rw [mem_singleton.mp h]
    exact args.name.2
  have hchunks (count : UInt32) (lengths : List UInt32) (hlimit : count.toNat ≤ ZFS_MAX_MD5_CHUNKS)
      (h : item ∈ Item.count count :: lengths.map .length) : item.WithinLimit := by
    rcases mem_cons.mp h with rfl | h
    · exact hlimit
    · obtain ⟨n, -, rfl⟩ := mem_map.mp h
      exact absurd rfl (hlength n)
  cases t with
  | filename | zfsPath | nodename | dataBuffer =>
    rw [mem_singleton.mp hitem]
    exact a.2
  | dirOpArgs => exact hdirOp a hitem
  | createArgs => exact hdirOp a.where_ hitem
  | dirEntry =>
    rw [mem_singleton.mp hitem]
    exact a.name.2
  | mkdirArgs => exact hdirOp a.where_ hitem
  | renameArgs =>
    rcases mem_append.mp hitem with hitem | hitem
    · exact hdirOp a.from_ hitem
    · exact hdirOp a.to_ hitem
  | linkArgs => exact hdirOp a.to_ hitem
  | readRes | writeArgs =>
    rw [mem_singleton.mp hitem]
    exact a.data.2
  | readLinkRes | fileInfoRes | rereadConfigArgs =>
    rw [mem_singleton.mp hitem]
    exact a.path.2
  | symlinkArgs =>
    rcases mem_append.mp hitem with hitem | hitem
    · exact hdirOp a.from_ hitem
    · rw [mem_singleton.mp hitem]
      exact a.to_.2
  | mknodArgs => exact hdirOp a.where_ hitem
  | authStage1Args | authStage1Res =>
    rw [mem_singleton.mp hitem]
    exact a.node.2
  | reintegrateAddArgs | reintegrateDelArgs =>
    rw [mem_singleton.mp hitem]
    exact a.name.2
  | md5sumArgs | md5sumRes => exact hchunks a.count a.length.toList a.limit hitem
  | _ => cases hitem

/-- Every decoder on every packet, from every position in it: bytes behind the packet are neither looked at
nor changed, and what is accepted stands in the packet and is within the limits. -/
theorem decode_stays_in_packet (t : MessageType) {dc : DC} (hdc : dc.Ready) :
    (∀ dc₂, dc.Same dc₂ → (t.codec.decode dc₂).1 = (t.codec.decode dc).1) ∧
      (∀ i, dc.maxLength ≤ i → (t.codec.decode dc).2.buffer i = dc.buffer i) ∧
      (t.codec.decode dc).2.curPos ≤ dc.maxLength ∧
      ∀ a, (t.codec.decode dc).1 = some a → ∀ item ∈ t.items a,
        item.Stands (t.codec.decode dc).2.buffer dc.curPos dc.maxLength ∧
          ((∀ n, item ≠ .length n) → item.WithinLimit) := by
  have h := sound_message t
  have hend := h.pos_le dc hdc
  refine ⟨fun dc₂ hsame => (h.same dc dc₂ hdc hsame).1, fun i hi => ?_, hend, fun a ha item hitem => ⟨?_, ?_⟩⟩
  · exact h.keeps dc i hdc (.inr (hend.trans hi))
  · have hstands := h.stands dc dc.curPos a hdc le_rfl (fun _ hmem => by cases hmem) ha item hitem
    exact hstands.keep hend fun _ _ => rfl
  · exact withinLimit_items t a hitem

/-- A packet with the file name `a`. -/
def filenamePacket : DC := ⟨fun i => if i = 0 then 1 else if i = 4 then 97 else 0, 0, 6, 0⟩

theorem decode_stays_in_packet_filename :
    (decodeFilename filenamePacket).2.curPos ≤ 6 ∧ ((decodeFilename filenamePacket).1.map Subtype.val) = some [97] :=
  ⟨(decode_stays_in_packet .filename ⟨rfl, by decide, by decide⟩).2.2.1, by decide +kernel⟩

/-- A reply with the checksum of a range of `2 ^ 32 - 1` bytes. -/
def longRangePacket : DC := ⟨fun i => if i = 0 then 1 else if 32 ≤ i ∧ i < 36 then 255 else 0, 0, 52, 0⟩

theorem decodeMd5sumRes_long_range :
    ∃ dc res, dc.Ready ∧ (MessageType.md5sumRes.codec.decode dc).1 = some res ∧
      ∃ item ∈ MessageType.md5sumRes.items res, ¬ item.WithinLimit := by
  have hlengths : (decodeMd5sumRes longRangePacket).1.map (fun res => res.length.toList) = some [4294967295] := by
    decide +kernel
  obtain ⟨res, hres, hlen⟩ := Option.map_eq_some_iff.mp hlengths
  refine ⟨longRangePacket, res, ⟨rfl, by decide, by decide⟩, hres, .length 4294967295, ?_, by decide⟩
  refine mem_cons_of_mem _ (mem_map.mpr ⟨4294967295, ?_, rfl⟩)
  rw [hlen]
  exact mem_singleton_self _

end ZFS.Protocol
