import ZlomekFS.Proofs.Metadata
import ZlomekFS.Spec.HardlinkFile

/-! A list of hardlinks is read back in the format in which it was written, and the rest of the metadata with it, except
where `write_hardlinks` returns before it writes the record: a list that goes to the hardlink file while the record
has no name already leaves the record as it is, with the old flags. -/

namespace ZFS.Meta
open Bytes List

/-! ## Names and links -/

theorem cString_nameField {name : Name} (h : 0 ∉ name) : cString (nameField name) = name := by
  have hstop : (replicate (METADATA_NAME_SIZE - name.length) (0 : UInt8)).takeWhile (· ≠ 0) = [] := by
    cases METADATA_NAME_SIZE - name.length <;> simp [replicate_succ]
  have hall : ∀ b ∈ name, decide (b ≠ 0) = true := by
    intro b hb
    have : b ≠ 0 := fun hzero => h (hzero ▸ hb)
    simpa using this
  rw [cString, nameField, takeWhile_append_of_pos hall, hstop, append_nil]

theorem headD_nameField {name : Name} (h : 0 ∉ name) : (nameField name).headD 0 = 0 ↔ name = [] := by
  cases name with
  | nil => simp [nameField, METADATA_NAME_SIZE]
  | cons b name =>
    have hb : b ≠ 0 := fun hzero => h (hzero ▸ mem_cons_self)
    simpa [nameField] using hb

theorem reads_link {l : Link} (h : l.name.length + 1 < 2 ^ 32) : Reads readLink (linkBytes l) l := by
  have hlen : (l.name ++ [0]).length = u32 (l.name.length + 1) := by
    rw [length_append, length_singleton, u32, Nat.mod_eq_of_lt h]
  refine (reads_number4 l.parent.1.toNat_lt).bind ?_
  refine (reads_number4 l.parent.2.toNat_lt).bind ?_
  refine (reads_number4 (Nat.lt_of_succ_lt h)).bind ?_
  refine (reads_bytes hlen).bind_pure ?_
  rw [take_left, UInt32.ofNat_toNat, UInt32.ofNat_toNat]

theorem linkBytes_ne_nil (l : Link) : linkBytes l ≠ [] := by simp [linkBytes, toLE]

theorem foldl_hardlinkListInsert {l : List Link} (h : l.Nodup) : l.foldl LocalVolume.hardlinkListInsert [] = l := by
  induction l using reverseRecOn with
  | nil => rfl
  | append_singleton l a ih =>
    have hapart := nodup_append.mp h
    rw [foldl_append, ih hapart.1, foldl_cons, foldl_nil, LocalVolume.hardlinkListInsert, if_neg]
    intro ha
    exact hapart.2.2 a ha a (mem_singleton_self a) rfl

theorem readHardlinksFile_flatMap (hl : HardlinkList) : readHardlinksFile (hl.links.flatMap linkBytes) = hl.links := by
  have hread := readAll_flatMap (r := readLink) linkBytes id rfl (fun l h => reads_link (hl.fits l h))
    (length_le_flatMap linkBytes_ne_nil hl.links)
  rw [readHardlinksFile, hread, map_id, foldl_hardlinkListInsert hl.nodup]

namespace HardlinkStore

variable {s : HardlinkStore} {m : Slot} {hl : HardlinkList}

/-! ## Reading -/

def list (s : HardlinkStore) : List Link :=
  match s.record with
  | none => []
  | some r =>
    if r.type = .bad then []
    else if r.HasLink then [⟨r.parent, cString r.name⟩]
    else (s.file.map readHardlinksFile).getD []

theorem readHardlinks_list (h : ∀ r ∈ s.record, m.type = r.type ∨ m.type = .bad) :
    (s.readHardlinks m).1 = s ∧ (s.readHardlinks m).2.2 = s.list := by
  unfold readHardlinks lookupMetadata list
  cases hrecord : s.record with
  | none => simp
  | some r =>
    have htype := h r hrecord
    by_cases hbad : r.type = .bad
    · have hm : m.type = .bad := htype.elim (fun heq => heq.trans hbad) id
      simp [hbad, hm]
    · have hsame : ¬ (m.type ≠ r.type ∧ m.type ≠ .bad) := fun hne => htype.elim hne.1 hne.2
      simp only [if_neg hbad, if_neg hsame]
      by_cases hlink : r.HasLink <;> simp [hlink]

theorem initialized_type (m : Slot) (isCopy : Bool) : (m.initialized isCopy).type = m.type := by
  unfold Slot.initialized
  split_ifs <;> rfl

theorem holds_iff : s.Holds m hl ↔
    ((∀ l, l ∈ s.list ↔ l ∈ hl.links) ∧ s.list.length = hl.links.length) ∧
      (∀ r ∈ s.record, r.HasLink → s.file = none) ∧
      ∀ r ∈ s.record, r.toMetadataBase = (m.initialized s.isCopy).toMetadataBase := by
  have hread (hbase : ∀ r ∈ s.record, r.toMetadataBase = (m.initialized s.isCopy).toMetadataBase) (m' : Slot)
      (hm' : m'.type = m.type ∨ m'.type = .bad) : (s.readHardlinks m').1 = s ∧ (s.readHardlinks m').2.2 = s.list := by
    apply readHardlinks_list
    intro r hr
    have htype : r.type = m.type := by
      rw [← initialized_type m s.isCopy, hbase r hr]
    rwa [htype]
  constructor
  · intro h
    have hlist := (hread h.base m (Or.inl rfl)).2
    have hmem := (h.read m (Or.inl rfl)).2
    have hcount := h.count m (Or.inl rfl)
    rw [metadataNHardlinks] at hcount
    rw [hlist] at hmem hcount
    exact ⟨⟨hmem, hcount⟩, h.noStale, h.base⟩
  · intro h
    obtain ⟨⟨hmem, hcount⟩, hstale, hbase⟩ := h
    refine ⟨fun m' hm' => ⟨(hread hbase m' hm').1, ?_⟩, fun m' hm' => ?_, hstale, hbase⟩
    · rw [(hread hbase m' hm').2]
      exact hmem
    · rw [metadataNHardlinks, (hread hbase m' hm').2]
      exact hcount

/-! ## Writing -/

theorem not_hasLink_nameField_nil (base : MetadataBase) :
    ¬ (⟨base, noLink.parent, nameField []⟩ : StoredMetadata).HasLink := by
  simp [StoredMetadata.HasLink, noLink, nameField, METADATA_NAME_SIZE]

theorem type_eq (hbase : ∀ r ∈ s.record, r.toMetadataBase = (m.initialized s.isCopy).toMetadataBase)
    {r : StoredMetadata} (hr : s.record = some r) : r.type = m.type := by
  rw [← initialized_type m s.isCopy, hbase r hr]

theorem Holds.of_bad (h : s.Holds m hl) (hbad : m.type = .bad) : hl.links = [] := by
  obtain ⟨⟨-, hcount⟩, -, hbase⟩ := holds_iff.mp h
  have hlist : s.list = [] := by
    unfold list
    cases hr : s.record with
    | none => rfl
    | some r => exact if_pos ((type_eq hbase hr).trans hbad)
  rw [hlist, length_nil] at hcount
  exact length_eq_zero_iff.mp hcount.symm

theorem holds_emptied (hlinks : hl.links = []) (hfile : s.file = none) : s.Holds m hl ↔ s.Unchanged m := by
  rw [holds_iff, hlinks]
  constructor
  · intro h r hr
    refine ⟨fun hlink => ?_, h.2.2 r hr⟩
    by_contra hbad
    have hcount := h.1.2
    simp [list, Option.mem_def.mp hr, hbad, hlink] at hcount
  · intro h
    have hlist : s.list = [] := by
      unfold list
      cases hr : s.record with
      | none => rfl
      | some r =>
        by_cases hbad : r.type = .bad
        · exact if_pos hbad
        · have hlink : ¬ r.HasLink := fun hlink => hbad ((h r hr).1 hlink)
          simp [hbad, hlink, hfile]
    rw [hlist]
    exact ⟨⟨fun _ => Iff.rfl, rfl⟩, fun _ _ _ => hfile, fun r hr => (h r hr).2⟩

theorem holds_filed (hlinks : hl.links ≠ []) (hfile : s.file = some (hl.links.flatMap linkBytes)) :
    s.Holds m hl ↔ m.type ≠ .bad ∧ s.record.isSome ∧ s.Unchanged m := by
  constructor
  · intro h
    refine ⟨fun hbad => hlinks (h.of_bad hbad), ?_, fun r hr => ⟨fun hlink => ?_, h.base r hr⟩⟩
    · by_contra hnone
      have hcount := (holds_iff.mp h).1.2
      rw [Option.not_isSome_iff_eq_none] at hnone
      simp only [list, hnone, length_nil] at hcount
      exact hlinks (length_eq_zero_iff.mp hcount.symm)
    · have hnone := h.noStale r hr hlink
      rw [hfile] at hnone
      cases hnone
  · intro h
    obtain ⟨hbad, hsome, hrecord⟩ := h
    obtain ⟨r, hr⟩ := Option.isSome_iff_exists.mp hsome
    have hbase : ∀ r ∈ s.record, r.toMetadataBase = (m.initialized s.isCopy).toMetadataBase :=
      fun r hr => (hrecord r hr).2
    have htype : r.type ≠ .bad := by
      rw [type_eq hbase hr]
      exact hbad
    have hlink : ¬ r.HasLink := fun hlink => htype ((hrecord r hr).1 hlink)
    have hlist : s.list = hl.links := by
      simp only [list, hr, if_neg htype, if_neg hlink, hfile, Option.map_some, Option.getD_some]
      exact readHardlinksFile_flatMap hl
    refine holds_iff.mpr ⟨⟨fun l => by rw [hlist], by rw [hlist]⟩, fun r' hr' hlink' => ?_, hbase⟩
    rw [hr] at hr'
    cases hr'
    exact absurd hlink' hlink

theorem holds_recorded {link : Link} (hlinks : hl.links = [link]) (hfile : s.file = none)
    (hrecord : s.record = some { m.initialized s.isCopy with parent := link.parent, name := nameField link.name }) :
    s.Holds m hl ↔ m.type ≠ .bad ∧ (link.name ≠ [] ∨ link.parent = (0, 0)) := by
  have hstring : 0 ∉ link.name := hl.strings link (by rw [hlinks]; exact mem_singleton_self link)
  have hhas : ({ m.initialized s.isCopy with parent := link.parent, name := nameField link.name } :
      StoredMetadata).HasLink ↔ link.name ≠ [] ∨ link.parent = (0, 0) :=
    or_congr_left (not_congr (headD_nameField hstring))
  have hlist : s.list = if m.type = .bad then [] else if link.name ≠ [] ∨ link.parent = (0, 0) then [link] else [] := by
    simp only [list, hrecord, hfile, initialized_type, hhas, cString_nameField hstring, Option.map_none, Option.getD_none]
  constructor
  · intro h
    have hbad : m.type ≠ .bad := by
      intro hbad
      rw [h.of_bad hbad] at hlinks
      cases hlinks
    refine ⟨hbad, ?_⟩
    by_contra hnone
    have hcount := (holds_iff.mp h).1.2
    rw [hlist, if_neg hbad, if_neg hnone, hlinks] at hcount
    cases hcount
  · intro h
    rw [if_neg h.1, if_pos h.2, ← hlinks] at hlist
    refine holds_iff.mpr ⟨⟨fun l => by rw [hlist], by rw [hlist]⟩, fun _ _ _ => hfile, fun r hr => ?_⟩
    rw [hrecord] at hr
    cases hr
    rfl

/-- What was written is right just where the call was safe. -/
theorem holds_writeHardlinks (s : HardlinkStore) (m : Slot) (hl : HardlinkList) :
    (s.writeHardlinks m hl).Holds m hl ↔ s.WriteSafe m hl := by
  unfold writeHardlinks WriteSafe
  cases hlinks : hl.links with
  | nil =>
    simp only [implies_true, true_and]
    exact holds_emptied hlinks rfl
  | cons link rest =>
    have hne : hl.links ≠ [] := by simp [hlinks]
    have htype : (m.type = .bad → link :: rest = []) ↔ m.type ≠ .bad := by simp
    rw [htype]
    simp only
    split_ifs with hmany hkept
    · exact (holds_filed hne (by rw [hlinks])).trans (and_congr_right fun _ => ⟨fun h _ => h, fun h => h hkept⟩)
    · rw [holds_filed hne (by rw [hlinks])]
      refine and_congr_right fun _ => iff_of_true ⟨rfl, fun r hr => ?_⟩ fun h => absurd h hkept
      cases hr
      exact ⟨fun hlink => absurd hlink (not_hasLink_nameField_nil _), rfl⟩
    · have hrest : rest = [] := by
        by_contra hrest
        exact hmany (Or.inl hrest)
      exact holds_recorded (by rw [hlinks, hrest]) rfl rfl

end HardlinkStore

/-! ## The metadata of a volume -/

def Metadata.stored (m : Metadata) : StoredMetadata := ⟨m.toMetadataBase, m.link.parent, nameField m.link.name⟩

def Volume.linkStore (v : Volume) (id : FileId) : HardlinkStore :=
  ⟨v.isCopy, (v.record id).map Metadata.stored, (v.hardlinks id).map (·.flatMap linkBytes)⟩

theorem Volume.linkStore_setHardlinks (v : Volume) (id : FileId) (hl : Option (List Link)) :
    (v.setHardlinks id hl).linkStore id = { v.linkStore id with file := hl.map (·.flatMap linkBytes) } := by
  have hfile : (v.setHardlinks id hl).hardlinks id = hl := Function.update_self ..
  simp only [linkStore, hfile]
  rfl

theorem Volume.linkStore_insertRecord (v : Volume) (m : Metadata) :
    (v.insertRecord m false).linkStore m.id = { v.linkStore m.id with record := some m.stored } := by
  unfold linkStore
  rw [record_insertRecord, Function.update_self]
  rfl

/-- The volume writes a list the way the file stores it. -/
theorem Volume.linkStore_writeHardlinks (v : Volume) {id : FileId} {m : Metadata} (valid : Bool) (hl : HardlinkList)
    (hid : m.id = id) (hname : 0 ∉ m.link.name)
    (hnew : valid = false → (⟨m.stored, false⟩ : Slot).initialized v.isCopy = m.stored) :
    (v.writeHardlinks id valid m hl.links).linkStore id = (v.linkStore id).writeHardlinks ⟨m.stored, valid⟩ hl := by
  have hinit : (⟨m.stored, valid⟩ : Slot).initialized v.isCopy = m.stored := by
    cases valid with
    | false => exact hnew rfl
    | true => rfl
  subst hid
  unfold Volume.writeHardlinks HardlinkStore.writeHardlinks
  cases hlinks : hl.links with
  | nil => exact v.linkStore_setHardlinks m.id none
  | cons link rest =>
    have hkept : (valid = true ∧ m.link.name = []) ↔ (valid = true ∧ m.stored.name.headD 0 = 0) :=
      and_congr_right fun _ => (headD_nameField hname).symm
    simp only [hkept]
    split_ifs
    · exact v.linkStore_setHardlinks m.id _
    · have hinsert := (v.setHardlinks m.id (some (link :: rest))).linkStore_insertRecord { m with link := noLink }
      rw [linkStore_setHardlinks] at hinsert
      refine hinsert.trans ?_
      simp only [linkStore, hinit]
      rfl
    · rw [linkStore_setHardlinks]
      have hinsert := v.linkStore_insertRecord { m with link := link }
      refine (congrArg (fun s : HardlinkStore => { s with file := none }) hinsert).trans ?_
      simp only [linkStore, hinit]
      rfl

/-- What a volume has of a list after it was written is right just where the call was safe. -/
theorem Volume.holds_writeHardlinks (v : Volume) {id : FileId} {m : Metadata} (valid : Bool) (hl : HardlinkList)
    (hid : m.id = id) (hname : 0 ∉ m.link.name)
    (hnew : valid = false → (⟨m.stored, false⟩ : Slot).initialized v.isCopy = m.stored) :
    ((v.writeHardlinks id valid m hl.links).linkStore id).Holds ⟨m.stored, valid⟩ hl ↔
      (v.linkStore id).WriteSafe ⟨m.stored, valid⟩ hl := by
  rw [v.linkStore_writeHardlinks valid hl hid hname hnew]
  exact HardlinkStore.holds_writeHardlinks _ _ _

/-! ## Sequences of calls -/

namespace HardlinkState

/-- In a sequence of calls the list that was written last is read, with the rest of the metadata as it was passed, after
each call just where each write was safe. -/
theorem hardlinkCalls_iff (store : HardlinkStore) (calls : List HardlinkCall) :
    (∀ s ∈ Runs.visited step ⟨store, none⟩ calls, s.Right) ↔ ∀ x ∈ Runs.taken step ⟨store, none⟩ calls, x.1.Safe x.2 := by
  apply Runs.visited_iff_taken (I := fun _ => True)
  · intro _ _ _ _ _ _ _
    trivial
  · intro s call s' _ hright hstep
    cases call with
    | write m hl =>
      cases hstep
      simpa [Right, Safe] using HardlinkStore.holds_writeHardlinks s.store m hl
    | read m =>
      simp only [step] at hstep
      split_ifs at hstep with htype
      cases hstep
      refine iff_of_true (fun x hx => ?_) trivial
      have hholds := hright x hx
      have hm : m.type = x.1.type ∨ m.type = .bad := by
        rw [Option.mem_def.mp hx] at htype
        simpa using htype
      rw [(hholds.read m hm).1]
      exact hholds
  · trivial
  · intro x hx
    cases hx

def newSlot : Slot :=
  ⟨⟨⟨METADATA_COMPLETE, 1, 7, 0, undefinedFh, 0, 0, 0o644, .reg, 0, 0⟩, noLink.parent, nameField []⟩, false⟩

def twoLinks (a b : UInt8) (ha : a ≠ 0) (hb : b ≠ 0) (hne : a ≠ b) : HardlinkList where
  links := [⟨(1, 2), [a]⟩, ⟨(1, 2), [b]⟩]
  nodup := by simp [hne]
  strings := by simp [ha.symm, hb.symm]
  fits := by simp

/-- The file with the names `a` and `b`. -/
def linkedStore : HardlinkStore :=
  HardlinkStore.writeHardlinks ⟨true, none, none⟩ newSlot (twoLinks 97 98 (by decide) (by decide) (by decide))

def shadowSlot : Slot :=
  let m := (linkedStore.readHardlinks newSlot).2.1
  { m with flags := m.flags ||| METADATA_SHADOW }

/-- The file is renamed and gets the flag: the new list is stored, the flag is not. -/
theorem hardlinkCalls_flag_lost :
    shadowSlot.flags = 17 ∧
      (linkedStore.writeHardlinks shadowSlot (twoLinks 97 99 (by decide) (by decide) (by decide))).record.map (·.flags) =
        some 1 := by
  decide +kernel

end HardlinkState

end ZFS.Meta
