import ZlomekFS.Proofs.Metadata
import ZlomekFS.Spec.Names

/-! The list of hardlinks of one file: what inserting, replacing and deleting a name makes of it when the list is right
before. -/

namespace ZFS.Meta
open Function

namespace Volume

variable {v v' : Volume} {id : FileId} {m : Metadata} {st : Status} {type : FType} {hl : List Link} {link : Link}

structure Touches (v v' : Volume) (id : FileId) : Prop where
  record : ∀ id', id' ≠ id → v'.record id' = v.record id'
  hardlinks : ∀ id', id' ≠ id → v'.hardlinks id' = v.hardlinks id'

theorem Touches.trans {v'' : Volume} (h : Touches v v' id) (h' : Touches v' v'' id) : Touches v v'' id where
  record id' hid := (h'.record id' hid).trans (h.record id' hid)
  hardlinks id' hid := (h'.hardlinks id' hid).trans (h.hardlinks id' hid)

theorem touches_update {o : Option Metadata} {l : Option (List Link)} (hrecord : v'.record = update v.record id o)
    (hfile : v'.hardlinks = update v.hardlinks id l) : Touches v v' id where
  record id' hid := by rw [hrecord, update_of_ne hid]
  hardlinks id' hid := by rw [hfile, update_of_ne hid]

structure Kept (v : Volume) (id : FileId) (type : FType) (hl : List Link) (m : Metadata) : Prop where
  record : v.record id = some m
  id_eq : m.id = id
  type_eq : m.type = type
  type_ne : type ≠ .bad
  stored : v.Stored id m hl
  named : ∀ l ∈ hl, l.name ≠ []

structure Gone (v : Volume) (id : FileId) : Prop where
  hardlinks : v.hardlinks id = none
  record : ∀ m, v.record id = some m → m.id = id ∧ m.link = noLink ∧ m.type = .bad

theorem Kept.not_own (h : v.Kept id type hl m) (hname : m.link.name = []) :
    ¬ (m.link.name ≠ [] ∨ m.link.parent = (0, 0)) := by
  rcases h.stored with ⟨-, hhl, -⟩ | ⟨hnot, -⟩
  · exact absurd hname (h.named m.link (by rw [hhl]; exact List.mem_singleton_self _))
  · exact hnot

theorem Kept.touches {id' : FileId} (h : v.Kept id type hl m) (ht : Touches v v' id') (hid : id ≠ id') :
    v'.Kept id type hl m := by
  refine ⟨(ht.record id hid).trans h.record, h.id_eq, h.type_eq, h.type_ne, ?_, h.named⟩
  unfold Stored
  rw [ht.hardlinks id hid]
  exact h.stored

theorem Gone.touches {id' : FileId} (h : v.Gone id) (ht : Touches v v' id') (hid : id ≠ id') : v'.Gone id where
  hardlinks := (ht.hardlinks id hid).trans h.hardlinks
  record m hm := h.record m ((ht.record id hid).symm.trans hm)

/-! ## Reading -/

theorem Kept.lookupMetadata (h : v.Kept id st.type hl m) (insert : Bool) : v.lookupMetadata id st insert = (v, some m) := by
  have hbad : m.type ≠ .bad := by rw [h.type_eq]; exact h.type_ne
  unfold Volume.lookupMetadata
  rw [h.record]
  dsimp only
  rw [if_neg hbad, if_neg fun hne => hne.1 h.type_eq.symm]

theorem Kept.list_eq (h : v.Kept id type hl m) :
    (if m.link.name ≠ [] ∨ m.link.parent = (0, 0) then [m.link] else (v.hardlinks id).getD []) = hl := by
  rcases h.stored with ⟨hown, hhl, -⟩ | ⟨hnot, hhl, -⟩
  · rw [if_pos hown, hhl]
  · rw [if_neg hnot, hhl]

theorem Kept.readHardlinks (h : v.Kept id st.type hl m) : v.readHardlinks id st = (v, some m, hl) := by
  have hbad : m.type ≠ .bad := by rw [h.type_eq]; exact h.type_ne
  unfold Volume.readHardlinks
  rw [h.lookupMetadata]
  dsimp only
  rw [if_neg hbad, ← h.list_eq]
  split_ifs
  · rfl
  · rfl

theorem Kept.recorded (h : v.Kept id type hl m) : v.recorded id = hl := by
  have hbad : m.type ≠ .bad := by rw [h.type_eq]; exact h.type_ne
  unfold Volume.recorded
  rw [h.record]
  dsimp only
  rw [if_neg hbad]
  exact h.list_eq

theorem recorded_eq_nil (hfile : v.hardlinks id = none) (hrecord : ∀ m, v.record id = some m → m.link = noLink) :
    v.recorded id = [] := by
  unfold Volume.recorded
  split
  · rfl
  · rename_i m hm
    split_ifs with hbad hown
    · rfl
    · exact absurd (hrecord m hm ▸ hown) noLink_not
    · rw [hfile]
      rfl

/-! ## Writing -/

theorem Kept.writeHardlinks {hl' : List Link} (flags : UInt32) (h : v.Kept id type hl m) (hhl : hl' ≠ [])
    (hnamed : ∀ l ∈ hl', l.name ≠ []) : Touches v (v.writeHardlinks id true { m with flags := flags } hl') id ∧
      ∃ m', (v.writeHardlinks id true { m with flags := flags } hl').Kept id type hl' m' ∧ m'.localFh = m.localFh := by
  have hid := h.id_eq
  subst hid
  unfold Volume.writeHardlinks
  split
  · exact absurd rfl hhl
  · rename_i link rest
    split_ifs with hmany hown
    · have hrecord : (v.setHardlinks m.id (some (link :: rest))).record = update v.record m.id (some m) := by
        rw [record_setHardlinks, ← h.record, update_eq_self]
      refine ⟨touches_update hrecord rfl, m, ⟨h.record, rfl, h.type_eq, h.type_ne, .inr ⟨h.not_own hown.2, ?_, ?_⟩, hnamed⟩, rfl⟩
      · simp [setHardlinks]
      · simp [setHardlinks]
    · refine ⟨touches_update (record_insertRecord _) rfl, { m with flags := flags, link := noLink },
        ⟨?_, rfl, h.type_eq, h.type_ne, .inr ⟨noLink_not, ?_, ?_⟩, hnamed⟩, rfl⟩
      · rw [record_insertRecord]
        exact update_self ..
      · simp [setHardlinks]
      · simp [setHardlinks]
    · have hrest : rest = [] := by
        by_contra hne
        exact hmany (.inl hne)
      subst hrest
      refine ⟨touches_update (record_insertRecord _) rfl, { m with flags := flags, link := link },
        ⟨?_, rfl, h.type_eq, h.type_ne, .inl ⟨.inl (hnamed link List.mem_cons_self), rfl, ?_⟩, hnamed⟩, rfl⟩
      · rw [record_setHardlinks, record_insertRecord]
        exact update_self ..
      · simp [setHardlinks]

theorem Kept.metadataHardlinkInsert (h : v.Kept id st.type hl m) (hlink : link ∉ hl) (hname : link.name ≠ []) :
    (v.metadataHardlinkInsert id st link).2 = m ∧ Touches v (v.metadataHardlinkInsert id st link).1 id ∧
      ∃ m', (v.metadataHardlinkInsert id st link).1.Kept id st.type (hl ++ [link]) m' ∧ m'.localFh = m.localFh := by
  unfold Volume.metadataHardlinkInsert
  rw [h.readHardlinks]
  dsimp only
  rw [if_neg hlink]
  refine ⟨rfl, h.writeHardlinks m.flags (by simp) fun l hl => ?_⟩
  rcases List.mem_append.mp hl with hl | hl
  · exact h.named l hl
  · rw [List.mem_singleton.mp hl]
    exact hname

theorem Kept.metadataHardlinkReplace {old new : Link} (h : v.Kept id st.type hl m) (hold : old ∈ hl) (hnew : new ∉ hl)
    (hname : new.name ≠ []) (shadow : Bool) :
    (v.metadataHardlinkReplace id st old new shadow).2.localFh = m.localFh ∧
      Touches v (v.metadataHardlinkReplace id st old new shadow).1 id ∧
      ∃ m', (v.metadataHardlinkReplace id st old new shadow).1.Kept id st.type (hl.erase old ++ [new]) m' ∧
        m'.localFh = m.localFh := by
  have hinsert : LocalVolume.hardlinkListInsert (hl.erase old) new = hl.erase old ++ [new] :=
    if_neg fun hmem => hnew (List.mem_of_mem_erase hmem)
  unfold Volume.metadataHardlinkReplace
  rw [h.readHardlinks]
  dsimp only
  rw [if_pos (.inl hold), hinsert]
  refine ⟨rfl, h.writeHardlinks _ (by simp) fun l hl => ?_⟩
  rcases List.mem_append.mp hl with hl | hl
  · exact h.named l (List.mem_of_mem_erase hl)
  · rw [List.mem_singleton.mp hl]
    exact hname

/-! ## Deleting and creating -/

theorem Kept.hardlinks_eq (h : v.Kept id type hl m) {hl' : List Link} (hfile : v.hardlinks id = some hl') : hl' = hl := by
  rcases h.stored with ⟨-, -, hnone⟩ | ⟨-, hhl, -⟩
  · rw [hfile] at hnone
    cases hnone
  · rw [hhl, hfile]
    rfl

/-- The file loses a name, and it is gone with its last one. -/
theorem Kept.deleteMetadata (h : v.Kept id type hl m) (hlink : link ∈ hl) :
    Touches v (v.deleteMetadata m id (some link)) id ∧
      (hl.erase link ≠ [] →
        ∃ m', (v.deleteMetadata m id (some link)).Kept id type (hl.erase link) m' ∧ m'.localFh = m.localFh) ∧
      (hl.erase link = [] → (v.deleteMetadata m id (some link)).Gone id) := by
  rcases deleteMetadata_cases link h.record h.id_eq with ⟨hl', hfile, hrest, heq⟩ | ⟨hnone, hrecord, hfile⟩
  · have hhl := h.hardlinks_eq hfile
    subst hhl
    rw [heq]
    obtain ⟨ht, hk⟩ := h.writeHardlinks m.flags hrest fun l hl => h.named l (List.mem_of_mem_erase hl)
    exact ⟨ht, fun _ => hk, fun hnil => absurd hnil hrest⟩
  · refine ⟨touches_update hrecord hfile, fun hrest => ?_, fun _ => ⟨?_, fun m' hm' => ?_⟩⟩
    · -- the name in the record is the only one
      rcases h.stored with ⟨-, hhl, -⟩ | ⟨-, hhl, -⟩
      · subst hhl
        rw [List.mem_singleton.mp hlink] at hrest
        exact absurd (by simp) hrest
      · cases hf : v.hardlinks id with
        | none =>
          rw [hf] at hhl
          rw [hhl] at hlink
          simp at hlink
        | some hl' => exact absurd (h.hardlinks_eq hf ▸ hnone hl' hf) hrest
    · rw [hfile, update_self]
    · rw [hrecord, update_self] at hm'
      cases hm'
      exact ⟨h.id_eq, rfl, rfl⟩

/-- The record of a created file: there is none, or it is left from a deleted file. -/
theorem Gone.lookupMetadata (h : v.Gone id) (hst : st.type ≠ .bad) :
    ∃ v' m, v.lookupMetadata id st true = (v', some m) ∧ m.masterFh = undefinedFh ∧ Touches v v' id ∧
      v'.Kept id st.type [] m := by
  cases hr : v.lookupMetadata id st true with
  | mk v' r =>
    have hres := hr ▸ lookupResult v id st true
    cases hres with
    | new hrec =>
      refine ⟨_, _, rfl, rfl, touches_update (record_insertRecord _) (update_eq_self ..).symm, ?_, rfl, rfl, hst,
        .inr ⟨noLink_not, ?_, ?_⟩, by simp⟩
      · rw [record_insertRecord]
        exact update_self ..
      · rw [insertRecord_hardlinks, h.hardlinks]
        rfl
      · simp [h.hardlinks]
    | revived m hrec =>
      obtain ⟨hid, hlink, -⟩ := h.record m hrec
      subst hid
      refine ⟨_, _, rfl, rfl, touches_update (record_insertRecord _) (update_eq_self ..).symm, ?_, rfl, rfl, hst,
        .inr ⟨?_, ?_, ?_⟩, by simp⟩
      · rw [record_insertRecord]
        exact update_self ..
      · change ¬ (m.link.name ≠ [] ∨ m.link.parent = (0, 0))
        rw [hlink]
        exact noLink_not
      · rw [insertRecord_hardlinks, h.hardlinks]
        rfl
      · simp [h.hardlinks]
    | retyped _ m hrec hne => exact absurd (h.record m hrec).2.2 hne.1
    | same _ m hrec _ hbad => exact absurd (h.record m hrec).2.2 hbad

end Volume

end ZFS.Meta
