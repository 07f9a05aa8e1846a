import ZlomekFS.Spec.Generations

/-! The records of the metadata file: what each function of `metadata.c` leaves unchanged, and what it makes of the
generation and of the names of its file. -/

namespace ZFS.Meta
open Function

namespace Volume

variable {v : Volume} {id : FileId} {m : Metadata}

/-! ## The maps -/

@[simp] theorem insertRecord_hardlinks (b : Bool) : (v.insertRecord m b).hardlinks = v.hardlinks := rfl

@[simp] theorem record_setHardlinks (id' : FileId) (hl : Option (List Link)) :
    (v.setHardlinks id' hl).record = v.record := rfl

@[simp] theorem record_forgetMaster (fh : ZfsFh) : (v.forgetMaster fh).record = v.record := by
  unfold forgetMaster
  split_ifs <;> rfl

@[simp] theorem hardlinks_forgetMaster (fh : ZfsFh) : (v.forgetMaster fh).hardlinks = v.hardlinks := by
  unfold forgetMaster
  split_ifs <;> rfl

theorem noLink_not : ¬ (noLink.name ≠ [] ∨ noLink.parent = (0, 0)) := by decide

theorem record_insertRecord (m : Metadata) : (v.insertRecord m false).record = update v.record m.id (some m) := by
  funext id
  by_cases hid : id = m.id
  · subst hid
    simp [record, insertRecord, Contents.call, Contents.insert]
  · simp [record, insertRecord, Contents.call, Contents.insert, hid]

theorem record_flushMetadata {r : Metadata} (h : v.record m.id = some r) :
    (v.flushMetadata m).record = update v.record m.id (some { m with link := r.link }) := by
  obtain ⟨x, hx, rfl⟩ := Option.map_eq_some_iff.mp h
  funext id
  by_cases hid : id = m.id
  · subst hid
    simp [record, flushMetadata, insertRecord, Contents.call, Contents.insert, hx]
  · simp [record, flushMetadata, insertRecord, Contents.call, Contents.insert, hid]

theorem forall_update {f : FileId → Option Metadata} {P : FileId → Metadata → Prop} (hm : P id m)
    (h : ∀ id' m', id' ≠ id → f id' = some m' → P id' m') : ∀ id' m', update f id (some m) id' = some m' → P id' m' := by
  intro id' m' hm'
  by_cases hid : id' = id
  · subst hid
    rw [update_self] at hm'
    cases hm'
    exact hm
  · rw [update_of_ne hid] at hm'
    exact h id' m' hid hm'

/-! ## Lookups -/

theorem record_deleteMetadataOfCreatedFile (m : Metadata) :
    (v.deleteMetadataOfCreatedFile m).1.record = update v.record m.id (some (v.nextMetadata m)) := by
  simp only [deleteMetadataOfCreatedFile, record_insertRecord, record_setHardlinks, record_forgetMaster]
  rfl

/-- What `lookup_metadata` does. -/
inductive LookupResult (v : Volume) (id : FileId) (st : Status) : Bool → Volume × Option Metadata → Prop
  | absent (h : v.record id = none) : LookupResult v id st false (v, none)
  | new (h : v.record id = none) :
      LookupResult v id st true (v.insertRecord (v.newMetadata id st) false, some (v.newMetadata id st))
  | bad (m : Metadata) (h : v.record id = some m) (hbad : m.type = .bad) : LookupResult v id st false (v, some (st.fill m))
  | revived (m : Metadata) (h : v.record id = some m) (hbad : m.type = .bad) :
      LookupResult v id st true (v.insertRecord { st.fill m with flags := st.flags, masterFh := undefinedFh } false,
        some { st.fill m with flags := st.flags, masterFh := undefinedFh })
  | retyped (insert : Bool) (m : Metadata) (h : v.record id = some m) (hne : m.type ≠ .bad ∧ st.type ≠ m.type ∧ st.type ≠ .bad) :
      LookupResult v id st insert ((v.deleteMetadataOfCreatedFile (st.fill m)).1, some (v.nextMetadata (st.fill m)))
  | same (insert : Bool) (m : Metadata) (h : v.record id = some m)
      (heq : ¬ (m.type ≠ .bad ∧ st.type ≠ m.type ∧ st.type ≠ .bad)) (hbad : m.type ≠ .bad) :
      LookupResult v id st insert (v, some m)

theorem lookupResult (v : Volume) (id : FileId) (st : Status) (insert : Bool) :
    LookupResult v id st insert (v.lookupMetadata id st insert) := by
  unfold lookupMetadata
  cases hr : v.record id with
  | none =>
    cases insert with
    | false => exact .absent hr
    | true => exact .new hr
  | some m =>
    dsimp only
    split_ifs with hbad hinsert hne
    · subst hinsert
      exact .revived m hr hbad
    · rw [Bool.not_eq_true] at hinsert
      subst hinsert
      exact .bad m hr hbad
    · exact .retyped insert m hr ⟨hbad, hne⟩
    · exact .same insert m hr (fun h => hne h.2) hbad

theorem record_lookupMetadata (hkey : ∀ m, v.record id = some m → m.id = id) (st : Status) :
    ∃ m, (v.lookupMetadata id st true).2 = some m ∧ (v.lookupMetadata id st true).1.record id = some m := by
  cases hr : v.lookupMetadata id st true with
  | mk v' r =>
    have hres := hr ▸ lookupResult v id st true
    cases hres with
    | new hrec =>
      refine ⟨_, rfl, ?_⟩
      rw [record_insertRecord]
      exact update_self ..
    | revived m hrec =>
      have hid := hkey m hrec
      subst hid
      refine ⟨_, rfl, ?_⟩
      rw [record_insertRecord]
      exact update_self ..
    | retyped _ m hrec =>
      have hid := hkey m hrec
      subst hid
      refine ⟨_, rfl, ?_⟩
      rw [record_deleteMetadataOfCreatedFile]
      exact update_self ..
    | same _ m hrec => exact ⟨m, rfl, hrec⟩

/-! ## Deleting -/

theorem record_resetMetadata (hm : v.record id = some m) (hid : m.id = id) (m' : Metadata) :
    (v.resetMetadata m' id).record = update v.record id (some { v.nextMetadata m with mode := 0, type := .bad }) := by
  subst hid
  simp only [resetMetadata, hm, record_forgetMaster, record_insertRecord]
  rfl

theorem hardlinks_resetMetadata (m' : Metadata) : (v.resetMetadata m' id).hardlinks = v.hardlinks := by
  simp only [resetMetadata, hardlinks_forgetMaster, insertRecord_hardlinks]

theorem writeHardlinks_spec {b : Bool} {hl : List Link} (hm : b = true → v.record id = some m) (hid : m.id = id) (hhl : hl ≠ []) :
    ∃ link hl', (v.writeHardlinks id b m hl).record = update v.record id (some { m with link := link }) ∧
      (v.writeHardlinks id b m hl).hardlinks = update v.hardlinks id hl' ∧
      (link = m.link ∧ m.link.name = [] ∨ link = noLink ∨ link ∈ hl) ∧ ∀ l, hl' = some l → l = hl := by
  subst hid
  unfold Volume.writeHardlinks
  split
  · exact absurd rfl hhl
  · rename_i link rest
    split_ifs with hmany hown
    · refine ⟨m.link, some (link :: rest), ?_, rfl, .inl ⟨rfl, hown.2⟩, fun l hl => (Option.some.inj hl).symm⟩
      rw [record_setHardlinks, ← hm hown.1, update_eq_self]
    · exact ⟨noLink, some (link :: rest), record_insertRecord _, rfl, .inr (.inl rfl), fun l hl => (Option.some.inj hl).symm⟩
    · exact ⟨link, none, record_insertRecord _, rfl, .inr (.inr List.mem_cons_self), fun l hl => by cases hl⟩

/-- `delete_metadata` for a name keeps the file if the list of its names has another one. -/
theorem deleteMetadata_cases (link : Link) (hm : v.record id = some m) (hid : m.id = id) :
    (∃ hl, v.hardlinks id = some hl ∧ hl.erase link ≠ [] ∧
        v.deleteMetadata m id (some link) = v.writeHardlinks id true m (hl.erase link)) ∨
      ((∀ hl, v.hardlinks id = some hl → hl.erase link = []) ∧
        (v.deleteMetadata m id (some link)).record =
          update v.record id (some { v.nextMetadata m with mode := 0, type := .bad }) ∧
        (v.deleteMetadata m id (some link)).hardlinks = update v.hardlinks id none) := by
  unfold Volume.deleteMetadata
  cases hfile : v.hardlinks id with
  | none =>
    refine .inr ⟨(fun hl hhl => by cases hhl), record_resetMetadata hm hid m, ?_⟩
    rw [hardlinks_resetMetadata, ← hfile, update_eq_self]
  | some hl =>
    dsimp only
    split_ifs with hrest
    · exact .inl ⟨hl, rfl, hrest, rfl⟩
    · refine .inr ⟨fun hl' hhl' => ?_, ?_, hardlinks_resetMetadata m⟩
      · rw [← Option.some.inj hhl']
        exact not_not.mp hrest
      · exact record_resetMetadata (v := v.setHardlinks id none) hm hid m

end Volume

end ZFS.Meta
