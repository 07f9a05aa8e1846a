import ZlomekFS.Proofs.Metadata
import ZlomekFS.Spec.FhMapping

/-! The reverse mapping is the inverse of the master file handles in the records, as long as no two files have handles
with the same device and inode. -/

namespace ZFS.Meta
open Function

namespace Volume

variable {v v' : Volume} {id : FileId} {m : Metadata}

theorem mapping_insertMapping (map : FhMapping) :
    (v.insertMapping map).mapping = update v.mapping (fhKey map.masterFh) (some map) := by
  funext k
  by_cases hk : k = fhKey map.masterFh
  · subst hk
    simp [mapping, insertMapping, Contents.call, Contents.insert]
  · simp [mapping, insertMapping, Contents.call, Contents.insert, hk]

theorem mapping_deleteMapping (key : FileId) : (v.deleteMapping key).mapping = update v.mapping key none := by
  funext k
  by_cases hk : k = key
  · subst hk
    simp [mapping, deleteMapping, Contents.call]
  · simp [mapping, deleteMapping, Contents.call, hk]

theorem mapping_forgetMaster (fh : ZfsFh) :
    (v.forgetMaster fh).mapping = if fh = undefinedFh then v.mapping else update v.mapping (fhKey fh) none := by
  unfold forgetMaster
  split_ifs
  · rfl
  · exact mapping_deleteMapping _

/-! ## The invariant -/

/-- The mappings and the records with a master file handle stand for each other. -/
structure Mapped (v : Volume) : Prop where
  key : ∀ id m, v.record id = some m → m.id = id
  bad : ∀ id m, v.record id = some m → m.type = .bad → m.masterFh = undefinedFh
  defined : ∀ id m, v.record id = some m → fhKey m.masterFh = fhKey undefinedFh → m.masterFh = undefinedFh
  mapping : ∀ k map, v.mapping k = some map → fhKey map.masterFh = k ∧ map.masterFh ≠ undefinedFh ∧
    ∃ m, v.record (fhKey map.localFh) = some m ∧ m.gen = map.localFh.gen ∧ m.masterFh = map.masterFh
  record : ∀ id m, v.record id = some m → m.masterFh ≠ undefinedFh →
    ∃ map, v.mapping (fhKey m.masterFh) = some map ∧ fhKey map.localFh = id

section
variable (h : v.Mapped)

include h

theorem Mapped.mapping_of_record (hm : v.record id = some m) (hdef : m.masterFh ≠ undefinedFh) :
    ∃ map, v.mapping (fhKey m.masterFh) = some map ∧ fhKey map.localFh = id ∧ map.localFh.gen = m.gen ∧
      map.masterFh = m.masterFh := by
  obtain ⟨map, hmap, hid⟩ := h.record id m hm hdef
  obtain ⟨-, -, m', hm', hgen, hmaster⟩ := h.mapping _ map hmap
  rw [hid, hm] at hm'
  cases hm'
  exact ⟨map, hmap, hid, hgen.symm, hmaster.symm⟩

theorem Mapped.injective {id' : FileId} {m' : Metadata} (hm : v.record id = some m)
    (hm' : v.record id' = some m') (hdef : m.masterFh ≠ undefinedFh) (hkey : fhKey m'.masterFh = fhKey m.masterFh) :
    id' = id := by
  have hdef' : m'.masterFh ≠ undefinedFh := fun hundef =>
    hdef (h.defined id m hm (by rw [← hkey, hundef]))
  obtain ⟨map, hmap, hid⟩ := h.record id m hm hdef
  obtain ⟨map', hmap', hid'⟩ := h.record id' m' hm' hdef'
  rw [hkey, hmap] at hmap'
  cases hmap'
  rw [← hid, ← hid']

theorem Mapped.mapping_undefined : v.mapping (fhKey undefinedFh) = none := by
  cases hmap : v.mapping (fhKey undefinedFh) with
  | none => rfl
  | some map =>
    obtain ⟨hkey, hdef, m, hm, -, hmaster⟩ := h.mapping _ map hmap
    rw [← hmaster] at hkey hdef
    exact absurd (h.defined _ m hm hkey) hdef

/-- A record gets another master file handle: the mapping of the old one is deleted and there is one for the new one. -/
theorem Mapped.replace {old : ZfsFh} (localFh : ZfsFh) (hold : ∀ r, v.record id = some r → r.masterFh = old)
    (hsome : old ≠ undefinedFh → ∃ r, v.record id = some r) (hid : m.id = id) (hbad : m.type = .bad → m.masterFh = undefinedFh)
    (hdefined : fhKey m.masterFh = fhKey undefinedFh → m.masterFh = undefinedFh)
    (hfree : m.masterFh ≠ undefinedFh → ∀ id' r, v.record id' = some r → fhKey r.masterFh = fhKey m.masterFh → id' = id)
    (hlocal : m.masterFh ≠ undefinedFh → fhKey localFh = id ∧ localFh.gen = m.gen)
    (hrecord : v'.record = update v.record id (some m))
    (hmapping : ∀ k, v'.mapping k = if m.masterFh ≠ undefinedFh ∧ k = fhKey m.masterFh then some ⟨m.masterFh, localFh⟩
      else if k = fhKey old then none else v.mapping k) : v'.Mapped where
  key := by
    rw [hrecord]
    exact forall_update hid fun id' m' _ => h.key id' m'
  bad := by
    rw [hrecord]
    exact forall_update hbad fun id' m' _ => h.bad id' m'
  defined := by
    rw [hrecord]
    exact forall_update hdefined fun id' m' _ => h.defined id' m'
  mapping k map hmap := by
    rw [hmapping] at hmap
    split_ifs at hmap with hnew hgone
    · rw [← Option.some.inj hmap]
      obtain ⟨hkey, hgen⟩ := hlocal hnew.1
      refine ⟨hnew.2.symm, hnew.1, m, ?_, hgen.symm, rfl⟩
      rw [hrecord, hkey, update_self]
    · obtain ⟨hkey, hdef, r, hr, hrest⟩ := h.mapping k map hmap
      refine ⟨hkey, hdef, r, ?_, hrest⟩
      rw [hrecord, update_of_ne ?_]
      · exact hr
      · intro heq
        rw [heq] at hr
        exact hgone (by rw [← hkey, ← hrest.2, hold r hr])
  record := by
    rw [hrecord]
    refine forall_update (fun hdef => ?_) fun id' m' hid' hm' hdef => ?_
    · refine ⟨⟨m.masterFh, localFh⟩, ?_, (hlocal hdef).1⟩
      rw [hmapping, if_pos ⟨hdef, rfl⟩]
    · obtain ⟨map, hmap, hmid⟩ := h.record id' m' hm' hdef
      refine ⟨map, ?_, hmid⟩
      rw [hmapping]
      rw [if_neg fun hnew => hid' (hfree hnew.1 id' m' hm' hnew.2), if_neg fun hgone => ?_, hmap]
      -- the old handle is that of this file, so no other one has its key
      have hne : old ≠ undefinedFh := fun hundef => hdef (h.defined id' m' hm' (by rw [hgone, hundef]))
      obtain ⟨r, hr⟩ := hsome hne
      have hr' := hold r hr
      subst hr'
      exact hid' (h.injective hr hm' hne hgone)

theorem Mapped.forget (old : ZfsFh) (hold : ∀ r, v.record id = some r → r.masterFh = old)
    (hsome : old ≠ undefinedFh → ∃ r, v.record id = some r) (hid : m.id = id) (hmaster : m.masterFh = undefinedFh)
    (hrecord : v'.record = update v.record id (some m))
    (hmapping : v'.mapping = if old = undefinedFh then v.mapping else update v.mapping (fhKey old) none) : v'.Mapped := by
  refine h.replace old hold hsome hid (fun _ => hmaster) (fun _ => hmaster) (fun hne => absurd hmaster hne)
    (fun hne => absurd hmaster hne) hrecord fun k => ?_
  rw [if_neg fun hnew => hnew.1 hmaster, hmapping]
  split_ifs with hundef hk hk
  · rw [hk, hundef]
    exact h.mapping_undefined
  · rfl
  · rw [hk, update_self]
  · rw [update_of_ne hk]

theorem Mapped.keep {r : Metadata} (hr : v.record id = some r) (hid : m.id = id) (hgen : m.gen = r.gen)
    (hmaster : m.masterFh = r.masterFh) (htype : m.type = .bad → r.type = .bad)
    (hrecord : v'.record = update v.record id (some m)) (hmapping : v'.mapping = v.mapping) : v'.Mapped where
  key := by
    rw [hrecord]
    exact forall_update hid fun id' m' _ => h.key id' m'
  bad := by
    rw [hrecord]
    refine forall_update (fun hbad => ?_) fun id' m' _ => h.bad id' m'
    rw [hmaster]
    exact h.bad id r hr (htype hbad)
  defined := by
    rw [hrecord]
    refine forall_update ?_ fun id' m' _ => h.defined id' m'
    rw [hmaster]
    exact h.defined id r hr
  mapping k map hmap := by
    rw [hmapping] at hmap
    obtain ⟨hkey, hdef, r', hr', hgen', hmaster'⟩ := h.mapping k map hmap
    rw [hrecord]
    by_cases hid' : fhKey map.localFh = id
    · rw [hid', hr] at hr'
      cases hr'
      rw [hid', update_self]
      exact ⟨hkey, hdef, m, rfl, hgen.trans hgen', hmaster.trans hmaster'⟩
    · rw [update_of_ne hid']
      exact ⟨hkey, hdef, r', hr', hgen', hmaster'⟩
  record := by
    rw [hrecord, hmapping]
    refine forall_update ?_ fun id' m' _ => h.record id' m'
    rw [hmaster]
    exact h.record id r hr

/-! ## The calls -/

theorem Mapped.deleteMetadataOfCreatedFile {r : Metadata} (hr : v.record m.id = some r)
    (hmaster : r.masterFh = m.masterFh) : (v.deleteMetadataOfCreatedFile m).1.Mapped := by
  refine h.forget (m := v.nextMetadata m) m.masterFh (fun r' hr' => ?_) (fun _ => ⟨r, hr⟩) rfl rfl
    (record_deleteMetadataOfCreatedFile m) (mapping_forgetMaster m.masterFh)
  rw [hr] at hr'
  cases hr'
  exact hmaster

theorem Mapped.lookupMetadata (id : FileId) (st : Status) (insert : Bool) :
    (v.lookupMetadata id st insert).1.Mapped := by
  have hundef : v.mapping = if undefinedFh = undefinedFh then v.mapping else update v.mapping (fhKey undefinedFh) none := by
    rw [if_pos rfl]
  cases hr : v.lookupMetadata id st insert with
  | mk v' r =>
    have hres := hr ▸ lookupResult v id st insert
    cases hres with
    | absent | bad | same => exact h
    | new hrec =>
      refine h.forget (m := v.newMetadata id st) undefinedFh (fun r hr => ?_) (fun hne => absurd rfl hne) rfl rfl
        (record_insertRecord _) hundef
      rw [show v.record (v.newMetadata id st).id = none from hrec] at hr
      cases hr
    | revived m hrec hbad =>
      have hid := h.key id m hrec
      subst hid
      refine h.forget (m := { st.fill m with flags := st.flags, masterFh := undefinedFh }) undefinedFh (fun r hr => ?_)
        (fun hne => absurd rfl hne) rfl rfl (record_insertRecord _) hundef
      exact h.bad _ r hr (by rw [show v.record m.id = some r from hr] at hrec; cases hrec; exact hbad)
    | retyped _ m hrec hne =>
      have hid := h.key id m hrec
      subst hid
      exact h.deleteMetadataOfCreatedFile (m := st.fill m) hrec rfl

theorem Mapped.resetMetadata (hm : v.record id = some m) (m' : Metadata) : (v.resetMetadata m' id).Mapped := by
  refine h.forget (m := { v.nextMetadata m with mode := 0, type := .bad }) m.masterFh (fun r hr => ?_) (fun _ => ⟨m, hm⟩)
    (h.key id m hm) rfl (record_resetMetadata hm (h.key id m hm) m') ?_
  · rw [hm] at hr
    cases hr
    rfl
  · unfold Volume.resetMetadata
    rw [hm]
    exact mapping_forgetMaster m.masterFh

end

theorem mapping_writeHardlinks {b : Bool} (hl : List Link) : (v.writeHardlinks id b m hl).mapping = v.mapping := by
  unfold Volume.writeHardlinks
  split
  · rfl
  · split_ifs <;> rfl

theorem Mapped.deleteMetadata (h : v.Mapped) (hm : v.record id = some m) (link : Option Link) :
    (v.deleteMetadata m id link).Mapped := by
  unfold Volume.deleteMetadata
  split
  · rename_i link hl hfile
    split_ifs with hrest
    · have hid := h.key id m hm
      obtain ⟨link', -, hrecord, -⟩ := writeHardlinks_spec (b := true) (fun _ => hm) hid hrest
      exact h.keep (m := { m with link := link' }) hm hid rfl rfl (fun hbad => hbad) hrecord (mapping_writeHardlinks _)
    · have hset : (v.setHardlinks id none).Mapped := ⟨h.key, h.bad, h.defined, h.mapping, h.record⟩
      exact hset.resetMetadata hm m
  · exact h.resetMetadata hm m

theorem Mapped.setMetadataMasterFh (h : v.Mapped) {localFh masterFh : ZfsFh} (hfresh : v.Fresh m)
    (hid : m.id = fhKey localFh) (hgen : m.gen = localFh.gen)
    (hfree : masterFh ≠ undefinedFh → fhKey masterFh ≠ fhKey undefinedFh ∧
      ∀ id r, v.record id = some r → fhKey r.masterFh = fhKey masterFh → id = m.id) :
    (v.setMetadataMasterFh localFh m masterFh).1.Mapped := by
  obtain ⟨r, hr, hrtype, hmtype, hrgen, hrmaster⟩ := hfresh
  -- what is left to show in each case is what became of the mappings
  have hset : ∀ v1 : Volume, v1.record = v.record → (∀ k, v1.mapping k =
      if masterFh ≠ undefinedFh ∧ k = fhKey masterFh then some ⟨masterFh, localFh⟩
      else if k = fhKey m.masterFh then none else v.mapping k) → (v1.flushMetadata { m with masterFh := masterFh }).Mapped := by
    intro v1 hrecord hmapping
    have hflush : (v1.flushMetadata { m with masterFh := masterFh }).record =
        update v1.record m.id (some { m with masterFh := masterFh, link := r.link }) :=
      record_flushMetadata (m := { m with masterFh := masterFh }) (by rw [hrecord]; exact hr)
    rw [hrecord] at hflush
    refine h.replace (m := { m with masterFh := masterFh, link := r.link }) localFh (fun r' hr' => ?_) (fun _ => ⟨r, hr⟩) rfl
      (fun hbad => absurd hbad hmtype) (fun hk => ?_) (fun hdef => (hfree hdef).2) (fun _ => ⟨hid.symm, hgen.symm⟩) hflush hmapping
    · rw [show v.record m.id = some r from hr] at hr'
      cases hr'
      exact hrmaster
    · by_contra hdef
      exact (hfree hdef).1 hk
  unfold Volume.setMetadataMasterFh
  split_ifs with hsame hkey hundef
  · exact h
  · have hdef : masterFh ≠ undefinedFh := by
      intro hundef
      subst hundef
      rw [← hrmaster] at hsame hkey
      exact hsame (h.defined _ r hr hkey)
    refine hset _ rfl fun k => ?_
    rw [mapping_insertMapping, update_apply, hkey]
    simp only [hdef, ne_eq, not_false_eq_true, true_and]
    split_ifs <;> rfl
  · refine hset _ rfl fun k => ?_
    have hnot : ¬ (masterFh ≠ undefinedFh ∧ k = fhKey masterFh) := fun hnew => hnew.1 hundef
    rw [mapping_deleteMapping, update_apply, if_neg hnot]
  · refine hset _ rfl fun k => ?_
    rw [mapping_insertMapping, mapping_deleteMapping, update_apply, update_apply]
    simp only [hundef, ne_eq, not_false_eq_true, true_and]

theorem Mapped.get_of_mapping (h : v.Mapped) {masterFh : ZfsFh} {map : FhMapping} (hmap : v.mapping (fhKey masterFh) = some map)
    (hgen : map.masterFh.gen = masterFh.gen) : v.getFhMappingForMasterFh masterFh = (v, some map) := by
  obtain ⟨-, -, m, hm, hmgen, -⟩ := h.mapping _ map hmap
  have hlive : (v.record (fhKey map.localFh)).any (·.gen = map.localFh.gen) = true := by
    rw [hm]
    exact decide_eq_true hmgen
  unfold getFhMappingForMasterFh
  rw [hmap]
  dsimp only
  rw [if_neg (by rw [hgen]; exact UInt32.lt_irrefl _), if_pos hlive]

theorem get_none {masterFh : ZfsFh} (hmap : v.mapping (fhKey masterFh) = none) :
    v.getFhMappingForMasterFh masterFh = (v, none) := by
  unfold getFhMappingForMasterFh
  rw [hmap]

theorem Mapped.live (h : v.Mapped) {k : FileId} {map : FhMapping} (hmap : v.mapping k = some map) :
    ∃ m, v.Live map.localFh m ∧ m.masterFh = map.masterFh := by
  obtain ⟨-, hdef, m, hm, hgen, hmaster⟩ := h.mapping k map hmap
  refine ⟨m, ⟨hm, fun hbad => hdef ?_, hgen⟩, hmaster⟩
  rw [← hmaster]
  exact h.bad _ m hm hbad

end Volume

/-! ## Runs -/

namespace MapState

variable {s s' : MapState}

structure Inv (s : MapState) : Prop where
  mapped : s.vol.Mapped
  answer : ∀ masterFh map, s.answer = some (masterFh, map) →
    map.masterFh = masterFh ∧ ∃ m, s.vol.Live map.localFh m ∧ m.masterFh = masterFh

theorem Inv.inverse (h : s.Inv) : s.Inverse where
  answer := h.answer
  injective fh fh' m m' hm hm' hdef heq := (h.mapped.injective hm.1 hm'.1 hdef (by rw [heq])).symm
  found fh m hm hdef := by
    obtain ⟨map, hmap, hid, hgen, hmaster⟩ := h.mapped.mapping_of_record hm.1 hdef
    refine ⟨map, ?_, hid, hgen.trans hm.2.2⟩
    rw [h.mapped.get_of_mapping hmap (by rw [hmaster])]

theorem inv_of_mapped {v : Volume} (h : v.Mapped) : Inv ⟨v, none⟩ := ⟨h, fun _ _ hanswer => by cases hanswer⟩

theorem Inv.get (h : s.Inv) {masterFh : ZfsFh} (hsafe : s.MapSafe (.get masterFh)) :
    Inv ⟨(s.vol.getFhMappingForMasterFh masterFh).1, (s.vol.getFhMappingForMasterFh masterFh).2.map (masterFh, ·)⟩ := by
  cases hmap : s.vol.mapping (fhKey masterFh) with
  | none =>
    rw [Volume.get_none hmap]
    exact inv_of_mapped h.mapped
  | some map =>
    obtain ⟨hsid, hvid, hle, hlt⟩ := hsafe map hmap
    obtain ⟨m, hlive, hmaster⟩ := h.mapped.live hmap
    -- a mapping with an older generation has a live file
    have hgen : map.masterFh.gen = masterFh.gen := by
      refine UInt32.le_antisymm hle (UInt32.not_lt.mp fun hlt' => hlt hlt' m hlive)
    have hkey := (h.mapped.mapping _ map hmap).1
    have heq : map.masterFh = masterFh := by
      obtain ⟨hdev, hino⟩ := Prod.mk.inj hkey
      cases hfh : map.masterFh
      cases masterFh
      simp only [hfh] at hsid hvid hgen hdev hino
      simp only [hsid, hvid, hgen, hdev, hino]
    rw [h.mapped.get_of_mapping hmap hgen]
    refine ⟨h.mapped, fun masterFh' map' hanswer => ?_⟩
    cases hanswer
    exact ⟨heq, m, hlive, hmaster.trans heq⟩

theorem Inv.step {e : MapEvent} (h : s.Inv) (hsafe : s.MapSafe e) (hstep : s.step e = some s') : s'.Inv := by
  cases e with
  | lookup id st insert =>
    cases hstep
    exact inv_of_mapped (h.mapped.lookupMetadata id st insert)
  | set localFh m masterFh =>
    cases hstep
    obtain ⟨hfresh, hid, hgen, hfree⟩ := hsafe
    exact inv_of_mapped (h.mapped.setMetadataMasterFh hfresh hid hgen hfree)
  | get masterFh =>
    cases hstep
    exact h.get hsafe
  | delete m id link =>
    cases hstep
    exact inv_of_mapped (h.mapped.deleteMetadata hsafe link)
  | deleteCreated m =>
    cases hstep
    obtain ⟨r, hr, -, -, -, hmaster⟩ := hsafe
    exact inv_of_mapped (h.mapped.deleteMetadataOfCreatedFile hr hmaster)

theorem start_inv (isCopy : Bool) : (start isCopy).Inv := by
  refine inv_of_mapped ⟨fun _ _ hm => ?_, fun _ _ hm => ?_, fun _ _ hm => ?_, fun _ _ hm => ?_, fun _ _ hm => ?_⟩
  all_goals cases hm

end MapState

/-- The mapping is the inverse of the master file handles in the metadata, as long as no two files get handles with the
same device and inode and no handle is looked up for which another generation is mapped. -/
theorem fh_mapping_inverse (isCopy : Bool) (es : List MapEvent)
    (hsafe : ∀ x ∈ Runs.taken MapState.step (.start isCopy) es, x.1.MapSafe x.2) :
    ∀ s ∈ Runs.visited MapState.step (.start isCopy) es, s.Inverse := fun s hs =>
  (Runs.visited_inv (fun _ _ _ h hc hstep => MapState.Inv.step h hc hstep) es _ (MapState.start_inv isCopy)
    hsafe s hs).inverse

/-- A file gets a master file handle and is found through it. -/
def masterFhSet : List MapEvent :=
  [.lookup (1, 2) ⟨1, 420, .reg, 0, 0⟩ true,
    .set ⟨1, 1, 1, 2, 1⟩ ⟨⟨1, 1, 2, 1, undefinedFh, 1, 0, 420, .reg, 0, 0⟩, noLink⟩ ⟨2, 1, 3, 4, 5⟩,
    .get ⟨2, 1, 3, 4, 5⟩]

theorem fh_mapping_inverse_set : ∃ s, Runs.run MapState.step (.start true) masterFhSet = some s ∧ s.Inverse := by
  refine ⟨_, rfl, fh_mapping_inverse true masterFhSet (fun x hx => ?_) _ (Runs.mem_visited_of_run _ rfl)⟩
  simp only [masterFhSet, Runs.taken, MapState.step, List.mem_cons, List.not_mem_nil, or_false] at hx
  rcases hx with rfl | rfl | rfl
  · trivial
  · refine ⟨⟨_, rfl, by decide, by decide, rfl, rfl⟩, rfl, rfl, fun _ => ⟨by decide, ?_⟩⟩
    have hrecord := Volume.record_insertRecord (v := (MapState.start true).vol)
      ((MapState.start true).vol.newMetadata (1, 2) ⟨1, 420, .reg, 0, 0⟩)
    change ∀ id r, (Volume.insertRecord _ _ _).record id = some r → _
    rw [hrecord]
    exact Volume.forall_update (fun _ => rfl) fun _ _ _ hr => by cases hr
  · intro map hmap
    cases hmap
    exact ⟨rfl, rfl, UInt32.le_refl _, fun hlt => absurd hlt (UInt32.lt_irrefl _)⟩

/-- A file has the master file handle with generation 1. On the master the inode was given to another file; its handle
with generation 2 is looked up and set for a second file. When the first file is deleted, the mapping of the second one
is deleted: it cannot be found any more. -/
theorem fh_mapping_lost : ¬ ∀ es : List MapEvent, ∀ s ∈ Runs.visited MapState.step (.start true) es, s.Inverse := by
  intro h
  obtain ⟨s, hrun, hrecord, hget⟩ : ∃ s, Runs.run MapState.step (.start true)
      [.lookup (1, 2) ⟨1, 420, .reg, 0, 0⟩ true,
        .set ⟨1, 1, 1, 2, 1⟩ ⟨⟨1, 1, 2, 1, undefinedFh, 1, 0, 420, .reg, 0, 0⟩, noLink⟩ ⟨2, 1, 3, 4, 1⟩,
        .get ⟨2, 1, 3, 4, 2⟩, .lookup (1, 5) ⟨1, 420, .reg, 0, 0⟩ true,
        .set ⟨1, 1, 1, 5, 1⟩ ⟨⟨1, 1, 5, 1, undefinedFh, 1, 0, 420, .reg, 0, 0⟩, noLink⟩ ⟨2, 1, 3, 4, 2⟩,
        .delete ⟨⟨1, 1, 2, 1, ⟨2, 1, 3, 4, 1⟩, 1, 0, 420, .reg, 0, 0⟩, noLink⟩ (1, 2) (some ⟨(1, 1), [97]⟩)] = some s ∧
      s.vol.record (1, 5) = some ⟨⟨1, 1, 5, 1, ⟨2, 1, 3, 4, 2⟩, 1, 0, 420, .reg, 0, 0⟩, noLink⟩ ∧
      (s.vol.getFhMappingForMasterFh ⟨2, 1, 3, 4, 2⟩).2 = none := ⟨_, rfl, rfl, rfl⟩
  have hlive : s.vol.Live ⟨1, 1, 1, 5, 1⟩ ⟨⟨1, 1, 5, 1, ⟨2, 1, 3, 4, 2⟩, 1, 0, 420, .reg, 0, 0⟩, noLink⟩ :=
    ⟨hrecord, by decide, rfl⟩
  obtain ⟨map, hmap, -⟩ := (h _ s (Runs.mem_visited_of_run _ hrun)).found _ _ hlive (by decide)
  rw [hget] at hmap
  cases hmap

end ZFS.Meta
