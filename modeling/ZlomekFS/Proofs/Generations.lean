import ZlomekFS.Proofs.Metadata

/-! Generations do not decrease and a handle names one file: the generation in the record of an inode bounds those
that were handed out for it, and when the last name of a file is removed the record gets a generation that was not
handed out yet. For the latter the lists of hardlinks must not have a name that is not there. -/

namespace ZFS.Meta
open Function List

namespace Volume

variable {v v' : Volume} {t : Tree} {id : FileId} {m : Metadata} {st : Status}

/-! ## The names in the metadata -/

structure Listed (v : Volume) (t : Tree) : Prop where
  key : ∀ id m, v.record id = some m → m.id = id
  link : ∀ id m, v.record id = some m → m.link.name ≠ [] ∨ m.link.parent = (0, 0) → (m.link, id) ∈ t.entries
  file : ∀ id hl, v.hardlinks id = some hl → hl.Nodup ∧ ∀ l ∈ hl, (l, id) ∈ t.entries

theorem Listed.mono (h : v.Listed t) {t' : Tree} (ht : t.entries ⊆ t'.entries) : v.Listed t' where
  key := h.key
  link id m hm hlink := ht (h.link id m hm hlink)
  file id hl hhl := ⟨(h.file id hl hhl).1, fun l hl' => ht ((h.file id hl hhl).2 l hl')⟩

section
variable (h : v.Listed t)

include h

theorem Listed.update {t' : Tree} {hl : Option (List Link)}
    (hothers : ∀ l id', id' ≠ id → (l, id') ∈ t.entries → (l, id') ∈ t'.entries)
    (hrecord : v'.record = update v.record id (some m)) (hid : m.id = id)
    (hlink : m.link.name ≠ [] ∨ m.link.parent = (0, 0) → (m.link, id) ∈ t'.entries)
    (hfile : v'.hardlinks = update v.hardlinks id hl)
    (hhl : ∀ l, hl = some l → l.Nodup ∧ ∀ x ∈ l, (x, id) ∈ t'.entries) : v'.Listed t' where
  key := by
    rw [hrecord]
    exact forall_update hid fun id' m' _ => h.key id' m'
  link := by
    rw [hrecord]
    exact forall_update hlink fun id' m' hne hm' hlink' => hothers _ _ hne (h.link id' m' hm' hlink')
  file id' l hl' := by
    rw [hfile, update_apply] at hl'
    split_ifs at hl' with hid'
    · subst hid'
      exact hhl l hl'
    · exact ⟨(h.file id' l hl').1, fun x hx => hothers _ _ hid' ((h.file id' l hl').2 x hx)⟩

theorem Listed.setRecord (hrecord : v'.record = Function.update v.record m.id (some m))
    (hm : m.link.name ≠ [] ∨ m.link.parent = (0, 0) → (m.link, m.id) ∈ t.entries)
    (hfile : v'.hardlinks = v.hardlinks) : v'.Listed t := by
  refine h.update (fun _ _ _ => id) hrecord rfl hm ?_ (h.file m.id)
  rw [update_eq_self, hfile]

theorem Listed.insertRecord
    (hm : m.link.name ≠ [] ∨ m.link.parent = (0, 0) → (m.link, m.id) ∈ t.entries) : (v.insertRecord m false).Listed t :=
  h.setRecord (record_insertRecord m) hm rfl

theorem Listed.setHardlinks {hl : Option (List Link)}
    (hhl : ∀ l, hl = some l → l.Nodup ∧ ∀ x ∈ l, (x, id) ∈ t.entries) : (v.setHardlinks id hl).Listed t where
  key := h.key
  link := h.link
  file id' l hl' := by
    simp only [Volume.setHardlinks, update_apply] at hl'
    split_ifs at hl' with hid
    · subst hid
      exact hhl l hl'
    · exact h.file id' l hl'

theorem Listed.noHardlinks (id : FileId) : (v.setHardlinks id none).Listed t :=
  h.setHardlinks fun _ hl => by cases hl

theorem Listed.forgetMaster (fh : ZfsFh) : (v.forgetMaster fh).Listed t where
  key := by simpa only [record_forgetMaster] using h.key
  link := by simpa only [record_forgetMaster] using h.link
  file := by simpa only [hardlinks_forgetMaster] using h.file

theorem Listed.deleteMetadataOfCreatedFile (m : Metadata) : (v.deleteMetadataOfCreatedFile m).1.Listed t :=
  ((h.forgetMaster _).noHardlinks _).insertRecord fun hlink => absurd hlink noLink_not

theorem Listed.lookupMetadata (id : FileId) (st : Status) (insert : Bool) :
    (v.lookupMetadata id st insert).1.Listed t := by
  cases hr : v.lookupMetadata id st insert with
  | mk v' r =>
    have hres := hr ▸ lookupResult v id st insert
    cases hres with
    | absent | bad | same => exact h
    | new => exact h.insertRecord fun hlink => absurd hlink noLink_not
    | revived m hm =>
      refine h.insertRecord fun hlink => ?_
      have hkey := h.key id m hm
      have hmem := h.link id m hm hlink
      rw [← hkey] at hmem
      exact hmem
    | retyped m => exact h.deleteMetadataOfCreatedFile _

theorem Listed.writeHardlinks {b : Bool} {hl : List Link} (hm : m.id = id) (hnodup : hl.Nodup)
    (hmem : ∀ l ∈ hl, (l, id) ∈ t.entries) : (v.writeHardlinks id b m hl).Listed t := by
  unfold Volume.writeHardlinks
  split
  · exact h.noHardlinks id
  · rename_i link rest
    have hfile : ∀ l, some (link :: rest) = some l → l.Nodup ∧ ∀ x ∈ l, (x, id) ∈ t.entries := by
      intro l hl
      cases hl
      exact ⟨hnodup, hmem⟩
    split_ifs
    · exact h.setHardlinks hfile
    · exact (h.setHardlinks hfile).insertRecord fun hlink => absurd hlink noLink_not
    · refine Listed.noHardlinks (h.insertRecord fun _ => ?_) id
      rw [← hm] at hmem
      exact hmem link mem_cons_self

theorem Listed.lookup_result {insert : Bool} (hm : (v.lookupMetadata id st insert).2 = some m) :
    m.id = id ∧ (m.link.name ≠ [] ∨ m.link.parent = (0, 0) → (m.link, id) ∈ t.entries) := by
  cases hr : v.lookupMetadata id st insert with
  | mk v' r =>
    have hres := hr ▸ lookupResult v id st insert
    rw [hr] at hm
    cases hres with
    | absent => cases hm
    | new =>
      cases hm
      exact ⟨rfl, fun hlink => absurd hlink noLink_not⟩
    | bad m hrec | revived m hrec =>
      cases hm
      exact ⟨h.key id m hrec, h.link id m hrec⟩
    | retyped _ m hrec =>
      cases hm
      exact ⟨h.key id m hrec, fun hlink => absurd hlink noLink_not⟩
    | same _ m hrec =>
      cases hm
      exact ⟨h.key id m hrec, h.link id m hrec⟩

theorem Listed.readHardlinks (id : FileId) (st : Status) :
    (v.readHardlinks id st).1 = (v.lookupMetadata id st false).1 ∧
      (v.readHardlinks id st).2.1 = (v.lookupMetadata id st false).2 ∧
      (v.readHardlinks id st).2.2.Nodup ∧ ∀ l ∈ (v.readHardlinks id st).2.2, (l, id) ∈ t.entries := by
  have hvol := h.lookupMetadata id st false
  unfold Volume.readHardlinks
  cases hr : v.lookupMetadata id st false with
  | mk v' found =>
    rw [hr] at hvol
    cases found with
    | none => exact ⟨rfl, rfl, nodup_nil, fun l hl => by cases hl⟩
    | some m =>
      have hlink := (h.lookup_result (congrArg Prod.snd hr)).2
      dsimp only
      split_ifs with hbad hown
      · exact ⟨rfl, rfl, nodup_nil, fun l hl => by cases hl⟩
      · refine ⟨rfl, rfl, nodup_singleton _, fun l hl => ?_⟩
        rw [mem_singleton.mp hl]
        exact hlink hown
      · refine ⟨rfl, rfl, ?_⟩
        cases hhl : v'.hardlinks id with
        | none => exact ⟨nodup_nil, fun l hl => by cases hl⟩
        | some hl => exact hvol.file id hl hhl

end

theorem lookup_none {insert : Bool} (h : (v.lookupMetadata id st insert).2 = none) :
    v.record id = none ∧ (v.lookupMetadata id st insert).1 = v := by
  cases hr : v.lookupMetadata id st insert with
  | mk v' r =>
    have hres := hr ▸ lookupResult v id st insert
    rw [hr] at h
    cases hres with
    | absent hrec => exact ⟨hrec, rfl⟩
    | new | bad | revived | retyped | same => cases h

theorem readHardlinks_none (h : (v.readHardlinks id st).2.1 = none) : (v.readHardlinks id st).2.2 = [] := by
  unfold Volume.readHardlinks at h ⊢
  rcases hr : v.lookupMetadata id st false with ⟨v', _ | m⟩
  · rfl
  · rw [hr] at h
    dsimp only at h
    split_ifs at h

theorem Listed.metadataHardlinkInsert (h : v.Listed t) {link : Link} (hlink : (link, id) ∈ t.entries) :
    (v.metadataHardlinkInsert id st link).1.Listed t := by
  obtain ⟨hv, hfound, hnodup, hmem⟩ := h.readHardlinks id st
  unfold Volume.metadataHardlinkInsert
  rcases hr : v.readHardlinks id st with ⟨v', found, hl⟩
  rw [hr] at hv hfound hnodup hmem
  dsimp only at hv hfound hnodup hmem ⊢
  have hvol : v'.Listed t := hv ▸ h.lookupMetadata id st false
  have hid : (found.getD (v'.newMetadata id st)).id = id := by
    cases found with
    | none => rfl
    | some m => exact (h.lookup_result hfound.symm).1
  split_ifs with hmem'
  · exact hvol
  · refine hvol.writeHardlinks hid ?_ fun l hl' => ?_
    · exact nodup_append.mpr ⟨hnodup, nodup_singleton _, fun a ha b hb => by
        rw [mem_singleton.mp hb]
        exact fun heq => hmem' (heq ▸ ha)⟩
    · rcases mem_append.mp hl' with hl' | hl'
      · exact hmem l hl'
      · rw [mem_singleton.mp hl']
        exact hlink

theorem Listed.flushMetadata (h : v.Listed t) {r : Metadata} (hr : v.record m.id = some r) : (v.flushMetadata m).Listed t :=
  h.setRecord (m := { m with link := r.link }) (record_flushMetadata hr) (h.link m.id r hr) rfl

theorem Listed.deleteMetadata (h : v.Listed t) {link : Link} (hm : v.record id = some m) (hlink : (link, id) ∈ t.entries) :
    (v.deleteMetadata m id (some link)).Listed (t.remove link) := by
  have hid := h.key id m hm
  have hothers : ∀ l id', id' ≠ id → (l, id') ∈ t.entries → (l, id') ∈ (t.remove link).entries := by
    intro l id' hid' hl
    refine mem_filter.mpr ⟨hl, decide_eq_true fun heq => hid' ?_⟩
    subst heq
    exact congrArg Prod.snd (inj_on_of_nodup_map t.nodup hl hlink rfl)
  rcases deleteMetadata_cases link hm hid with ⟨hl, hfile, hrest, heq⟩ | ⟨-, hrecord, hfile⟩
  · obtain ⟨hnodup, hmem⟩ := h.file id hl hfile
    have hkept : ∀ x ∈ hl.erase link, (x, id) ∈ (t.remove link).entries := by
      intro x hx
      obtain ⟨hne, hx⟩ := (hnodup.mem_erase_iff).mp hx
      exact mem_filter.mpr ⟨hmem x hx, decide_eq_true hne⟩
    obtain ⟨link', hl', hrecord, hfile', hcases, hl'eq⟩ := writeHardlinks_spec (fun _ => hm) hid hrest
    rw [heq]
    refine h.update hothers hrecord hid (fun hown => ?_) hfile' fun l hl' => ?_
    · rcases hcases with ⟨rfl, hname⟩ | rfl | hmem'
      · exact absurd hname (t.named _ (h.link id m hm hown))
      · exact absurd hown noLink_not
      · exact hkept _ hmem'
    · rw [hl'eq l hl']
      exact ⟨hnodup.erase link, hkept⟩
  · exact h.update hothers hrecord hid (fun hown => absurd hown noLink_not) hfile fun l hl => by cases hl

/-! ## The generation in the record -/

/-- The generation of an inode; there is none before the first lookup. -/
def gen (v : Volume) (id : FileId) : ℕ := (v.record id).elim 0 (·.gen.toNat)

theorem gen_eq (hm : v.record id = some m) : v.gen id = m.gen.toNat := by
  rw [gen, hm]
  rfl

theorem gen_update (h : v'.record = Function.update v.record id (some m)) : v'.gen = Function.update v.gen id m.gen.toNat := by
  funext id'
  rw [gen, h, update_apply, update_apply]
  split_ifs with hid
  · rfl
  · rfl

def Grows (v v' : Volume) : Prop := ∀ id, v.gen id ≤ v'.gen id

theorem Grows.trans {v'' : Volume} (h : v.Grows v') (h' : v'.Grows v'') : v.Grows v'' := fun id => (h id).trans (h' id)

theorem grows_update (h : v'.record = Function.update v.record id (some m)) (hle : v.gen id ≤ m.gen.toNat) : v.Grows v' := by
  intro id'
  rw [gen_update h, update_apply]
  split_ifs with hid
  · rw [hid]
    exact hle
  · exact le_rfl

theorem toNat_succ {g : UInt32} (h : g.toNat + 1 < 2 ^ 32) : (g + 1).toNat = g.toNat + 1 := by
  have hadd : (g + 1).toNat = (g.toNat + 1) % 2 ^ 32 := UInt32.toNat_add _ _
  rw [hadd, Nat.mod_eq_of_lt h]

/-- The metadata `r` have the generation of the record, and it can be increased `k` times. -/
structure Current (v v' : Volume) (id : FileId) (k : ℕ) (r : Option Metadata) : Prop where
  grows : v.Grows v'
  room : v'.gen id + k < 2 ^ 32
  gen : ∀ m, r = some m → m.gen.toNat = v'.gen id

theorem current_update {k : ℕ} (h : v'.record = Function.update v.record id (some m)) (hle : v.gen id ≤ m.gen.toNat)
    (hroom : m.gen.toNat + k < 2 ^ 32) : Current v v' id k (some m) := by
  have hgen : v'.gen id = m.gen.toNat := by rw [gen_update h, update_self]
  refine ⟨grows_update h hle, by rwa [hgen], fun m' hm' => ?_⟩
  rw [hgen, Option.some.inj hm']

theorem current_same {k : ℕ} {m' : Metadata} (hm : v.record id = some m) (hgen : m'.gen = m.gen)
    (hroom : m.gen.toNat + k < 2 ^ 32) : Current v v id k (some m') := by
  refine ⟨fun _ => le_rfl, by rwa [gen_eq hm], fun m'' hm'' => ?_⟩
  rw [gen_eq hm, ← Option.some.inj hm'', hgen]

/-- `lookup_metadata` returns the generation of the record, which it increases if the file has another type. -/
theorem current_lookupMetadata (h : v.Listed t) (insert : Bool) {k : ℕ} (hk : 1 + k < 2 ^ 32)
    (hroom : ∀ m, v.record id = some m → m.gen.toNat + m.retyped st.type + k < 2 ^ 32) :
    Current v (v.lookupMetadata id st insert).1 id k (v.lookupMetadata id st insert).2 := by
  cases hr : v.lookupMetadata id st insert with
  | mk v' r =>
    have hres := hr ▸ lookupResult v id st insert
    cases hres with
    | absent hrec =>
      have hgen : v.gen id = 0 := by rw [gen, hrec]; rfl
      refine ⟨fun _ => le_rfl, ?_, fun m hm => by cases hm⟩
      change v.gen id + k < _
      omega
    | new hrec =>
      have hgen : v.gen id = 0 := by rw [gen, hrec]; rfl
      exact current_update (record_insertRecord _) (by rw [hgen]; exact Nat.zero_le _) hk
    | bad m hrec hbad =>
      have := hroom m hrec
      exact current_same hrec rfl (by omega)
    | revived m hrec hbad =>
      have := hroom m hrec
      have hid := h.key id m hrec
      subst hid
      exact current_update (record_insertRecord _) (gen_eq hrec).le (by change m.gen.toNat + k < _; omega)
    | retyped _ m hrec hne =>
      have hlt := hroom m hrec
      rw [Metadata.retyped, if_pos hne] at hlt
      have hid := h.key id m hrec
      subst hid
      have hgen : (v.nextMetadata (st.fill m)).gen.toNat = m.gen.toNat + 1 :=
        toNat_succ (by change m.gen.toNat + 1 < _; omega)
      refine current_update (record_deleteMetadataOfCreatedFile _) ?_ ?_
      · rw [hgen]
        exact (gen_eq hrec).le.trans (Nat.le_succ _)
      · rw [hgen]
        exact hlt
    | same _ m hrec =>
      have := hroom m hrec
      exact current_same hrec rfl (by omega)

theorem Current.deleteMetadataOfCreatedFile {v1 : Volume} (h : Current v v1 id 1 (some m)) (hid : m.id = id) :
    Current v (v1.deleteMetadataOfCreatedFile m).1 id 0 (some (v1.deleteMetadataOfCreatedFile m).2) := by
  subst hid
  have hgen := h.gen m rfl
  have hroom := h.room
  have hnext : (v1.nextMetadata m).gen.toNat = m.gen.toNat + 1 := toNat_succ (by omega)
  have hstep : Current v1 (v1.deleteMetadataOfCreatedFile m).1 m.id 0 (some (v1.nextMetadata m)) :=
    current_update (record_deleteMetadataOfCreatedFile m) (by omega) (by omega)
  exact ⟨h.grows.trans hstep.grows, hstep.room, hstep.gen⟩

theorem gen_writeHardlinks {b : Bool} {hl : List Link} (hgen : m.gen.toNat = v.gen id) (hid : m.id = id) :
    (v.writeHardlinks id b m hl).gen = v.gen := by
  subst hid
  have hsame : ∀ link, (v.insertRecord { m with link := link } false).gen = v.gen := by
    intro link
    rw [gen_update (record_insertRecord _), hgen]
    exact update_eq_self _ _
  unfold Volume.writeHardlinks
  split
  · rfl
  · split_ifs
    · rfl
    · exact hsame noLink
    · exact hsame _

theorem current_metadataHardlinkInsert (h : v.Listed t) (link : Link)
    (hroom : ∀ m, v.record id = some m → m.gen.toNat + m.retyped st.type < 2 ^ 32) :
    Current v (v.metadataHardlinkInsert id st link).1 id 0 (some (v.metadataHardlinkInsert id st link).2) := by
  obtain ⟨hv, hfound, -, -⟩ := h.readHardlinks id st
  have hnone : (v.readHardlinks id st).2.1 = none → (v.readHardlinks id st).2.2 = [] := readHardlinks_none
  have hcur := current_lookupMetadata h false (k := 0) (by decide) hroom
  unfold Volume.metadataHardlinkInsert
  rcases hr : v.readHardlinks id st with ⟨v1, found, hl⟩
  rw [hr] at hv hfound hnone
  dsimp only at hv hfound hnone ⊢
  cases found with
  | none =>
    obtain ⟨hrec, hsame⟩ := lookup_none hfound.symm
    have hgen : v.gen id = 0 := by rw [gen, hrec]; rfl
    rw [hnone rfl, hv, hsame, if_neg not_mem_nil]
    have hnovalid : (none : Option Metadata).isSome = true → v.record id = some (v.newMetadata id st) :=
      fun hb => by cases hb
    obtain ⟨link', -, hrecord, -⟩ := writeHardlinks_spec hnovalid rfl (append_ne_nil_of_right_ne_nil [] (cons_ne_nil link []))
    have hnew := current_update hrecord (k := 0) (by rw [hgen]; exact Nat.zero_le _) (by change 1 + 0 < 2 ^ 32; decide)
    have hone := hnew.gen { v.newMetadata id st with link := link' } rfl
    refine ⟨hnew.grows, hnew.room, fun m hm => ?_⟩
    rw [← Option.some.inj hm]
    exact hone
  | some m =>
    have hid := (h.lookup_result hfound.symm).1
    rw [← hv, ← hfound] at hcur
    split_ifs
    · exact hcur
    · have hgen : (v1.writeHardlinks id true m (hl ++ [link])).gen = v1.gen := gen_writeHardlinks (hcur.gen m rfl) hid
      refine ⟨fun id' => ?_, ?_, fun m' hm' => ?_⟩
      · change v.gen id' ≤ (v1.writeHardlinks id true m (hl ++ [link])).gen id'
        rw [hgen]
        exact hcur.grows id'
      · change (v1.writeHardlinks id true m (hl ++ [link])).gen id + 0 < 2 ^ 32
        rw [hgen]
        exact hcur.room
      · change m'.gen.toNat = (v1.writeHardlinks id true m (hl ++ [link])).gen id
        rw [hgen]
        exact hcur.gen m' hm'

/-- When a name is removed, the generation is kept only if the file has another name. -/
theorem gen_deleteMetadata (h : v.Listed t) (link : Link) (hm : v.record id = some m) (hroom : m.gen.toNat + 1 < 2 ^ 32) :
    v.Grows (v.deleteMetadata m id (some link)) ∧
      (v.gen id < (v.deleteMetadata m id (some link)).gen id ∨ (t.remove link).Exists id) := by
  have hid := h.key id m hm
  rcases deleteMetadata_cases link hm hid with ⟨hl, hfile, hrest, heq⟩ | ⟨-, hrecord, -⟩
  · obtain ⟨hnodup, hmem⟩ := h.file id hl hfile
    rw [heq]
    refine ⟨fun id' => ?_, .inr ?_⟩
    · rw [gen_writeHardlinks (gen_eq hm).symm hid]
    · obtain ⟨x, hx⟩ := exists_mem_of_ne_nil _ hrest
      obtain ⟨hne, hx⟩ := hnodup.mem_erase_iff.mp hx
      exact ⟨x, mem_filter.mpr ⟨hmem x hx, decide_eq_true hne⟩⟩
  · have hnext : (v.nextMetadata m).gen.toNat = m.gen.toNat + 1 := toNat_succ hroom
    have hgen := gen_eq hm
    refine ⟨grows_update hrecord ?_, .inl ?_⟩
    · change v.gen id ≤ (v.nextMetadata m).gen.toNat
      omega
    · rw [gen_update hrecord, update_self]
      change v.gen id < (v.nextMetadata m).gen.toNat
      omega

end Volume

/-! ## Runs -/

namespace GenState

open Volume

variable {s s' : GenState} {id : FileId}

/-- The generations that were handed out are at most those of the records, and they are theirs only for the files that
have the inodes now. -/
structure Inv (s : GenState) : Prop where
  listed : s.vol.Listed s.tree
  bound : ∀ h ∈ s.handed, h.gen.toNat ≤ s.vol.gen h.id
  current : ∀ h ∈ s.handed, h.gen.toNat = s.vol.gen h.id →
    s.tree.Exists h.id ∧ h.birth = s.births h.id ∧ h.type = s.ftype h.id
  unique : s.Unique

/-- The generations grow, and an inode that has no file any more gets another one. -/
theorem Inv.grow (h : s.Inv) {vol : Volume} {tree : Tree} (hlisted : vol.Listed tree) (hgrows : s.vol.Grows vol)
    (htree : ∀ id, s.tree.Exists id → tree.Exists id ∨ s.vol.gen id < vol.gen id) :
    { s with vol := vol, tree := tree }.Inv where
  listed := hlisted
  bound x hx := (h.bound x hx).trans (hgrows x.id)
  current x hx heq := by
    have hle := h.bound x hx
    have hgrow := hgrows x.id
    obtain ⟨hexists, hfile⟩ := h.current x hx (by change _ = vol.gen x.id at heq; omega)
    rcases htree x.id hexists with hex | hlt
    · exact ⟨hex, hfile⟩
    · change _ = vol.gen x.id at heq
      omega
  unique := h.unique

theorem Inv.hand (h : s.Inv) {g : UInt32} (hg : g.toNat = s.vol.gen id) (hexists : s.tree.Exists id) :
    (s.hand id g).Inv where
  listed := h.listed
  bound x hx := by
    rcases mem_cons.mp hx with rfl | hx
    · exact hg.le
    · exact h.bound x hx
  current x hx heq := by
    rcases mem_cons.mp hx with rfl | hx
    · exact ⟨hexists, rfl, rfl⟩
    · exact h.current x hx heq
  unique := by
    refine pairwise_cons.mpr ⟨fun x hx hid => ?_, h.unique⟩
    change id = x.id at hid
    subst hid
    have hle := h.bound x hx
    rw [← hg] at hle
    refine ⟨UInt32.le_iff_toNat_le.mpr hle, fun hne => UInt32.lt_iff_toNat_lt.mpr (lt_of_le_of_ne hle fun heq => ?_)⟩
    obtain ⟨-, hbirth, htype⟩ := h.current x hx (heq.trans hg)
    rcases hne with hne | hne
    · exact hne hbirth.symm
    · exact hne htype.symm

theorem Inv.setVol (h : s.Inv) {vol : Volume} (hlisted : vol.Listed s.tree) (hgrows : s.vol.Grows vol) :
    { s with vol := vol }.Inv := h.grow hlisted hgrows fun _ => .inl

theorem mem_add {t : Tree} {link : Link} (hfree : t.Free link) : t.entries ⊆ (t.add link id hfree).entries :=
  subset_cons_self _ _

theorem Inv.create (h : s.Inv) {type : FType} {link : Link} (hnew : ¬ s.tree.Exists id) (hfree : s.tree.Free link) :
    { s with
      tree := s.tree.add link id hfree
      ftype := update s.ftype id type
      births := update s.births id (s.births id + 1) }.Inv where
  listed := h.listed.mono (mem_add hfree)
  bound := h.bound
  current x hx heq := by
    obtain ⟨⟨link', hlink⟩, hfile⟩ := h.current x hx heq
    have hne : x.id ≠ id := fun hid => hnew ⟨link', hid ▸ hlink⟩
    refine ⟨⟨link', mem_add hfree hlink⟩, ?_⟩
    simpa only [update_of_ne hne] using hfile
  unique := h.unique

theorem Inv.unlink (h : s.Inv) {m : Metadata} {link : Link} (hlink : (link, id) ∈ s.tree.entries)
    (hm : s.vol.record id = some m) (hroom : m.gen.toNat + 1 < 2 ^ 32) :
    { s with vol := s.vol.deleteMetadata m id (some link), tree := s.tree.remove link }.Inv := by
  obtain ⟨hgrows, hlast⟩ := gen_deleteMetadata h.listed link hm hroom
  refine h.grow (h.listed.deleteMetadata hm hlink) hgrows fun id' ⟨link', hlink'⟩ => ?_
  by_cases hid : id' = id
  · subst hid
    exact hlast.symm
  · refine .inl ⟨link', mem_filter.mpr ⟨hlink', decide_eq_true fun heq => hid ?_⟩⟩
    subst heq
    exact congrArg Prod.snd (inj_on_of_nodup_map s.tree.nodup hlink' hlink rfl)

theorem Inv.step {e : GenEvent} (h : s.Inv) (hsafe : s.GenSafe e) (hstep : s.step e = some s') : s'.Inv := by
  cases e with
  | create id type link =>
    simp only [GenState.step] at hstep
    split_ifs at hstep with hcond
    cases hstep
    exact h.create hcond.1 hcond.2.2
  | link id link =>
    simp only [GenState.step] at hstep
    split_ifs at hstep with hcond
    cases hstep
    exact h.grow (h.listed.mono (mem_add hcond.2)) (fun _ => le_rfl) fun id' ⟨link', hlink'⟩ =>
      .inl ⟨link', mem_add hcond.2 hlink'⟩
  | lookup id st insert =>
    simp only [GenState.step] at hstep
    split_ifs at hstep with hcond
    have hcur := current_lookupMetadata h.listed insert (k := 0) (by decide) hsafe
    have hvol := h.setVol (h.listed.lookupMetadata id st insert) hcur.grows
    cases hstep
    cases hm : (s.vol.lookupMetadata id st insert).2 with
    | none => exact hvol
    | some m => exact hvol.hand (hcur.gen m hm) hcond.1
  | peek id st insert =>
    simp only [GenState.step] at hstep
    split_ifs at hstep with hbad
    cases hstep
    have hroom : ∀ m, s.vol.record id = some m → m.gen.toNat + m.retyped st.type + 0 < 2 ^ 32 := by
      intro m _
      rw [Metadata.retyped, if_neg fun hne => hne.2.2 hbad]
      exact m.gen.toNat_lt
    have hcur := current_lookupMetadata h.listed insert (by decide) hroom
    exact h.setVol (h.listed.lookupMetadata id st insert) hcur.grows
  | created id st =>
    simp only [GenState.step] at hstep
    split_ifs at hstep with hcond
    have hcur := current_lookupMetadata h.listed true (k := 1) (by decide) hsafe
    have hlisted := h.listed.lookupMetadata id st true
    have hid : ∀ m, (s.vol.lookupMetadata id st true).2 = some m → m.id = id :=
      fun m hm => (h.listed.lookup_result hm).1
    rcases hr : s.vol.lookupMetadata id st true with ⟨vol, _ | m⟩
    · rw [hr] at hstep hcur hlisted
      cases hstep
      exact h.setVol hlisted hcur.grows
    · rw [hr] at hstep hcur hlisted hid
      dsimp only at hstep
      split_ifs at hstep
      · cases hstep
        exact (h.setVol hlisted hcur.grows).hand (hcur.gen m rfl) hcond.1
      · cases hstep
        have hcur' := hcur.deleteMetadataOfCreatedFile (hid m rfl)
        exact (h.setVol (hlisted.deleteMetadataOfCreatedFile m) hcur'.grows).hand (hcur'.gen _ rfl) hcond.1
  | list id st link =>
    simp only [GenState.step] at hstep
    split_ifs at hstep with hcond
    cases hstep
    have hcur := current_metadataHardlinkInsert h.listed link hsafe
    exact (h.setVol (h.listed.metadataHardlinkInsert hcond.1) hcur.grows).hand (hcur.gen _ rfl) ⟨link, hcond.1⟩
  | unlink id st link =>
    simp only [GenState.step] at hstep
    split_ifs at hstep with hcond
    have hcur := current_lookupMetadata h.listed true (k := 1) (by decide) hsafe
    have hlisted := h.listed.lookupMetadata id st true
    obtain ⟨m, hm, hrecord⟩ := record_lookupMetadata (h.listed.key id) st
    rcases hr : s.vol.lookupMetadata id st true with ⟨vol, found⟩
    rw [hr] at hstep hcur hlisted hm hrecord
    cases hm
    cases hstep
    have hgen : m.gen.toNat = vol.gen id := hcur.gen m rfl
    have hroom : vol.gen id + 1 < 2 ^ 32 := hcur.room
    exact ((h.setVol hlisted hcur.grows).hand hgen ⟨link, hcond.1⟩).unlink hcond.1 hrecord (by omega)
  | flush m =>
    obtain ⟨r, hr, hgen⟩ := hsafe
    cases hstep
    refine h.setVol (h.listed.flushMetadata hr) (grows_update (record_flushMetadata hr) ?_)
    rw [gen_eq hr, hgen]

theorem start_inv (isCopy : Bool) (tree : Tree) (ftype : FileId → FType) : (start isCopy tree ftype).Inv where
  listed := by
    refine ⟨fun _ _ hm => ?_, fun _ _ hm => ?_, fun _ _ hl => ?_⟩
    · cases hm
    · cases hm
    · cases hl
  bound _ hx := by cases hx
  current _ hx := by cases hx
  unique := Pairwise.nil

end GenState

/-- As long as no generation overflows and no metadata are written to the file after the record was deleted, the
generations of an inode do not decrease and no handle is given out for two files. -/
theorem generations_unique (isCopy : Bool) (tree : Tree) (ftype : FileId → FType) (es : List GenEvent)
    (hsafe : ∀ x ∈ Runs.taken GenState.step (.start isCopy tree ftype) es, x.1.GenSafe x.2) :
    ∀ s ∈ Runs.visited GenState.step (.start isCopy tree ftype) es, s.Unique := fun s hs =>
  (Runs.visited_inv (fun _ _ _ h hc hstep => GenState.Inv.step h hc hstep) es _ (GenState.start_inv isCopy tree ftype)
    hsafe s hs).unique

def inodeReused : List GenEvent :=
  [.create (1, 2) .reg ⟨(1, 1), [97]⟩, .lookup (1, 2) ⟨1, 420, .reg, 0, 0⟩ true,
    .unlink (1, 2) ⟨1, 420, .reg, 0, 0⟩ ⟨(1, 1), [97]⟩, .create (1, 2) .reg ⟨(1, 1), [98]⟩,
    .lookup (1, 2) ⟨1, 420, .reg, 0, 0⟩ true]

theorem generations_unique_reused :
    ∃ s, Runs.run GenState.step (.start false ⟨[], nodup_nil, fun _ h => by cases h⟩ fun _ => .reg)
      inodeReused = some s ∧ s.Unique := by
  obtain ⟨s, hrun⟩ : ∃ s, Runs.run GenState.step
      (.start false ⟨[], nodup_nil, fun _ h => by cases h⟩ fun _ => .reg) inodeReused = some s := ⟨_, rfl⟩
  refine ⟨s, hrun, generations_unique _ _ _ _ ?_ s (Runs.mem_visited_of_run _ hrun)⟩
  decide +kernel

/-- A thread that writes to a file has its metadata in memory while the file is removed. When it writes them to the file,
the generation that `delete_metadata` has increased is lost, and the next file with the inode gets the handle of the
removed file. -/
theorem generation_lost : ¬ ∀ es : List GenEvent,
    ∀ s ∈ Runs.visited GenState.step (.start false ⟨[], nodup_nil, fun _ h => by cases h⟩ fun _ => .reg) es,
      s.Unique := by
  intro h
  obtain ⟨s, hrun, hhanded⟩ : ∃ s, Runs.run GenState.step
      (.start false ⟨[], nodup_nil, fun _ h => by cases h⟩ fun _ => .reg)
      [.create (1, 2) .reg ⟨(1, 1), [97]⟩, .lookup (1, 2) ⟨1, 420, .reg, 0, 0⟩ true,
        .unlink (1, 2) ⟨1, 420, .reg, 0, 0⟩ ⟨(1, 1), [97]⟩,
        .flush ⟨⟨1, 1, 2, 1, undefinedFh, 2, 2, 420, .reg, 0, 0⟩, noLink⟩,
        .create (1, 2) .reg ⟨(1, 1), [98]⟩, .lookup (1, 2) ⟨1, 420, .reg, 0, 0⟩ true] = some s ∧
      s.handed = [⟨(1, 2), 1, 2, .reg⟩, ⟨(1, 2), 1, 1, .reg⟩, ⟨(1, 2), 1, 1, .reg⟩] := ⟨_, rfl, rfl⟩
  have hunique := h _ s (Runs.mem_visited_of_run _ hrun)
  rw [GenState.Unique, hhanded] at hunique
  have hafter := (pairwise_cons.mp hunique).1 ⟨(1, 2), 1, 1, .reg⟩ mem_cons_self rfl
  exact absurd (hafter.2 (.inl (by decide))) (by decide)

end ZFS.Meta
