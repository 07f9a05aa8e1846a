import ZlomekFS.Proofs.Complement
import ZlomekFS.Spec.FileVersions

/-! A version file keeps the original bytes, as long as nothing is skipped, cut short or copied twice. -/

namespace ZFS
open Spans Trees FlatFile IntervalTree

/-! ## Copying -/

theorem toRead_le (length : ℕ) : toRead length ≤ length := by
  have hle : u32 length ≤ length := Nat.mod_le _ _
  unfold toRead
  split_ifs
  · omega
  · exact hle

section Copy
variable {file version : FlatFile UInt8} {offset length o : ℕ} {newdata : Option (ℕ → UInt8)}

theorem byte_write_read (hle : offset ≤ o) (hlt : o < offset + length) (hsize : o < file.size) :
    (version.write offset (file.read offset length)).byte o = file.byte o := by
  have hlen : o < offset + (file.read offset length).length := by
    rw [length_read]
    omega
  rw [byte_write _ _ 0 hle hlen, getD_read _ _ _ _ _ (by omega) (by omega)]
  congr 1
  omega

theorem size_le_versionCopyData : version.size ≤ (versionCopyData file version offset length newdata).size := by
  unfold versionCopyData
  dsimp only
  split_ifs
  · exact le_rfl
  · by_cases hnil : file.read offset (toRead length) = []
    · rw [hnil, write_nil]
    · rw [size_write _ _ hnil]
      exact le_max_left _ _
  · exact le_rfl

/-- A byte stays, or it is the current one of the range. -/
theorem byte_versionCopyData (file version : FlatFile UInt8) (offset length : ℕ) (newdata : Option (ℕ → UInt8)) (o : ℕ) :
    (versionCopyData file version offset length newdata).byte o = version.byte o ∨
      (offset ≤ o ∧ o < offset + length) ∧ (versionCopyData file version offset length newdata).byte o = file.byte o := by
  have hread := toRead_le length
  unfold versionCopyData
  dsimp only
  split_ifs
  · exact .inl rfl
  · by_cases hle : offset ≤ o
    · by_cases hlt : offset + (file.read offset (toRead length)).length ≤ o
      · exact .inl (byte_write_of_ge _ _ hlt)
      · rw [length_read] at hlt
        exact .inr ⟨⟨hle, by omega⟩, byte_write_read hle (by omega) (by omega)⟩
    · exact .inl (byte_write_of_lt _ _ (by omega))
  · exact .inl rfl

/-- What is read is copied, unless it is what `newdata` points at. -/
theorem byte_versionCopyData_of_read (hseek : Seekable offset)
    (hdiff : ∀ p ∈ newdata, ∃ i < toRead length, offset + i < file.size ∧ file.byte (offset + i) ≠ p i)
    (hle : offset ≤ o) (hlt : o < offset + toRead length) (hsize : o < file.size) :
    (versionCopyData file version offset length newdata).byte o = file.byte o := by
  have hskip : ¬ newdata.any (fun p => file.read offset (toRead length) =
      (List.range (file.read offset (toRead length)).length).map p) = true := by
    cases newdata with
    | none => simp
    | some p =>
      obtain ⟨i, hi, hfile, hne⟩ := hdiff p rfl
      intro hsame
      have hget := congrArg (·.getD i 0) (of_decide_eq_true hsame)
      have hlen : i < (file.read offset (toRead length)).length := by
        rw [length_read]
        omega
      rw [getD_read _ _ _ _ _ hi hfile] at hget
      refine hne (hget.trans ?_)
      rw [List.getD_eq_getElem?_getD, List.getElem?_map, List.getElem?_range hlen]
      rfl
  unfold versionCopyData
  dsimp only
  rw [if_pos hseek, if_neg hskip]
  exact byte_write_read hle hlt hsize

end Copy

namespace VersionedFile

variable {s : VersionedFile} {save : List Span} {header : ℕ → UInt8} {o : ℕ} {t : IntervalTree}

/-! ## The loop over the intervals -/

theorem size_le_copyAll : s.version.size ≤ (s.copyAll save header).size := by
  unfold copyAll
  induction save generalizing s with
  | nil => exact le_rfl
  | cons x save ih =>
    rw [List.foldl_cons]
    exact size_le_versionCopyData.trans
      (ih (s := { s with version := versionCopyData s.file s.version x.start (x.stop - x.start) (some header) }))

theorem byte_copyAll (save : List Span) (header : ℕ → UInt8) (o : ℕ) : (s.copyAll save header).byte o = s.version.byte o ∨
    Covers save o ∧ (s.copyAll save header).byte o = s.file.byte o := by
  unfold copyAll
  induction save generalizing s with
  | nil => exact .inl rfl
  | cons x save ih =>
    rw [List.foldl_cons, covers_cons]
    have hx := byte_versionCopyData s.file s.version x.start (x.stop - x.start) (some header) o
    rcases ih (s := { s with version := versionCopyData s.file s.version x.start (x.stop - x.start) (some header) })
      with hrest | ⟨hcov, hrest⟩
    · rcases hx with hx | ⟨hin, hx⟩
      · exact .inl (hrest.trans hx)
      · exact .inr ⟨.inl ⟨hin.1, by omega⟩, hrest.trans hx⟩
    · exact .inr ⟨.inr hcov, hrest⟩

theorem byte_copyAll_of_mem {x : Span} (hx : x ∈ save) (hseek : Seekable x.start)
    (hdiff : ∃ i < toRead (x.stop - x.start), x.start + i < s.file.size ∧ s.file.byte (x.start + i) ≠ header i)
    (hle : x.start ≤ o) (hlt : o < x.start + toRead (x.stop - x.start)) (hsize : o < s.file.size) :
    (s.copyAll save header).byte o = s.file.byte o := by
  obtain ⟨A, B, rfl⟩ := List.append_of_mem hx
  -- the copy of this interval, on top of those before it
  set s1 : VersionedFile := { s with version := versionCopyData s.file (s.copyAll A header) x.start (x.stop - x.start) (some header) }
  have hcopy : s1.version.byte o = s.file.byte o :=
    byte_versionCopyData_of_read hseek (fun p hp => Option.some.inj hp ▸ hdiff) hle hlt hsize
  have hall : s.copyAll (A ++ x :: B) header = s1.copyAll B header := by
    unfold copyAll
    rw [List.foldl_append, List.foldl_cons]
    rfl
  rw [hall]
  rcases byte_copyAll (s := s1) B header o with h | ⟨-, h⟩
  · exact h.trans hcopy
  · exact h

/-! ## The invariant -/

structure Inv (s : VersionedFile) (t : IntervalTree) : Prop where
  refines : s.versioned.Refines t
  /-- The original bytes that are not versioned are still in the file. -/
  kept : ∀ o < s.orig.size, o ∉ t → o < s.file.size ∧ s.file.byte o = s.orig.byte o
  saved : ∀ o < s.orig.size, o ∈ t → s.version.byte o = s.orig.byte o
  changed : ∀ o < s.orig.size, Covers s.changed o → o ∈ t
  size_le : s.orig.size ≤ s.version.size
  seekable : s.orig.size < 2 ^ 63

theorem isVersioned_iff (h : s.versioned.Refines t) : s.IsVersioned o ↔ o ∈ t := by
  rw [IsVersioned, h.rep.nodes]
  exact Iff.rfl

theorem Inv.preserved (h : s.Inv t) : s.Preserved where
  changed o ho hchanged := ⟨ho.trans_le h.size_le, h.saved o ho (h.changed o ho hchanged)⟩
  versioned o hv := by
    by_cases ho : o < s.orig.size
    · exact .inl ⟨ho.trans_le h.size_le, h.saved o ho ((isVersioned_iff h.refines).mp hv)⟩
    · exact .inr (not_lt.mp ho)

theorem inv_create (orig : FlatFile UInt8) (fileTruncated newFile : Bool) (hsize : orig.size < 2 ^ 63) :
    (create orig fileTruncated newFile).Inv .create where
  refines := IntervalTreeDef.create_refines
  kept _ ho _ := ⟨ho, rfl⟩
  saved o _ ho := absurd ho (not_mem_create o)
  changed o _ ho := absurd ho (not_covers_nil o)
  size_le := le_rfl
  seekable := hsize

theorem size_le_write (f : FlatFile UInt8) (offset : ℕ) (data : List UInt8) : f.size ≤ (f.write offset data).size := by
  by_cases hnil : data = []
  · rw [hnil, write_nil]
  · rw [size_write _ _ hnil]
    exact le_max_left _ _

theorem byte_write_of_not_has {f : FlatFile UInt8} {offset : ℕ} {data : List UInt8}
    (ho : ¬ (offset ≤ o ∧ o < offset + data.length)) : (f.write offset data).byte o = f.byte o := by
  by_cases hlt : o < offset
  · exact byte_write_of_lt _ _ hlt
  · exact byte_write_of_ge _ _ (by omega)

theorem Inv.write (h : s.Inv t) (offset : ℕ) (data : List UInt8)
    (hrange : ∀ o < s.orig.size, offset ≤ o → o < offset + data.length → o ∈ t) : (s.write offset data).Inv t := by
  unfold VersionedFile.write
  split_ifs
  · refine ⟨h.refines, fun o ho hnot => ?_, h.saved, fun o ho hcov => ?_, h.size_le, h.seekable⟩
    · obtain ⟨hsize, hbyte⟩ := h.kept o ho hnot
      refine ⟨hsize.trans_le (size_le_write _ _ _), ?_⟩
      rw [byte_write_of_not_has fun hin => hnot (hrange o ho hin.1 hin.2)]
      exact hbyte
    · rcases (covers_cons _ _ _).mp hcov with hin | hcov
      · exact hrange o ho hin.1 hin.2
      · exact h.changed o ho hcov
  · exact h

theorem Inv.setSize (h : s.Inv t) {size : ℕ} (hrange : ∀ o < s.orig.size, size ≤ o → o < s.file.size → o ∈ t) :
    (s.setSize size).Inv t := by
  unfold VersionedFile.setSize
  split_ifs
  · refine ⟨h.refines, fun o ho hnot => ?_, h.saved, fun o ho hcov => ?_, h.size_le, h.seekable⟩
    · obtain ⟨hsize, hbyte⟩ := h.kept o ho hnot
      have hlt : o < size := not_le.mp fun hle => hnot (hrange o ho hle hsize)
      exact ⟨hlt, (byte_truncate_of_lt _ hlt).trans hbyte⟩
    · rcases (covers_cons _ _ _).mp hcov with hin | hcov
      · exact hrange o ho hin.1 hin.2
      · exact h.changed o ho hcov
  · exact h

/-! ## Writing -/

theorem unsaved_eq (h : s.versioned.Refines t) (start stop : ℕ) : s.unsaved start stop = t.complement start stop := by
  obtain ⟨t', hrun, -⟩ := h.complement1 start stop []
  rw [unsaved, IntervalTreeDef.complement, hrun]
  rfl

/-- The parts of the range that are not versioned are copied before they are marked. -/
theorem Inv.mark (h : s.Inv t) {start stop : ℕ} (hle : start ≤ stop) (hstop : stop < 2 ^ 32)
    (hsafe : ∀ x ∈ t.complement start stop, x.start < s.orig.size → s.Copied x stop header) {versioned : IntervalTreeDef}
    (href : versioned.Refines (t.insert start stop hle)) :
    Inv { s with versioned := versioned, version := s.copyAll (t.complement start stop) header } (t.insert start stop hle) := by
  have hparts := t.complement_spec start stop
  refine ⟨href, fun o ho hnot => ?_, fun o ho hmem => ?_, fun o ho hcov => ?_, h.size_le.trans size_le_copyAll, h.seekable⟩
  · exact h.kept o ho fun hmem => hnot (mem_insert.mpr (.inl hmem))
  · change (s.copyAll (t.complement start stop) header).byte o = s.orig.byte o
    by_cases ht : o ∈ t
    · rcases byte_copyAll (s := s) (t.complement start stop) header o with heq | ⟨hcov, -⟩
      · exact heq.trans (h.saved o ho ht)
      · exact absurd ht (hparts.not_mem o hcov)
    · obtain ⟨hstart, hlt⟩ := (mem_insert.mp hmem).resolve_left ht
      obtain ⟨x, hx, hin⟩ := hparts.covers o hstart hlt ht
      obtain ⟨hread, hdiff⟩ := hsafe x hx (hin.1.trans_lt ho)
      obtain ⟨hsize, hbyte⟩ := h.kept o ho ht
      have hseek : Seekable x.start := by
        have := hparts.lt_stop x hx
        unfold Seekable
        omega
      rw [byte_copyAll_of_mem hx hseek hdiff hin.1 ((lt_min (lt_min hin.2 hlt) ho).trans_le hread) hsize]
      exact hbyte
  · exact mem_insert.mpr (.inl (h.changed o ho hcov))

theorem Inv.localWrite (h : s.Inv t) {offset : ℕ} {data : List UInt8} (hsafe : s.WriteSafe offset data header) :
    ∃ s' t', s.localWrite offset data header = some s' ∧ s'.Inv t' := by
  unfold VersionedFile.localWrite
  split_ifs with htrunc
  · exact ⟨_, t, rfl, h.write offset data fun o ho hle _ => absurd ((hsafe.1 htrunc).trans hle) (not_le.mpr ho)⟩
  · obtain ⟨hend, hparts⟩ := hsafe.2 (Bool.not_eq_true _ ▸ htrunc)
    rw [unsaved_eq h.refines] at hparts
    have hverend : u32 (offset + data.length) = offset + data.length := Nat.mod_eq_of_lt hend
    have hle : offset ≤ offset + data.length := Nat.le_add_right _ _
    obtain ⟨t1, hrun, href1⟩ := h.refines.complement1 offset (offset + data.length) []
    obtain ⟨t2, hins, href2⟩ := href1.insert hle
    refine ⟨_, t.insert offset _ hle, ?_, (h.mark hle hend hparts href2).write offset data fun o _ hlo hhi => ?_⟩
    · dsimp only
      rw [hverend, IntervalTreeDef.complement, hrun, Option.bind_some, hins]
      rfl
    · exact mem_insert.mpr (.inr ⟨hlo, hhi⟩)

/-! ## Truncating -/

/-- The bytes that are cut off are copied, also those that are versioned. -/
theorem Inv.cut (h : s.Inv t) {size : ℕ} (hlt : size < s.file.size)
    (hread : size < min s.file.size s.orig.size → min s.file.size s.orig.size ≤ size + toRead (s.file.size - size))
    (hsame : ∀ o, size ≤ o → o < min s.file.size s.orig.size → o ∈ t → s.file.byte o = s.orig.byte o)
    {versioned : IntervalTreeDef} (href : versioned.Refines (t.insert size s.file.size hlt.le)) :
    Inv { s with
      versioned := versioned
      version := versionCopyData s.file s.version size (s.file.size - size) none } (t.insert size s.file.size hlt.le) := by
  refine ⟨href, fun o ho hnot => ?_, fun o ho hmem => ?_, fun o ho hcov => ?_, h.size_le.trans size_le_versionCopyData, h.seekable⟩
  · exact h.kept o ho fun hmem => hnot (mem_insert.mpr (.inl hmem))
  · change (versionCopyData s.file s.version size (s.file.size - size) none).byte o = s.orig.byte o
    -- the current byte is the original one wherever something is copied
    have hbyte : size ≤ o → o < s.file.size → s.file.byte o = s.orig.byte o := by
      intro hle hsize
      by_cases ht : o ∈ t
      · exact hsame o hle (lt_min hsize ho) ht
      · exact (h.kept o ho ht).2
    by_cases hin : size ≤ o ∧ o < s.file.size
    · have hmin := lt_min hin.2 ho
      have hseek : Seekable size := lt_of_le_of_lt (hin.1.trans ho.le) h.seekable
      rw [byte_versionCopyData_of_read hseek (fun p hp => by cases hp) hin.1
        (hmin.trans_le (hread (hin.1.trans_lt hmin))) hin.2]
      exact hbyte hin.1 hin.2
    · rcases byte_versionCopyData s.file s.version size (s.file.size - size) none o with heq | ⟨hin', -⟩
      · exact heq.trans (h.saved o ho ((mem_insert.mp hmem).resolve_right hin))
      · exact absurd ⟨hin'.1, by omega⟩ hin
  · exact mem_insert.mpr (.inl (h.changed o ho hcov))

theorem Inv.localSetattr (h : s.Inv t) {size : ℕ} (hsafe : s.TruncateSafe size) :
    ∃ s' t', s.localSetattr size = some s' ∧ s'.Inv t' := by
  unfold VersionedFile.localSetattr
  split_ifs with hcut
  · obtain ⟨t1, hins, href⟩ := h.refines.insert hcut.2.le
    have hsame : ∀ o, size ≤ o → o < min s.file.size s.orig.size → o ∈ t → s.file.byte o = s.orig.byte o := by
      intro o hle hlt ht
      exact (hsafe (hle.trans_lt hlt)).2.2 o hle hlt ((isVersioned_iff h.refines).mpr ht)
    refine ⟨_, _, by rw [hins]; rfl, (h.cut hcut.2 (fun hlt => (hsafe hlt).2.1) hsame href).setSize fun o _ hle hlt => ?_⟩
    exact mem_insert.mpr (.inr ⟨hle, hlt⟩)
  · refine ⟨_, t, rfl, h.setSize fun o ho hle hlt => absurd ⟨?_, hle.trans_lt hlt⟩ hcut⟩
    exact (hsafe (hle.trans_lt (lt_min hlt ho))).1

/-! ## Runs -/

def threeBytes : FlatFile UInt8 := ofList [1, 2, 3]

end VersionedFile

end ZFS
