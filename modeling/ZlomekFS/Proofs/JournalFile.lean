import ZlomekFS.Proofs.Journal
import ZlomekFS.Spec.JournalFile

/-! The journal file holds what is needed to rebuild the journal in memory. -/

namespace ZFS
open Bytes List

/-! ## Records -/

/-- The version is in the range of its type, and so is the length of the name with its zero byte. -/
structure JournalEntry.Fits (e : JournalEntry) : Prop where
  name : e.name.length + 1 < 2 ^ 32
  masterVersion : e.masterVersion < 2 ^ 64

theorem JournalOperation.ofCode_code (oper : JournalOperation) : ofCode oper.code = some oper := by cases oper <;> rfl

theorem JournalOperation.code_lt (oper : JournalOperation) : oper.code < 2 ^ 32 := by cases oper <;> decide

theorem reads_uint32 (v : UInt32) : Reads readUint32 (toLE 4 v.toNat) v :=
  (reads_number4 v.toNat_lt).bind_pure UInt32.ofNat_toNat

theorem reads_zfsFh (fh : ZfsFh) : Reads readZfsFh fh.toBytes fh := by
  refine (reads_uint32 fh.sid).bind ?_
  refine (reads_uint32 fh.vid).bind ?_
  refine (reads_uint32 fh.dev).bind ?_
  refine (reads_uint32 fh.ino).bind ?_
  exact (reads_uint32 fh.gen).bind_pure rfl

theorem reads_journalRecord {e : JournalEntry} (h : e.Fits) : Reads readJournalRecord e.toBytes (some e) := by
  have hlen : (e.name ++ [0]).length = u32 (e.name.length + 1) := by
    rw [length_append, length_singleton, u32, Nat.mod_eq_of_lt h.name]
  refine (reads_uint32 e.file.1).bind ?_
  refine (reads_uint32 e.file.2.1).bind ?_
  refine (reads_uint32 e.file.2.2).bind ?_
  refine (reads_number4 e.oper.code_lt).bind ?_
  refine (reads_number4 (Nat.lt_of_succ_lt h.name)).bind ?_
  refine (reads_bytes hlen).bind ?_
  refine (reads_zfsFh e.masterFh).bind ?_
  refine (reads_number8 h.masterVersion).bind_pure ?_
  rw [JournalOperation.ofCode_code, take_left]
  rfl

theorem JournalEntry.toBytes_ne_nil (e : JournalEntry) : e.toBytes ≠ [] := by
  simp [JournalEntry.toBytes, toLE]

variable {l : List JournalEntry}

theorem readRecords_flatMap (h : ∀ e ∈ l, e.Fits) :
    DirJournal.readRecords (l.flatMap JournalEntry.toBytes) = l := by
  have hread := readAll_flatMap (r := readJournalRecord) JournalEntry.toBytes some rfl
    (fun e he => reads_journalRecord (h e he)) (length_le_flatMap JournalEntry.toBytes_ne_nil l)
  rw [DirJournal.readRecords, hread]
  change (l.map some).filterMap id = l
  rw [filterMap_map]
  exact filterMap_some

/-! ## Compact journals -/

/-- The entries of a compact journal, inserted one after another, stay as they are. -/
theorem foldl_journalInsert_of_compact (h : Compact l) : l.foldl journalInsert [] = l := by
  induction l using reverseRecOn with
  | nil => rfl
  | append_singleton l e ih =>
    obtain ⟨hl, -, he⟩ := pairwise_append.mp h
    have hbefore : ∀ a ∈ l, a.name = e.name → a.oper = .del ∧ e.oper = .add := fun a ha => he a ha e (by simp)
    rw [foldl_append, ih hl, foldl_cons, foldl_nil, journalInsert, if_neg]
    · refine congrArg (· ++ [e]) (filter_eq_self.mpr fun a ha => ?_)
      have hne : a.key ≠ e.key := fun hkey => by
        obtain ⟨hoper, hname⟩ := Prod.mk.inj hkey
        obtain ⟨hdel, hadd⟩ := hbefore a ha hname
        rw [hdel, hadd] at hoper
        cases hoper
      simpa using hne
    · rintro ⟨hdel, a, ha, hkey⟩
      obtain ⟨-, hadd⟩ := hbefore a ha (Prod.mk.inj hkey).2
      rw [hdel] at hadd
      cases hadd

theorem compact_foldl_from (h : Compact l) (ops : List JournalEntry) :
    Compact (ops.foldl journalInsert l) := by
  induction ops generalizing l with
  | nil => exact h
  | cons e ops ih => exact ih (compact_journalInsert h e)

theorem mem_of_mem_journalInsert {a e : JournalEntry} (h : a ∈ journalInsert l e) :
    a ∈ l ∨ a = e := by
  unfold journalInsert at h
  split_ifs at h
  · exact Or.inl (mem_of_mem_filter h)
  · rcases mem_append.mp h with h | h
    · exact Or.inl (mem_of_mem_filter h)
    · exact Or.inr (mem_singleton.mp h)

theorem fits_foldl {l ops : List JournalEntry} (hl : ∀ e ∈ l, e.Fits) (hops : ∀ e ∈ ops, e.Fits) :
    ∀ e ∈ ops.foldl journalInsert l, e.Fits := by
  induction ops generalizing l with
  | nil => exact hl
  | cons o ops ih =>
    refine ih (fun e he => ?_) fun e he => hops e (mem_cons_of_mem _ he)
    rcases mem_of_mem_journalInsert he with he | rfl
    · exact hl e he
    · exact hops e mem_cons_self

/-! ## The file and the memory -/

namespace DirJournal

/-- The file holds these records, and they make up the journal in memory. -/
structure Rebuilds (j : DirJournal) (records : List JournalEntry) : Prop where
  fits : ∀ e ∈ records, e.Fits
  file : j.file.getD [] = records.flatMap JournalEntry.toBytes
  entries : records.foldl journalInsert [] = j.entries

section Rebuilds
variable {j : DirJournal} {records : List JournalEntry}

theorem Rebuilds.compact (h : j.Rebuilds records) : Compact j.entries := h.entries ▸ compact_foldl records

theorem Rebuilds.fits_entries (h : j.Rebuilds records) : ∀ e ∈ j.entries, e.Fits :=
  h.entries ▸ fits_foldl (by simp) h.fits

theorem Rebuilds.eq_nil (h : j.Rebuilds records) (hf : j.file = none) : records = [] := by
  have hfile := h.file
  rw [hf, Option.getD_none, eq_comm, flatMap_eq_nil_iff] at hfile
  exact eq_nil_iff_forall_not_mem.mpr fun e he => e.toBytes_ne_nil (hfile e he)

theorem rebuilds_writeJournal (hc : Compact j.entries) (hf : ∀ e ∈ j.entries, e.Fits) :
    j.writeJournal.Rebuilds j.entries := by
  refine ⟨hf, ?_, foldl_journalInsert_of_compact hc⟩
  unfold writeJournal
  split_ifs with hnil
  · rw [hnil]; rfl
  · rfl

section
variable (h : j.Rebuilds records)

include h

theorem Rebuilds.add {e : JournalEntry} (he : e.Fits) :
    (j.addJournalEntry e).Rebuilds (records ++ [e]) := by
  refine ⟨fun a ha => ?_, ?_, ?_⟩
  · rcases mem_append.mp ha with ha | ha
    · exact h.fits a ha
    · exact mem_singleton.mp ha ▸ he
  · rw [flatMap_append, ← h.file]
    simp [addJournalEntry]
  · rw [foldl_append, h.entries]
    rfl

theorem Rebuilds.readJournal_entries (entries : List JournalEntry) :
    (readJournal { j with entries := entries }).entries = records.foldl journalInsert entries := by
  unfold readJournal
  cases hf : j.file with
  | none => rw [h.eq_nil hf]; rfl
  | some file =>
    have hfile := h.file
    rw [hf, Option.getD_some] at hfile
    rw [hfile]
    simp only [readRecords_flatMap h.fits]
    rfl

theorem Rebuilds.readJournal {entries : List JournalEntry} (hc : Compact entries)
    (hf : ∀ e ∈ entries, e.Fits) (hnone : j.file = none → entries = []) :
    ∃ records, (readJournal { j with entries := entries }).Rebuilds records := by
  unfold DirJournal.readJournal
  cases hfile : j.file with
  | none => exact ⟨[], by simp, rfl, (hnone hfile).symm⟩
  | some file =>
    have hfile' := h.file
    rw [hfile, Option.getD_some] at hfile'
    rw [hfile']
    simp only [readRecords_flatMap h.fits]
    exact ⟨_, rebuilds_writeJournal (compact_foldl_from hc records) (fits_foldl hf h.fits)⟩

theorem Rebuilds.call (c : JournalCall) (hc : ∀ e, c = .add e → e.Fits) :
    ∃ records, (j.call c).Rebuilds records := by
  cases c with
  | add e => exact ⟨_, h.add (hc e rfl)⟩
  | write => exact ⟨_, rebuilds_writeJournal h.compact h.fits_entries⟩
  | read =>
    refine h.readJournal h.compact h.fits_entries fun hnone => ?_
    rw [← h.entries, h.eq_nil hnone]
    rfl
  | restart => exact h.readJournal Pairwise.nil (by simp) fun _ => rfl

end

end Rebuilds

theorem rebuilds_calls {j : DirJournal} {records : List JournalEntry} (h : j.Rebuilds records) (calls : List JournalCall)
    (hc : ∀ e, .add e ∈ calls → e.Fits) : ∃ records, (calls.foldl call j).Rebuilds records := by
  induction calls generalizing j records with
  | nil => exact ⟨records, h⟩
  | cons c calls ih =>
    obtain ⟨_, h'⟩ := h.call c fun e he => hc e (he ▸ mem_cons_self)
    exact ih h' fun e he => hc e (mem_cons_of_mem _ he)

end DirJournal

/-- After any calls, interrupted or not, a new process that reads the journal file has the entries that were
in memory. -/
theorem restart_entries (calls : List JournalCall) (hfits : ∀ e, .add e ∈ calls → e.Fits) :
    (calls.foldl DirJournal.call .empty).restart.entries = (calls.foldl DirJournal.call .empty).entries := by
  have hempty : DirJournal.empty.Rebuilds [] := ⟨by simp, rfl, rfl⟩
  obtain ⟨records, h⟩ := DirJournal.rebuilds_calls hempty calls hfits
  rw [DirJournal.restart, h.readJournal_entries, h.entries]

/-- A name is added, deleted and added again around a restart; the file then has a record that the journal
does not. -/
theorem restart_entries_readded : let a : JournalEntry := ⟨.add, [97], (1, 1, 1), ⟨0, 0, 0, 0, 0⟩, 0⟩
    let d : JournalEntry := ⟨.del, [97], (1, 1, 1), ⟨2, 1, 1, 5, 1⟩, 3⟩
    let j := [JournalCall.add d, .add a, .restart, .add d, .add a].foldl DirJournal.call .empty
    j.restart.entries = j.entries := by
  intro a d j
  refine restart_entries _ fun e he => ?_
  simp only [mem_cons, JournalCall.add.injEq, reduceCtorEq, not_mem_nil, or_false, false_or] at he
  rcases he with rfl | rfl | rfl | rfl
  all_goals exact ⟨by decide, by decide⟩

/-! ## The directory after a restart -/

def JournalCall.added : JournalCall → List JournalEntry
  | .add e => [e]
  | _ => []

theorem DirJournal.Rebuilds.entries_calls {j : DirJournal} {records : List JournalEntry} (h : j.Rebuilds records)
    {calls : List JournalCall} (hc : ∀ e, .add e ∈ calls → e.Fits) (hread : .read ∉ calls) :
    (calls.foldl DirJournal.call j).entries = (calls.flatMap JournalCall.added).foldl journalInsert j.entries := by
  induction calls generalizing j records with
  | nil => rfl
  | cons c calls ih =>
    rw [mem_cons, not_or] at hread
    have hstep : (j.call c).entries = c.added.foldl journalInsert j.entries := by
      cases c with
      | add e => rfl
      | write => rfl
      | read => exact absurd rfl hread.1
      | restart => exact (h.readJournal_entries []).trans h.entries
    obtain ⟨_, h'⟩ := h.call c fun e he => hc e (he ▸ mem_cons_self)
    rw [foldl_cons, ih h' (fun e he => hc e (mem_cons_of_mem _ he)) hread.2, hstep, flatMap_cons,
      foldl_append]

/-- However often the process is restarted: the journal leads to the directory of the whole history. -/
theorem calls_replay_history (D₀ : Set Name) (calls : List JournalCall) (hfits : ∀ e, .add e ∈ calls → e.Fits)
    (hread : .read ∉ calls) (hv : ValidFrom D₀ (calls.flatMap JournalCall.added)) :
    replay D₀ (calls.foldl DirJournal.call .empty).entries = replay D₀ (calls.flatMap JournalCall.added) := by
  have hempty : DirJournal.empty.Rebuilds [] := ⟨by simp, rfl, rfl⟩
  rw [hempty.entries_calls hfits hread]
  classical
  have htrack : Tracks D₀ fun n => if n ∈ D₀ then some () else none := fun n => by
    by_cases hn : n ∈ D₀ <;> simp [hn]
  have hnames := entries_of_history htrack (fun _ => ()) hv
  ext n
  rw [htrack.replay, htrack.replay, (hnames n).replay]

/-- The file `a` is deleted before a restart. -/
theorem calls_replay_deletion : ∃ e : JournalEntry,
    replay {[97]} ([JournalCall.add e, .restart].foldl DirJournal.call .empty).entries = replay {[97]} [e] := by
  refine ⟨⟨.del, [97], (1, 1, 1), ⟨2, 1, 1, 5, 1⟩, 3⟩, calls_replay_history {[97]} _ (fun e he => ?_) (by simp) ?_⟩
  · obtain rfl : e = _ := by simpa using he
    exact ⟨by decide, by decide⟩
  · simp [JournalCall.added, ValidFrom, Applicable]

end ZFS
