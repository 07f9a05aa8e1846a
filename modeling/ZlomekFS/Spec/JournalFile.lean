import ZlomekFS.Lib.Bytes
import ZlomekFS.Spec.Journal

/-! The journal file of a directory, `metadata.c`. `flush_journal` writes the entries of the journal,
`add_journal_entry` appends a record, `read_journal` inserts the records one after another. The
descriptor is closed before the file is replaced or removed, so a record is always appended to the
file that the path names. -/

namespace ZFS
open Bytes

def JournalOperation.code : JournalOperation → ℕ
  | .add => 0
  | .del => 1

/-- `oper < JOURNAL_OPERATION_LAST_AND_UNUSED` -/
def JournalOperation.ofCode : ℕ → Option JournalOperation
  | 0 => some .add
  | 1 => some .del
  | _ => none

def ZfsFh.toBytes (fh : ZfsFh) : List UInt8 :=
  toLE 4 fh.sid.toNat ++ (toLE 4 fh.vid.toNat ++ (toLE 4 fh.dev.toNat ++ (toLE 4 fh.ino.toNat ++ toLE 4 fh.gen.toNat)))

def readUint32 : Reader UInt32 := do
  let n ← number 4
  return UInt32.ofNat n

def readZfsFh : Reader ZfsFh := do
  let sid ← readUint32
  let vid ← readUint32
  let dev ← readUint32
  let ino ← readUint32
  let gen ← readUint32
  return ⟨sid, vid, dev, ino, gen⟩

def JournalEntry.toBytes (e : JournalEntry) : List UInt8 :=
  toLE 4 e.file.1.toNat ++ (toLE 4 e.file.2.1.toNat ++ (toLE 4 e.file.2.2.toNat ++ (toLE 4 e.oper.code ++
    (toLE 4 e.name.length ++ ((e.name ++ [0]) ++ (e.masterFh.toBytes ++ toLE 8 e.masterVersion))))))

/-- One round of the loop of `read_journal`; a record with an unknown operation is skipped. -/
def readJournalRecord : Reader (Option JournalEntry) := do
  let dev ← readUint32
  let ino ← readUint32
  let gen ← readUint32
  let oper ← number 4
  let len ← number 4
  let str ← bytes (u32 (len + 1))
  let masterFh ← readZfsFh
  let masterVersion ← number 8
  return (JournalOperation.ofCode oper).map fun oper => ⟨oper, str.take len, (dev, ino, gen), masterFh, masterVersion⟩

structure DirJournal where
  file : Option (List UInt8)
  entries : List JournalEntry

namespace DirJournal

def empty : DirJournal := ⟨none, []⟩

def writeJournal (j : DirJournal) : DirJournal :=
  { j with file := if j.entries = [] then none else some (j.entries.flatMap JournalEntry.toBytes) }

/-- The entries of a journal file. A record takes bytes, so there are not more of them than bytes. -/
def readRecords (file : List UInt8) : List JournalEntry :=
  (readAll readJournalRecord file.length file).reduceOption

def readJournal (j : DirJournal) : DirJournal :=
  match j.file with
  | none => j
  | some file => writeJournal { j with entries := (readRecords file).foldl journalInsert j.entries }

def addJournalEntry (j : DirJournal) (e : JournalEntry) : DirJournal where
  file := some (j.file.getD [] ++ e.toBytes)
  entries := journalInsert j.entries e

/-- A new process has the file only and reads it. -/
def restart (j : DirJournal) : DirJournal := readJournal { j with entries := [] }

end DirJournal

inductive JournalCall
  | add (e : JournalEntry)
  | write
  | read
  | restart

def DirJournal.call (j : DirJournal) : JournalCall → DirJournal
  | .add e => j.addJournalEntry e
  | .write => j.writeJournal
  | .read => j.readJournal
  | .restart => j.restart

end ZFS
