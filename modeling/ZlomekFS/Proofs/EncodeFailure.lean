import ZlomekFS.Proofs.Messages

/-! What an encoder that returns false leaves behind. The packet is as it was only if there was no room for the first
value of the message; otherwise a part of the message stays in it. -/

namespace ZFS.Protocol
open Bytes Packets

/-- Messages are encoded one after another, each of them successfully. -/
def Encoded (dc : DC) : List Message → Prop
  | [] => True
  | m :: ms => (m.encode dc).1 = some () ∧ m.LeavesRoom dc ∧ Encoded (m.encode dc).2 ms

/-- A decoder gets the messages back, and nothing is left of the packet. -/
def Decodes (dd : DC) : List Message → Prop
  | [] => dd.curLength = dd.maxLength
  | m :: ms => (m.1.codec.decode dd).1 = some m.2 ∧ Decodes (m.1.codec.decode dd).2 ms

/-- The packet as it is decoded from the place of `dc` on. -/
def DC.received (dc dc' : DC) : DC := ⟨dc'.buffer, dc.curPos, dc'.curLength, dc.curLength⟩

/-- The packet is where it was. What is encoded next, and only that, is decoded from this place on. -/
structure Restored (dc dc' : DC) : Prop where
  bytes : ∀ i < dc.curPos, dc'.buffer i = dc.buffer i
  place : dc'.curPos = dc.curPos ∧ dc'.curLength = dc.curLength
  further : ∀ after, Encoded dc' after → Decodes (dc.received (encodeAll dc' after)) after

theorem decodes_encodeAll (ms : List Message) : ∀ dc : DC, dc.Ready → Encoded dc ms →
    (encodeAll dc ms).Ready ∧ dc.curLength ≤ (encodeAll dc ms).curLength ∧
      Decodes (dc.received (encodeAll dc ms)) ms := by
  induction ms with
  | nil =>
    intro dc hdc _
    exact ⟨hdc, le_rfl, rfl⟩
  | cons m ms ih =>
    intro dc hdc ⟨hsome, hroom, hrest⟩
    obtain ⟨w, hw, hfits⟩ := agree_message m
    have hlen := hfits dc hdc hroom hsome
    have hadd := hw.writes dc hdc hlen
    rw [hadd] at hrest
    obtain ⟨hend, hle, hdec⟩ := ih _ (hdc.add hlen) hrest
    have hkeeps := encodeAll_keeps ms (dc.add (w dc.curLength))
    have hall : encodeAll dc (m :: ms) = encodeAll (dc.add (w dc.curLength)) ms := by
      rw [encodeAll, List.foldl_cons, hadd]
      rfl
    rw [hall]
    generalize encodeAll (dc.add (w dc.curLength)) ms = out at *
    have hwle : w.stop dc.curLength ≤ out.curLength := hle
    have hdd : (dc.received out).Ready := ⟨hdc.sync, (w.le_stop _).trans hwle, hend.room.trans hend.size⟩
    have hlies : Lies out.buffer dc.curLength (w dc.curLength) := by
      refine (lies_put dc.buffer dc.curLength (w dc.curLength)).congr fun i _ hi => ?_
      rw [hkeeps i (hi.trans_eq (congrArg (· + _) hdc.sync.symm)), ← hdc.sync]
      rfl
    rw [Decodes, hw.reads _ hdd hwle hlies]
    exact ⟨hend, (w.le_stop _).trans hwle, rfl, hdec⟩

theorem encode_md5sum (m : Message) (h : m.1 = .md5sumArgs ∨ m.1 = .md5sumRes) (dc : DC) : (m.encode dc).1 = some () := by
  have heach : ∀ {α : Type} (e : α → Coding Unit) {n : ℕ} (v : List.Vector α n) (dc : DC),
      (encodeEach (fun a => ignore (e a)) v dc).1 = some () := by
    intro α e n v
    induction n with
    | zero => exact fun _ => rfl
    | succ n ih => exact fun dc => ih v.tail _
  have hbind : ∀ {e : Coding Unit} {f : Unit → Coding Unit}, (∀ dc, (e dc).1 = some ()) →
      (∀ dc, (f () dc).1 = some ()) → ∀ dc, ((e >>= f) dc).1 = some () := by
    intro e f he hf dc
    rw [bind_of_some (Prod.ext (he dc) rfl)]
    exact hf _
  obtain ⟨t, v⟩ := m
  obtain rfl | rfl := h
  · exact hbind (heach _ v.offset) (heach _ v.length) _
  · exact hbind (heach _ v.offset) (hbind (heach _ v.length) (heach _ v.md5sum)) _

theorem encodeFixedBuffer_refused {n : ℕ} (v : List.Vector UInt8 n) (hn : n < 2 ^ 31) {dc : DC} (hdc : dc.Ready)
    (hfail : (encodeFixedBuffer v dc).1 = none) :
    (encodeFixedBuffer v dc).2 = dc ∧ dc.maxLength < dc.curLength + n := by
  have hroom : ¬ dc.curLength + n ≤ dc.maxLength := fun hroom => by
    rw [(exact_fixedBuffer v hn).writes dc hdc (by rwa [Layout.stop_raw, v.toList_length])] at hfail
    cases hfail
  refine ⟨?_, not_le.mp hroom⟩
  change (encodeBytes dc.curLength v.toList dc).1 = none at hfail
  change (encodeBytes dc.curLength v.toList dc).2 = dc
  unfold encodeBytes at hfail ⊢
  dsimp only at hfail ⊢
  split_ifs at hfail ⊢
  rfl

theorem Restored.refl {dc : DC} (hdc : dc.Ready) : Restored dc dc :=
  ⟨fun _ _ => rfl, ⟨rfl, rfl⟩, fun after h => (decodes_encodeAll after dc hdc h).2.2⟩

/-- A failure leaves no trace if and only if there was no room for the first value. -/
theorem encode_restored_iff (m : Message) {dc : DC} (hdc : dc.Ready) (hfail : (m.encode dc).1 = none) :
    Restored dc (m.encode dc).2 ↔ dc.maxLength < m.1.firstStop dc.curLength := by
  have hno : ¬ (m.1 = .md5sumArgs ∨ m.1 = .md5sumRes) := fun h => by simp [encode_md5sum m h dc] at hfail
  by_cases hbuffer : ∃ len, m.1 = .fixedBuffer len
  · obtain ⟨_, v⟩ := m
    obtain ⟨len, rfl⟩ := hbuffer
    obtain ⟨hback, hfull⟩ := encodeFixedBuffer_refused v len.isLt hdc hfail
    exact iff_of_true (hback.symm ▸ Restored.refl hdc) hfull
  have hbuffer := not_exists.mp hbuffer
  obtain ⟨hstarts, -⟩ := coded_message m (fun h => hno (Or.inl h)) (fun h => hno (Or.inr h)) hbuffer
  have hstop : m.1.firstStop dc.curLength = align m.1.firstSize dc.curLength + m.1.firstSize := by
    unfold MessageType.firstStop
    split
    · exact absurd ‹_› (hbuffer _)
    · rfl
  rw [hstop]
  constructor
  · intro h
    by_contra hroom
    exact (hstarts.moves dc hdc (not_lt.mp hroom)).ne' h.place.1
  · intro hroom
    rw [hstarts.refuses dc hdc hroom]
    exact Restored.refl hdc

def endOfPacket : DC := ⟨fun _ => 0, ZFS_DC_SIZE, ZFS_DC_SIZE, ZFS_DC_SIZE⟩

theorem encode_restored_iff_status : (Message.encode ⟨.status, (0 : Int32)⟩ endOfPacket).1 = none ∧
    Restored endOfPacket (Message.encode ⟨.status, (0 : Int32)⟩ endOfPacket).2 :=
  ⟨rfl, (encode_restored_iff _ ⟨rfl, le_rfl, le_rfl⟩ rfl).mpr (by decide)⟩

def fullPacket : DC := ⟨fun _ => 0, 8884, ZFS_DC_SIZE, 8884⟩

/-- The length of a name is encoded, but there is no room for the name: `cur_length` goes back, `cur_pos` does not. -/
theorem filename_not_restored : let r := Message.encode ⟨.filename, (⟨[97], by decide⟩ : Filename)⟩ fullPacket
    r.1 = none ∧ r.2.curLength = 8884 ∧ r.2.curPos = 8888 ∧ ¬ Restored fullPacket r.2 :=
  ⟨rfl, rfl, rfl, fun h => absurd h.place.1 (by decide)⟩

end ZFS.Protocol
