import ZlomekFS.Proofs.Decoders
import ZlomekFS.Spec.Receive

/-! The packets that `network_main` dispatches are those of the stream, however the kernel cuts it, unless a
length is too small or too big: `max_length - read` is an `unsigned int`, and for a long packet it is assigned
to an `int`. -/

namespace ZFS.Protocol
open Bytes Packets Framing Receiving List

theorem toInt_of_lt {n : ℕ} (h : n < 2 ^ 31) : toInt n = n := if_pos h

theorem toInt_of_le {n : ℕ} (h : 2 ^ 31 ≤ n) : toInt n = n - 2 ^ 32 := if_neg (not_lt.mpr h)

def keptBytes (p : List UInt8) : List UInt8 := if 4 ≤ p.length ∧ ZFS_DC_SIZE < ofLE (p.take 4) then p.take 12 else p

/-- The packets that were dispatched and the bytes `p` of the one that is being read. -/
structure Receiving.Inv (s : Receiving) (packets : List (List UInt8)) (p : List UInt8) : Prop where
  stream : s.stream = packets.flatten ++ p
  frames : ∀ q ∈ packets, IsFrame 4 ofLE q
  dispatched : Forall₂ Carries s.dispatched packets
  read : s.fd.read = p.length
  length : 4 ≤ p.length → s.fd.dc.maxLength = ofLE (p.take 4) ∧ s.fd.dc.curPos = 4 ∧ s.fd.dc.curLength = 4 ∧
    (p.length = 4 ∨ p.length < s.fd.dc.maxLength)
  bytes : Lies s.fd.dc.buffer 0 (keptBytes p)

namespace Receiving

variable {s s' : Receiving} {packets : List (List UInt8)} {p : List UInt8}

theorem inv_start (dc : DC) : (start dc).Inv [] [] where
  stream := rfl
  frames _ hq := by cases hq
  dispatched := .nil
  read := rfl
  length h := absurd h (by decide)
  bytes := rfl

theorem Inv.maxLength_lt (h : s.Inv packets p) (hp : 4 ≤ p.length) : s.fd.dc.maxLength < 2 ^ 32 := by
  have hlt := ofLE_lt (p.take 4)
  rw [length_take_of_le hp] at hlt
  rw [(h.length hp).1]
  exact hlt.trans_eq (by norm_num)

/-! ## The calls of `read` -/

theorem Inv.fits (h : s.Inv packets p) (hok : s.LengthOk) : s.fd.readCall.Fits := by
  unfold FdData.readCall
  split_ifs with h4 hmax h12
  · simp only [ReadCall.Fits]
    unfold ZFS_DC_SIZE
    omega
  · have hp : 4 ≤ p.length := by
      rw [← h.read]
      omega
    obtain ⟨-, -, -, hlen⟩ := h.length hp
    have hlt := h.maxLength_lt hp
    obtain ⟨hlong, -⟩ := hok (by omega)
    simp only [ReadCall.Fits]
    rw [sub32_of_le (by rw [h.read]; omega) hlt, h.read]
    omega
  · simp only [ReadCall.Fits]
    unfold ZFS_DC_SIZE
    omega
  · have hp : 4 ≤ p.length := by
      rw [← h.read]
      omega
    obtain ⟨-, -, -, hlen⟩ := h.length hp
    have hlt := h.maxLength_lt hp
    have hread := h.read
    have hrest := (hok (by omega)).2 (by omega) (by omega)
    have hsub : sub32 s.fd.dc.maxLength s.fd.read = s.fd.dc.maxLength - s.fd.read := sub32_of_le (by omega) hlt
    simp only [ReadCall.Fits, hsub, toInt_of_lt hrest, toSize]
    unfold ZFS_MAXDATA
    split_ifs <;> omega

/-- A packet that is shorter than its length is never complete, and the rest of a packet that is no `int`
gives a huge number. -/
theorem Inv.lengthOk_of_good (h : s.Inv packets p) (hgood : s.Good) : s.LengthOk := by
  intro h4
  have hp : 4 ≤ p.length := by rwa [← h.read]
  have hlt := h.maxLength_lt hp
  obtain ⟨hmax, -, -, hlen⟩ := h.length hp
  have hfits := hgood.fits
  have hread := h.read
  refine ⟨?_, ?_⟩
  · by_contra hshort
    have hp4 : p.length = 4 := by omega
    by_cases h3 : s.fd.dc.maxLength < 4
    · -- `max_length - read` wraps around
      rw [FdData.readCall, if_neg (by omega), if_pos (by unfold ZFS_DC_SIZE; omega)] at hfits
      simp only [ReadCall.Fits, sub32, u32] at hfits
      unfold ZFS_DC_SIZE at hfits
      omega
    · -- the packet is complete but it was not dispatched
      have hframe : IsFrame 4 ofLE p := ⟨hp, by omega⟩
      obtain ⟨packets', l, hdec, hcarries⟩ := hgood.dispatched
      have hdec' : Decomposes 4 ofLE s.stream (packets ++ [p]) [] := by
        refine ⟨by rw [h.stream]; simp, fun q hq => ?_, .inl (by decide)⟩
        rcases mem_append.mp hq with hq | hq
        · exact h.frames q hq
        · rwa [mem_singleton.mp hq]
      obtain ⟨rfl, -⟩ := hdec.unique hdec'
      have hlen1 := h.dispatched.length_eq
      have hlen2 := hcarries.length_eq
      rw [length_append, length_singleton] at hlen2
      omega
  · intro hlong h12
    by_contra hbig
    rw [FdData.readCall, if_neg (by omega), if_neg (by omega), if_neg (by omega)] at hfits
    have hsub : sub32 s.fd.dc.maxLength s.fd.read = s.fd.dc.maxLength - s.fd.read := sub32_of_le (by omega) hlt
    simp only [ReadCall.Fits, hsub, toInt_of_le (not_lt.mp hbig), toSize] at hfits
    unfold ZFS_MAXDATA at hfits
    split_ifs at hfits <;> omega

theorem Inv.good_iff (h : s.Inv packets p) : s.Good ↔ s.LengthOk := by
  refine ⟨h.lengthOk_of_good, fun hok => ⟨h.fits hok, packets, p, ⟨h.stream, h.frames, ?_⟩, h.dispatched⟩⟩
  by_cases hp : 4 ≤ p.length
  · obtain ⟨hmax, -, -, hlen⟩ := h.length hp
    have hlong := (hok (by rwa [h.read])).1
    right
    rw [← hmax]
    omega
  · exact Or.inl (not_le.mp hp)

/-! ## A step -/

theorem startDecoding_eq (dc : DC) :
    (startDecoding dc).2 =
      { dc with curPos := 4, curLength := 4, maxLength := ofLE (Packets.get dc.buffer 0 4) } := by
  have hroom : ¬ 4 < align 4 0 + 4 := by decide
  have hready : (DC.mk dc.buffer 0 4 0).Ready := ⟨rfl, Nat.zero_le 4, (by decide : 4 ≤ ZFS_DC_SIZE)⟩
  have hsimple := decodeSimple_of_ready (by decide : 4 ≤ 16) hready
  rw [if_neg hroom] at hsimple
  have hword : decodeUint32 (DC.mk dc.buffer 0 4 0) = _ :=
    (congrFun (map_eq_pure_bind UInt32.ofNat (decodeSimple 4)) _).trans (bind_of_some hsimple)
  have hlt : ofLE (Packets.get dc.buffer 0 4) < 2 ^ 32 := by
    simpa using ofLE_lt (Packets.get dc.buffer 0 4)
  have hlength : (UInt32.ofNat (ofLE (Packets.get dc.buffer 0 4))).toNat = ofLE (Packets.get dc.buffer 0 4) := by
    rw [UInt32.toNat_ofNat', Nat.mod_eq_of_lt hlt]
  unfold startDecoding
  rw [hword]
  change DC.mk dc.buffer (align 4 0 + 4) (UInt32.ofNat (ofLE (Packets.get dc.buffer (align 4 0) 4))).toNat (align 4 0 + 4) = _
  rw [show align 4 0 = 0 from rfl, hlength]

theorem keptBytes_of_le {p : List UInt8} (h : p.length ≤ 12) : keptBytes p = p := by
  unfold keptBytes
  split_ifs
  · exact take_of_length_le h
  · rfl

theorem keptBytes_of_length {p : List UInt8} (h : ofLE (p.take 4) = p.length) (hp : 4 ≤ p.length) :
    keptBytes p = if p.length ≤ ZFS_DC_SIZE then p else p.take 12 := by
  unfold keptBytes
  rw [h]
  split_ifs
  · omega
  · rfl
  · rfl
  · omega

theorem Inv.step_length (h : s.Inv packets p) {bytes : List UInt8} (h4 : s.fd.read < 4)
    (hcount : bytes.length ≤ s.fd.readCall.count) :
    Inv ⟨(s.fd.receive bytes).1, s.stream ++ bytes, s.dispatched⟩ packets (p ++ bytes) ∧
      (s.fd.receive bytes).2 = false := by
  have hread := h.read
  have hcall : s.fd.readCall = ⟨.buffer p.length, 4 - p.length⟩ := by rw [FdData.readCall, if_pos h4, hread]
  rw [hcall] at hcount
  have hlen : (p ++ bytes).length ≤ 4 := by
    rw [length_append]
    dsimp only at hcount
    omega
  have hu32 : u32 (s.fd.read + bytes.length) = (p ++ bytes).length := by
    rw [hread, ← length_append]
    exact u32_of_lt (by omega)
  have hbytes : Lies (put s.fd.dc.buffer p.length bytes) 0 (p ++ bytes) := by
    have hold := h.bytes
    rw [keptBytes_of_le (by omega)] at hold
    simpa using hold.put_append bytes
  have hstore : s.fd.store bytes =
      ⟨(p ++ bytes).length, { s.fd.dc with buffer := put s.fd.dc.buffer p.length bytes }⟩ := by
    simp only [FdData.store, hcall, hu32]
  simp only [FdData.receive, if_pos h4, hstore]
  refine ⟨?_, trivial⟩
  split_ifs with hfull
  · have hget : Packets.get (put s.fd.dc.buffer p.length bytes) 0 4 = p ++ bytes := by
      rw [← hfull]
      exact hbytes
    refine ⟨by simp [h.stream], h.frames, h.dispatched, rfl, fun _ => ?_, ?_⟩
    · rw [startDecoding_eq]
      refine ⟨?_, rfl, rfl, Or.inl hfull⟩
      change ofLE (Packets.get (put s.fd.dc.buffer p.length bytes) 0 4) = _
      rw [hget, take_of_length_le hlen]
    · rw [startDecoding_eq, keptBytes_of_le (by omega)]
      exact hbytes
  · refine ⟨by simp [h.stream], h.frames, h.dispatched, rfl, fun hp => ?_, ?_⟩
    · exact absurd (le_antisymm hlen hp) hfull
    · rw [keptBytes_of_le (by omega)]
      exact hbytes

theorem Inv.store_bytes (h : s.Inv packets p) (hok : s.LengthOk) {bytes : List UInt8} (h4 : ¬ s.fd.read < 4)
    (hcount : bytes.length ≤ s.fd.readCall.count) :
    (p ++ bytes).length ≤ s.fd.dc.maxLength ∧ (s.fd.store bytes).read = (p ++ bytes).length ∧
      Lies (s.fd.store bytes).dc.buffer 0 (keptBytes (p ++ bytes)) := by
  have hread := h.read
  have hp : 4 ≤ p.length := by omega
  have hlt := h.maxLength_lt hp
  obtain ⟨hmax, -, -, hlen⟩ := h.length hp
  obtain ⟨hlong, hdrain⟩ := hok (by omega)
  have htake : (p ++ bytes).take 4 = p.take 4 := take_append_of_le_length hp
  have hsub : sub32 s.fd.dc.maxLength s.fd.read = s.fd.dc.maxLength - s.fd.read := sub32_of_le (by omega) hlt
  have hu32 (hle : (p ++ bytes).length ≤ s.fd.dc.maxLength) :
      u32 (s.fd.read + bytes.length) = (p ++ bytes).length := by
    rw [hread, ← length_append]
    exact u32_of_lt (by omega)
  have hold := h.bytes
  rw [length_append] at hu32 ⊢
  by_cases hfits : s.fd.dc.maxLength ≤ ZFS_DC_SIZE
  · have hcall : s.fd.readCall = ⟨.buffer p.length, s.fd.dc.maxLength - p.length⟩ := by
      rw [FdData.readCall, if_neg h4, if_pos hfits, hsub, hread]
    rw [hcall] at hcount
    dsimp only at hcount
    have hle : p.length + bytes.length ≤ s.fd.dc.maxLength := by omega
    refine ⟨hle, hu32 hle, ?_⟩
    simp only [FdData.store, hcall]
    rw [keptBytes, if_neg (by omega)] at hold
    rw [keptBytes, htake, if_neg (by omega)]
    simpa using hold.put_append bytes
  · by_cases h12 : s.fd.read < 12
    · have hcall : s.fd.readCall = ⟨.buffer p.length, 12 - p.length⟩ := by
        rw [FdData.readCall, if_neg h4, if_neg hfits, if_pos h12, hread]
      rw [hcall] at hcount
      dsimp only at hcount
      have hle : p.length + bytes.length ≤ s.fd.dc.maxLength := by
        unfold ZFS_DC_SIZE at hfits
        omega
      refine ⟨hle, hu32 hle, ?_⟩
      simp only [FdData.store, hcall]
      rw [keptBytes_of_le (by omega)] at hold
      rw [keptBytes_of_le (by rw [length_append]; omega)]
      simpa using hold.put_append bytes
    · have hrest := hdrain (by omega) (by omega)
      have hcall : s.fd.readCall.target = .dummy ∧ s.fd.readCall.count ≤ s.fd.dc.maxLength - s.fd.read := by
        rw [FdData.readCall, if_neg h4, if_neg hfits, if_neg h12]
        simp only [hsub, toInt_of_lt hrest, toSize, true_and]
        unfold ZFS_MAXDATA
        split_ifs <;> omega
      have hle : p.length + bytes.length ≤ s.fd.dc.maxLength := by omega
      refine ⟨hle, hu32 hle, ?_⟩
      simp only [FdData.store, hcall.1]
      have hkept : keptBytes (p ++ bytes) = keptBytes p := by
        rw [keptBytes, keptBytes, htake, length_append, if_pos (by omega), if_pos (by omega),
          take_append_of_le_length (by omega)]
      rw [hkept]
      exact hold

theorem Inv.step (h : s.Inv packets p) (hok : s.LengthOk) {e : List UInt8 × DC} (hstep : s.step e = some s') :
    ∃ packets' p', s'.Inv packets' p' := by
  obtain ⟨bytes, next⟩ := e
  unfold Receiving.step at hstep
  dsimp only at hstep
  split at hstep
  · cases hstep
  rename_i hbytes
  rw [not_or, not_lt] at hbytes
  obtain rfl := Option.some_inj.mp hstep
  by_cases h4 : s.fd.read < 4
  · obtain ⟨hinv, hcomplete⟩ := h.step_length h4 hbytes.2
    rw [hcomplete]
    exact ⟨packets, p ++ bytes, hinv⟩
  obtain ⟨hle, hread, hlies⟩ := h.store_bytes hok h4 hbytes.2
  have hp : 4 ≤ p.length := by
    rw [← h.read]
    omega
  have hq : 4 ≤ (p ++ bytes).length := by
    rw [length_append]
    omega
  have htake : (p ++ bytes).take 4 = p.take 4 := take_append_of_le_length hp
  obtain ⟨hmax, hpos, hlength, -⟩ := h.length hp
  simp only [FdData.receive, if_neg h4]
  change ∃ packets' p', Inv (if decide (s.fd.dc.maxLength = (s.fd.store bytes).read) = true then _ else _) packets' p'
  rw [hread]
  by_cases hfull : s.fd.dc.maxLength = (p ++ bytes).length
  · -- the packet is dispatched
    rw [if_pos (decide_eq_true hfull)]
    have hframe : ofLE ((p ++ bytes).take 4) = (p ++ bytes).length := by rw [htake, ← hmax, hfull]
    have hcarries : Carries (s.fd.store bytes).dc (p ++ bytes) :=
      ⟨hpos, hlength, hfull, by rw [← keptBytes_of_length hframe hq]; exact hlies⟩
    refine ⟨packets ++ [p ++ bytes], [], ?_, ?_, ?_, rfl, fun hnil => ?_, rfl⟩
    · simp [h.stream]
    · intro q hmem
      rcases mem_append.mp hmem with hmem | hmem
      · exact h.frames q hmem
      · rw [mem_singleton.mp hmem]
        exact ⟨hq, hframe⟩
    · exact rel_append h.dispatched (.cons hcarries .nil)
    · exact absurd hnil (by decide)
  · rw [if_neg (by simpa using hfull)]
    refine ⟨packets, p ++ bytes, by simp [h.stream], h.frames, h.dispatched, hread, fun _ => ?_, hlies⟩
    exact ⟨by rw [htake]; exact hmax, hpos, hlength, Or.inr (lt_of_le_of_ne hle (Ne.symm hfull))⟩

/-- Whatever the peer sends and however the kernel cuts it: all calls of `read` stay inside their buffers and
the packets that are dispatched are those of the stream if and only if the lengths are such that the loop can
cope with them. -/
theorem receive_iff (dc : DC) (es : List (List UInt8 × DC)) :
    (∀ s ∈ Runs.visited step (start dc) es, s.Good) ↔
      ∀ s ∈ Runs.visited step (start dc) es, s.LengthOk := by
  refine Runs.visited_iff (I := fun s => ∃ packets p, s.Inv packets p) ?_ ?_ es _ ⟨[], [], inv_start dc⟩
  · rintro s e s' ⟨packets, p, h⟩ hok hstep
    exact h.step hok hstep
  · rintro s ⟨packets, p, h⟩
    exact h.good_iff

/-- A length of zero: the next `read` is for `2 ^ 32 - 4` bytes behind the length. -/
theorem receive_overflows :
    ∃ dc es, ∃ s ∈ Runs.visited step (start dc) es,
      s.fd.readCall = ⟨.buffer 4, 4294967292⟩ ∧ ¬ s.fd.readCall.Fits :=
  ⟨⟨fun _ => 0, 0, 0, 0⟩, [([0, 0, 0, 0], ⟨fun _ => 0, 0, 0, 0⟩)], _,
    mem_cons_of_mem _ (mem_singleton_self _), by decide +kernel, by decide +kernel⟩

/-! ## Packets of another node -/

section packets
variable {sent : List DC} (hsent : ∀ dc ∈ sent, 4 < dc.curLength ∧ dc.curLength ≤ ZFS_DC_SIZE) {rest : List UInt8}

include hsent

theorem isFrame_packet {dc : DC} (hdc : dc ∈ sent) : IsFrame 4 ofLE dc.packet ∧ dc.packet.length = dc.curLength := by
  obtain ⟨hlt, hle⟩ := hsent dc hdc
  have hlen : dc.packet.length = dc.curLength := length_get ..
  have hlies := lies_put dc.buffer 0 (toLE 4 dc.curLength)
  have hsplit := get_add (finishEncoding dc).buffer 0 4 (dc.curLength - 4)
  rw [Lies, length_toLE] at hlies
  rw [Nat.add_sub_cancel' hlt.le] at hsplit
  refine ⟨⟨by omega, ?_⟩, hlen⟩
  unfold ZFS_DC_SIZE at hle
  rw [hlen, DC.packet, hsplit, take_left' (length_get ..), finishEncoding, hlies, ofLE_toLE_of_lt (by omega)]

theorem frames_packets : ∀ q ∈ sent.map DC.packet, IsFrame 4 ofLE q :=
  forall_mem_map.mpr fun _ hdc => (isFrame_packet hsent hdc).1

variable (hs : s.stream ++ rest = (sent.map DC.packet).flatten)

include hs

theorem Inv.of_packets (h : s.Inv packets p) :
    s.LengthOk ∧ packets <+: sent.map DC.packet := by
  rw [h.stream, append_assoc] at hs
  obtain ⟨later, hlater, hp⟩ := eq_append_of_frames (by decide) h.frames (frames_packets hsent) hs
  refine ⟨fun h4 => ?_, later, hlater.symm⟩
  rw [h.read] at h4
  cases later with
  | nil => simp_all
  | cons q later =>
    -- the length that was read is that of the next packet
    obtain ⟨dc, hdc, rfl⟩ := mem_map.mp (hlater ▸ mem_append_right packets mem_cons_self)
    obtain ⟨hframe, hlen⟩ := isFrame_packet hsent hdc
    have htake : p.take 4 = dc.packet.take 4 := by
      rw [← take_append_of_le_length h4, hp, flatten_cons, take_frame_append hframe]
    rw [(h.length h4).1, htake, hframe.2, hlen]
    exact ⟨(hsent dc hdc).1, fun hlong => absurd (hsent dc hdc).2 (not_le.mpr hlong)⟩

theorem exists_inv (dc : DC) (es : List (List UInt8 × DC)) (hrun : Runs.run step (.start dc) es = some s) :
    ∃ packets p, s.Inv packets p := by
  induction es using reverseRecOn generalizing s rest with
  | nil =>
    cases hrun
    exact ⟨[], [], inv_start dc⟩
  | append_singleton es e ih =>
    simp only [Runs.run_append, Runs.run, Option.bind_eq_some_iff, Option.some_inj, exists_eq_right] at hrun
    obtain ⟨s0, hrun, hstep⟩ := hrun
    have hstream : s.stream = s0.stream ++ e.1 := by
      unfold step at hstep
      dsimp only at hstep
      split_ifs at hstep <;> cases hstep <;> rfl
    rw [hstream, append_assoc] at hs
    obtain ⟨packets, p, hinv⟩ := ih hs hrun
    exact hinv.step (hinv.of_packets hsent hs).1 hstep

/-- However the kernel cuts what another node sends: no `read` goes beyond its buffer, and the packets are dispatched in
their order, all of them when everything has come. -/
theorem packets_arrive (dc : DC) (es : List (List UInt8 × DC)) (hrun : Runs.run step (.start dc) es = some s) :
    s.fd.readCall.Fits ∧ Forall₂ Carries s.dispatched ((sent.take s.dispatched.length).map DC.packet) ∧
      (rest = [] → s.dispatched.length = sent.length) := by
  obtain ⟨packets, p, h⟩ := exists_inv hsent hs dc es hrun
  obtain ⟨hok, hfirst⟩ := h.of_packets hsent hs
  refine ⟨h.fits hok, ?_, fun hrest => ?_⟩
  · rw [map_take, h.dispatched.length_eq, ← prefix_iff_eq_take.mp hfirst]
    exact h.dispatched
  · obtain ⟨-, packets', l, hcut, hcarries⟩ := h.good_iff.mpr hok
    have hall : Decomposes 4 ofLE s.stream (sent.map DC.packet) [] :=
      ⟨by simpa [hrest] using hs, frames_packets hsent, Or.inl (by decide)⟩
    obtain ⟨rfl, -⟩ := hcut.unique hall
    rw [hcarries.length_eq, length_map]

end packets

/-- A packet of five bytes comes in three parts. -/
def threeParts : List (List UInt8 × DC) := [[5, 0], [0, 0], [0]].map (·, ⟨fun _ => 0, 0, 0, 0⟩)

theorem packets_arrive_threeParts :
    ∃ s, Runs.run step (.start ⟨fun _ => 0, 0, 0, 0⟩) threeParts = some s ∧ s.dispatched.length = 1 :=
  ⟨_, rfl, (@packets_arrive _ [⟨fun _ => 0, 0, 0, 5⟩] (by decide) [] (by decide +kernel) ⟨fun _ => 0, 0, 0, 0⟩ threeParts
    rfl).2.2 rfl⟩

end Receiving

end ZFS.Protocol
