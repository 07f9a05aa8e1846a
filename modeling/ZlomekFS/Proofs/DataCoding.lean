import ZlomekFS.Spec.DataCoding

/-! An encoder and a decoder agree on a value when the one writes and the other reads one layout of it.
The rules below follow the ways in which coders are put together. -/

namespace ZFS.Protocol
open Bytes Packets Layout

/-! ## Buffers that are being encoded or decoded -/

/-- `cur_pos` and `cur_length` are at the same place. -/
structure DC.Ready (dc : DC) : Prop where
  sync : dc.curPos = dc.curLength
  room : dc.curLength ≤ dc.maxLength
  size : dc.maxLength ≤ ZFS_DC_SIZE

def DC.add (dc : DC) (l : List UInt8) : DC :=
  { dc with
    buffer := put dc.buffer dc.curPos l, curPos := dc.curPos + l.length, curLength := dc.curLength + l.length }

def DC.skip (dc : DC) (n : ℕ) : DC := { dc with curPos := dc.curPos + n, curLength := dc.curLength + n }

theorem DC.Ready.skip {dc : DC} (h : dc.Ready) {n : ℕ} (hn : dc.curLength + n ≤ dc.maxLength) : (dc.skip n).Ready :=
  ⟨congrArg (· + n) h.sync, hn, h.size⟩

theorem DC.Ready.add {dc : DC} (h : dc.Ready) {l : List UInt8} (hl : dc.curLength + l.length ≤ dc.maxLength) :
    (dc.add l).Ready :=
  ⟨congrArg (· + l.length) h.sync, hl, h.size⟩

theorem DC.add_add (dc : DC) (l l' : List UInt8) : (dc.add l).add l' = dc.add (l ++ l') := by
  simp [DC.add, put_put, Nat.add_assoc]

theorem DC.skip_skip (dc : DC) (n m : ℕ) : (dc.skip n).skip m = dc.skip (n + m) := by
  simp [DC.skip, Nat.add_assoc]

section Bind
variable {α β : Type} {m : Coding α} {f : α → Coding β} {dc dc' : DC}

theorem bind_of_some {a : α} (h : m dc = (some a, dc')) : (m >>= f) dc = f a dc' := by
  simp only [bind, OptionT.bind, OptionT.mk, StateT.bind, h]

theorem bind_of_none (h : m dc = (none, dc')) : (m >>= f) dc = (none, dc') := by
  simp only [bind, OptionT.bind, OptionT.mk, StateT.bind, h]
  rfl

end Bind

/-! ## Agreement -/

/-- The encoder leaves alone what was written before. When there is room it writes the layout, and the decoder
gets the value back from it. -/
structure Agree {α : Type} (e : Coding Unit) (d : Coding α) (a : α) (w : Layout) : Prop where
  le_pos : ∀ dc, dc.curPos ≤ (e dc).2.curPos
  keeps : ∀ dc, ∀ i < dc.curPos, (e dc).2.buffer i = dc.buffer i
  writes : ∀ dc, dc.Ready → w.stop dc.curLength ≤ dc.maxLength → e dc = (some (), dc.add (w dc.curLength))
  reads : ∀ dc, dc.Ready → w.stop dc.curLength ≤ dc.maxLength → Lies dc.buffer dc.curLength (w dc.curLength) →
    d dc = (some a, dc.skip (w dc.curLength).length)

structure Exact {α : Type} (e : Coding Unit) (d : Coding α) (a : α) (w : Layout) : Prop extends Agree e d a w where
  refuses : ∀ dc, dc.Ready → dc.maxLength < w.stop dc.curLength → (e dc).1 = none

section Rules
variable {α β : Type} {e e' : Coding Unit} {d : Coding α} {f : α → Coding β} {a : α} {b : β} {w w' : Layout}

theorem bind_snd (e e' : Coding Unit) (dc : DC) :
    ((e >>= fun _ => e') dc).2 = (e dc).2 ∨ ((e >>= fun _ => e') dc).2 = (e' (e dc).2).2 := by
  cases he : e dc with
  | mk o dc' =>
    cases o with
    | none => exact Or.inl (by rw [bind_of_none he])
    | some u => exact Or.inr (by rw [bind_of_some he])

theorem Agree.seq (h : Agree e d a w) (h' : Agree e' (f a) b w') :
    Agree (e >>= fun _ => e') (d >>= f) b (w.seq w') := by
  refine ⟨fun dc => ?_, fun dc i hi => ?_, fun dc hdc hroom => ?_, fun dc hdc hroom hlies => ?_⟩
  · rcases bind_snd e e' dc with hb | hb
    · rw [hb]
      exact h.le_pos dc
    · rw [hb]
      exact (h.le_pos dc).trans (h'.le_pos _)
  · rcases bind_snd e e' dc with hb | hb
    · rw [hb]
      exact h.keeps dc i hi
    · rw [hb, h'.keeps _ i (hi.trans_le (h.le_pos dc))]
      exact h.keeps dc i hi
  · rw [stop_seq] at hroom
    have hfirst : w.stop dc.curLength ≤ dc.maxLength := (w'.le_stop _).trans hroom
    rw [bind_of_some (h.writes dc hdc hfirst), h'.writes _ (hdc.add hfirst) hroom, DC.add_add]
    rfl
  · rw [stop_seq] at hroom
    have hfirst : w.stop dc.curLength ≤ dc.maxLength := (w'.le_stop _).trans hroom
    obtain ⟨hlies, hlies'⟩ := (lies_append _).mp hlies
    rw [bind_of_some (h.reads dc hdc hfirst hlies), h'.reads _ (hdc.skip hfirst) hroom hlies', DC.skip_skip,
      Layout.seq, List.length_append]
    rfl

theorem Exact.seq (h : Exact e d a w) (h' : Exact e' (f a) b w') :
    Exact (e >>= fun _ => e') (d >>= f) b (w.seq w') := by
  refine ⟨h.toAgree.seq h'.toAgree, fun dc hdc hroom => ?_⟩
  rw [stop_seq] at hroom
  by_cases hfirst : w.stop dc.curLength ≤ dc.maxLength
  · rw [bind_of_some (h.writes dc hdc hfirst)]
    exact h'.refuses _ (hdc.add hfirst) hroom
  · have hnone := h.refuses dc hdc (by omega)
    cases he : e dc with
    | mk o dc' =>
      rw [he] at hnone
      cases hnone
      rw [bind_of_none he]

theorem Agree.finish (h : Agree e d a w)
    (hf : ∀ dc : DC, dc.Ready → Lies dc.buffer dc.curLength (w dc.curLength) →
      f a (dc.skip (w dc.curLength).length) = (some b, dc.skip (w dc.curLength).length)) :
    Agree e (d >>= f) b w := by
  refine ⟨h.le_pos, h.keeps, h.writes, fun dc hdc hroom hlies => ?_⟩
  rw [bind_of_some (h.reads dc hdc hroom hlies)]
  exact hf dc hdc hlies

theorem Agree.last (h : Agree e d a w) {g : α → β} (hb : g a = b) : Agree e (d >>= fun x => pure (g x)) b w := by
  subst hb
  exact h.finish fun _ _ _ => rfl

theorem Exact.last (h : Exact e d a w) {g : α → β} (hb : g a = b) : Exact e (d >>= fun x => pure (g x)) b w :=
  ⟨h.toAgree.last hb, h.refuses⟩

theorem Exact.map (h : Exact e d a w) {g : α → β} (hb : g a = b) : Exact e (g <$> d) b w := by
  rw [map_eq_pure_bind]
  exact h.last hb

theorem Exact.get {e : DC → Coding Unit} (h : ∀ dc, Exact (e dc) d a w) : Exact (get >>= e) d a w where
  le_pos dc := (h dc).le_pos dc
  keeps dc := (h dc).keeps dc
  writes dc := (h dc).writes dc
  reads := (h ⟨fun _ => 0, 0, 0, 0⟩).reads
  refuses dc := (h dc).refuses dc

theorem agree_pure (a : α) : Agree (pure ()) (pure a) a empty where
  le_pos _ := le_rfl
  keeps _ _ _ := rfl
  writes dc _ _ := by
    have hadd : dc.add [] = dc := by simp [DC.add, put_of_lies (show Lies dc.buffer dc.curPos [] from rfl)]
    exact congrArg (Prod.mk _) hadd.symm
  reads _ _ _ _ := rfl

theorem Agree.ignore (h : Agree e d a w) : Agree (ignore e) d a w where
  le_pos := h.le_pos
  keeps := h.keeps
  writes dc hdc hroom := by
    have hw := h.writes dc hdc hroom
    unfold Protocol.ignore
    rw [hw]
  reads := h.reads

/-- The encoder begins with a value of the size `s`: without room for it nothing changes, and with room for it
`cur_pos` moves. -/
structure Starts (s : ℕ) (e : Coding Unit) : Prop where
  refuses : ∀ dc, dc.Ready → dc.maxLength < align s dc.curLength + s → e dc = (none, dc)
  moves : ∀ dc, dc.Ready → align s dc.curLength + s ≤ dc.maxLength → dc.curPos < (e dc).2.curPos

theorem Starts.seq {s : ℕ} (h : Starts s e) (h' : Agree e' d a w) : Starts s (e >>= fun _ => e') where
  refuses dc hdc hroom := bind_of_none (h.refuses dc hdc hroom)
  moves dc hdc hroom := by
    have hmoves := h.moves dc hdc hroom
    rcases bind_snd e e' dc with hb | hb
    · rwa [hb]
    · rw [hb]
      exact hmoves.trans_le (h'.le_pos _)

end Rules

/-! ## Simple types -/

theorem exact_simple {size n : ℕ} (hs : 0 < size) (hs' : size ≤ 16) (hn : n < 256 ^ size) :
    Exact (encodeSimple size n) (decodeSimple size) n (scalar size n) := by
  have hlen : ∀ dc : DC, dc.Ready → u32 (align size dc.curLength + size) = align size dc.curLength + size := fun dc hdc => by
    have hle := align_le size dc.curLength
    have hroom := hdc.room
    have hsize := hdc.size
    unfold ZFS_DC_SIZE at hsize
    exact u32_of_lt (by omega)
  refine ⟨⟨fun dc => ?_, fun dc i hi => ?_, fun dc hdc hroom => ?_, fun dc hdc hroom hlies => ?_⟩, fun dc hdc hroom => ?_⟩
  · have hle := le_align hs dc.curPos
    unfold encodeSimple
    dsimp only
    split_ifs
    · exact le_rfl
    · exact hle.trans (Nat.le_add_right _ _)
  · have hle := le_align hs dc.curPos
    unfold encodeSimple
    dsimp only
    split_ifs
    · rfl
    · dsimp only
      rw [put_of_lt _ (by omega), put_of_lt _ hi]
  · have hle := le_align hs dc.curLength
    rw [stop_scalar hs] at hroom
    unfold encodeSimple
    simp only [hlen dc hdc, if_neg (Nat.not_lt.mpr hroom)]
    have hpad : dc.curLength + (List.replicate (align size dc.curLength - dc.curLength) (0 : UInt8)).length =
        align size dc.curLength := by
      rw [List.length_replicate]
      omega
    unfold DC.add scalar
    rw [hdc.sync, ← put_put, hpad, List.length_append, length_toLE, ← Nat.add_assoc, hpad]
  · have hle := le_align hs dc.curLength
    rw [stop_scalar hs] at hroom
    obtain ⟨-, hlies⟩ := (lies_append _).mp hlies
    rw [List.length_replicate, Nat.add_sub_cancel' hle, Lies, length_toLE] at hlies
    unfold decodeSimple
    simp only [hlen dc hdc, if_neg (Nat.not_lt.mpr hroom), hdc.sync, hlies, ofLE_toLE_of_lt hn]
    unfold DC.skip scalar
    have hend : dc.curLength + (align size dc.curLength - dc.curLength + size) = align size dc.curLength + size := by omega
    rw [hdc.sync, List.length_append, List.length_replicate, length_toLE, hend]
  · rw [stop_scalar hs] at hroom
    unfold encodeSimple
    simp only [hlen dc hdc, if_pos hroom]

theorem starts_simple {size n : ℕ} (hs : 0 < size) (hs' : size ≤ 16) (hn : n < 256 ^ size) :
    Starts size (encodeSimple size n) := by
  have hexact := exact_simple hs hs' hn
  have hstop := stop_scalar hs n
  refine ⟨fun dc hdc hroom => ?_, fun dc hdc hroom => ?_⟩
  · have hnone := hexact.refuses dc hdc (by rwa [hstop])
    unfold encodeSimple at hnone ⊢
    dsimp only at hnone ⊢
    split_ifs at hnone ⊢
    rfl
  · have hle := le_align hs dc.curLength
    have hlen := hstop dc.curLength
    rw [hexact.writes dc hdc (by rwa [hstop])]
    simp only [stop, DC.add] at hlen ⊢
    omega

theorem starts_uint32 (v : UInt32) : Starts 4 (encodeUint32 v) := starts_simple (by decide) (by decide) v.toNat_lt

theorem starts_uchar (v : UInt8) : Starts 1 (encodeUchar v) := starts_simple (by decide) (by decide) v.toNat_lt

theorem exact_uchar (v : UInt8) : Exact (encodeUchar v) decodeUchar v (scalar 1 v.toNat) :=
  (exact_simple (by decide) (by decide) v.toNat_lt).map (UInt8.ofNat_toNat)

theorem exact_uint16 (v : UInt16) : Exact (encodeUint16 v) decodeUint16 v (scalar 2 v.toNat) :=
  (exact_simple (by decide) (by decide) v.toNat_lt).map (UInt16.ofNat_toNat)

theorem exact_int16 (v : Int16) : Exact (encodeInt16 v) decodeInt16 v (scalar 2 v.toUInt16.toNat) :=
  (exact_simple (by decide) (by decide) v.toUInt16.toNat_lt).map (by rw [UInt16.ofNat_toNat]; rfl)

theorem exact_uint32 (v : UInt32) : Exact (encodeUint32 v) decodeUint32 v (scalar 4 v.toNat) :=
  (exact_simple (by decide) (by decide) v.toNat_lt).map (UInt32.ofNat_toNat)

theorem exact_uint64 (v : UInt64) : Exact (encodeUint64 v) decodeUint64 v (scalar 8 v.toNat) :=
  (exact_simple (by decide) (by decide) v.toNat_lt).map (UInt64.ofNat_toNat)

theorem exact_int64 (v : Int64) : Exact (encodeInt64 v) decodeInt64 v (scalar 8 v.toUInt64.toNat) :=
  (exact_simple (by decide) (by decide) v.toUInt64.toNat_lt).map (by rw [UInt64.ofNat_toNat]; rfl)

theorem exact_int32 (v : Int32) : Exact (encodeInt32 v) decodeInt32 v (scalar 4 v.toUInt32.toNat) :=
  (exact_simple (by decide) (by decide) v.toUInt32.toNat_lt).map (by rw [UInt32.ofNat_toNat]; rfl)

theorem exact_enum {α : Type} {ofCode : UInt8 → Option α} {v : UInt8} {a : α} (h : ofCode v = some a) :
    Exact (encodeUchar v) (decodeEnum ofCode) a (scalar 1 v.toNat) := by
  refine ⟨(exact_uchar v).toAgree.finish fun dc _ _ => ?_, (exact_uchar v).refuses⟩
  rw [h]
  rfl

/-! ## Sequences of bytes -/

theorem exact_bytes (prev : ℕ) {n : ℕ} (v : List.Vector UInt8 n) (hn : n < 2 ^ 31) :
    Exact (encodeBytes prev v.toList) (decodeBytes n) v (raw v.toList) := by
  have hlen : ∀ dc : DC, dc.Ready → u32 (dc.curLength + n) = dc.curLength + n := fun dc hdc => by
    have hroom := hdc.room
    have hsize := hdc.size
    unfold ZFS_DC_SIZE at hsize
    exact u32_of_lt (by omega)
  refine ⟨⟨fun dc => ?_, fun dc i hi => ?_, fun dc hdc hroom => ?_, fun dc hdc hroom hlies => ?_⟩, fun dc hdc hroom => ?_⟩
  · unfold encodeBytes
    dsimp only
    split_ifs
    · exact le_rfl
    · exact Nat.le_add_right _ _
  · unfold encodeBytes
    dsimp only
    split_ifs
    · rfl
    · exact put_of_lt _ hi
  · rw [stop_raw, v.toList_length] at hroom
    unfold encodeBytes
    simp only [v.toList_length, hlen dc hdc, if_neg (Nat.not_lt.mpr hroom)]
    simp [DC.add, raw]
  · rw [stop_raw, v.toList_length] at hroom
    have hget : Packets.get dc.buffer dc.curLength n = v.toList := by
      have hlies : Packets.get dc.buffer dc.curLength v.toList.length = v.toList := hlies
      rwa [v.toList_length] at hlies
    unfold decodeBytes
    simp only [hlen dc hdc, if_neg (Nat.not_lt.mpr hroom), hdc.sync, hget]
    simp [DC.skip, raw, hdc.sync]
  · rw [stop_raw, v.toList_length] at hroom
    unfold encodeBytes
    simp only [v.toList_length, hlen dc hdc, if_pos hroom]

theorem exact_fixedBuffer {n : ℕ} (v : List.Vector UInt8 n) (hn : n < 2 ^ 31) :
    Exact (encodeFixedBuffer v) (decodeFixedBuffer n) v (raw v.toList) :=
  Exact.get fun dc => exact_bytes dc.curLength v hn

theorem toNat_ofNat_length {max : ℕ} (hmax : max < 2 ^ 31) (l : Limited max) :
    (UInt32.ofNat l.1.length).toNat = l.1.length := by
  have hl := l.2
  rw [UInt32.toNat_ofNat', Nat.mod_eq_of_lt (by omega)]

def counted (len : ℕ) (l : List UInt8) : Layout := (scalar 4 (UInt32.ofNat len).toNat).seq (raw l)

theorem exact_dataBuffer (data : DataBuffer) :
    Exact (encodeDataBuffer data) decodeDataBuffer data (counted data.1.length data.1) := by
  have hlen := toNat_ofNat_length (by decide) data
  have hlimit : (UInt32.ofNat data.1.length).toNat ≤ ZFS_MAXDATA := hlen.le.trans data.2
  refine (exact_uint32 _).seq ?_
  rw [dif_pos hlimit]
  apply Exact.last (Exact.get fun dc => exact_bytes dc.curLength ⟨data.1, hlen.symm⟩ (hlimit.trans_lt (by decide)))
  rfl

theorem exact_string {max : ℕ} (hmax : max < 2 ^ 31 - 1) (str : Limited max) :
    Exact (encodeString str) (decodeString max) str (counted str.1.length (str.1 ++ [0])) := by
  have hlen := toNat_ofNat_length (by omega) str
  have hlimit : (UInt32.ofNat str.1.length).toNat ≤ max := hlen.le.trans str.2
  have hterm : (str.1 ++ [0]).length = (UInt32.ofNat str.1.length).toNat + 1 := by
    rw [List.length_append, hlen]
    rfl
  refine Exact.get fun prev => (exact_uint32 _).seq ?_
  rw [dif_pos hlimit]
  have hbytes := exact_bytes prev.curLength ⟨str.1 ++ [0], hterm⟩ (by omega)
  refine ⟨hbytes.toAgree.finish fun dc hdc hlies => ?_, hbytes.refuses⟩
  -- the byte that is set to zero is the last one of the string, which is zero
  have hzero : Lies dc.buffer (dc.curLength + str.1.length) [0] := ((lies_append _).mp hlies).2
  have hpos : dc.curLength + (str.1 ++ [0]).length - 1 = dc.curLength + str.1.length := by simp
  have hput : put dc.buffer (dc.curLength + (str.1 ++ [0]).length - 1) [0] = dc.buffer := by
    rw [hpos, put_of_lies hzero]
  have htake : (str.1 ++ [0]).take (UInt32.ofNat str.1.length).toNat = str.1 := by rw [hlen, List.take_left]
  change (some (⟨(str.1 ++ [0]).take _, _⟩ : Limited max),
    { dc.skip (str.1 ++ [0]).length with buffer := put dc.buffer (dc.curPos + (str.1 ++ [0]).length - 1) [0] }) = _
  rw [hdc.sync, hput]
  exact Prod.ext (congrArg some (Subtype.ext htake)) rfl

/-! ## Arrays -/

def eachLayout {α : Type} (w : α → Layout) : {n : ℕ} → List.Vector α n → Layout
  | 0, _ => empty
  | _ + 1, v => (w v.head).seq (eachLayout w v.tail)

theorem agree_each {α : Type} {e : α → Coding Unit} {d : Coding α} {w : α → Layout} (h : ∀ a, Agree (e a) d a (w a))
    {n : ℕ} (v : List.Vector α n) : Agree (encodeEach e v) (decodeEach d n) v (eachLayout w v) := by
  induction n with
  | zero =>
    rw [v.eq_nil]
    exact agree_pure _
  | succ n ih =>
    refine (h v.head).seq ?_
    apply (ih v.tail).last
    exact v.cons_head_tail

theorem stop_eachScalar_of_dvd {α : Type} (f : α → ℕ) {size : ℕ} (hs : 0 < size) {n : ℕ} (v : List.Vector α n) {pos : ℕ}
    (hpos : size ∣ pos) : (eachLayout (fun a => scalar size (f a)) v).stop pos = pos + size * n := by
  induction n generalizing pos with
  | zero => rfl
  | succ n ih =>
    rw [eachLayout, stop_seq, stop_scalar hs, align_of_dvd hs hpos, ih _ (Dvd.dvd.add hpos dvd_rfl)]
    ring

/-- The end of an array of aligned values; an empty one takes no padding. -/
theorem stop_eachScalar {α : Type} (f : α → ℕ) {size : ℕ} (hs : 0 < size) {n : ℕ} (v : List.Vector α n) (pos : ℕ) :
    (eachLayout (fun a => scalar size (f a)) v).stop pos = if n = 0 then pos else align size pos + size * n := by
  cases n with
  | zero => rfl
  | succ n =>
    have hdvd : size ∣ align size pos + size := (Dvd.intro_left _ rfl).add dvd_rfl
    rw [eachLayout, stop_seq, stop_scalar hs, stop_eachScalar_of_dvd f hs v.tail hdvd, if_neg (by omega)]
    rw [Nat.add_sub_cancel]
    ring

theorem stop_eachRaw {k n : ℕ} (v : List.Vector (List.Vector UInt8 k) n) (pos : ℕ) :
    (eachLayout (fun l => raw l.toList) v).stop pos = pos + k * n := by
  induction n generalizing pos with
  | zero => rfl
  | succ n ih =>
    rw [eachLayout, stop_seq, stop_raw, ih, v.head.toList_length]
    ring

end ZFS.Protocol
