import ZlomekFS.Proofs.DataCoding
import ZlomekFS.Spec.Messages

/-! What a decoder may do to a packet of a peer: it looks only at bytes of the packet, it leaves the bytes
behind the packet alone, and what it accepts stands in the packet. The rules follow the ways in which
decoders are put together. -/

namespace ZFS.Protocol
open Bytes Packets Packets

/-! ## Reading inside the packet -/

structure DC.Same (dc dc₂ : DC) : Prop where
  curPos : dc₂.curPos = dc.curPos
  curLength : dc₂.curLength = dc.curLength
  maxLength : dc₂.maxLength = dc.maxLength
  buffer : ∀ i < dc.maxLength, dc₂.buffer i = dc.buffer i

structure Blind {α : Type} (d : Coding α) : Prop where
  maxLength : ∀ dc, (d dc).2.maxLength = dc.maxLength
  ready : ∀ dc a, dc.Ready → (d dc).1 = some a → (d dc).2.Ready
  same : ∀ dc dc₂, dc.Ready → dc.Same dc₂ → (d dc₂).1 = (d dc).1 ∧ (d dc).2.Same (d dc₂).2

section Blind
variable {α β : Type} {d : Coding α} {f : α → Coding β}

theorem Blind.bind (h : Blind d) (h' : ∀ a, Blind (f a)) : Blind (d >>= f) where
  maxLength dc := by
    rcases hd : d dc with ⟨_ | a, dc'⟩
    · rw [bind_of_none hd]
      simpa only [hd] using h.maxLength dc
    · rw [bind_of_some hd, (h' a).maxLength dc']
      simpa only [hd] using h.maxLength dc
  ready dc b hdc hb := by
    rcases hd : d dc with ⟨_ | a, dc'⟩
    · rw [bind_of_none hd] at hb
      cases hb
    · rw [bind_of_some hd] at hb ⊢
      have hdc' := h.ready dc a hdc
      simp only [hd, forall_const] at hdc'
      exact (h' a).ready dc' b hdc' hb
  same dc dc₂ hdc hsame := by
    obtain ⟨hres, hstate⟩ := h.same dc dc₂ hdc hsame
    rcases hd : d dc with ⟨_ | a, dc'⟩
    · rcases hd2 : d dc₂ with ⟨o, dc2'⟩
      simp only [hd, hd2] at hres hstate
      subst hres
      rw [bind_of_none hd, bind_of_none hd2]
      exact ⟨rfl, hstate⟩
    · rcases hd2 : d dc₂ with ⟨o, dc2'⟩
      have hdc' := h.ready dc a hdc
      simp only [hd, hd2, forall_const] at hres hstate hdc'
      subst hres
      rw [bind_of_some hd, bind_of_some hd2]
      exact (h' a).same dc' dc2' hdc' hstate

theorem blind_pure (a : α) : Blind (pure a) where
  maxLength _ := rfl
  ready _ _ hdc _ := hdc
  same _ _ _ hsame := ⟨rfl, hsame⟩

theorem blind_failure : Blind (failure : Coding α) where
  maxLength _ := rfl
  ready _ _ _ h := by cases h
  same _ _ _ hsame := ⟨rfl, hsame⟩

theorem DC.Same.get {dc dc₂ : DC} (h : dc.Same dc₂) {pos n : ℕ} (hn : pos + n ≤ dc.maxLength) :
    get dc₂.buffer pos n = get dc.buffer pos n := by
  refine List.map_congr_left fun i hi => ?_
  rw [List.mem_range] at hi
  exact h.buffer _ (by omega)

theorem decodeSimple_of_ready {size : ℕ} (hs' : size ≤ 16) {dc : DC} (hdc : dc.Ready) :
    decodeSimple size dc =
      if dc.maxLength < align size dc.curLength + size then
        (none, { dc with curLength := align size dc.curLength + size })
      else (some (ofLE (get dc.buffer (align size dc.curLength) size)),
        { dc with curPos := align size dc.curLength + size, curLength := align size dc.curLength + size }) := by
  have hlen : u32 (align size dc.curLength + size) = align size dc.curLength + size := by
    have hle := align_le size dc.curLength
    have hroom := hdc.room
    have hsize := hdc.size
    unfold ZFS_DC_SIZE at hsize
    exact u32_of_lt (by omega)
  simp only [decodeSimple, hlen, hdc.sync]

theorem decodeBytes_of_ready {n : ℕ} (hn : n < 2 ^ 31) {dc : DC} (hdc : dc.Ready) :
    decodeBytes n dc = if dc.maxLength < dc.curLength + n then (none, { dc with curLength := dc.curLength + n })
      else (some ⟨get dc.buffer dc.curLength n, length_get ..⟩, dc.skip n) := by
  have hlen : u32 (dc.curLength + n) = dc.curLength + n := by
    have hroom := hdc.room
    have hsize := hdc.size
    unfold ZFS_DC_SIZE at hsize
    exact u32_of_lt (by omega)
  simp only [decodeBytes, hlen, hdc.sync, DC.skip]

theorem DC.Same.ready {dc dc₂ : DC} (h : dc.Same dc₂) (hdc : dc.Ready) : dc₂.Ready :=
  ⟨by rw [h.curPos, h.curLength, hdc.sync], by rw [h.curLength, h.maxLength]; exact hdc.room,
    by rw [h.maxLength]; exact hdc.size⟩

theorem blind_simple {size : ℕ} (hs' : size ≤ 16) : Blind (decodeSimple size) := by
  refine ⟨fun dc => ?_, fun dc a hdc h => ?_, fun dc dc₂ hdc hsame => ?_⟩
  · unfold decodeSimple
    dsimp only
    split_ifs <;> rfl
  · rw [decodeSimple_of_ready hs' hdc] at h ⊢
    split_ifs at h ⊢ with hroom
    exact ⟨rfl, not_lt.mp hroom, hdc.size⟩
  · rw [decodeSimple_of_ready hs' hdc, decodeSimple_of_ready hs' (hsame.ready hdc), hsame.curLength, hsame.maxLength]
    split_ifs with hroom
    · exact ⟨rfl, hsame.curPos, rfl, rfl, hsame.buffer⟩
    · rw [hsame.get (not_lt.mp hroom)]
      exact ⟨rfl, rfl, rfl, rfl, hsame.buffer⟩

theorem blind_bytes {n : ℕ} (hn : n < 2 ^ 31) : Blind (decodeBytes n) := by
  refine ⟨fun dc => ?_, fun dc a hdc h => ?_, fun dc dc₂ hdc hsame => ?_⟩
  · unfold decodeBytes
    dsimp only
    split_ifs <;> rfl
  · rw [decodeBytes_of_ready hn hdc] at h ⊢
    split_ifs at h ⊢ with hroom
    exact hdc.skip (not_lt.mp hroom)
  · rw [decodeBytes_of_ready hn hdc, decodeBytes_of_ready hn (hsame.ready hdc)]
    simp only [hsame.curLength, hsame.maxLength]
    split_ifs with hroom
    · exact ⟨rfl, hsame.curPos, rfl, rfl, hsame.buffer⟩
    · simp only [hsame.get (not_lt.mp hroom)]
      exact ⟨trivial, congrArg (· + n) hsame.curPos, congrArg (· + n) hsame.curLength, hsame.maxLength, hsame.buffer⟩

theorem blind_terminate :
    Blind (modify fun dc => { dc with buffer := put dc.buffer (dc.curPos - 1) [0] } : Coding PUnit) where
  maxLength _ := rfl
  ready _ _ hdc _ := ⟨hdc.sync, hdc.room, hdc.size⟩
  same dc dc₂ _ hsame := by
    refine ⟨rfl, hsame.curPos, hsame.curLength, hsame.maxLength, fun i hi => ?_⟩
    change put dc₂.buffer (dc₂.curPos - 1) [0] i = put dc.buffer (dc.curPos - 1) [0] i
    unfold put
    rw [hsame.curPos, hsame.buffer i hi]

end Blind

/-! ## What is accepted -/

/-- The parts of a message that have a limit: a string with its maximal length, a data buffer, the number of
chunks of a checksum message and the length of such a chunk. -/
inductive Item
  | string (max : ℕ) (l : List UInt8)
  | data (l : List UInt8)
  | count (n : UInt32)
  | length (n : UInt32)

namespace Item

/-- How the part stands in a packet: a string has its length in front of it and a zero byte behind it. -/
def bytes : Item → List UInt8
  | string _ l => toLE 4 l.length ++ (l ++ [0])
  | data l => toLE 4 l.length ++ l
  | count n | length n => toLE 4 n.toNat

def WithinLimit : Item → Prop
  | string max l => l.length ≤ max
  | data l => l.length ≤ ZFS_MAXDATA
  | count n => n.toNat ≤ ZFS_MAX_MD5_CHUNKS
  | length n => n.toNat ≤ ZFS_MAXDATA

instance : (item : Item) → Decidable item.WithinLimit
  | string .. | data _ | count _ | length _ => inferInstanceAs (Decidable (_ ≤ _))

def Stands (item : Item) (buf : ℕ → UInt8) (start stop : ℕ) : Prop :=
  ∃ pos, start ≤ pos ∧ pos + item.bytes.length ≤ stop ∧ Lies buf pos item.bytes

theorem Stands.keep {item : Item} {buf buf' : ℕ → UInt8} {start stop stop' : ℕ} (h : item.Stands buf start stop)
    (hle : stop ≤ stop') (hbuf : ∀ i < stop, buf' i = buf i) : item.Stands buf' start stop' := by
  obtain ⟨pos, hstart, hstop, hlies⟩ := h
  exact ⟨pos, hstart, hstop.trans hle, hlies.congr fun i _ hi => hbuf i (by omega)⟩

end Item

/-- A decoder of a packet in which the items of `Δ` were found before; what it accepts consists of the items
in `I`. -/
structure Sound {α : Type} (Δ : List Item) (d : Coding α) (I : α → List Item) : Prop extends Blind d where
  le_pos : ∀ dc, dc.Ready → dc.curPos ≤ (d dc).2.curPos
  pos_le : ∀ dc, dc.Ready → (d dc).2.curPos ≤ dc.maxLength
  keeps : ∀ dc i, dc.Ready → i < dc.curPos ∨ (d dc).2.curPos ≤ i → (d dc).2.buffer i = dc.buffer i
  stands : ∀ dc start a, dc.Ready → start ≤ dc.curPos → (∀ item ∈ Δ, item.Stands dc.buffer start dc.curPos) →
    (d dc).1 = some a → ∀ item ∈ I a, item.Stands (d dc).2.buffer start (d dc).2.curPos

section Sound
variable {α β : Type} {d : Coding α} {f : α → Coding β} {Δ : List Item} {J : α → List Item} {I : β → List Item}

theorem Sound.frame (h : Sound [] d J) (Δ : List Item) : Sound Δ d fun a => J a ++ Δ where
  toBlind := h.toBlind
  le_pos := h.le_pos
  pos_le := h.pos_le
  keeps := h.keeps
  stands dc start a hdc hstart hΔ ha item hitem := by
    rcases List.mem_append.mp hitem with hitem | hitem
    · exact h.stands dc start a hdc hstart (fun _ hmem => by cases hmem) ha item hitem
    · exact (hΔ item hitem).keep (h.le_pos dc hdc) fun i hi => h.keeps dc i hdc (.inl hi)

theorem Sound.bind {Δ' : α → List Item} (h : Sound Δ d Δ') (h' : ∀ a, Sound (Δ' a) (f a) I) : Sound Δ (d >>= f) I where
  toBlind := h.toBlind.bind fun a => (h' a).toBlind
  le_pos dc hdc := by
    have hle := h.le_pos dc hdc
    rcases hd : d dc with ⟨_ | a, dc'⟩
    · rw [bind_of_none hd]
      simpa only [hd] using hle
    · have hdc' := h.ready dc a hdc
      simp only [hd, forall_const] at hle hdc'
      rw [bind_of_some hd]
      exact hle.trans ((h' a).le_pos dc' hdc')
  pos_le dc hdc := by
    rcases hd : d dc with ⟨_ | a, dc'⟩
    · rw [bind_of_none hd]
      simpa only [hd] using h.pos_le dc hdc
    · have hdc' := h.ready dc a hdc
      have hmax := h.maxLength dc
      simp only [hd, forall_const] at hdc' hmax
      rw [bind_of_some hd, ← hmax]
      exact (h' a).pos_le dc' hdc'
  keeps dc i hdc hi := by
    have hkeeps := h.keeps dc i hdc
    have hle := h.le_pos dc hdc
    rcases hd : d dc with ⟨_ | a, dc'⟩
    · rw [bind_of_none hd] at hi ⊢
      simp only [hd] at hkeeps
      exact hkeeps hi
    · have hdc' := h.ready dc a hdc
      simp only [hd, forall_const] at hkeeps hle hdc'
      have hle' := (h' a).le_pos dc' hdc'
      rw [bind_of_some hd] at hi ⊢
      rw [(h' a).keeps dc' i hdc' (hi.imp_left fun hi => hi.trans_le hle), hkeeps (hi.imp_right fun hi => hle'.trans hi)]
  stands dc start b hdc hstart hΔ hb := by
    rcases hd : d dc with ⟨_ | a, dc'⟩
    · rw [bind_of_none hd] at hb
      cases hb
    · have hdc' := h.ready dc a hdc
      have hle := h.le_pos dc hdc
      have hstands := h.stands dc start a hdc hstart hΔ
      simp only [hd, forall_const] at hdc' hle hstands
      rw [bind_of_some hd] at hb ⊢
      exact (h' a).stands dc' start b hdc' (hstart.trans hle) hstands hb

theorem Sound.seq (h : Sound [] d J) (h' : ∀ a, Sound (J a ++ Δ) (f a) I) : Sound Δ (d >>= f) I :=
  (h.frame Δ).bind h'

theorem sound_pure {b : β} (h : I b ⊆ Δ) : Sound Δ (pure b) I where
  toBlind := blind_pure b
  le_pos _ _ := le_rfl
  pos_le _ hdc := hdc.sync.le.trans hdc.room
  keeps _ _ _ _ := rfl
  stands dc start a _ _ hΔ ha item hitem := by
    obtain rfl : b = a := Option.some_inj.mp ha
    exact hΔ item (h hitem)

theorem sound_failure : Sound Δ (failure : Coding β) I where
  toBlind := blind_failure
  le_pos _ _ := le_rfl
  pos_le _ hdc := hdc.sync.le.trans hdc.room
  keeps _ _ _ _ := rfl
  stands _ _ _ _ _ _ ha := by cases ha

theorem Sound.map (h : Sound [] d J) {g : α → β} (hg : ∀ a, I (g a) ⊆ J a) : Sound [] (g <$> d) I := by
  rw [map_eq_pure_bind]
  exact h.bind fun a => sound_pure (hg a)

end Sound

/-! ## Simple types -/

theorem sound_simple {size : ℕ} (hs : 0 < size) (hs' : size ≤ 16) (J : ℕ → List Item)
    (hJ : ∀ l : List UInt8, l.length = size → ∀ item ∈ J (ofLE l), item.bytes = l) : Sound [] (decodeSimple size) J where
  toBlind := blind_simple hs'
  le_pos dc hdc := by
    have hle := le_align hs dc.curLength
    rw [decodeSimple_of_ready hs' hdc, hdc.sync]
    split_ifs
    · exact le_rfl
    · dsimp only
      omega
  pos_le dc hdc := by
    rw [decodeSimple_of_ready hs' hdc]
    split_ifs with hroom
    · exact hdc.sync.le.trans hdc.room
    · exact not_lt.mp hroom
  keeps dc i hdc _ := by
    rw [decodeSimple_of_ready hs' hdc]
    split_ifs <;> rfl
  stands dc start a hdc hstart _ ha item hitem := by
    have hle := le_align hs dc.curLength
    rw [decodeSimple_of_ready hs' hdc] at ha ⊢
    split_ifs at ha ⊢ with hroom
    obtain rfl := Option.some_inj.mp ha
    have hbytes := hJ _ (length_get ..) item hitem
    refine ⟨align size dc.curLength, ?_, ?_, ?_⟩
    · rw [hdc.sync] at hstart
      exact hstart.trans hle
    · rw [hbytes, length_get]
    · rw [hbytes, Lies, length_get]

theorem sound_plain {size : ℕ} (hs : 0 < size) (hs' : size ≤ 16) : Sound [] (decodeSimple size) fun _ => [] :=
  sound_simple hs hs' _ fun _ _ _ hitem => by cases hitem

theorem sound_uchar : Sound [] decodeUchar fun _ => [] :=
  (sound_plain (by decide) (by decide)).map fun _ => List.Subset.refl _

theorem sound_uint16 : Sound [] decodeUint16 fun _ => [] :=
  (sound_plain (by decide) (by decide)).map fun _ => List.Subset.refl _

theorem sound_int16 : Sound [] decodeInt16 fun _ => [] :=
  (sound_plain (by decide) (by decide)).map fun _ => List.Subset.refl _

theorem sound_int64 : Sound [] decodeInt64 fun _ => [] :=
  (sound_plain (by decide) (by decide)).map fun _ => List.Subset.refl _

theorem sound_int32 : Sound [] decodeInt32 fun _ => [] :=
  (sound_plain (by decide) (by decide)).map fun _ => List.Subset.refl _

theorem sound_uint64 : Sound [] decodeUint64 fun _ => [] :=
  (sound_plain (by decide) (by decide)).map fun _ => List.Subset.refl _

theorem sound_uint32_item (J : UInt32 → List Item) (hJ : ∀ n, ∀ item ∈ J n, item.bytes = toLE 4 n.toNat) :
    Sound [] decodeUint32 J := by
  refine (sound_simple (by decide) (by decide) (fun n => J (UInt32.ofNat n)) ?_).map fun _ => List.Subset.refl _
  intro l hl item hitem
  have hlt : ofLE l < 2 ^ 32 := by simpa [hl] using ofLE_lt l
  rw [hJ _ item hitem, UInt32.toNat_ofNat', Nat.mod_eq_of_lt hlt, ← hl, toLE_ofLE]

theorem sound_uint32 : Sound [] decodeUint32 fun _ => [] :=
  sound_uint32_item _ fun _ _ hitem => by cases hitem

theorem sound_enum {α : Type} (ofCode : UInt8 → Option α) : Sound [] (decodeEnum ofCode) fun _ => [] := by
  refine sound_uchar.seq fun val => ?_
  cases ofCode val with
  | none => exact sound_failure
  | some a => exact sound_pure (List.Subset.refl _)

/-! ## Sequences of bytes -/

theorem sound_bytes {n : ℕ} (hn : n < 2 ^ 31) : Sound [] (decodeBytes n) fun _ => [] where
  toBlind := blind_bytes hn
  le_pos dc hdc := by
    rw [decodeBytes_of_ready hn hdc]
    split_ifs
    · exact le_rfl
    · exact Nat.le_add_right _ _
  pos_le dc hdc := by
    rw [decodeBytes_of_ready hn hdc]
    split_ifs with hroom
    · exact hdc.sync.le.trans hdc.room
    · exact (congrArg (· + n) hdc.sync).le.trans (not_lt.mp hroom)
  keeps dc i hdc _ := by
    rw [decodeBytes_of_ready hn hdc]
    split_ifs <;> rfl
  stands _ _ _ _ _ _ _ _ hitem := by cases hitem

def DC.moveTo (dc : DC) (pos : ℕ) : DC := { dc with curPos := pos, curLength := pos }

theorem DC.Ready.moveTo {dc : DC} (h : dc.Ready) {pos : ℕ} (hpos : pos ≤ dc.maxLength) : (dc.moveTo pos).Ready :=
  ⟨rfl, hpos, h.size⟩

theorem decodeUint32_some {dc dc' : DC} {len : UInt32} (hdc : dc.Ready) (h : decodeUint32 dc = (some len, dc')) :
    align 4 dc.curLength + 4 ≤ dc.maxLength ∧ Lies dc.buffer (align 4 dc.curLength) (toLE 4 len.toNat) ∧
      dc' = dc.moveTo (align 4 dc.curLength + 4) := by
  have hmap : decodeUint32 dc = _ := congrFun (map_eq_pure_bind UInt32.ofNat (decodeSimple 4)) dc
  have hsimple : decodeSimple 4 dc = _ := decodeSimple_of_ready (by decide) hdc
  split_ifs at hsimple with hroom
  · rw [hmap, bind_of_none hsimple] at h
    cases h
  · rw [hmap, bind_of_some hsimple] at h
    obtain ⟨hlen, rfl⟩ := Prod.mk.inj h
    obtain rfl := Option.some_inj.mp hlen
    have hlt : ofLE (get dc.buffer (align 4 dc.curLength) 4) < 2 ^ 32 := by
      simpa using ofLE_lt (get dc.buffer (align 4 dc.curLength) 4)
    have hword := toLE_ofLE (get dc.buffer (align 4 dc.curLength) 4)
    rw [length_get] at hword
    refine ⟨not_lt.mp hroom, ?_, rfl⟩
    rw [UInt32.toNat_ofNat', Nat.mod_eq_of_lt hlt, Lies, length_toLE, hword]

theorem lies_get (buf : ℕ → UInt8) (pos n : ℕ) : Lies buf pos (get buf pos n) := by
  rw [Lies, length_get]

theorem sound_dataBuffer : Sound [] decodeDataBuffer fun data => [.data data.1] := by
  have hrules : Sound [] decodeDataBuffer fun _ => [] := by
    refine sound_uint32.seq fun len => ?_
    split_ifs with hlen
    · exact (sound_bytes (hlen.trans_lt (by decide))).seq fun _ => sound_pure (List.Subset.refl _)
    · exact sound_failure
  refine { hrules with stands := fun dc start data hdc hstart _ hdata item hitem => ?_ }
  obtain rfl := List.mem_singleton.mp hitem
  unfold decodeDataBuffer at hdata ⊢
  rcases hword : decodeUint32 dc with ⟨_ | len, dc1⟩
  · rw [bind_of_none hword] at hdata
    cases hdata
  obtain ⟨hroom, hlies, rfl⟩ := decodeUint32_some hdc hword
  rw [bind_of_some hword] at hdata ⊢
  split_ifs at hdata ⊢ with hlen
  swap
  · cases hdata
  have hbytes := decodeBytes_of_ready (hlen.trans_lt (by decide)) (hdc.moveTo hroom)
  split_ifs at hbytes with hroom'
  · rw [bind_of_none hbytes] at hdata
    cases hdata
  rw [bind_of_some hbytes] at hdata ⊢
  obtain rfl := Option.some_inj.mp hdata
  change (Item.data (get dc.buffer (align 4 dc.curLength + 4) len.toNat)).Stands dc.buffer start
    (align 4 dc.curLength + 4 + len.toNat)
  refine ⟨align 4 dc.curLength, ?_, ?_, ?_⟩
  · rw [hdc.sync] at hstart
    exact hstart.trans (le_align (by decide) _)
  · rw [Item.bytes, List.length_append, length_toLE, length_get, Nat.add_assoc]
  · rw [Item.bytes, lies_append, length_toLE, length_get]
    exact ⟨hlies, lies_get ..⟩

def decodeTerminated {β : Type} (n : ℕ) (g : List.Vector UInt8 (n + 1) → β) : Coding β := do
  let str ← decodeBytes (n + 1)
  modify fun dc => { dc with buffer := put dc.buffer (dc.curPos - 1) [0] }
  return g str

theorem decodeTerminated_of_ready {β : Type} {n : ℕ} (hn : n + 1 < 2 ^ 31) (g : List.Vector UInt8 (n + 1) → β) {dc : DC}
    (hdc : dc.Ready) :
    decodeTerminated n g dc =
      if dc.maxLength < dc.curLength + (n + 1) then (none, { dc with curLength := dc.curLength + (n + 1) })
      else (some (g ⟨get dc.buffer dc.curLength (n + 1), length_get ..⟩),
        { dc.skip (n + 1) with buffer := put dc.buffer (dc.curLength + n) [0] }) := by
  have hbytes := decodeBytes_of_ready hn hdc
  unfold decodeTerminated
  split_ifs at hbytes ⊢ with hroom
  · exact bind_of_none hbytes
  · rw [bind_of_some hbytes]
    change (some _, { dc.skip (n + 1) with buffer := put dc.buffer (dc.curPos + (n + 1) - 1) [0] }) = _
    rw [hdc.sync]
    rfl

theorem sound_terminated {β : Type} {n : ℕ} (hn : n + 1 < 2 ^ 31) (g : List.Vector UInt8 (n + 1) → β) :
    Sound [] (decodeTerminated n g) fun _ => [] where
  toBlind := (blind_bytes hn).bind fun str => blind_terminate.bind fun _ => blind_pure (g str)
  le_pos dc hdc := by
    rw [decodeTerminated_of_ready hn g hdc]
    split_ifs
    · exact le_rfl
    · exact Nat.le_add_right _ _
  pos_le dc hdc := by
    rw [decodeTerminated_of_ready hn g hdc]
    split_ifs with hroom
    · exact hdc.sync.le.trans hdc.room
    · exact (congrArg (· + (n + 1)) hdc.sync).le.trans (not_lt.mp hroom)
  keeps dc i hdc hi := by
    rw [decodeTerminated_of_ready hn g hdc] at hi ⊢
    split_ifs at hi ⊢
    · rfl
    · -- the zero byte is the last byte of the string
      change i < dc.curPos ∨ dc.curPos + (n + 1) ≤ i at hi
      rw [hdc.sync] at hi
      change put dc.buffer (dc.curLength + n) [0] i = _
      rw [put, if_neg]
      rw [List.length_singleton]
      omega
  stands _ _ _ _ _ _ _ _ hitem := by cases hitem

theorem sound_string {max : ℕ} (hmax : max < 2 ^ 31 - 1) :
    Sound [] (decodeString max) fun str => [.string max str.1] := by
  have hrules : Sound [] (decodeString max) fun _ => [] := by
    refine sound_uint32.seq fun len => ?_
    split_ifs with hlen
    · exact sound_terminated (by omega) _
    · exact sound_failure
  refine { hrules with stands := fun dc start str hdc hstart _ hstr item hitem => ?_ }
  obtain rfl := List.mem_singleton.mp hitem
  unfold decodeString at hstr ⊢
  rcases hword : decodeUint32 dc with ⟨_ | len, dc1⟩
  · rw [bind_of_none hword] at hstr
    cases hstr
  obtain ⟨hroom, hlies, rfl⟩ := decodeUint32_some hdc hword
  rw [bind_of_some hword] at hstr ⊢
  split_ifs at hstr ⊢ with hlen
  swap
  · cases hstr
  have hbytes := decodeTerminated_of_ready (by omega : len.toNat + 1 < 2 ^ 31)
    (fun str => (⟨str.toList.take len.toNat, (List.length_take_le ..).trans hlen⟩ : Limited max)) (hdc.moveTo hroom)
  unfold decodeTerminated at hbytes
  rw [hbytes] at hstr ⊢
  split_ifs at hstr ⊢ with hroom'
  obtain rfl := Option.some_inj.mp hstr
  have htake : (get dc.buffer (align 4 dc.curLength + 4) (len.toNat + 1)).take len.toNat =
      get dc.buffer (align 4 dc.curLength + 4) len.toNat := by
    rw [get_add, List.take_left' (length_get ..)]
  change (Item.string max ((get dc.buffer (align 4 dc.curLength + 4) (len.toNat + 1)).take len.toNat)).Stands
    (put dc.buffer (align 4 dc.curLength + 4 + len.toNat) [0]) start (align 4 dc.curLength + 4 + (len.toNat + 1))
  rw [htake]
  refine ⟨align 4 dc.curLength, ?_, ?_, ?_⟩
  · rw [hdc.sync] at hstart
    exact hstart.trans (le_align (by decide) _)
  · simp only [Item.bytes, List.length_append, length_toLE, length_get, List.length_singleton]
    omega
  · have hkeep (pos : ℕ) (l : List UInt8) (h : Lies dc.buffer pos l)
        (hl : pos + l.length ≤ align 4 dc.curLength + 4 + len.toNat) :
        Lies (put dc.buffer (align 4 dc.curLength + 4 + len.toNat) [0]) pos l :=
      h.congr fun i _ hi => put_of_lt _ (by omega)
    rw [Item.bytes, lies_append, lies_append, length_toLE, length_get]
    refine ⟨hkeep _ _ hlies ?_, hkeep _ _ (lies_get ..) ?_, lies_put ..⟩
    · rw [length_toLE]
      omega
    · rw [length_get]

end ZFS.Protocol
