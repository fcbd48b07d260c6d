import JvmClass.Proofs.ConstantPool.Representation
import JvmClass.Proofs.Text.ModifiedUtf8
import Mathlib.Data.List.ReduceOption

/-!
# The binary form of constant pools

Every pool that agrees with its index is read back slot by slot. In the other
direction, modified UTF-8 has several forms for some texts, of which only one is
written: a pool that is read is written as the bytes that it was read from if the
payload of each of its texts has that form.
-/

namespace JvmClass

/-- A payload that is the modified UTF-8 form of the text that it is read as. -/
def ModifiedUtf8.IsCanonical (payload : List UInt8) : Prop :=
  ∃ text, decode payload = .ok text ∧ encode text = payload

namespace Codec

/-- Every text is read back. -/
theorem readsBack_text (s : String) : text.ReadsBack s := by
  intro bytes hbytes rest
  obtain ⟨start, hstart, h⟩ := bind_eq_ok_iff.mp hbytes
  cases h
  obtain ⟨hle, rfl⟩ := encodeLength16_eq_ok_iff.mp hstart
  obtain ⟨n, hn, hlength⟩ := decode_length16 hle (ModifiedUtf8.encode s ++ rest)
  rw [List.append_assoc]
  refine Decoder.bind_eq_ok_iff.mpr ⟨n, _, hlength, ?_⟩
  refine Decoder.bind_eq_ok_iff.mpr ⟨ModifiedUtf8.encode s, rest, ?_, ?_⟩
  · exact Decoder.take_eq_ok_iff.mpr ⟨rfl, hn.symm⟩
  · simp only [ModifiedUtf8.decode_encode]
    rfl

/-- A text is read from a length and a payload of that length. -/
theorem exists_payload_of_decode_text {bytes rest : List UInt8} {s : String}
    (h : text.decode bytes = .ok (s, rest)) :
    ∃ n payload, bytes = bytesOfU16 n ++ (payload ++ rest) ∧ payload.length = n.toNat ∧
      ModifiedUtf8.decode payload = .ok s := by
  obtain ⟨n, middle, hlength, hbehind⟩ := Decoder.bind_eq_ok_iff.mp h
  obtain ⟨payload, last, htake, htext⟩ := Decoder.bind_eq_ok_iff.mp hbehind
  obtain ⟨rfl, hcount⟩ := Decoder.take_eq_ok_iff.mp htake
  obtain ⟨start, hstart, rfl⟩ := exact_u16.writesBack bytes n _ hlength
  cases hstart
  cases hfound : ModifiedUtf8.decode payload with
  | error fault =>
    rw [hfound] at htext
    cases htext
  | ok found =>
    rw [hfound] at htext
    obtain ⟨rfl, rfl⟩ := Decoder.pure_eq_ok_iff.mp htext
    exact ⟨n, payload, rfl, hcount, hfound⟩

/-- A text that is read from a payload of canonical form is written back. -/
theorem encode_of_decode_text {bytes rest : List UInt8} {s : String}
    (h : text.decode bytes = .ok (s, rest))
    (hcanonical : ModifiedUtf8.IsCanonical ((bytes.take (bytes.length - rest.length)).drop 2)) :
    ∃ written, text.encode s = .ok written ∧ bytes = written ++ rest := by
  obtain ⟨n, payload, rfl, hlength, hdecode⟩ := exists_payload_of_decode_text h
  have hpayload : ((bytesOfU16 n ++ (payload ++ rest)).take
      ((bytesOfU16 n ++ (payload ++ rest)).length - rest.length)).drop 2 = payload := by
    rw [← List.append_assoc, List.length_append, Nat.add_sub_cancel, List.take_left]
    rfl
  rw [hpayload] at hcanonical
  obtain ⟨t, ht, hencode⟩ := hcanonical
  have hts : t = s := Except.ok.inj (ht.symm.trans hdecode)
  subst hts
  refine ⟨bytesOfU16 n ++ payload, ?_, (List.append_assoc ..).symm⟩
  show (do let length ← encodeLength16 .stringLength (ModifiedUtf8.encode t).length
           pure (length ++ ModifiedUtf8.encode t)) = _
  rw [hencode, hlength, encodeLength16_toNat]
  rfl

end Codec

/-! ## Entries -/

namespace Constant

/-- Two indices keep both laws. -/
theorem exact_indices : indices.Exact := Codec.exact_u16.pair Codec.exact_u16

/-- What follows the tag of an entry is read back. -/
theorem decodeBody_encodeBody {c : Constant} {body : List UInt8} (h : c.encodeBody = .ok body)
    (rest : List UInt8) : decodeBody c.kind (body ++ rest) = .ok (c, rest) := by
  cases c with
  | text s => exact Decoder.map_eq_ok_iff.mpr ⟨s, Codec.readsBack_text s body h rest, rfl⟩
  | integer n =>
    exact Decoder.map_eq_ok_iff.mpr ⟨n, Codec.exact_i32.readsBack n body h rest, rfl⟩
  | float bits =>
    exact Decoder.map_eq_ok_iff.mpr ⟨bits, Codec.exact_u32.readsBack bits body h rest, rfl⟩
  | long n =>
    exact Decoder.map_eq_ok_iff.mpr ⟨n, Codec.exact_i64.readsBack n body h rest, rfl⟩
  | double bits =>
    exact Decoder.map_eq_ok_iff.mpr ⟨bits, Codec.exact_u64.readsBack bits body h rest, rfl⟩
  | symbol kind i =>
    exact Decoder.map_eq_ok_iff.mpr ⟨i, Codec.exact_u16.readsBack i body h rest, rfl⟩
  | member kind c n =>
    exact Decoder.map_eq_ok_iff.mpr ⟨(c, n), exact_indices.readsBack (c, n) body h rest, rfl⟩
  | nameAndType n d =>
    exact Decoder.map_eq_ok_iff.mpr ⟨(n, d), exact_indices.readsBack (n, d) body h rest, rfl⟩
  | methodHandle k r =>
    have hexact := Codec.exact_u8.pair Codec.exact_u16
    exact Decoder.map_eq_ok_iff.mpr ⟨(k, r), hexact.readsBack (k, r) body h rest, rfl⟩
  | dynamic kind b n =>
    exact Decoder.map_eq_ok_iff.mpr ⟨(b, n), exact_indices.readsBack (b, n) body h rest, rfl⟩

/-- What is read behind the tag of an entry is written back. A text has to be
read from a payload of canonical form. -/
theorem encodeBody_of_decodeBody {kind : ConstantKind} {c : Constant} {bytes rest : List UInt8}
    (h : decodeBody kind bytes = .ok (c, rest))
    (hcanonical : kind = .text →
      ModifiedUtf8.IsCanonical ((bytes.take (bytes.length - rest.length)).drop 2)) :
    c.kind = kind ∧ ∃ body, c.encodeBody = .ok body ∧ bytes = body ++ rest := by
  cases kind with
  | text =>
    obtain ⟨s, hs, rfl⟩ := Decoder.map_eq_ok_iff.mp h
    exact ⟨rfl, Codec.encode_of_decode_text hs (hcanonical rfl)⟩
  | integer =>
    obtain ⟨n, hn, rfl⟩ := Decoder.map_eq_ok_iff.mp h
    exact ⟨rfl, Codec.exact_i32.writesBack bytes n rest hn⟩
  | float =>
    obtain ⟨bits, hbits, rfl⟩ := Decoder.map_eq_ok_iff.mp h
    exact ⟨rfl, Codec.exact_u32.writesBack bytes bits rest hbits⟩
  | long =>
    obtain ⟨n, hn, rfl⟩ := Decoder.map_eq_ok_iff.mp h
    exact ⟨rfl, Codec.exact_i64.writesBack bytes n rest hn⟩
  | double =>
    obtain ⟨bits, hbits, rfl⟩ := Decoder.map_eq_ok_iff.mp h
    exact ⟨rfl, Codec.exact_u64.writesBack bytes bits rest hbits⟩
  | symbol kind =>
    obtain ⟨i, hi, rfl⟩ := Decoder.map_eq_ok_iff.mp h
    exact ⟨rfl, Codec.exact_u16.writesBack bytes i rest hi⟩
  | member kind =>
    obtain ⟨indices, hindices, rfl⟩ := Decoder.map_eq_ok_iff.mp h
    exact ⟨rfl, exact_indices.writesBack bytes indices rest hindices⟩
  | nameAndType =>
    obtain ⟨indices, hindices, rfl⟩ := Decoder.map_eq_ok_iff.mp h
    exact ⟨rfl, exact_indices.writesBack bytes indices rest hindices⟩
  | methodHandle =>
    obtain ⟨handle, hhandle, rfl⟩ := Decoder.map_eq_ok_iff.mp h
    exact ⟨rfl, (Codec.exact_u8.pair Codec.exact_u16).writesBack bytes handle rest hhandle⟩
  | dynamic kind =>
    obtain ⟨indices, hindices, rfl⟩ := Decoder.map_eq_ok_iff.mp h
    exact ⟨rfl, exact_indices.writesBack bytes indices rest hindices⟩

/-- The tag of a kind is introduced by the kind alone. -/
theorem tag_of_ofTag? {tag : UInt8} {kind : ConstantKind}
    (h : ConstantKind.ofTag? tag = some kind) : kind.tag = tag := by
  unfold ConstantKind.ofTag? at h
  split at h <;> cases h <;> rfl

/-- Every entry is read back. -/
theorem readsBack (c : Constant) : codec.ReadsBack c := by
  intro bytes hbytes rest
  obtain ⟨body, hbody, h⟩ := bind_eq_ok_iff.mp hbytes
  cases h
  refine Decoder.bind_eq_ok_iff.mpr ⟨c.kind.tag, body ++ rest, rfl, ?_⟩
  simp only [ConstantKind.ofTag?_tag]
  exact decodeBody_encodeBody hbody rest

/-- The payload of a text entry that is read from the front of bytes, if it is
one. -/
def textPayload? (c : Constant) (bytes rest : List UInt8) : Option (List UInt8) :=
  match c with
  | .text _ => some ((bytes.take (bytes.length - rest.length)).drop 3)
  | _ => none

/-- An entry that is read is written back. A text has to be read from a payload
of canonical form. -/
theorem encode_of_decode {c : Constant} {bytes rest : List UInt8}
    (h : codec.decode bytes = .ok (c, rest))
    (hcanonical : ∀ payload ∈ c.textPayload? bytes rest, ModifiedUtf8.IsCanonical payload) :
    ∃ written, codec.encode c = .ok written ∧ bytes = written ++ rest := by
  obtain ⟨tag, middle, htag, hbehind⟩ := Decoder.bind_eq_ok_iff.mp h
  obtain ⟨start, hstart, rfl⟩ := Codec.exact_u8.writesBack bytes tag middle htag
  cases hstart
  cases hfound : ConstantKind.ofTag? tag with
  | none =>
    rw [hfound] at hbehind
    exact absurd hbehind Decoder.throw_ne_ok
  | some kind =>
    rw [hfound] at hbehind
    have htext : kind = .text →
        ModifiedUtf8.IsCanonical ((middle.take (middle.length - rest.length)).drop 2) := by
      rintro rfl
      obtain ⟨s, hs, rfl⟩ := Decoder.map_eq_ok_iff.mp hbehind
      obtain ⟨n, payload, hmiddle, -⟩ := Codec.exists_payload_of_decode_text hs
      have hlength : ([tag] ++ middle).length - rest.length =
          middle.length - rest.length + 1 := by
        simp only [hmiddle, List.length_append, List.length_singleton]
        omega
      refine hcanonical _ ?_
      unfold textPayload?
      rw [hlength]
      rfl
    obtain ⟨rfl, body, hbody, rfl⟩ := encodeBody_of_decodeBody hbehind htext
    refine ⟨tag :: body, ?_, rfl⟩
    show (do let body ← c.encodeBody; pure (c.kind.tag :: body)) = _
    rw [hbody, tag_of_ofTag? hfound]
    rfl

end Constant

/-! ## Pools -/

namespace ConstantPool

/-- The payloads of the text entries among the entries that fill the slots from
`size` to `count`. -/
def textPayloads (count : Nat) : (steps size : Nat) → List UInt8 → List (List UInt8)
  | 0, _, _ => []
  | steps + 1, size, bytes =>
    if count ≤ size then []
    else
      match Constant.codec.decode bytes with
      | .error _ => []
      | .ok (c, rest) =>
        (c.textPayload? bytes rest).toList ++ textPayloads count steps (size + c.slots) rest

/-- The payloads of the text entries of the pool at the front of bytes. -/
def payloads (bytes : List UInt8) : List (List UInt8) :=
  match Codec.u16.decode bytes with
  | .error _ => []
  | .ok (count, rest) => textPayloads count.toNat count.toNat 1 rest

/-- The entries of a layout are those that it was made of. -/
theorem reduceOption_layout (stored : List Constant) : (layout stored).reduceOption = stored := by
  have hrow : ∀ c : Constant, c.row.reduceOption = [c] := fun c => by
    unfold Constant.row
    split <;> rfl
  unfold layout
  rw [List.reduceOption_cons_of_none]
  induction stored with
  | nil => rfl
  | cons c stored ih =>
    rw [List.flatMap_cons, List.reduceOption_append, hrow, ih]
    rfl

/-- The entries of a pool are those that fill its slots, in order. -/
theorem map_snd_entries {pool : ConstantPool} {stored : List Constant}
    (h : pool.slots.toList = layout stored) : pool.entries.map Prod.snd = stored := by
  have hslots : pool.entries.map Prod.snd = pool.slots.toList.reduceOption := by
    unfold entries List.reduceOption
    rw [List.map_filterMap, ← List.zipIdx_map_fst 0 pool.slots.toList, List.filterMap_map,
      List.zipIdx_map_fst]
    congr 1
    funext ⟨slot, i⟩
    cases slot <;> rfl
  rw [hslots, h, reduceOption_layout]

/-- Every entry fills a slot. -/
theorem length_le_length_rows (stored : List Constant) :
    stored.length ≤ (stored.flatMap Constant.row).length := by
  induction stored with
  | nil => exact Nat.le_refl 0
  | cons c stored ih =>
    have hpos := c.slots_pos
    rw [List.length_cons, List.flatMap_cons, List.length_append, Constant.length_row]
    omega

/-- Storing several entries fills the next slots. -/
theorem toList_slots_foldl_push (stored : List Constant) (pool : ConstantPool) :
    (stored.foldl push pool).slots.toList =
      pool.slots.toList ++ stored.flatMap Constant.row := by
  induction stored generalizing pool with
  | nil => exact (List.append_nil _).symm
  | cons c stored ih =>
    rw [List.foldl_cons, ih, toList_slots_push, List.flatMap_cons, List.append_assoc]

/-- Entries that exactly fill the slots are read back. -/
theorem decodeEntries_encodeAll {stored : List Constant} {count steps : Nat}
    {pool : ConstantPool} {bytes : List UInt8}
    (hbytes : Codec.encodeAll Constant.codec.encode stored = .ok bytes)
    (hcount : count = pool.size + (stored.flatMap Constant.row).length)
    (hsteps : stored.length ≤ steps) (rest : List UInt8) :
    decodeEntries count steps pool (bytes ++ rest) = .ok (stored.foldl push pool, rest) := by
  induction stored generalizing pool steps bytes with
  | nil =>
    cases hbytes
    cases steps with
    | zero => rfl
    | succ steps =>
      unfold decodeEntries
      exact if_pos (Nat.le_of_eq hcount)
  | cons c stored ih =>
    obtain ⟨start, stop, hstart, hstop, rfl⟩ := Codec.encodeAll_cons_eq_ok_iff.mp hbytes
    rw [List.flatMap_cons, List.length_append, Constant.length_row] at hcount
    have hpos := c.slots_pos
    have hfirst := c.readsBack start hstart (stop ++ rest)
    have hwide : ¬ (c.isWide = true ∧ count ≤ pool.size + 1) := by
      rintro ⟨hwide, hle⟩
      have hslots : c.slots = 2 := if_pos hwide
      omega
    cases steps with
    | zero => cases hsteps
    | succ steps =>
      have hlater := ih hstop (by rw [size_push, hcount, Nat.add_assoc])
        (Nat.le_of_succ_le_succ hsteps)
      unfold decodeEntries
      rw [if_neg (by omega), List.append_assoc]
      simp only [hfirst]
      rw [if_neg hwide]
      exact hlater

/-- Reading entries fills all slots. -/
theorem size_of_decodeEntries {count steps : Nat} {pool next : ConstantPool}
    {bytes rest : List UInt8} (h : decodeEntries count steps pool bytes = .ok (next, rest))
    (hsize : pool.size ≤ count) (hsteps : count ≤ pool.size + steps) : next.size = count := by
  induction steps generalizing pool bytes with
  | zero =>
    cases h
    omega
  | succ steps ih =>
    rcases decodeEntries_succ_eq_ok h with ⟨hfull, rfl, -⟩ | ⟨c, later, -, hroom, -, hlater⟩
    · omega
    · have hpos := c.slots_pos
      have hpush := pool.size_push c
      exact ih hlater (by omega) (by omega)

/-- Entries that are read are written back. Texts have to be read from payloads
of canonical form. -/
theorem encodeAll_of_decodeEntries {count steps : Nat} {pool next : ConstantPool}
    {bytes rest : List UInt8} (h : decodeEntries count steps pool bytes = .ok (next, rest))
    (hcanonical : ∀ payload ∈ textPayloads count steps pool.size bytes,
      ModifiedUtf8.IsCanonical payload) :
    ∃ stored written, next.slots.toList = pool.slots.toList ++ stored.flatMap Constant.row ∧
      Codec.encodeAll Constant.codec.encode stored = .ok written ∧ bytes = written ++ rest := by
  induction steps generalizing pool bytes with
  | zero =>
    cases h
    exact ⟨[], [], (List.append_nil _).symm, rfl, rfl⟩
  | succ steps ih =>
    rcases decodeEntries_succ_eq_ok h with ⟨-, rfl, rfl⟩ | ⟨c, later, hlt, -, hread, hlater⟩
    · exact ⟨[], [], (List.append_nil _).symm, rfl, rfl⟩
    · unfold textPayloads at hcanonical
      rw [if_neg (Nat.not_le_of_lt hlt)] at hcanonical
      simp only [hread, List.mem_append, Option.mem_toList] at hcanonical
      obtain ⟨start, hstart, rfl⟩ :=
        Constant.encode_of_decode hread fun payload hp => hcanonical payload (.inl hp)
      obtain ⟨stored, stop, hslots, hstop, rfl⟩ := ih hlater fun payload hp =>
        hcanonical payload (.inr (size_push pool c ▸ hp))
      refine ⟨c :: stored, start ++ stop, ?_, ?_, (List.append_assoc ..).symm⟩
      · rw [hslots, toList_slots_push, List.flatMap_cons, List.append_assoc]
      · exact Codec.encodeAll_cons_eq_ok_iff.mpr ⟨start, stop, hstart, hstop, rfl⟩

/-- A pool that is read is written back. Texts have to be read from payloads of
canonical form. -/
theorem encode_of_decode {id : Nat} {bytes rest : List UInt8} {pool : ConstantPool}
    (h : decode id bytes = .ok (pool, rest))
    (hcanonical : ∀ payload ∈ payloads bytes, ModifiedUtf8.IsCanonical payload) :
    ∃ written, pool.encode = .ok written ∧ bytes = written ++ rest := by
  obtain ⟨count, later, hcount, hlater⟩ := Decoder.bind_eq_ok_iff.mp h
  unfold payloads at hcanonical
  simp only [hcount] at hcanonical
  obtain ⟨start, hstart, rfl⟩ := Codec.exact_u16.writesBack bytes count later hcount
  cases hstart
  by_cases hzero : count = 0
  · rw [if_pos hzero] at hlater
    cases hlater
  · rw [if_neg hzero] at hlater
    have hpos : 0 < count.toNat :=
      Nat.pos_of_ne_zero fun hn => hzero (UInt16.toNat.inj hn)
    have hempty : (empty id).size = 1 := rfl
    have hsize : pool.size = count.toNat :=
      size_of_decodeEntries hlater (by omega) (by omega)
    obtain ⟨stored, stop, hslots, hstop, rfl⟩ := encodeAll_of_decodeEntries hlater hcanonical
    refine ⟨Codec.bytesOfU16 count ++ stop, ?_, (List.append_assoc ..).symm⟩
    refine bind_eq_ok_iff.mpr ⟨stop, ?_, ?_⟩
    · rw [map_snd_entries hslots, hstop]
    · rw [hsize, UInt16.ofNat_toNat]
      rfl

/-- A pool that agrees with its index is read back slot by slot. -/
theorem decode_encode {pool : ConstantPool} (hpool : Consistent pool) {bytes : List UInt8}
    (h : pool.encode = .ok bytes) (id : Nat) (rest : List UInt8) :
    ∃ next, decode id (bytes ++ rest) = .ok (next, rest) ∧ next.slots = pool.slots := by
  obtain ⟨stored, hstored⟩ := hpool.slots
  obtain ⟨entries, hentries, hbytes⟩ := bind_eq_ok_iff.mp h
  rw [map_snd_entries hstored] at hentries
  cases hbytes
  have hsize : pool.size = (empty id).size + (stored.flatMap Constant.row).length := by
    have hlength := congrArg List.length hstored
    rw [Array.length_toList] at hlength
    exact hlength.trans (Nat.add_comm ..)
  obtain ⟨n, hn, hcount⟩ := Codec.decode_length16 hpool.size_le (entries ++ rest)
  have hne : n ≠ 0 := by
    rintro rfl
    have hzero : 0 = pool.size := hn
    have hempty : (empty id).size = 1 := rfl
    omega
  have hrows := length_le_length_rows stored
  have hsteps : stored.length ≤ n.toNat := by omega
  refine ⟨stored.foldl push (empty id), ?_, ?_⟩
  · rw [List.append_assoc]
    refine Decoder.bind_eq_ok_iff.mpr ⟨n, _, hcount, ?_⟩
    rw [if_neg hne]
    exact decodeEntries_encodeAll hentries (hn.trans hsize) hsteps rest
  · apply Array.toList_inj.mp
    rw [toList_slots_foldl_push, hstored]
    rfl

end ConstantPool

end JvmClass
