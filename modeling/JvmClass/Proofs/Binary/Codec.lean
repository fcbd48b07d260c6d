import JvmClass.Binary.Codec
import JvmClass.Proofs.Edit

/-!
# Laws of codecs

Two laws tie the reader of a binary form to its writer. What is written is read
back, whatever bytes follow it; and what is read is written as the bytes that it
was read from. Both are kept by every way to make a codec from others, so that
they hold of a whole file as soon as they hold of its numbers.
-/

namespace JvmClass

namespace Decoder

variable {α β : Type} {bytes rest : List UInt8}

/-- A reader that reads nothing. -/
@[simp]
theorem pure_eq_ok_iff {a b : α} :
    (pure a : Decoder α) bytes = .ok (b, rest) ↔ a = b ∧ bytes = rest := by
  show (Except.ok (a, bytes) : Except Error _) = _ ↔ _
  rw [Except.ok.injEq, Prod.mk.injEq]

/-- A reader that fails. -/
theorem throw_ne_ok {e : Error} {b : α} : (throw e : Decoder α) bytes ≠ .ok (b, rest) :=
  fun h => by cases h

/-- A step that reads nothing and may fail. -/
theorem lift_eq_ok_iff {result : Except Error α} {a : α} :
    (liftM result : Decoder α) bytes = .ok (a, rest) ↔ result = .ok a ∧ bytes = rest := by
  cases result with
  | error e => exact iff_of_false (fun h => by cases h) fun h => by cases h.1
  | ok b =>
    show (Except.ok (b, bytes) : Except Error _) = _ ↔ _
    rw [Except.ok.injEq, Except.ok.injEq, Prod.mk.injEq]

/-- Of two readers in a row, the second one reads what the first one leaves. -/
theorem bind_eq_ok_iff {first : Decoder α} {second : α → Decoder β} {b : β} :
    (first >>= second) bytes = .ok (b, rest) ↔
      ∃ a middle, first bytes = .ok (a, middle) ∧ second a middle = .ok (b, rest) := by
  constructor
  · intro h
    obtain ⟨⟨a, middle⟩, ha, hb⟩ := JvmClass.bind_eq_ok_iff.mp h
    exact ⟨a, middle, ha, hb⟩
  · rintro ⟨a, middle, ha, hb⟩
    exact JvmClass.bind_eq_ok_iff.mpr ⟨(a, middle), ha, hb⟩

/-- A reader whose value is converted. -/
theorem map_eq_ok_iff {decode : Decoder α} {f : α → β} {b : β} :
    (f <$> decode) bytes = .ok (b, rest) ↔ ∃ a, decode bytes = .ok (a, rest) ∧ f a = b := by
  rw [map_eq_pure_bind, bind_eq_ok_iff]
  constructor
  · rintro ⟨a, middle, ha, hb⟩
    obtain ⟨hab, hrest⟩ := pure_eq_ok_iff.mp hb
    exact ⟨a, hrest ▸ ha, hab⟩
  · rintro ⟨a, ha, hab⟩
    exact ⟨a, rest, ha, pure_eq_ok_iff.mpr ⟨hab, rfl⟩⟩

/-- A run of bytes is taken from the front. -/
theorem take_eq_ok_iff {count : Nat} {taken : List UInt8} :
    Decoder.take count bytes = .ok (taken, rest) ↔
      bytes = taken ++ rest ∧ taken.length = count := by
  unfold Decoder.take
  simp only [List.splitAt_eq]
  constructor
  · intro h
    split at h
    · next hlength =>
      cases h
      exact ⟨(List.take_append_drop count bytes).symm, hlength⟩
    · cases h
  · rintro ⟨rfl, rfl⟩
    rw [List.take_left, List.drop_left, if_pos rfl]

end Decoder

namespace Codec

variable {α β : Type}

/-! ## The two laws -/

/-- A value is read back from its bytes, whatever follows them. -/
def ReadsBack (c : Codec α) (a : α) : Prop :=
  ∀ bytes, c.encode a = .ok bytes → ∀ rest, c.decode (bytes ++ rest) = .ok (a, rest)

/-- A value that is read is written as the bytes that it was read from. -/
def WritesBack (c : Codec α) : Prop :=
  ∀ bytes a rest, c.decode bytes = .ok (a, rest) →
    ∃ written, c.encode a = .ok written ∧ bytes = written ++ rest

/-- Both laws hold of all values. -/
structure Exact (c : Codec α) : Prop where
  /-- Every value is read back. -/
  readsBack : ∀ a, c.ReadsBack a
  /-- Every value is written back. -/
  writesBack : c.WritesBack

/-! ## Conversions and rows -/

/-- Another type is read back if going there and back leads to the same value. -/
theorem readsBack_convert {c : Codec α} {into : α → β} {back : β → α} {b : β}
    (h : c.ReadsBack (back b)) (hinto : into (back b) = b) :
    (c.convert into back).ReadsBack b := by
  intro bytes hbytes rest
  exact Decoder.map_eq_ok_iff.mpr ⟨back b, h bytes hbytes rest, hinto⟩

/-- Another type is written back if coming from there leads to the same value. -/
theorem writesBack_convert {c : Codec α} {into : α → β} {back : β → α} (h : c.WritesBack)
    (hback : ∀ a, back (into a) = a) : (c.convert into back).WritesBack := by
  intro bytes b rest hb
  obtain ⟨a, ha, rfl⟩ := Decoder.map_eq_ok_iff.mp hb
  obtain ⟨written, hwritten, hbytes⟩ := h bytes a rest ha
  refine ⟨written, ?_, hbytes⟩
  show c.encode (back (into a)) = .ok written
  rw [hback, hwritten]

/-- Conversions that undo each other keep both laws. -/
theorem Exact.convert {c : Codec α} (h : c.Exact) {into : α → β} {back : β → α}
    (hinto : ∀ b, into (back b) = b) (hback : ∀ a, back (into a) = a) :
    (c.convert into back).Exact :=
  ⟨fun b => readsBack_convert (h.readsBack (back b)) (hinto b),
    writesBack_convert h.writesBack hback⟩

/-- The bytes of two values in a row are those of the first and those of the
second. -/
theorem encode_pair_eq_ok_iff {first : Codec α} {second : Codec β} {a : α} {b : β}
    {bytes : List UInt8} :
    (first.pair second).encode (a, b) = .ok bytes ↔
      ∃ start stop, first.encode a = .ok start ∧ second.encode b = .ok stop ∧
        bytes = start ++ stop := by
  constructor
  · intro h
    obtain ⟨start, hstart, h⟩ := bind_eq_ok_iff.mp h
    obtain ⟨stop, hstop, h⟩ := bind_eq_ok_iff.mp h
    cases h
    exact ⟨start, stop, hstart, hstop, rfl⟩
  · rintro ⟨start, stop, hstart, hstop, rfl⟩
    exact bind_eq_ok_iff.mpr ⟨start, hstart, bind_eq_ok_iff.mpr ⟨stop, hstop, rfl⟩⟩

/-- Two values in a row are read back one after the other. -/
theorem readsBack_pair {first : Codec α} {second : Codec β} {a : α} {b : β}
    (ha : first.ReadsBack a) (hb : second.ReadsBack b) :
    (first.pair second).ReadsBack (a, b) := by
  intro bytes hbytes rest
  obtain ⟨start, stop, hstart, hstop, rfl⟩ := encode_pair_eq_ok_iff.mp hbytes
  rw [List.append_assoc]
  refine Decoder.bind_eq_ok_iff.mpr ⟨a, stop ++ rest, ha start hstart _, ?_⟩
  exact Decoder.bind_eq_ok_iff.mpr ⟨b, rest, hb stop hstop rest, rfl⟩

/-- Two values in a row are written back one after the other. -/
theorem writesBack_pair {first : Codec α} {second : Codec β} (ha : first.WritesBack)
    (hb : second.WritesBack) : (first.pair second).WritesBack := by
  rintro bytes ⟨a, b⟩ rest h
  obtain ⟨a', middle, hfirst, h⟩ := Decoder.bind_eq_ok_iff.mp h
  obtain ⟨b', last, hsecond, h⟩ := Decoder.bind_eq_ok_iff.mp h
  cases h
  obtain ⟨start, hstart, rfl⟩ := ha bytes a middle hfirst
  obtain ⟨stop, hstop, rfl⟩ := hb middle b rest hsecond
  exact ⟨start ++ stop, encode_pair_eq_ok_iff.mpr ⟨start, stop, hstart, hstop, rfl⟩,
    (List.append_assoc ..).symm⟩

/-- Two values in a row keep both laws. -/
theorem Exact.pair {first : Codec α} {second : Codec β} (ha : first.Exact) (hb : second.Exact) :
    (first.pair second).Exact :=
  ⟨fun (a, b) => readsBack_pair (ha.readsBack a) (hb.readsBack b),
    writesBack_pair ha.writesBack hb.writesBack⟩

/-! ## Numbers -/

/-- The two bytes of a 16-bit number give it back. -/
theorem ofNat_bytesOfU16 (n : UInt16) :
    UInt16.ofNat ((UInt8.ofNat (n.toNat / 256)).toNat * 256 +
      (UInt8.ofNat (n.toNat % 256)).toNat) = n := by
  have h := n.toNat_lt
  apply UInt16.toNat.inj
  simp only [UInt16.toNat_ofNat', UInt8.toNat_ofNat']
  omega

/-- The two halves of a 32-bit number give it back. -/
theorem ofNat_halves (n : UInt32) :
    UInt32.ofNat ((UInt16.ofNat (n.toNat / 65536)).toNat * 65536 +
      (UInt16.ofNat (n.toNat % 65536)).toNat) = n := by
  have h := n.toNat_lt
  apply UInt32.toNat.inj
  simp only [UInt16.toNat_ofNat', UInt32.toNat_ofNat']
  omega

/-- A 16-bit number has two bytes. -/
@[simp]
theorem length_bytesOfU16 (n : UInt16) : (bytesOfU16 n).length = 2 := rfl

/-- A 32-bit number has four bytes. -/
@[simp]
theorem length_bytesOfU32 (n : UInt32) : (bytesOfU32 n).length = 4 := rfl

/-- Two bytes are those of the number that they are read as. -/
theorem bytesOfU16_u16OfBytes (a b : UInt8) : bytesOfU16 (u16OfBytes a b) = [a, b] := by
  have ha := a.toNat_lt
  have hb := b.toNat_lt
  have hnumber : (u16OfBytes a b).toNat = a.toNat * 256 + b.toNat := by
    unfold u16OfBytes
    rw [UInt16.toNat_ofNat']
    omega
  have hhigh : (a.toNat * 256 + b.toNat) / 256 = a.toNat := by omega
  have hlow : (a.toNat * 256 + b.toNat) % 256 = b.toNat := by omega
  unfold bytesOfU16
  rw [hnumber, hhigh, hlow, UInt8.ofNat_toNat, UInt8.ofNat_toNat]

/-- Four bytes are those of the number that they are read as. -/
theorem bytesOfU32_u32OfBytes (a b c d : UInt8) :
    bytesOfU32 (u32OfBytes a b c d) = [a, b, c, d] := by
  have hhigh := (u16OfBytes a b).toNat_lt
  have hlow := (u16OfBytes c d).toNat_lt
  have hnumber : (u32OfBytes a b c d).toNat =
      (u16OfBytes a b).toNat * 65536 + (u16OfBytes c d).toNat := by
    unfold u32OfBytes
    rw [UInt32.toNat_ofNat']
    omega
  have hupper : ((u16OfBytes a b).toNat * 65536 + (u16OfBytes c d).toNat) / 65536 =
      (u16OfBytes a b).toNat := by omega
  have hlower : ((u16OfBytes a b).toNat * 65536 + (u16OfBytes c d).toNat) % 65536 =
      (u16OfBytes c d).toNat := by omega
  unfold bytesOfU32
  rw [hnumber, hupper, hlower, UInt16.ofNat_toNat, UInt16.ofNat_toNat, bytesOfU16_u16OfBytes,
    bytesOfU16_u16OfBytes]
  rfl

/-- Two halves are those of the number that they are read as. -/
theorem bytesOfU64_u64OfHalves (high low : UInt32) :
    bytesOfU64 (u64OfHalves high low) = bytesOfU32 high ++ bytesOfU32 low := by
  have hhigh := high.toNat_lt
  have hlow := low.toNat_lt
  have hnumber : (u64OfHalves high low).toNat = high.toNat * 4294967296 + low.toNat := by
    unfold u64OfHalves
    rw [UInt64.toNat_ofNat']
    omega
  have hupper : (high.toNat * 4294967296 + low.toNat) / 4294967296 = high.toNat := by omega
  have hlower : (high.toNat * 4294967296 + low.toNat) % 4294967296 = low.toNat := by omega
  unfold bytesOfU64
  rw [hnumber, hupper, hlower, UInt32.ofNat_toNat, UInt32.ofNat_toNat]

/-- A 16-bit number is what its bytes are read as. -/
theorem exists_bytesOfU16 (n : UInt16) : ∃ a b, bytesOfU16 n = [a, b] ∧ u16OfBytes a b = n :=
  ⟨_, _, rfl, ofNat_bytesOfU16 n⟩

/-- A 32-bit number is what its bytes are read as. -/
theorem exists_bytesOfU32 (n : UInt32) :
    ∃ a b c d, bytesOfU32 n = [a, b, c, d] ∧ u32OfBytes a b c d = n := by
  obtain ⟨a, b, hhigh, ha⟩ := exists_bytesOfU16 (UInt16.ofNat (n.toNat / 65536))
  obtain ⟨c, d, hlow, hc⟩ := exists_bytesOfU16 (UInt16.ofNat (n.toNat % 65536))
  refine ⟨a, b, c, d, ?_, ?_⟩
  · unfold bytesOfU32
    rw [hhigh, hlow]
    rfl
  · unfold u32OfBytes
    rw [ha, hc, ofNat_halves]

/-- The two halves of a 64-bit number give it back. -/
theorem u64OfHalves_of_toNat (n : UInt64) :
    u64OfHalves (UInt32.ofNat (n.toNat / 4294967296)) (UInt32.ofNat (n.toNat % 4294967296)) =
      n := by
  have h := n.toNat_lt
  apply UInt64.toNat.inj
  unfold u64OfHalves
  simp only [UInt32.toNat_ofNat', UInt64.toNat_ofNat']
  omega

/-- Unsigned bytes keep both laws. -/
theorem exact_u8 : u8.Exact := by
  constructor
  · intro n bytes hbytes rest
    cases hbytes
    rfl
  · intro bytes n rest h
    match bytes, h with
    | a :: bytes, h =>
      cases h
      exact ⟨[n], rfl, rfl⟩

/-- Unsigned 16-bit numbers keep both laws. -/
theorem exact_u16 : u16.Exact := by
  constructor
  · intro n bytes hbytes rest
    cases hbytes
    obtain ⟨a, b, hbytes, rfl⟩ := exists_bytesOfU16 n
    rw [hbytes]
    rfl
  · intro bytes n rest h
    match bytes, h with
    | a :: b :: bytes, h =>
      cases h
      refine ⟨_, rfl, ?_⟩
      rw [bytesOfU16_u16OfBytes]
      rfl

/-- Unsigned 32-bit numbers keep both laws. -/
theorem exact_u32 : u32.Exact := by
  constructor
  · intro n bytes hbytes rest
    cases hbytes
    obtain ⟨a, b, c, d, hbytes, rfl⟩ := exists_bytesOfU32 n
    rw [hbytes]
    rfl
  · intro bytes n rest h
    match bytes, h with
    | a :: b :: c :: d :: bytes, h =>
      cases h
      refine ⟨_, rfl, ?_⟩
      rw [bytesOfU32_u32OfBytes]
      rfl

/-- Signed 32-bit numbers keep both laws. -/
theorem exact_i32 : i32.Exact := exact_u32.convert Int32.toInt32_toUInt32 UInt32.toUInt32_toInt32

/-- Unsigned 64-bit numbers keep both laws. -/
theorem exact_u64 : u64.Exact := by
  constructor
  · intro n bytes hbytes rest
    cases hbytes
    obtain ⟨a, b, c, d, hhigh, hn⟩ := exists_bytesOfU32 (UInt32.ofNat (n.toNat / 4294967296))
    obtain ⟨e, f, g, i, hlow, hn'⟩ := exists_bytesOfU32 (UInt32.ofNat (n.toNat % 4294967296))
    have hwhole := u64OfHalves_of_toNat n
    unfold bytesOfU64
    rw [hhigh, hlow]
    rw [← hn, ← hn'] at hwhole
    exact congrArg (fun n => Except.ok (n, rest)) hwhole
  · intro bytes n rest h
    match bytes, h with
    | a :: b :: c :: d :: e :: f :: g :: i :: bytes, h =>
      cases h
      refine ⟨_, rfl, ?_⟩
      rw [bytesOfU64_u64OfHalves, bytesOfU32_u32OfBytes, bytesOfU32_u32OfBytes]
      rfl

/-- Signed 64-bit numbers keep both laws. -/
theorem exact_i64 : i64.Exact := exact_u64.convert Int64.toInt64_toUInt64 UInt64.toUInt64_toInt64

/-! ## Lengths and tables -/

/-- A 16-bit length is written exactly if it fits. -/
theorem encodeLength16_eq_ok_iff {limit : Limit} {length : Nat} {bytes : List UInt8} :
    encodeLength16 limit length = .ok bytes ↔
      length ≤ 65535 ∧ bytes = bytesOfU16 (UInt16.ofNat length) := by
  unfold encodeLength16
  split
  · next h => rw [Except.ok.injEq, eq_comm, and_iff_right h]
  · next h => exact iff_of_false (fun h => by cases h) fun h' => h h'.1

/-- A 32-bit length is written exactly if it fits. -/
theorem encodeLength32_eq_ok_iff {limit : Limit} {length : Nat} {bytes : List UInt8} :
    encodeLength32 limit length = .ok bytes ↔
      length ≤ 4294967295 ∧ bytes = bytesOfU32 (UInt32.ofNat length) := by
  unfold encodeLength32
  split
  · next h => rw [Except.ok.injEq, eq_comm, and_iff_right h]
  · next h => exact iff_of_false (fun h => by cases h) fun h' => h h'.1

/-- A 16-bit length that was read fits, and its bytes are those that were
read. -/
theorem encodeLength16_toNat (limit : Limit) (n : UInt16) :
    encodeLength16 limit n.toNat = .ok (bytesOfU16 n) := by
  have h := n.toNat_lt
  exact encodeLength16_eq_ok_iff.mpr ⟨by omega, by rw [UInt16.ofNat_toNat]⟩

/-- A 16-bit length that fits is read back. -/
theorem decode_length16 {length : Nat} (h : length ≤ 65535) (rest : List UInt8) :
    ∃ n : UInt16, n.toNat = length ∧
      u16.decode (bytesOfU16 (UInt16.ofNat length) ++ rest) = .ok (n, rest) := by
  refine ⟨_, ?_, exact_u16.readsBack _ _ rfl rest⟩
  rw [UInt16.toNat_ofNat']
  omega

/-- A 32-bit length that fits is read back. -/
theorem decode_length32 {length : Nat} (h : length ≤ 4294967295) (rest : List UInt8) :
    ∃ n : UInt32, n.toNat = length ∧
      u32.decode (bytesOfU32 (UInt32.ofNat length) ++ rest) = .ok (n, rest) := by
  refine ⟨_, ?_, exact_u32.readsBack _ _ rfl rest⟩
  rw [UInt32.toNat_ofNat']
  omega

/-- The bytes of several values are those of the first and those of the others. -/
theorem encodeAll_cons_eq_ok_iff {encode : α → Except Error (List UInt8)} {a : α} {as : List α}
    {bytes : List UInt8} :
    encodeAll encode (a :: as) = .ok bytes ↔
      ∃ start stop, encode a = .ok start ∧ encodeAll encode as = .ok stop ∧
        bytes = start ++ stop := by
  unfold encodeAll
  rw [List.mapM_cons]
  constructor
  · intro h
    cases hstart : encode a with
    | error e =>
      rw [hstart] at h
      cases h
    | ok start =>
      cases hstop : as.mapM encode with
      | error e =>
        rw [hstart, hstop] at h
        cases h
      | ok parts =>
        rw [hstart, hstop] at h
        cases h
        exact ⟨start, parts.flatten, rfl, rfl, rfl⟩
  · rintro ⟨start, stop, hstart, hstop, rfl⟩
    cases hparts : as.mapM encode with
    | error e =>
      rw [hparts] at hstop
      cases hstop
    | ok parts =>
      rw [hparts] at hstop
      cases hstop
      rw [hstart]
      rfl

/-- The bytes of one of several values are no more than those of all. -/
theorem length_le_of_mem {encode : α → Except Error (List UInt8)} {as : List α}
    {bytes : List UInt8} (h : encodeAll encode as = .ok bytes) {a : α} (ha : a ∈ as) :
    ∃ part, encode a = .ok part ∧ part.length ≤ bytes.length := by
  induction as generalizing bytes with
  | nil => cases ha
  | cons b as ih =>
    obtain ⟨start, stop, hstart, hstop, rfl⟩ := encodeAll_cons_eq_ok_iff.mp h
    rw [List.length_append]
    rcases List.mem_cons.mp ha with rfl | ha
    · exact ⟨start, hstart, Nat.le_add_right ..⟩
    · obtain ⟨part, hpart, hle⟩ := ih hstop ha
      exact ⟨part, hpart, Nat.le_trans hle (Nat.le_add_left ..)⟩

/-- Several values can be written if each of them can. -/
theorem exists_encodeAll {encode : α → Except Error (List UInt8)} {as : List α}
    (h : ∀ a ∈ as, ∃ bytes, encode a = .ok bytes) : ∃ bytes, encodeAll encode as = .ok bytes := by
  induction as with
  | nil => exact ⟨[], rfl⟩
  | cons a as ih =>
    obtain ⟨start, hstart⟩ := h a List.mem_cons_self
    obtain ⟨stop, hstop⟩ := ih fun b hb => h b (List.mem_cons_of_mem _ hb)
    exact ⟨_, encodeAll_cons_eq_ok_iff.mpr ⟨start, stop, hstart, hstop, rfl⟩⟩

/-- Several values are read back one after the other. -/
theorem times_encodeAll {c : Codec α} {as : List α} (has : ∀ a ∈ as, c.ReadsBack a)
    {bytes : List UInt8} (hbytes : encodeAll c.encode as = .ok bytes) (done : List α)
    (rest : List UInt8) :
    Decoder.times c.decode done as.length (bytes ++ rest) = .ok (done.reverse ++ as, rest) := by
  induction as generalizing bytes done with
  | nil =>
    cases hbytes
    exact congrArg (fun as => Except.ok (as, rest)) (List.append_nil _).symm
  | cons a as ih =>
    obtain ⟨start, stop, hstart, hstop, rfl⟩ := encodeAll_cons_eq_ok_iff.mp hbytes
    have hfirst := has a List.mem_cons_self start hstart (stop ++ rest)
    have hlater := ih (fun a ha => has a (List.mem_cons_of_mem _ ha)) hstop (a :: done)
    rw [List.append_assoc, List.length_cons, Decoder.times]
    simp only [hfirst]
    refine hlater.trans ?_
    rw [List.reverse_cons, List.append_assoc]
    rfl

/-- Several values are written back one after the other. -/
theorem encodeAll_of_times {c : Codec α} (h : c.WritesBack) {count : Nat} {done all : List α}
    {bytes rest : List UInt8} (hall : Decoder.times c.decode done count bytes = .ok (all, rest)) :
    ∃ as written, all = done.reverse ++ as ∧ as.length = count ∧
      encodeAll c.encode as = .ok written ∧ bytes = written ++ rest := by
  induction count generalizing done bytes with
  | zero =>
    cases hall
    exact ⟨[], [], (List.append_nil _).symm, rfl, rfl, rfl⟩
  | succ count ih =>
    unfold Decoder.times at hall
    split at hall
    · next a middle hfirst =>
      obtain ⟨start, hstart, rfl⟩ := h bytes a middle hfirst
      obtain ⟨as, stop, rfl, hlength, hstop, rfl⟩ := ih hall
      refine ⟨a :: as, start ++ stop, ?_, ?_, ?_, (List.append_assoc ..).symm⟩
      · rw [List.reverse_cons, List.append_assoc]
        rfl
      · rw [List.length_cons, hlength]
      · exact encodeAll_cons_eq_ok_iff.mpr ⟨start, stop, hstart, hstop, rfl⟩
    · cases hall

/-- What holds of every value that is read holds of all values that are read one
after the other. -/
theorem forall_mem_of_times {decode : Decoder α} {p : α → Prop}
    (h : ∀ bytes a rest, decode bytes = .ok (a, rest) → p a) {count : Nat} {done all : List α}
    {bytes rest : List UInt8} (hdone : ∀ a ∈ done, p a)
    (hall : Decoder.times decode done count bytes = .ok (all, rest)) : ∀ a ∈ all, p a := by
  induction count generalizing done bytes with
  | zero =>
    cases hall
    exact fun a ha => hdone a (List.mem_reverse.mp ha)
  | succ count ih =>
    unfold Decoder.times at hall
    split at hall
    · next a middle hfirst =>
      refine ih (fun b hb => ?_) hall
      rcases List.mem_cons.mp hb with rfl | hb
      · exact h bytes b middle hfirst
      · exact hdone b hb
    · cases hall

/-- What holds of every value that is read holds of all counted entries that are
read. -/
theorem forall_mem_of_counted {limit : Limit} {c : Codec α} {p : α → Prop}
    (h : ∀ bytes a rest, c.decode bytes = .ok (a, rest) → p a) {all : List α}
    {bytes rest : List UInt8} (hall : (counted limit c).decode bytes = .ok (all, rest)) :
    ∀ a ∈ all, p a := by
  obtain ⟨n, middle, -, htimes⟩ := Decoder.bind_eq_ok_iff.mp hall
  exact forall_mem_of_times h (fun a ha => by cases ha) htimes

/-- The bytes of counted entries are those of their number and their own. -/
theorem encode_counted_eq_ok_iff {limit : Limit} {c : Codec α} {as : List α}
    {bytes : List UInt8} :
    (counted limit c).encode as = .ok bytes ↔
      ∃ entries, as.length ≤ 65535 ∧ encodeAll c.encode as = .ok entries ∧
        bytes = bytesOfU16 (UInt16.ofNat as.length) ++ entries := by
  constructor
  · intro h
    obtain ⟨count, hcount, h⟩ := bind_eq_ok_iff.mp h
    obtain ⟨entries, hentries, h⟩ := bind_eq_ok_iff.mp h
    obtain ⟨hle, rfl⟩ := encodeLength16_eq_ok_iff.mp hcount
    cases h
    exact ⟨entries, hle, hentries, rfl⟩
  · rintro ⟨entries, hle, hentries, rfl⟩
    refine bind_eq_ok_iff.mpr ⟨_, encodeLength16_eq_ok_iff.mpr ⟨hle, rfl⟩, ?_⟩
    exact bind_eq_ok_iff.mpr ⟨entries, hentries, rfl⟩

/-- Counted entries are read back. -/
theorem readsBack_counted {limit : Limit} {c : Codec α} {as : List α}
    (has : ∀ a ∈ as, c.ReadsBack a) : (counted limit c).ReadsBack as := by
  intro bytes hbytes rest
  obtain ⟨entries, hle, hentries, rfl⟩ := encode_counted_eq_ok_iff.mp hbytes
  obtain ⟨n, hn, hcount⟩ := decode_length16 hle (entries ++ rest)
  rw [List.append_assoc]
  refine Decoder.bind_eq_ok_iff.mpr ⟨n, _, hcount, ?_⟩
  rw [hn]
  exact times_encodeAll has hentries [] rest

/-- Counted entries are written back. -/
theorem writesBack_counted {limit : Limit} {c : Codec α} (h : c.WritesBack) :
    (counted limit c).WritesBack := by
  intro bytes as rest has
  obtain ⟨n, middle, hcount, has⟩ := Decoder.bind_eq_ok_iff.mp has
  obtain ⟨found, entries, hfound, hlength, hentries, rfl⟩ := encodeAll_of_times h has
  have hfound : as = found := hfound
  subst hfound
  obtain ⟨start, hstart, rfl⟩ := exact_u16.writesBack bytes n _ hcount
  cases hstart
  have hle := n.toNat_lt
  refine ⟨bytesOfU16 n ++ entries, ?_, (List.append_assoc ..).symm⟩
  refine encode_counted_eq_ok_iff.mpr ⟨entries, ?_, hentries, ?_⟩
  · show as.length ≤ 65535
    omega
  · show _ = bytesOfU16 (UInt16.ofNat as.length) ++ entries
    rw [hlength, UInt16.ofNat_toNat]

/-- Counted entries keep both laws. -/
theorem Exact.counted {c : Codec α} (h : c.Exact) (limit : Limit) :
    (Codec.counted limit c).Exact :=
  ⟨fun _ => readsBack_counted fun a _ => h.readsBack a, writesBack_counted h.writesBack⟩

/-- Tables keep both laws. -/
theorem Exact.table {c : Codec α} (h : c.Exact) : (Codec.table c).Exact := h.counted .tableLength

end Codec

end JvmClass
