import JvmClass.Proofs.Instruction.Placement

/-!
# The format of instructions

Which bytes are one instruction is told here without a length: an opcode with
the operands that it takes, the longer form of an instruction, or one of the two
switches with as many cases as it announces. The length that the library finds
is the number of these bytes, and it finds none where no instruction stands.
There is one exception. A table switch whose lower bound is the upper one plus
one has no case at all; it is accepted, although its bounds are reversed.
-/

namespace JvmClass

/-! ## Operands -/

/-- What follows the opcode of an instruction of fixed length. -/
inductive OperandKind where
  /-- Nothing. -/
  | none
  /-- A number of one byte, or the type of the elements of an array. -/
  | byte
  /-- A number of two bytes. -/
  | short
  /-- A local variable. -/
  | slot
  /-- A local variable and the amount that it grows by. -/
  | increment
  /-- The index of a constant in one byte. -/
  | shortIndex
  /-- The index of a constant. -/
  | index
  /-- The index of a constant, the number of arguments and a zero. -/
  | interfaceCall
  /-- The index of a constant and two zeros. -/
  | dynamicCall
  /-- The index of a constant and a number of dimensions. -/
  | dimensions
  /-- A distance of two bytes. -/
  | branch
  /-- A distance of four bytes. -/
  | longBranch
  deriving DecidableEq

namespace OperandKind

/-- The number of bytes of the operands. -/
def width : OperandKind → Nat
  | none => 0
  | byte | slot | shortIndex => 1
  | short | increment | index | branch => 2
  | dimensions => 3
  | interfaceCall | dynamicCall | longBranch => 4

/-- The opcodes that take the operands, as pairs of a first and a last one. -/
def ranges : OperandKind → List (UInt8 × UInt8)
  | none => [(0x00, 0x0f), (0x1a, 0x35), (0x3b, 0x83), (0x85, 0x98), (0xac, 0xb1), (0xbe, 0xbf),
      (0xc2, 0xc3)]
  | byte => [(0x10, 0x10), (0xbc, 0xbc)]
  | short => [(0x11, 0x11)]
  | slot => [(0x15, 0x19), (0x36, 0x3a), (0xa9, 0xa9)]
  | increment => [(0x84, 0x84)]
  | shortIndex => [(0x12, 0x12)]
  | index => [(0x13, 0x14), (0xb2, 0xb8), (0xbb, 0xbb), (0xbd, 0xbd), (0xc0, 0xc1)]
  | interfaceCall => [(0xb9, 0xb9)]
  | dynamicCall => [(0xba, 0xba)]
  | dimensions => [(0xc5, 0xc5)]
  | branch => [(0x99, 0xa8), (0xc6, 0xc7)]
  | longBranch => [(0xc8, 0xc9)]

/-- All kinds of operands. -/
def all : List OperandKind :=
  [none, byte, short, slot, increment, shortIndex, index, interfaceCall, dynamicCall, dimensions,
    branch, longBranch]

/-- Whether an opcode takes operands of a kind. -/
def Follows (kind : OperandKind) (op : UInt8) : Prop :=
  ∃ range ∈ kind.ranges, range.1 ≤ op ∧ op ≤ range.2

instance (kind : OperandKind) (op : UInt8) : Decidable (kind.Follows op) :=
  inferInstanceAs (Decidable (∃ range ∈ kind.ranges, range.1 ≤ op ∧ op ≤ range.2))

/-- An opcode that takes operands has the layout of their width. -/
theorem Follows.layout {kind : OperandKind} {op : UInt8} (h : kind.Follows op) :
    Layout.ofOpcode op = .fixed kind.width := by
  have hall : ∀ op, kind.Follows op → Layout.ofOpcode op = .fixed kind.width := by
    cases kind <;> exact Layout.forall_opcode (by decide +kernel)
  exact hall op h

/-- Every opcode of a fixed length takes operands of some kind. -/
theorem exists_follows {op : UInt8} {n : Nat} (h : Layout.ofOpcode op = .fixed n) :
    ∃ kind : OperandKind, kind.Follows op ∧ kind.width = n := by
  have hsome : ∀ op, (∃ kind ∈ all, kind.Follows op) ∨
      Layout.ofOpcode op ∈ [.tableSwitch, .lookupSwitch, .wide, .undefined] :=
    Layout.forall_opcode (by decide +kernel)
  obtain ⟨kind, -, hkind⟩ | hother := hsome op
  · exact ⟨kind, hkind, Layout.fixed.inj (hkind.layout.symm.trans h)⟩
  · rw [h] at hother
    simp at hother

end OperandKind

namespace Bytecode

variable {code : Bytecode} {p n : Nat} {bytes : List UInt8}

/-! ## Instructions -/

/-- The bytes of a signed number. -/
def word (n : Int32) : List UInt8 := Codec.bytesOfU32 n.toUInt32

/-- The bytes of two signed numbers. -/
def words (pair : Int32 × Int32) : List UInt8 := word pair.1 ++ word pair.2

/-- Whether so many bytes behind an opcode lead to the next multiple of four. -/
def Aligned (position : Nat) (padding : List UInt8) : Prop :=
  padding.length < 4 ∧ (position + 1 + padding.length) % 4 = 0

/-- The bytes of a switch: padding, the default offset, and what tells the cases. -/
def switchBytes (op : UInt8) (padding : List UInt8) (default : Int32) (table : List UInt8) :
    List UInt8 :=
  [op] ++ padding ++ word default ++ table

/-- The cases of a table switch: bounds and offsets. -/
def tableBytes (low high : Int32) (offsets : List Int32) : List UInt8 :=
  word low ++ word high ++ offsets.flatMap word

/-- The cases of a lookup switch: their number, and pairs of key and offset. -/
def pairBytes (npairs : Int32) (pairs : List (Int32 × Int32)) : List UInt8 :=
  word npairs ++ pairs.flatMap words

/-- The bytes that are one instruction if they start at a position. -/
inductive Complete (position : Nat) : List UInt8 → Prop where
  /-- An opcode with its operands. -/
  | plain {op : UInt8} {operands : List UInt8} (kind : OperandKind) (follows : kind.Follows op)
      (width : operands.length = kind.width) : Complete position ([op] ++ operands)
  /-- The longer form of an increment. -/
  | wideIncrement {operands : List UInt8} (width : operands.length = 4) :
      Complete position ([Opcode.wide, Opcode.iinc] ++ operands)
  /-- The longer form of any other instruction. -/
  | wide {op : UInt8} {operands : List UInt8} (other : op ≠ Opcode.iinc)
      (width : operands.length = 2) : Complete position ([Opcode.wide, op] ++ operands)
  /-- A switch with an offset for each number between two bounds. -/
  | tableSwitch {padding : List UInt8} {default low high : Int32} {offsets : List Int32}
      (aligned : Aligned position padding) (bounds : low.toInt ≤ high.toInt)
      (count : (offsets.length : Int) = high.toInt - low.toInt + 1) :
      Complete position
        (switchBytes Opcode.tableSwitch padding default (tableBytes low high offsets))
  /-- A switch with as many pairs of key and offset as it says. -/
  | lookupSwitch {padding : List UInt8} {default npairs : Int32} {pairs : List (Int32 × Int32)}
      (aligned : Aligned position padding) (count : (pairs.length : Int) = npairs.toInt) :
      Complete position
        (switchBytes Opcode.lookupSwitch padding default (pairBytes npairs pairs))

/-- So many bytes of the code from a position on. -/
def bytesAt (code : Bytecode) (position length : Nat) : List UInt8 :=
  (code.extract position (position + length)).toList

/-- Whether so many bytes from a position on lie within the code and are one
instruction. -/
def HasInstruction (code : Bytecode) (position length : Nat) : Prop :=
  position + length ≤ code.size ∧ Complete position (code.bytesAt position length)

/-- Whether a table switch starts at a position whose lower bound is the upper
one plus one. -/
def HasEmptyTable (code : Bytecode) (position : Nat) : Prop :=
  ∃ (padding : List UInt8) (default low high : Int32), Aligned position padding ∧
    low.toInt = high.toInt + 1 ∧
    code.HasBytes position
      (switchBytes Opcode.tableSwitch padding default (tableBytes low high []))

/-! ## Bytes of the code -/

/-- There are so many bytes wherever they lie within the code. -/
theorem length_bytesAt (h : p + n ≤ code.size) : (code.bytesAt p n).length = n := by
  unfold bytesAt
  rw [Array.length_toList, Array.size_extract]
  omega

/-- The bytes at a place are found there. -/
theorem hasBytes_bytesAt (h : p + n ≤ code.size) : code.HasBytes p (code.bytesAt p n) := by
  intro i hi
  rw [length_bytesAt h] at hi
  unfold bytesAt
  rw [Array.getElem?_toList, Array.getElem?_extract_of_lt (by omega),
    Array.getElem?_eq_getElem (by omega)]

/-- Bytes that are found at a place are the bytes there. -/
theorem HasBytes.bytesAt_eq (h : code.HasBytes p bytes) (hbytes : bytes ≠ []) :
    code.bytesAt p bytes.length = bytes := by
  have hsize := h.add_length_le hbytes
  have hlength := length_bytesAt hsize
  apply List.ext_getElem?
  intro i
  by_cases hi : i < bytes.length
  · rw [← h i hi, hasBytes_bytesAt hsize i (by omega)]
  · rw [List.getElem?_eq_none (by omega), List.getElem?_eq_none (by omega)]

/-- A signed number has four bytes. -/
@[simp]
theorem length_word (n : Int32) : (word n).length = 4 := rfl

/-- Two signed numbers have eight bytes. -/
@[simp]
theorem length_words (pair : Int32 × Int32) : (words pair).length = 8 := rfl

/-- A number in the code is read from its bytes. -/
theorem HasBytes.i32At? {n : Int32} (h : code.HasBytes p (word n)) :
    code.i32At? p = some n.toInt := by
  rw [i32At?_of_bytes h, Int32.toInt32_toUInt32]

/-- Any four bytes are those of a number. -/
theorem exists_hasBytes_word (h : p + 4 ≤ code.size) : ∃ n, code.HasBytes p (word n) := by
  have hbytes := hasBytes_bytesAt h
  match hfour : code.bytesAt p 4, length_bytesAt h with
  | [a, b, c, d], _ =>
    refine ⟨(Codec.u32OfBytes a b c d).toInt32, ?_⟩
    unfold word
    rw [UInt32.toUInt32_toInt32, Codec.bytesOfU32_u32OfBytes, ← hfour]
    exact hbytes

/-- Any eight bytes are those of two numbers. -/
theorem exists_hasBytes_words (h : p + 8 ≤ code.size) : ∃ pair, code.HasBytes p (words pair) := by
  obtain ⟨first, hfirst⟩ := exists_hasBytes_word (show p + 4 ≤ code.size by omega)
  obtain ⟨second, hsecond⟩ := exists_hasBytes_word (show p + 4 + 4 ≤ code.size by omega)
  exact ⟨(first, second), hasBytes_append.mpr ⟨hfirst, hsecond⟩⟩

/-- A row of items of one width is found wherever there are enough bytes. -/
theorem exists_hasBytes_flatMap {α : Type} {encode : α → List UInt8} {width : Nat}
    (hwidth : ∀ a, (encode a).length = width)
    (hitem : ∀ p, p + width ≤ code.size → ∃ a, code.HasBytes p (encode a)) (count : Nat) :
    ∀ p, p + width * count ≤ code.size →
      ∃ items : List α, items.length = count ∧ code.HasBytes p (items.flatMap encode) := by
  induction count with
  | zero => exact fun p _ => ⟨[], rfl, fun i hi => absurd hi (Nat.not_lt_zero i)⟩
  | succ count ih =>
    intro p h
    rw [Nat.mul_succ] at h
    obtain ⟨first, hfirst⟩ := hitem p (by omega)
    obtain ⟨items, hcount, hitems⟩ := ih (p + width) (by omega)
    refine ⟨first :: items, by rw [List.length_cons, hcount], ?_⟩
    rw [List.flatMap_cons, hasBytes_append, hwidth]
    exact ⟨hfirst, hitems⟩

/-! ## Bytes of switches -/

/-- The padding of a switch reaches to its operands. -/
theorem aligned_iff {padding : List UInt8} :
    Aligned p padding ↔ p + 1 + padding.length = switchOperands p := by
  unfold Aligned switchOperands
  omega

/-- The padding of a switch is found in front of its operands. -/
theorem exists_aligned (h : switchOperands p ≤ code.size) :
    ∃ padding, Aligned p padding ∧ code.HasBytes (p + 1) padding := by
  have hlt := lt_switchOperands p
  have hsize : p + 1 + (switchOperands p - (p + 1)) ≤ code.size := by omega
  refine ⟨_, aligned_iff.mpr ?_, hasBytes_bytesAt hsize⟩
  rw [length_bytesAt hsize]
  omega

/-- Code holds a single byte. -/
theorem hasBytes_singleton {byte : UInt8} : code.HasBytes p [byte] ↔ code[p]? = some byte := by
  unfold HasBytes
  simp

variable {op : UInt8} {padding table : List UInt8} {default low high npairs : Int32}
  {offsets : List Int32} {pairs : List (Int32 × Int32)}

/-- The length of a switch. -/
theorem length_switchBytes (h : Aligned p padding) :
    (switchBytes op padding default table).length = switchOperands p - p + 4 + table.length := by
  have hplace := aligned_iff.mp h
  simp only [switchBytes, List.length_append, length_word, List.length_singleton]
  omega

/-- The cases of a table switch take four bytes each, behind the bounds. -/
theorem length_tableBytes : (tableBytes low high offsets).length = 8 + 4 * offsets.length := by
  simp only [tableBytes, List.length_append, length_word, List.length_flatMap, List.map_const',
    List.sum_replicate_nat]
  omega

/-- The cases of a lookup switch take eight bytes each, behind their number. -/
theorem length_pairBytes : (pairBytes npairs pairs).length = 4 + 8 * pairs.length := by
  simp only [pairBytes, List.length_append, length_word, length_words, List.length_flatMap,
    List.map_const', List.sum_replicate_nat]
  omega

/-- Where the parts of a switch are found. -/
theorem hasBytes_switchBytes (h : Aligned p padding) :
    code.HasBytes p (switchBytes op padding default table) ↔
      code[p]? = some op ∧ code.HasBytes (p + 1) padding ∧
        code.HasBytes (switchOperands p) (word default) ∧
        code.HasBytes (switchOperands p + 4) table := by
  have hplace := aligned_iff.mp h
  unfold switchBytes
  simp only [List.append_assoc, hasBytes_append, hasBytes_singleton, List.length_singleton,
    length_word, hplace]

/-- Where the parts of the cases of a table switch are found. -/
theorem hasBytes_tableBytes :
    code.HasBytes p (tableBytes low high offsets) ↔
      code.HasBytes p (word low) ∧ code.HasBytes (p + 4) (word high) ∧
        code.HasBytes (p + 8) (offsets.flatMap word) := by
  unfold tableBytes
  simp only [List.append_assoc, hasBytes_append, length_word, Nat.add_assoc, Nat.reduceAdd]

/-- Cases that are found behind the operands of a switch belong to one. -/
theorem exists_switchBytes (byte : code[p]? = some op)
    (htable : code.HasBytes (switchOperands p + 4) table)
    (hsize : switchOperands p + 4 ≤ code.size) :
    ∃ padding default, Aligned p padding ∧
      code.HasBytes p (switchBytes op padding default table) := by
  obtain ⟨padding, haligned, hpadding⟩ :=
    exists_aligned (show switchOperands p ≤ code.size by omega)
  obtain ⟨default, hdefault⟩ := exists_hasBytes_word hsize
  exact ⟨padding, default, haligned,
    (hasBytes_switchBytes haligned).mpr ⟨byte, hpadding, hdefault, htable⟩⟩

/-- Wherever there are bounds and enough bytes, there are the cases of a table
switch. -/
theorem exists_tableBytes {low high : Int} (hlow : code.i32At? p = some low)
    (hhigh : code.i32At? (p + 4) = some high) (hcount : 0 ≤ high - low + 1)
    (hsize : p + 8 + 4 * (high - low + 1).toNat ≤ code.size) :
    ∃ first last : Int32, ∃ offsets : List Int32, first.toInt = low ∧ last.toInt = high ∧
      (offsets.length : Int) = high - low + 1 ∧ code.HasBytes p (tableBytes first last offsets) := by
  obtain ⟨first, hfirst⟩ := exists_hasBytes_word (show p + 4 ≤ code.size by omega)
  obtain ⟨last, hlast⟩ := exists_hasBytes_word (show p + 4 + 4 ≤ code.size by omega)
  obtain ⟨offsets, hlength, hoffsets⟩ := exists_hasBytes_flatMap length_word
    (fun _ => exists_hasBytes_word) (high - low + 1).toNat (p + 8) hsize
  refine ⟨first, last, offsets, ?_, ?_, by omega, ?_⟩
  · exact Option.some.inj (hfirst.i32At?.symm.trans hlow)
  · exact Option.some.inj (hlast.i32At?.symm.trans hhigh)
  · exact hasBytes_tableBytes.mpr ⟨hfirst, hlast, hoffsets⟩

/-- Wherever there are a number and enough bytes, there are the cases of a lookup
switch. -/
theorem exists_pairBytes {count : Int} (hcount : code.i32At? p = some count) (hpos : 0 ≤ count)
    (hsize : p + 4 + 8 * count.toNat ≤ code.size) :
    ∃ npairs : Int32, ∃ pairs : List (Int32 × Int32), (pairs.length : Int) = npairs.toInt ∧
      pairs.length = count.toNat ∧ code.HasBytes p (pairBytes npairs pairs) := by
  obtain ⟨npairs, hnpairs⟩ := exists_hasBytes_word (show p + 4 ≤ code.size by omega)
  obtain ⟨pairs, hlength, hpairs⟩ := exists_hasBytes_flatMap length_words
    (fun _ => exists_hasBytes_words) count.toNat (p + 4) hsize
  have hnumber : npairs.toInt = count := Option.some.inj (hnpairs.i32At?.symm.trans hcount)
  exact ⟨npairs, pairs, by omega, hlength, hasBytes_append.mpr ⟨hnpairs, hpairs⟩⟩

/-! ## The length of instructions -/

/-- An instruction has bytes. -/
theorem Complete.ne_nil (h : Complete p bytes) : bytes ≠ [] := by
  cases h <;> simp [switchBytes]

/-- The length of a complete instruction is the number of its bytes. -/
theorem Complete.instructionLength (h : Complete p bytes) (hbytes : code.HasBytes p bytes) :
    code.instructionLength p = .ok bytes.length := by
  refine instructionLength_eq_ok_iff.mpr ⟨?_, hbytes.add_length_le h.ne_nil⟩
  cases h with
  | @plain op operands kind follows width =>
    obtain ⟨hop, -⟩ := hasBytes_append.mp hbytes
    rw [List.length_append, List.length_singleton, width]
    exact .fixed (hasBytes_singleton.mp hop) follows.layout
  | @wideIncrement operands width =>
    obtain ⟨hop, -⟩ := hasBytes_append.mp hbytes
    have shape : Shape code p (if Opcode.iinc = Opcode.iinc then 6 else 4) :=
      .wide (hop 0 (by decide)) (hop 1 (by decide))
    rw [List.length_append, width]
    exact shape
  | @wide op operands other width =>
    obtain ⟨hop, -⟩ := hasBytes_append.mp hbytes
    have shape := Shape.wide (hop 0 (by simp)) (hop 1 (by simp))
    rw [if_neg other] at shape
    rw [List.length_append, width]
    exact shape
  | @tableSwitch padding default low high offsets aligned bounds count =>
    obtain ⟨byte, -, -, htable⟩ := (hasBytes_switchBytes aligned).mp hbytes
    obtain ⟨hlow, hhigh, -⟩ := hasBytes_tableBytes.mp htable
    have shape := Shape.tableSwitch byte hlow.i32At? hhigh.i32At? (by omega)
    rw [← count, Int.toNat_natCast] at shape
    rw [length_switchBytes aligned, length_tableBytes, ← Nat.add_assoc]
    exact shape
  | @lookupSwitch padding default npairs pairs aligned count =>
    obtain ⟨byte, -, -, htable⟩ := (hasBytes_switchBytes aligned).mp hbytes
    obtain ⟨hnpairs, -⟩ := hasBytes_append.mp htable
    have shape := Shape.lookupSwitch byte hnpairs.i32At? (by omega)
    rw [← count, Int.toNat_natCast] at shape
    rw [length_switchBytes aligned, length_pairBytes, ← Nat.add_assoc]
    exact shape

/-- Bytes that are a complete instruction and are found in the code are an
instruction there. -/
theorem Complete.hasInstruction (h : Complete p bytes) (hbytes : code.HasBytes p bytes)
    (hlength : bytes.length = n) : code.HasInstruction p n := by
  subst hlength
  refine ⟨hbytes.add_length_le h.ne_nil, ?_⟩
  rw [hbytes.bytesAt_eq h.ne_nil]
  exact h

/-- An instruction in the code has its length. -/
theorem HasInstruction.instructionLength (h : code.HasInstruction p n) :
    code.instructionLength p = .ok n := by
  obtain ⟨hsize, hcomplete⟩ := h
  rw [hcomplete.instructionLength (hasBytes_bytesAt hsize), length_bytesAt hsize]

/-- A table switch without a case is accepted. -/
theorem HasEmptyTable.instructionLength (h : code.HasEmptyTable p) :
    code.instructionLength p = .ok (switchOperands p - p + 12) := by
  obtain ⟨padding, default, low, high, aligned, hbounds, hbytes⟩ := h
  have hsize := hbytes.add_length_le (by simp [switchBytes])
  rw [length_switchBytes aligned, length_tableBytes] at hsize
  obtain ⟨byte, -, -, htable⟩ := (hasBytes_switchBytes aligned).mp hbytes
  obtain ⟨hlow, hhigh, -⟩ := hasBytes_tableBytes.mp htable
  have shape := Shape.tableSwitch byte hlow.i32At? hhigh.i32At? (by omega)
  have hnone : high.toInt - low.toInt + 1 = 0 := by omega
  rw [hnone] at shape
  exact instructionLength_eq_ok_iff.mpr ⟨shape, hsize⟩

/-- What has a length is an instruction, or a table switch without a case. -/
theorem hasInstruction_of_shape (h : Shape code p n) (hsize : p + n ≤ code.size) :
    code.HasInstruction p n ∨
      code.HasEmptyTable p ∧ n = switchOperands p - p + 12 := by
  have hlt := lt_switchOperands p
  cases h with
  | @fixed op operands byte layout =>
    obtain ⟨kind, hkind, hwidth⟩ := OperandKind.exists_follows layout
    have hrest : p + 1 + operands ≤ code.size := by omega
    have hlength := length_bytesAt hrest
    refine .inl (Complete.hasInstruction (.plain kind hkind (hlength.trans hwidth.symm))
      (hasBytes_append.mpr ⟨hasBytes_singleton.mpr byte, hasBytes_bytesAt hrest⟩) ?_)
    rw [List.length_append, List.length_singleton, hlength]
  | @tableSwitch low high byte hlow hhigh hcount =>
    obtain ⟨first, last, offsets, rfl, rfl, hoffsets, htable⟩ :=
      exists_tableBytes hlow hhigh hcount (by omega)
    obtain ⟨padding, default, haligned, hbytes⟩ := exists_switchBytes byte htable (by omega)
    have hlength : (switchBytes Opcode.tableSwitch padding default
        (tableBytes first last offsets)).length = _ := length_switchBytes haligned
    rw [length_tableBytes] at hlength
    by_cases hbounds : first.toInt ≤ last.toInt
    · refine .inl (Complete.hasInstruction (.tableSwitch haligned hbounds hoffsets) hbytes ?_)
      omega
    · -- no case is left, and only the bounds are reversed
      have hnone : offsets = [] := List.length_eq_zero_iff.mp (by omega)
      subst hnone
      exact .inr ⟨⟨padding, default, first, last, haligned, by omega, hbytes⟩, by omega⟩
  | @lookupSwitch count byte hpairs hcount =>
    obtain ⟨npairs, pairs, hnpairs, hlength, htable⟩ := exists_pairBytes hpairs hcount (by omega)
    obtain ⟨padding, default, haligned, hbytes⟩ := exists_switchBytes byte htable (by omega)
    refine .inl (Complete.hasInstruction (.lookupSwitch haligned hnpairs) hbytes ?_)
    rw [length_switchBytes haligned, length_pairBytes, hlength, ← Nat.add_assoc]
  | @wide next byte hnext =>
    have hfront : code.HasBytes p ([Opcode.wide] ++ [next]) :=
      hasBytes_append.mpr ⟨hasBytes_singleton.mpr byte, hasBytes_singleton.mpr hnext⟩
    by_cases hop : next = Opcode.iinc
    · subst hop
      have hrest : p + 2 + 4 ≤ code.size := by simpa using hsize
      exact .inl (Complete.hasInstruction (.wideIncrement (length_bytesAt hrest))
        (hasBytes_append.mpr ⟨hfront, hasBytes_bytesAt hrest⟩)
        (by rw [List.length_append, length_bytesAt hrest]; rfl))
    · have hrest : p + 2 + 2 ≤ code.size := by simpa [hop] using hsize
      exact .inl (Complete.hasInstruction (.wide hop (length_bytesAt hrest))
        (hasBytes_append.mpr ⟨hfront, hasBytes_bytesAt hrest⟩)
        (by rw [List.length_append, length_bytesAt hrest, if_neg hop]; rfl))

/-- What has a length is an instruction, or a table switch without a case; and
both have one. -/
theorem instructionLength_eq_ok_iff_hasInstruction :
    code.instructionLength p = .ok n ↔
      code.HasInstruction p n ∨ code.HasEmptyTable p ∧ n = switchOperands p - p + 12 := by
  constructor
  · intro h
    obtain ⟨shape, hsize⟩ := instructionLength_eq_ok_iff.mp h
    exact hasInstruction_of_shape shape hsize
  · rintro (h | ⟨h, rfl⟩)
    · exact h.instructionLength
    · exact h.instructionLength

/-- A step that fails for malformed code only. -/
def FailsMalformed {α : Type} (step : Except Error α) : Prop :=
  ∀ e, step = .error e → ∃ fault, e = .malformed fault

/-- A step that succeeds. -/
theorem failsMalformed_ok {α : Type} (a : α) : FailsMalformed (.ok a) := fun _ h => by cases h

/-- A step that finds a fault. -/
theorem failsMalformed_error {α : Type} (fault : Malformed) :
    FailsMalformed (.error (.malformed fault) : Except Error α) := by
  intro e h
  cases h
  exact ⟨fault, rfl⟩

/-- A step behind another one. -/
theorem failsMalformed_bind {α β : Type} {step : Except Error α} {next : α → Except Error β}
    (hstep : FailsMalformed step) (hnext : ∀ a, FailsMalformed (next a)) :
    FailsMalformed (step >>= next) := by
  cases step with
  | error e =>
    intro e' h
    cases h
    exact hstep e rfl
  | ok a => exact hnext a

/-- A switch that is cut short is malformed. -/
theorem failsMalformed_switchWord (code : Bytecode) (p : Nat) :
    FailsMalformed (code.switchWord p) := by
  unfold switchWord
  split
  · exact failsMalformed_ok _
  · exact failsMalformed_error _

/-- An opcode that claims no length is malformed. -/
theorem failsMalformed_claimedLength (code : Bytecode) (p : Nat) (op : UInt8) :
    FailsMalformed (code.claimedLength p op) := by
  unfold claimedLength
  cases Layout.ofOpcode op with
  | fixed operands => exact failsMalformed_ok _
  | tableSwitch =>
    refine failsMalformed_bind (failsMalformed_switchWord code _) fun low => ?_
    refine failsMalformed_bind (failsMalformed_switchWord code _) fun high => ?_
    split
    · exact failsMalformed_error _
    · exact failsMalformed_ok _
  | lookupSwitch =>
    refine failsMalformed_bind (failsMalformed_switchWord code _) fun pairs => ?_
    split
    · exact failsMalformed_error _
    · exact failsMalformed_ok _
  | wide =>
    dsimp only
    split <;> exact failsMalformed_ok _
  | undefined => exact failsMalformed_error _

/-- Where no instruction stands, the code is malformed. -/
theorem failsMalformed_instructionLength (code : Bytecode) (p : Nat) :
    FailsMalformed (code.instructionLength p) := by
  unfold instructionLength
  cases code[p]? with
  | none => exact failsMalformed_error _
  | some op =>
    have hclaimed := failsMalformed_claimedLength code p op
    dsimp only
    split
    · next e hlength =>
      obtain ⟨fault, rfl⟩ := hclaimed e hlength
      exact failsMalformed_error fault
    · split
      · exact failsMalformed_ok _
      · exact failsMalformed_error _

/-- The bounds of a table switch that is a complete instruction are in order. -/
theorem Complete.le_of_tableSwitch {low high : Int} (h : Complete p bytes)
    (hbytes : code.HasBytes p bytes) (byte : code[p]? = some Opcode.tableSwitch)
    (hlow : code.i32At? (switchOperands p + 4) = some low)
    (hhigh : code.i32At? (switchOperands p + 8) = some high) : low ≤ high := by
  cases h with
  | plain kind follows width =>
    have hop := hasBytes_singleton.mp (hasBytes_append.mp hbytes).1
    cases hop.symm.trans byte
    cases follows.layout.symm.trans ((Layout.eq_tableSwitch_iff _).mpr rfl)
  | wideIncrement width =>
    cases ((hasBytes_append.mp hbytes).1 0 (by decide)).symm.trans byte
  | wide other width =>
    cases ((hasBytes_append.mp hbytes).1 0 (by simp)).symm.trans byte
  | tableSwitch aligned bounds count =>
    obtain ⟨-, -, -, htable⟩ := (hasBytes_switchBytes aligned).mp hbytes
    obtain ⟨hfirst, hlast, -⟩ := hasBytes_tableBytes.mp htable
    cases hfirst.i32At?.symm.trans hlow
    cases hlast.i32At?.symm.trans hhigh
    exact bounds
  | lookupSwitch aligned count =>
    have hop := ((hasBytes_switchBytes aligned).mp hbytes).1
    cases hop.symm.trans byte

/-- A switch without a case is no instruction, of whatever length. -/
theorem HasEmptyTable.not_hasInstruction (h : code.HasEmptyTable p) :
    ¬ ∃ n, code.HasInstruction p n := by
  rintro ⟨n, hsize, hcomplete⟩
  obtain ⟨padding, default, low, high, aligned, hbounds, hbytes⟩ := h
  obtain ⟨byte, -, -, htable⟩ := (hasBytes_switchBytes aligned).mp hbytes
  obtain ⟨hlow, hhigh, -⟩ := hasBytes_tableBytes.mp htable
  have hle := hcomplete.le_of_tableSwitch (hasBytes_bytesAt hsize) byte hlow.i32At? hhigh.i32At?
  omega

/-- Exactly the complete instructions have a length, and what is none is
malformed, unless a table switch has a lower bound of the upper one plus one.
Such a switch is accepted, with no case; it is no complete instruction. -/
theorem instructionLength_accepts_exactly_iff (code : Bytecode) (p : Nat) :
    (((∀ n, code.instructionLength p = .ok n ↔ code.HasInstruction p n) ∧
        ((¬ ∃ n, code.HasInstruction p n) →
          ∃ fault, code.instructionLength p = .error (.malformed fault))) ↔
      ¬ code.HasEmptyTable p) ∧
    (code.HasEmptyTable p →
      code.instructionLength p = .ok (switchOperands p - p + 12) ∧
        ¬ ∃ n, code.HasInstruction p n) := by
  refine ⟨⟨?_, ?_⟩, fun hempty => ⟨hempty.instructionLength, hempty.not_hasInstruction⟩⟩
  · rintro ⟨hexact, -⟩ hempty
    exact hempty.not_hasInstruction ⟨_, (hexact _).mp hempty.instructionLength⟩
  · intro hnone
    have hexact : ∀ n, code.instructionLength p = .ok n ↔ code.HasInstruction p n := fun n =>
      instructionLength_eq_ok_iff_hasInstruction.trans
        (or_iff_left fun hempty => hnone hempty.1)
    refine ⟨hexact, fun hother => ?_⟩
    cases hlength : code.instructionLength p with
    | ok n => exact absurd ⟨n, (hexact n).mp hlength⟩ hother
    | error e =>
      obtain ⟨fault, rfl⟩ := failsMalformed_instructionLength code p e hlength
      exact ⟨fault, rfl⟩

/-- A table switch at the start of the code, with a lower bound of 1 and an upper
bound of 0. -/
def reversedTable : Bytecode :=
  #[0xaa, 0, 0, 0, 0, 0, 0, 0x10, 0, 0, 0, 1, 0, 0, 0, 0]

/-- Not everything that has a length is a complete instruction. -/
theorem not_accepts_exactly_reversedTable :
    reversedTable.instructionLength 0 = .ok 16 ∧
      ¬ ∀ n, reversedTable.instructionLength 0 = .ok n ↔ reversedTable.HasInstruction 0 n := by
  have hlength : reversedTable.instructionLength 0 = .ok 16 := by decide
  refine ⟨hlength, fun hexact => ?_⟩
  have hbyte : reversedTable[0]? = some Opcode.tableSwitch := by decide
  obtain ⟨hsize, hcomplete⟩ := (hexact 16).mp hlength
  have hle : (1 : Int) ≤ 0 :=
    hcomplete.le_of_tableSwitch (hasBytes_bytesAt hsize) hbyte (by decide) (by decide)
  omega

end Bytecode

end JvmClass
