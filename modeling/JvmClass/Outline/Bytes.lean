import JvmClass.Error
import JvmClass.Outline.Tree

/-!
# Outlines of bytes

Bytes are shown as hexadecimal digits, and bits of a fixed width as all their
digits. Bytes and texts of more than 2048 bytes are shown by length and digest.
In drafts, groups of digits are separated by spaces, and a group may be
repeated, as in `00*3`.
-/

namespace JvmClass

/-! ## Drafts -/

/-- The value of a hexadecimal digit. -/
def hexValue? (c : Char) : Option Nat :=
  if '0' ≤ c ∧ c ≤ '9' then some (c.toNat - 48)
  else if 'a' ≤ c ∧ c ≤ 'f' then some (c.toNat - 87)
  else if 'A' ≤ c ∧ c ≤ 'F' then some (c.toNat - 55)
  else none

/-- The number with the given hexadecimal digits. -/
def hexNumber? (digits : List Char) : Option Nat :=
  digits.foldlM (fun n c => do pure (n * 16 + (← hexValue? c))) 0

/-- Appends the bytes with the given digits to bytes. -/
def hexBytes? (done : Array UInt8) : List Char → Option (Array UInt8)
  | [] => some done
  | high :: low :: rest => do
    hexBytes? (done.push (UInt8.ofNat ((← hexValue? high) * 16 + (← hexValue? low)))) rest
  | _ => none

/-- Appends bytes to others a number of times. -/
def appendTimes (bytes : Array UInt8) : (count : Nat) → Array UInt8 → Array UInt8
  | 0, done => done
  | count + 1, done => appendTimes bytes count (done ++ bytes)

/-- Bytes that are written as groups of digits. -/
instance : Drafted (Array UInt8) := ⟨fun tree => do
  ((← tree.word?).splitOn " ").foldlM (fun done group => do
    match group.splitOn "*" with
    | [digits] => hexBytes? done digits.toList
    | [digits, count] => do
      pure (appendTimes (← hexBytes? #[] digits.toList) (← count.toNat?) done)
    | _ => none) #[]⟩

/-- The bits that a draft writes as digits. -/
def Tree.bits? (tree : Tree) : Option Nat := do hexNumber? (← tree.word?).toList

/-- A long number is written in decimal digits. -/
instance : Drafted Int64 := ⟨fun tree => do pure (Int64.ofInt (← (← tree.word?).toInt?))⟩

/-! ## Outlines -/

/-- The Fowler–Noll–Vo digest of bytes, in its 64-bit form that adds a byte
before it multiplies. -/
def digest (bytes : Array UInt8) : UInt64 :=
  bytes.foldl (fun h b => (h ^^^ b.toUInt64) * 0x100000001b3) 0xcbf29ce484222325

/-- Bits as digits. -/
def outlineBits (width n : Nat) : Tree := .text (String.ofList (hexDigits false width n))

/-- What is shown of bytes that are too many. -/
def outlineDigest (bytes : Array UInt8) : Tree :=
  .record [("len", outline bytes.size), ("fnv1a64", outlineBits 16 (digest bytes).toNat)]

/-- The most bytes that are shown in full. -/
def outlineLimit : Nat := 2048

instance : Outlined (Array UInt8) := ⟨fun bytes =>
  if outlineLimit < bytes.size then outlineDigest bytes
  else .text (String.ofList (bytes.toList.flatMap fun b => hexDigits false 2 b.toNat))⟩

/-- A text that may be long: what a constant holds, what a type looks like in
writing, or what an error says. -/
def outlineText (text : String) : Tree :=
  if outlineLimit < text.utf8ByteSize then outlineDigest text.toUTF8.data else .text text

instance : Outlined Int32 := ⟨fun n => outline n.toInt⟩

instance : Outlined Int64 := ⟨fun n => .text (toString n.toInt)⟩

end JvmClass
