import JvmClass.Proofs.Binary.Codec

/-!
# Input that ends too early

A reader takes a run of bytes from the front of its input. It is delimited if
this run decides on its own what is read: bytes behind the run are left over,
and of a run that is cut short nothing is reported but that the input ends too
early. Readers that are put together from delimited ones are delimited.
-/

namespace JvmClass

/-- The input ends before everything is read: within a number or within a run
of bytes. -/
def Error.IsTruncation : Error → Prop
  | .truncatedNumber | .truncatedBytes _ _ => True
  | _ => False

namespace Decoder

variable {α β : Type}

/-! ## Steps of readers -/

/-- A reader behind one that fails. -/
theorem bind_of_error {first : Decoder α} {bytes : List UInt8} {e : Error}
    (h : first bytes = .error e) (second : α → Decoder β) :
    (first >>= second) bytes = .error e := by
  show (first bytes >>= fun (a, rest) => second a rest) = _
  rw [h]
  rfl

/-- A reader behind one that succeeds reads what is left. -/
theorem bind_of_ok {first : Decoder α} {bytes rest : List UInt8} {a : α}
    (h : first bytes = .ok (a, rest)) (second : α → Decoder β) :
    (first >>= second) bytes = second a rest := by
  show (first bytes >>= fun (a, rest) => second a rest) = _
  rw [h]
  rfl

/-- Of several values, the first is read before the others. -/
theorem times_succ (decode : Decoder α) (done : List α) (count : Nat) :
    times decode done (count + 1) = decode >>= fun a => times decode (a :: done) count := by
  funext bytes
  rw [times]
  cases h : decode bytes with
  | error e =>
    rw [bind_of_error h]
    simp only [h]
  | ok read =>
    rw [bind_of_ok h]
    simp only [h]

/-! ## Runs -/

/-- A run that is cut short is shorter. -/
theorem length_lt_of_prefix {front run : List UInt8} (h : front <+: run) (hne : front ≠ run) :
    front.length < run.length :=
  Nat.lt_of_le_of_ne h.length_le fun hlength => hne (h.eq_of_length hlength)

/-- A value is read from a run of bytes alone. -/
structure Reads (decode : Decoder α) (run : List UInt8) (a : α) : Prop where
  /-- Bytes behind the run are left over. -/
  leaves : ∀ tail, decode (run ++ tail) = .ok (a, tail)
  /-- A run that is cut short is reported as such. -/
  stops : ∀ front, front <+: run → front ≠ run →
    ∃ e, decode front = .error e ∧ e.IsTruncation

/-- Nothing is read from no bytes. -/
theorem reads_pure (a : α) : Reads (pure a) [] a where
  leaves _ := rfl
  stops _ hfront hne := absurd (List.prefix_nil.mp hfront) hne

/-- Two values are read from two runs in a row. -/
theorem Reads.bind {first : Decoder α} {second : α → Decoder β} {start stop : List UInt8}
    {a : α} {b : β} (hfirst : Reads first start a) (hsecond : Reads (second a) stop b) :
    Reads (first >>= second) (start ++ stop) b where
  leaves tail := by
    rw [List.append_assoc, bind_of_ok (hfirst.leaves (stop ++ tail))]
    exact hsecond.leaves tail
  stops front hfront hne := by
    obtain ⟨missing, hmissing⟩ := hfront
    -- The cut lies in the first run, or in the second one or between the two.
    by_cases hcut : front <+: start ∧ front ≠ start
    · obtain ⟨e, herror, htruncation⟩ := hfirst.stops front hcut.1 hcut.2
      exact ⟨e, bind_of_error herror second, htruncation⟩
    · obtain ⟨later, rfl⟩ : ∃ later, front = start ++ later := by
        rcases List.append_eq_append_iff.mp hmissing with ⟨gap, rfl, -⟩ | ⟨later, rfl, -⟩
        · have hgap : front = front ++ gap :=
            not_not.mp fun hne => hcut ⟨List.prefix_append front gap, hne⟩
          exact ⟨[], by rw [List.append_nil, ← hgap]⟩
        · exact ⟨later, rfl⟩
      have hlater : later <+: stop :=
        ⟨missing, List.append_cancel_left ((List.append_assoc ..).symm.trans hmissing)⟩
      obtain ⟨e, herror, htruncation⟩ := hsecond.stops later hlater fun h => hne (h ▸ rfl)
      exact ⟨e, (bind_of_ok (hfirst.leaves later) second).trans herror, htruncation⟩

/-! ## Delimited readers -/

/-- Every value is read from a run of its own. -/
def Delimited (decode : Decoder α) : Prop :=
  ∀ bytes a rest, decode bytes = .ok (a, rest) → ∃ run, bytes = run ++ rest ∧ Reads decode run a

/-- Reading nothing is delimited. -/
theorem delimited_pure (a : α) : Delimited (pure a) := by
  intro bytes b rest h
  obtain ⟨rfl, rfl⟩ := pure_eq_ok_iff.mp h
  exact ⟨[], rfl, reads_pure a⟩

/-- A failure reads no value. -/
theorem delimited_throw (e : Error) : Delimited (throw e : Decoder α) :=
  fun _ _ _ h => absurd h throw_ne_ok

/-- A step that reads nothing and may fail is delimited. -/
theorem delimited_lift (result : Except Error α) : Delimited (liftM result : Decoder α) := by
  cases result with
  | error e => exact delimited_throw e
  | ok a => exact delimited_pure a

/-- Two delimited readers in a row are delimited. -/
theorem delimited_bind {first : Decoder α} {second : α → Decoder β} (hfirst : Delimited first)
    (hsecond : ∀ a, Delimited (second a)) : Delimited (first >>= second) := by
  intro bytes b rest h
  obtain ⟨a, middle, ha, hb⟩ := bind_eq_ok_iff.mp h
  obtain ⟨start, rfl, hstart⟩ := hfirst bytes a middle ha
  obtain ⟨stop, rfl, hstop⟩ := hsecond a middle b rest hb
  exact ⟨start ++ stop, (List.append_assoc ..).symm, hstart.bind hstop⟩

/-- Converting the value of a delimited reader is delimited. -/
theorem delimited_map {decode : Decoder α} (h : Delimited decode) (f : α → β) :
    Delimited (f <$> decode) := by
  rw [map_eq_pure_bind]
  exact delimited_bind h fun a => delimited_pure (f a)

/-- Reading several values in a row is delimited. -/
theorem delimited_times {decode : Decoder α} (h : Delimited decode) (done : List α)
    (count : Nat) : Delimited (times decode done count) := by
  induction count generalizing done with
  | zero => exact delimited_pure done.reverse
  | succ count ih =>
    rw [times_succ]
    exact delimited_bind h fun a => ih (a :: done)

/-- Taking bytes is delimited: fewer than wanted are reported with their
number. -/
theorem delimited_take (count : Nat) : Delimited (take count) := by
  intro bytes taken rest h
  obtain ⟨rfl, hlength⟩ := take_eq_ok_iff.mp h
  refine ⟨taken, rfl, fun tail => take_eq_ok_iff.mpr ⟨rfl, hlength⟩, fun front hfront hne => ?_⟩
  have hshort : front.length < count := hlength ▸ length_lt_of_prefix hfront hne
  have hall : front.take count = front := List.take_of_length_le (Nat.le_of_lt hshort)
  refine ⟨.truncatedBytes count front.length, ?_, trivial⟩
  unfold take
  simp only [List.splitAt_eq, hall]
  rw [if_neg (Nat.ne_of_lt hshort)]

end Decoder

namespace Codec

open Decoder

variable {α β : Type}

/-! ## Numbers and tables -/

/-- Reading a number of some width is delimited. It reads the bytes of the
width, and fewer do not make a number. -/
theorem delimited_number {decode : Decoder α} (width : Nat)
    (hread : ∀ bytes a rest, decode bytes = .ok (a, rest) → ∃ run : List UInt8,
      run.length = width ∧ bytes = run ++ rest ∧ ∀ tail, decode (run ++ tail) = .ok (a, tail))
    (hshort : ∀ bytes : List UInt8, bytes.length < width →
      decode bytes = .error .truncatedNumber) : Delimited decode := by
  intro bytes a rest h
  obtain ⟨run, hlength, hbytes, hrun⟩ := hread bytes a rest h
  refine ⟨run, hbytes, hrun, fun front hfront hne => ⟨.truncatedNumber, hshort front ?_, trivial⟩⟩
  exact hlength ▸ length_lt_of_prefix hfront hne

/-- Unsigned bytes are delimited. -/
theorem delimited_u8 : Delimited u8.decode := by
  refine delimited_number 1 (fun bytes a rest h => ?_) fun bytes hshort => ?_
  · match bytes, h with
    | a :: bytes, h =>
      cases h
      exact ⟨[a], rfl, rfl, fun _ => rfl⟩
  · match bytes, hshort with
    | [], _ => rfl

/-- Unsigned 16-bit numbers are delimited. -/
theorem delimited_u16 : Delimited u16.decode := by
  refine delimited_number 2 (fun bytes n rest h => ?_) fun bytes hshort => ?_
  · match bytes, h with
    | a :: b :: bytes, h =>
      cases h
      exact ⟨[a, b], rfl, rfl, fun _ => rfl⟩
  · match bytes, hshort with
    | [], _ | [_], _ => rfl

/-- Unsigned 32-bit numbers are delimited. -/
theorem delimited_u32 : Delimited u32.decode := by
  refine delimited_number 4 (fun bytes n rest h => ?_) fun bytes hshort => ?_
  · match bytes, h with
    | a :: b :: c :: d :: bytes, h =>
      cases h
      exact ⟨[a, b, c, d], rfl, rfl, fun _ => rfl⟩
  · match bytes, hshort with
    | [], _ | [_], _ | [_, _], _ | [_, _, _], _ => rfl

/-- Unsigned 64-bit numbers are delimited. -/
theorem delimited_u64 : Delimited u64.decode := by
  refine delimited_number 8 (fun bytes n rest h => ?_) fun bytes hshort => ?_
  · match bytes, h with
    | a :: b :: c :: d :: e :: f :: g :: i :: bytes, h =>
      cases h
      exact ⟨[a, b, c, d, e, f, g, i], rfl, rfl, fun _ => rfl⟩
  · match bytes, hshort with
    | [], _ | [_], _ | [_, _], _ | [_, _, _], _ | [_, _, _, _], _ | [_, _, _, _, _], _
    | [_, _, _, _, _, _], _ | [_, _, _, _, _, _, _], _ => rfl

/-- Two delimited codecs in a row are delimited. -/
theorem delimited_pair {first : Codec α} {second : Codec β} (hfirst : Delimited first.decode)
    (hsecond : Delimited second.decode) : Delimited (first.pair second).decode :=
  delimited_bind hfirst fun _ => delimited_bind hsecond fun _ => delimited_pure _

/-- Counted entries are delimited if each of them is. -/
theorem delimited_counted {limit : Limit} {c : Codec α} (h : Delimited c.decode) :
    Delimited (counted limit c).decode :=
  delimited_bind delimited_u16 fun _ => delimited_times h [] _

/-- Texts are delimited: the length stands in front of the bytes. -/
theorem delimited_text : Delimited text.decode := by
  refine delimited_bind delimited_u16 fun length => delimited_bind (delimited_take _) fun bytes => ?_
  cases ModifiedUtf8.decode bytes with
  | error fault => exact delimited_throw _
  | ok s => exact delimited_pure s

end Codec

end JvmClass
