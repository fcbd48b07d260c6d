import JvmClass.Proofs.Instruction.Placement

/-!
# Tilings of code

How long an instruction is depends on the bytes from its opcode on. Its position counts
only for switches, and there only modulo four. So code behind other code whose length is
a multiple of four consists of the same instructions as alone, and it cannot be walked
there if it cannot be walked alone. Wherever a walk over all of the code succeeds, the
instructions on it tile the code: their bytes in a row are the bytes of the code.
-/

namespace JvmClass.Bytecode

variable {front code : Bytecode} {starts : List Nat} {p n first last : Nat}

/-! ## Code behind other code -/

/-- The bytes of code are found behind what is put in front of it. -/
theorem getElem?_append_front (front code : Bytecode) (i : Nat) :
    (front ++ code)[front.size + i]? = code[i]? := by
  rw [Array.getElem?_append_right (Nat.le_add_right ..), Nat.add_sub_cancel_left]

/-- Behind a multiple of four bytes, exactly the instructions of the code are complete, and
they have their lengths. -/
theorem instructionLength_append_iff (hfront : front.size % 4 = 0) :
    (front ++ code).instructionLength (front.size + p) = .ok n ↔
      code.instructionLength p = .ok n := by
  have hbyte : ∀ i, (front ++ code)[front.size + p + i]? = code[p + i]? := fun i => by
    rw [Nat.add_assoc, getElem?_append_front]
  have hsize : (front ++ code).size = front.size + code.size := Array.size_append
  have haligned : (front.size + p) % 4 = p % 4 := by omega
  constructor
  · intro h
    have same : SameInstruction (front ++ code) code (front.size + p) p n :=
      ⟨fun i _ _ => (hbyte i).symm, fun _ => haligned.symm⟩
    have hle := add_instructionLength_le h
    exact same.instructionLength h (by omega)
  · intro h
    have same : SameInstruction code (front ++ code) p (front.size + p) n :=
      ⟨fun i _ _ => hbyte i, fun _ => haligned⟩
    have hle := add_instructionLength_le h
    exact same.instructionLength h (by omega)

/-- A walk without starts has arrived. -/
theorem walk_nil_iff : Walk code first [] last ↔ first = last := by
  constructor
  · rintro ⟨⟩
    rfl
  · rintro rfl
    exact .stop first

/-- A walk over some starts passes the first instruction, and goes on behind it. -/
theorem walk_cons_iff :
    Walk code first (p :: starts) last ↔
      first = p ∧ ∃ n, code.instructionLength p = .ok n ∧ Walk code (p + n) starts last := by
  constructor
  · exact fun walk => ⟨walk.first_eq, walk.exists_rest⟩
  · rintro ⟨rfl, n, hl, rest⟩
    exact .step hl rest

/-- Behind a multiple of four bytes, the code has the same walks. -/
theorem walk_append_iff (hfront : front.size % 4 = 0) :
    Walk (front ++ code) (front.size + first) (starts.map (front.size + ·)) (front.size + last) ↔
      Walk code first starts last := by
  induction starts generalizing first with
  | nil => rw [List.map_nil, walk_nil_iff, walk_nil_iff, Nat.add_left_cancel_iff]
  | cons p starts ih =>
    rw [List.map_cons, walk_cons_iff, walk_cons_iff, Nat.add_left_cancel_iff]
    refine and_congr_right fun _ => exists_congr fun n => ?_
    rw [instructionLength_append_iff hfront, Nat.add_assoc, ih]

/-! ## Tilings -/

/-- The positions of the bytes that the instruction at a position takes, if it is
complete. -/
def extent (code : Bytecode) (p : Nat) : List Nat :=
  match code.instructionLength p with
  | .ok n => List.range' p n
  | .error _ => []

/-- Whether the instructions at some positions tile code. -/
structure TiledBy (code : Bytecode) (starts : List Nat) : Prop where
  /-- They are complete. -/
  complete : ∀ p ∈ starts, ∃ n, code.instructionLength p = .ok n
  /-- Their bytes in a row are all bytes of the code, in order and each of them once. -/
  bytes : starts.flatMap code.extent = List.range code.size
  /-- The last of them ends where the code ends. -/
  stop : ∀ p ∈ starts.getLast?, ∃ n, code.instructionLength p = .ok n ∧ p + n = code.size

namespace Walk

/-- The instructions on a walk take all bytes between its ends. -/
theorem flatMap_extent (walk : Walk code first starts last) :
    starts.flatMap code.extent = List.range' first (last - first) := by
  induction walk with
  | stop position => rw [Nat.sub_self, List.flatMap_nil, List.range'_zero]
  | @step position length last starts hl rest ih =>
    have hextent : code.extent position = List.range' position length := by
      unfold extent
      rw [hl]
    have hle := rest.le
    have hlength : last - position = length + (last - (position + length)) := by omega
    rw [List.flatMap_cons, hextent, ih, hlength, List.range'_append_1]

/-- The last instruction on a walk ends where the walk ends. -/
theorem getLast_ends (walk : Walk code first starts last) {p : Nat} (hp : p ∈ starts.getLast?) :
    ∃ n, code.instructionLength p = .ok n ∧ p + n = last := by
  induction walk with
  | stop => cases hp
  | @step position length last starts hl rest ih =>
    cases rest with
    | stop =>
      cases hp
      exact ⟨length, hl, rfl⟩
    | step =>
      rw [List.getLast?_cons_cons] at hp
      exact ih hp

/-- The instructions on a walk over all code tile it. -/
theorem tiledBy (walk : Walk code 0 starts code.size) : code.TiledBy starts :=
  ⟨fun _ => walk.exists_length, by rw [walk.flatMap_extent, List.range_eq_range', Nat.sub_zero],
    fun _ => walk.getLast_ends⟩

end Walk

/-- Behind a multiple of four bytes, code is walked as it is alone, or not at all. -/
theorem startsFrom_append (hfront : front.size % 4 = 0) (code : Bytecode) :
    ((front ++ code).startsFrom front.size).toOption =
      code.starts.toOption.map (List.map (front.size + ·)) := by
  have hsize : (front ++ code).size = front.size + code.size := Array.size_append
  have hsame : ∀ starts, (front ++ code).startsFrom front.size = .ok (starts.map (front.size + ·)) ↔
      code.starts = .ok starts := by
    intro starts
    have hwalk : Walk (front ++ code) (front.size + 0) (starts.map (front.size + ·))
        (front.size + code.size) ↔ Walk code 0 starts code.size := walk_append_iff hfront
    rw [startsFrom_eq_ok_iff (by omega), starts_eq_ok_iff, hsize]
    exact hwalk
  cases halone : code.starts with
  | ok starts =>
    rw [(hsame starts).mpr halone]
    rfl
  | error e =>
    cases hbehind : (front ++ code).startsFrom front.size with
    | error e' => rfl
    | ok found =>
      -- all starts that are found lie in the code, so that it could be walked alone
      have walk := (startsFrom_eq_ok_iff (by omega)).mp hbehind
      have hmoved : (found.map (· - front.size)).map (front.size + ·) = found := by
        rw [List.map_map]
        refine (List.map_congr_left fun p hp => ?_).trans (List.map_id found)
        exact Nat.add_sub_cancel' (walk.mem_bounds hp).1
      have hstarts := (hsame _).mp (hmoved.symm ▸ hbehind)
      rw [halone] at hstarts
      cases hstarts

/-- Moving code by a multiple of four does not change where its instructions start and end.
Behind so many bytes, an instruction is complete exactly if it is complete alone, with the
same length, and the walk over the code succeeds exactly if it succeeds alone, over the same
starts. If it does, the instructions tile the code. -/
theorem boundaries_behind_aligned (hfront : front.size % 4 = 0) (code : Bytecode) :
    (∀ p n, (front ++ code).instructionLength (front.size + p) = .ok n ↔
        code.instructionLength p = .ok n) ∧
      ((front ++ code).startsFrom front.size).toOption =
        code.starts.toOption.map (List.map (front.size + ·)) ∧
      ∀ starts, code.starts = .ok starts → code.TiledBy starts :=
  ⟨fun _ _ => instructionLength_append_iff hfront, startsFrom_append hfront code,
    fun _ h => (starts_eq_ok_iff.mp h).tiledBy⟩

/-- Four instructions that do nothing. -/
def fourNops : Bytecode := #[0, 0, 0, 0]

/-- A switch without a case behind one other instruction, and a return. -/
def paddedSwitch : Bytecode := #[0x03, 0xab, 0, 0, 0, 0, 0, 11, 0, 0, 0, 0, 0xb1]

/-- Four bytes further on, a switch has the padding that it had. -/
theorem boundaries_behind_four :
    fourNops.size % 4 = 0 ∧ paddedSwitch.starts = .ok [0, 1, 12] ∧
      instructionLength (fourNops ++ paddedSwitch) 5 = .ok 11 ∧
      (startsFrom (fourNops ++ paddedSwitch) 4).toOption = some [4, 5, 16] ∧
      paddedSwitch.TiledBy [0, 1, 12] := by
  have hfront : fourNops.size % 4 = 0 := by decide
  have hstarts : paddedSwitch.starts = .ok [0, 1, 12] := by decide +kernel
  have hlength : paddedSwitch.instructionLength 1 = .ok 11 := by decide
  obtain ⟨hsame, hwalk, htiled⟩ := boundaries_behind_aligned hfront paddedSwitch
  rw [hstarts] at hwalk
  exact ⟨hfront, hstarts, (hsame 1 11).mpr hlength, hwalk, htiled _ hstarts⟩

/-- One byte further on, it has another padding, and its bytes are no switch any more. -/
example :
    instructionLength (#[0] ++ paddedSwitch) 2 = .error (.malformed (.instruction 0xab 2)) := by
  decide

end JvmClass.Bytecode
