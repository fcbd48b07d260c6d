import JvmClass.Proofs.Binary.Codec
import JvmClass.Proofs.ConstantPool.Growth
import Mathlib.Data.Nat.Find
import Std.Data.HashMap.Lemmas

/-!
# Representation of constant pools

A pool holds its entries twice, in slots by index and in an index by entry. In
every pool that the library makes, the two agree: an entry is found at the first
slot that holds it, wide entries are followed by one empty slot, no other slot
but the first is empty, and all indices fit 16 bits. Equal entries stand in two
places only if the pool was read.
-/

namespace JvmClass.ConstantPool

/-! ## The layout of entries -/

/-- The slots of a pool that stores these entries in order. -/
def layout (stored : List Constant) : List (Option Constant) :=
  none :: stored.flatMap Constant.row

/-- One more entry comes behind the others. -/
theorem layout_append_row (stored : List Constant) (c : Constant) :
    layout stored ++ c.row = layout (stored ++ [c]) := by
  unfold layout
  rw [List.flatMap_append, List.flatMap_cons, List.flatMap_nil, List.append_nil]
  rfl

/-- Behind a slot that holds no wide entry, the empty slots of a row of entries
are those behind the wide ones. -/
theorem getElem?_rows_eq_none_iff (stored : List Constant) {before : Option Constant}
    (hbefore : ∀ c ∈ before, c.isWide = false) (i : Nat) :
    (before :: stored.flatMap Constant.row)[i + 1]? = some none ↔
      ∃ c, (before :: stored.flatMap Constant.row)[i]? = some (some c) ∧ c.isWide := by
  have hfirst : ¬ ∃ c, some before = some (some c) ∧ c.isWide = true := by
    rintro ⟨c, hc, hwide⟩
    rw [hbefore c (Option.some.inj hc)] at hwide
    cases hwide
  induction stored generalizing before i with
  | nil =>
    cases i with
    | zero => exact iff_of_false (fun h => by cases h) hfirst
    | succ i => exact iff_of_false (fun h => by cases h) fun ⟨c, hc, _⟩ => by cases hc
  | cons c stored ih =>
    rw [List.flatMap_cons]
    unfold Constant.row
    by_cases hwide : c.isWide = true
    · rw [if_pos hwide]
      match i with
      | 0 => exact iff_of_false (fun h => by cases h) hfirst
      | 1 => exact iff_of_true rfl ⟨c, rfl, hwide⟩
      | i + 2 => exact ih (fun _ h => by cases h) i fun ⟨_, h, _⟩ => by cases h
    · rw [if_neg hwide]
      match i with
      | 0 => exact iff_of_false (fun h => by cases h) hfirst
      | i + 1 =>
        have hnarrow : ∀ d ∈ some c, d.isWide = false := by
          rintro d ⟨⟩
          exact Bool.eq_false_iff.mpr hwide
        refine ih hnarrow i ?_
        rintro ⟨d, ⟨⟩, hd⟩
        exact hwide hd

/-- The empty slots of a layout are the first one and those behind the wide
entries. -/
theorem getElem?_layout_eq_none_iff (stored : List Constant) (i : Nat) :
    (layout stored)[i + 1]? = some none ↔
      ∃ c, (layout stored)[i]? = some (some c) ∧ c.isWide :=
  getElem?_rows_eq_none_iff stored (fun _ h => by cases h) i

/-! ## Pools that agree with their index -/

/-- A place is the first one of an entry. -/
def IsFirst (slots : Array (Option Constant)) (c : Constant) (i : Nat) : Prop :=
  slots[i]? = some (some c) ∧ ∀ j < i, slots[j]? ≠ some (some c)

/-- An entry that stands somewhere stands at a first place. -/
theorem exists_isFirst {slots : Array (Option Constant)} {c : Constant} {i : Nat}
    (h : slots[i]? = some (some c)) : ∃ j, IsFirst slots c j := by
  classical
  have hex : ∃ j, slots[j]? = some (some c) := ⟨i, h⟩
  exact ⟨Nat.find hex, Nat.find_spec hex, fun j hj => Nat.find_min hex hj⟩

/-- The slots of a pool hold entries in a row, as many as 16 bits can tell
apart, and its index knows the first place of each. -/
structure Consistent (pool : ConstantPool) : Prop where
  /-- The slots are those of some entries. -/
  slots : ∃ stored, pool.slots.toList = layout stored
  /-- The number of slots fits 16 bits. -/
  size_le : pool.size ≤ 65535
  /-- The index knows the first places. -/
  index : ∀ c i, pool.index[c]? = some i ↔ IsFirst pool.slots c i.toNat

/-- Equal entries are one entry. -/
def Distinct (pool : ConstantPool) : Prop :=
  ∀ (i j : Nat) (c : Constant),
    pool.slots[i]? = some (some c) → pool.slots[j]? = some (some c) → i = j

/-- An entry that the index does not know stands nowhere. -/
theorem Consistent.getElem?_slots_ne {pool : ConstantPool} {c : Constant}
    (hpool : Consistent pool) (hnew : pool.index[c]? = none) (i : Nat) :
    pool.slots[i]? ≠ some (some c) := by
  intro hi
  obtain ⟨j, hj⟩ := exists_isFirst hi
  have hlt : j < pool.slots.size := (Array.getElem?_eq_some_iff.mp hj.1).1
  have hle : pool.slots.size ≤ 65535 := hpool.size_le
  have hnumber : (UInt16.ofNat j).toNat = j := by
    rw [UInt16.toNat_ofNat']
    omega
  have hknown : pool.index[c]? = some (UInt16.ofNat j) :=
    (hpool.index c (UInt16.ofNat j)).mpr (hnumber.symm ▸ hj)
  rw [hnew] at hknown
  cases hknown

/-- A pool without entries agrees with its index. -/
theorem consistent_empty (id : Nat) : Consistent (empty id) := by
  refine ⟨⟨[], rfl⟩, (by decide : 1 ≤ 65535), fun c i => ?_⟩
  have hnone : ∀ j : Nat, (empty id).slots[j]? ≠ some (some c) := fun j => by
    cases j with
    | zero => exact fun h => by cases h
    | succ j => exact fun h => by cases h
  refine iff_of_false ?_ fun h => hnone _ h.1
  show ¬ (∅ : Std.HashMap Constant UInt16)[c]? = some i
  rw [Std.HashMap.getElem?_empty]
  exact fun h => by cases h

/-- A pool without entries has no equal ones. -/
theorem distinct_empty (id : Nat) : Distinct (empty id) := by
  intro i j c hi _
  cases i with
  | zero => cases hi
  | succ i => cases hi

section Push

variable {pool : ConstantPool} {c : Constant}

/-- The slots after an entry is stored: the old ones, and behind them the entry,
which an empty slot may follow. -/
theorem getElem?_slots_push_eq_some_iff (pool : ConstantPool) (c d : Constant) (i : Nat) :
    (pool.push c).slots[i]? = some (some d) ↔
      pool.slots[i]? = some (some d) ∨ i = pool.size ∧ d = c := by
  have hsize : pool.slots.toList.length = pool.size := Array.length_toList
  rw [← Array.getElem?_toList, ← Array.getElem?_toList, toList_slots_push]
  rcases Nat.lt_or_ge i pool.size with hlt | hge
  · rw [List.getElem?_append_left (by omega)]
    exact ⟨.inl, fun h => h.resolve_right fun h => by omega⟩
  · rw [List.getElem?_append_right (by omega), hsize]
    have hold : pool.slots.toList[i]? = none := List.getElem?_eq_none (by omega)
    rw [hold]
    have hrow : ∀ k, c.row[k]? = some (some d) ↔ k = 0 ∧ d = c := by
      intro k
      unfold Constant.row
      split <;> rcases k with _ | _ | k <;> simp [eq_comm]
    rw [hrow]
    constructor
    · exact fun ⟨hk, hd⟩ => .inr ⟨by omega, hd⟩
    · rintro (h | ⟨hi, hd⟩)
      · cases h
      · exact ⟨by omega, hd⟩

/-- The index after an entry is stored: it knows the new entry, unless it knows
the place of an equal one. -/
theorem getElem?_index_push (pool : ConstantPool) (c d : Constant) :
    (pool.push c).index[d]? =
      if c = d ∧ pool.index[c]? = none then some (UInt16.ofNat pool.size) else pool.index[d]? := by
  show (pool.index.insertIfNew c (UInt16.ofNat pool.size))[d]? = _
  rw [Std.HashMap.getElem?_insertIfNew]
  have hmem : ¬ c ∈ pool.index ↔ pool.index[c]? = none := by
    rw [Std.HashMap.mem_iff_isSome_getElem?, Option.not_isSome_iff_eq_none]
  simp only [beq_iff_eq, hmem]

/-- Storing an entry for which there is room keeps slots and index in
agreement. -/
theorem Consistent.push (hpool : Consistent pool) (hroom : pool.size + c.slots ≤ 65535) :
    Consistent (pool.push c) := by
  have hpos := c.slots_pos
  have hnumber : (UInt16.ofNat pool.size).toNat = pool.size := by
    rw [UInt16.toNat_ofNat']
    omega
  obtain ⟨stored, hstored⟩ := hpool.slots
  refine ⟨⟨stored ++ [c], ?_⟩, ?_, fun d i => ?_⟩
  · rw [toList_slots_push, hstored, layout_append_row]
  · rw [size_push]
    exact hroom
  -- places in the old slots come before the new one
  have hlt : ∀ {e : Constant} {j : Nat}, pool.slots[j]? = some (some e) → j < pool.size :=
    fun h => (Array.getElem?_eq_some_iff.mp h).1
  rw [getElem?_index_push]
  unfold IsFirst
  simp only [ne_eq, getElem?_slots_push_eq_some_iff, not_or, not_and]
  by_cases hnew : c = d ∧ pool.index[c]? = none
  · obtain ⟨rfl, hnone⟩ := hnew
    have habsent := hpool.getElem?_slots_ne hnone
    rw [if_pos ⟨rfl, hnone⟩]
    constructor
    · rintro ⟨⟩
      rw [hnumber]
      exact ⟨.inr ⟨rfl, rfl⟩, fun j hj => ⟨habsent j, fun h => by omega⟩⟩
    · rintro ⟨hi | ⟨hi, -⟩, -⟩
      · exact absurd hi (habsent _)
      · rw [← hi, UInt16.ofNat_toNat]
  · rw [if_neg hnew, hpool.index d i]
    constructor
    · rintro ⟨hi, hfirst⟩
      exact ⟨.inl hi, fun j hj => ⟨hfirst j hj, fun h => by have := hlt hi; omega⟩⟩
    · rintro ⟨hi | ⟨hi, rfl⟩, hfirst⟩
      · exact ⟨hi, fun j hj => (hfirst j hj).1⟩
      · -- an equal entry is known already, and stands before the new one
        have hknown : ∃ k, pool.index[d]? = some k :=
          Option.ne_none_iff_exists'.mp fun h => hnew ⟨rfl, h⟩
        obtain ⟨k, hk⟩ := hknown
        have hk := ((hpool.index d k).mp hk).1
        exact absurd hk (hfirst _ (hi ▸ hlt hk)).1

/-- Storing an entry that is not known makes no equal ones. -/
theorem Distinct.push (hdistinct : Distinct pool) (hpool : Consistent pool)
    (hnew : pool.index[c]? = none) : Distinct (pool.push c) := by
  have habsent := hpool.getElem?_slots_ne hnew
  intro i j d hi hj
  rw [getElem?_slots_push_eq_some_iff] at hi hj
  rcases hi with hi | ⟨rfl, rfl⟩ <;> rcases hj with hj | ⟨rfl, hd⟩
  · exact hdistinct i j d hi hj
  · exact absurd (hd ▸ hi) (habsent _)
  · exact absurd hj (habsent _)
  · rfl

end Push

/-- A pool that grows stays in agreement with its index. -/
theorem Grows.consistent {old pool : ConstantPool} (grows : Grows old pool)
    (hold : Consistent old) : Consistent pool := by
  induction grows with
  | refl => exact hold
  | push _ _ hroom ih => exact ih.push hroom

/-- A pool that grows gets no equal entries. -/
theorem Grows.distinct {old pool : ConstantPool} (grows : Grows old pool)
    (hold : Consistent old) (hdistinct : Distinct old) : Distinct pool := by
  induction grows with
  | refl => exact hdistinct
  | push before hnew _ ih => exact ih.push (before.consistent hold) hnew

/-! ## Pools that are read -/

/-- An entry that is read into a pool has room there. -/
theorem add_slots_le_of_read {count size : Nat} {c : Constant} (hlt : size < count)
    (hwide : ¬ (c.isWide ∧ count ≤ size + 1)) : size + c.slots ≤ count := by
  unfold Constant.slots
  split
  · next h =>
    have hroom : ¬ count ≤ size + 1 := fun hle => hwide ⟨h, hle⟩
    omega
  · omega

/-- Entries are read until the slots are filled, one at a time. Each of them has
room in the pool. -/
theorem decodeEntries_succ_eq_ok {count steps : Nat} {pool next : ConstantPool}
    {bytes rest : List UInt8} (h : decodeEntries count (steps + 1) pool bytes = .ok (next, rest)) :
    count ≤ pool.size ∧ next = pool ∧ rest = bytes ∨
      ∃ c later, pool.size < count ∧ pool.size + c.slots ≤ count ∧
        Constant.codec.decode bytes = .ok (c, later) ∧
        decodeEntries count steps (pool.push c) later = .ok (next, rest) := by
  unfold decodeEntries at h
  by_cases hfull : count ≤ pool.size
  · rw [if_pos hfull] at h
    cases h
    exact .inl ⟨hfull, rfl, rfl⟩
  · rw [if_neg hfull] at h
    have hlt : pool.size < count := Nat.lt_of_not_le hfull
    split at h
    · cases h
    next c later hread =>
    split at h
    · cases h
    next hwide => exact .inr ⟨c, later, hlt, add_slots_le_of_read hlt hwide, hread, h⟩

/-- Reading entries keeps slots and index in agreement, though equal entries
stay apart. -/
theorem consistent_of_decodeEntries {count : Nat} (hcount : count ≤ 65535) {steps : Nat}
    {pool next : ConstantPool} {bytes rest : List UInt8} (hpool : Consistent pool)
    (h : decodeEntries count steps pool bytes = .ok (next, rest)) : Consistent next := by
  induction steps generalizing pool bytes with
  | zero =>
    cases h
    exact hpool
  | succ steps ih =>
    rcases decodeEntries_succ_eq_ok h with ⟨-, rfl, -⟩ | ⟨c, later, -, hroom, -, hlater⟩
    · exact hpool
    · exact ih (hpool.push (Nat.le_trans hroom hcount)) hlater

/-- A pool that is read agrees with its index. -/
theorem consistent_of_decode {id : Nat} {bytes rest : List UInt8} {pool : ConstantPool}
    (h : decode id bytes = .ok (pool, rest)) : Consistent pool := by
  unfold decode at h
  obtain ⟨count, later, -, h⟩ := Decoder.bind_eq_ok_iff.mp h
  by_cases hzero : count = 0
  · rw [if_pos hzero] at h
    cases h
  · rw [if_neg hzero] at h
    have hlt := count.toNat_lt
    exact consistent_of_decodeEntries (by omega) (consistent_empty id) h

/-! ## Reachable pools -/

/-- A request for an entry. -/
inductive Addition where
  /-- An entry as it is. -/
  | entry (c : Constant)
  /-- A text. -/
  | text (text : String)
  /-- An entry that names a text. -/
  | symbol (kind : SymbolKind) (text : String)
  /-- A name with a descriptor. -/
  | nameAndType (name descriptor : String)
  /-- A reference to a member of a class. -/
  | member (kind : MemberKind) (owner name descriptor : String)
  /-- A copy of an entry of another pool. -/
  | copied (source : ConstantPool) (names : Renaming) (i : UInt16)

/-- The index of the entry that is asked for, which is stored first if it is
new. -/
def Addition.index : Addition → Edit ConstantPool UInt16
  | .entry c => intern c
  | .text s => internText s
  | .symbol kind s => internSymbol kind s
  | .nameAndType n d => internNameAndType n d
  | .member kind owner n d => internMember kind owner n d
  | .copied source names i => source.copy names i

/-- A request only adds entries. -/
theorem Addition.onlyAdds (addition : Addition) : OnlyAdds addition.index := by
  cases addition with
  | entry c => exact onlyAdds_intern c
  | text s => exact onlyAdds_internText s
  | symbol kind s => exact onlyAdds_internSymbol kind s
  | nameAndType n d => exact onlyAdds_internNameAndType n d
  | member kind owner n d => exact onlyAdds_internMember kind owner n d
  | copied source names i => exact onlyAdds_copy source names i

/-- The pools that can be made, and whether a pool was read on the way. -/
inductive Reachable : (wasRead : Bool) → ConstantPool → Prop where
  /-- A pool without entries. -/
  | empty (id : Nat) : Reachable false (empty id)
  /-- The pool of a new class. -/
  | ofClass {id : Nat} {name : String} {pool : ConstantPool}
      (h : ConstantPool.ofClass id name = .ok pool) : Reachable false pool
  /-- A pool that is read. -/
  | decode {id : Nat} {bytes rest : List UInt8} {pool : ConstantPool}
      (h : ConstantPool.decode id bytes = .ok (pool, rest)) : Reachable true pool
  /-- A copy of a pool. -/
  | withId {wasRead : Bool} {pool : ConstantPool} (before : Reachable wasRead pool) (id : Nat) :
      Reachable wasRead (pool.withId id)
  /-- A pool that was given another owner. -/
  | owned {wasRead : Bool} {pool : ConstantPool} (before : Reachable wasRead pool)
      (owner : UInt16) : Reachable wasRead { pool with thisClass := owner }
  /-- A pool after a request, whether it could be met or not. -/
  | added {wasRead : Bool} {pool : ConstantPool} (before : Reachable wasRead pool)
      (addition : Addition) : Reachable wasRead (addition.index.runOn pool).2

/-- The pool of a new class has grown from one without entries. -/
theorem grows_of_ofClass {id : Nat} {name : String} {pool : ConstantPool}
    (h : ConstantPool.ofClass id name = .ok pool) :
    ∃ before, Grows (ConstantPool.empty id) before ∧
      pool = { before with thisClass := pool.thisClass } := by
  unfold ConstantPool.ofClass at h
  unfold internClass at h
  split at h
  · next i before hrun =>
    cases h
    exact ⟨before, (onlyAdds_internSymbol .classInfo name).grows_of_eq hrun, rfl⟩
  · cases h

/-- A pool is consistent under another identity as well. -/
theorem Consistent.withId {pool : ConstantPool} (hpool : pool.Consistent) (id : Nat) :
    (pool.withId id).Consistent :=
  ⟨hpool.slots, hpool.size_le, hpool.index⟩

/-- A pool is consistent with another owner as well. -/
theorem Consistent.owned {pool : ConstantPool} (hpool : pool.Consistent) (owner : UInt16) :
    Consistent { pool with thisClass := owner } :=
  ⟨hpool.slots, hpool.size_le, hpool.index⟩

/-- Slots and index of every pool that can be made agree. -/
theorem Reachable.consistent {wasRead : Bool} {pool : ConstantPool}
    (h : Reachable wasRead pool) : Consistent pool := by
  induction h with
  | empty id => exact consistent_empty id
  | ofClass h =>
    obtain ⟨before, hgrows, hpool⟩ := grows_of_ofClass h
    have hbefore := hgrows.consistent (consistent_empty _)
    rw [hpool]
    exact hbefore.owned _
  | decode h => exact consistent_of_decode h
  | withId _ id ih => exact ih.withId id
  | owned _ owner ih => exact ih.owned owner
  | added _ addition ih => exact (addition.onlyAdds.grows _).consistent ih

/-- A pool that was never read has no equal entries. -/
theorem Reachable.distinct {pool : ConstantPool} {wasRead : Bool} (h : Reachable wasRead pool)
    (hread : wasRead = false) : Distinct pool := by
  induction h with
  | empty id => exact distinct_empty id
  | ofClass h =>
    obtain ⟨before, hgrows, hpool⟩ := grows_of_ofClass h
    rw [hpool]
    exact hgrows.distinct (consistent_empty _) (distinct_empty _)
  | decode => cases hread
  | withId _ _ ih => exact ih hread
  | owned _ _ ih => exact ih hread
  | added before addition ih =>
    exact (addition.onlyAdds.grows _).distinct before.consistent (ih hread)

/-- In every pool that can be made, all of the following holds. Its number of
slots is at least one and fits 16 bits. The first slot is empty, and so is a
later one exactly if the slot before it holds a wide entry. The index leads from
an entry to the first slot that holds it, and knows every entry that some slot
holds. If no pool was read on the way, no two slots hold equal entries. -/
theorem Reachable.representation {wasRead : Bool} {pool : ConstantPool}
    (h : Reachable wasRead pool) :
    (1 ≤ pool.size ∧ pool.size ≤ 65535 ∧ (UInt16.ofNat pool.size).toNat = pool.size) ∧
      pool.slots[0]? = some none ∧
      (∀ i : Nat, pool.slots[i + 1]? = some none ↔
        ∃ c, pool.slots[i]? = some (some c) ∧ c.isWide) ∧
      (∀ c i, pool.index[c]? = some i ↔ IsFirst pool.slots c i.toNat) ∧
      (∀ (i : Nat) (c : Constant), pool.slots[i]? = some (some c) → ∃ j, pool.index[c]? = some j) ∧
      (wasRead = false → Distinct pool) := by
  have hpool := h.consistent
  obtain ⟨stored, hstored⟩ := hpool.slots
  have hsize : pool.size = (layout stored).length := by
    rw [← hstored, Array.length_toList]
    rfl
  have hone : 1 ≤ pool.size := by
    rw [hsize]
    exact Nat.succ_le_succ (Nat.zero_le _)
  have hle := hpool.size_le
  have hslot : ∀ i : Nat, pool.slots[i]? = (layout stored)[i]? := fun i => by
    rw [← hstored, Array.getElem?_toList]
  refine ⟨⟨hone, hle, ?_⟩, ?_, fun i => ?_, hpool.index, fun i c hi => ?_, h.distinct⟩
  · rw [UInt16.toNat_ofNat']
    omega
  · rw [hslot]
    rfl
  · simp only [hslot]
    exact getElem?_layout_eq_none_iff stored i
  · exact Option.ne_none_iff_exists'.mp fun hnone => hpool.getElem?_slots_ne hnone i hi

/-- The bytes of a pool that holds the same integer twice, and a wide entry
behind it. -/
def repeatedBytes : List UInt8 :=
  [0, 5, 3, 0, 0, 0, 1, 3, 0, 0, 0, 1, 5, 0, 0, 0, 0, 0, 0, 0, 7]

/-- The pool that is read has an equal entry in two places, and its index leads
to the first one. -/
theorem representation_repeated :
    ∃ pool, decode 0 repeatedBytes = .ok (pool, []) ∧ Reachable true pool ∧
      pool.slots = #[none, some (.integer 1), some (.integer 1), some (.long 7), none] ∧
      pool.index[Constant.integer 1]? = some 1 ∧ ¬ Distinct pool := by
  obtain ⟨pool, hdecode, hslots⟩ : ∃ pool, decode 0 repeatedBytes = .ok (pool, []) ∧
      pool.slots = #[none, some (.integer 1), some (.integer 1), some (.long 7), none] :=
    ⟨_, rfl, rfl⟩
  have hreachable : Reachable true pool := .decode hdecode
  have hindex := hreachable.representation.2.2.2.1
  refine ⟨pool, hdecode, hreachable, hslots, (hindex _ 1).mpr ⟨?_, ?_⟩, fun hdistinct => ?_⟩
  · rw [hslots]
    rfl
  · intro j hj
    have hj : j = 0 := Nat.lt_one_iff.mp hj
    rw [hslots, hj]
    exact fun h => by cases h
  · have h := hdistinct 1 2 (.integer 1) (by rw [hslots]; rfl) (by rw [hslots]; rfl)
    cases h

end JvmClass.ConstantPool
