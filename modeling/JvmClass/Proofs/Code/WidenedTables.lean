import JvmClass.Proofs.Attribute.Copying
import JvmClass.Proofs.Code.WidenedLoads

/-!
# Tables of a body with widened loads

The tables of a body know positions only. When several gaps are inserted, one
after the other, every position goes where all of them together take it, as long
as the body stays within its limit. From this it follows that the tables still
tell the same of the same instructions.
-/

namespace JvmClass

variable {f : Nat → Nat} {s : Shift} {size : Nat}

/-- A reference of 16 bits that has gone somewhere goes on. -/
theorem toNat_target16_of_eq {old mid : UInt16} (h : mid.toNat = f old.toNat)
    (hwithin : f old.toNat ≤ size) (hroom : size + s.gap ≤ 65535) :
    (s.target16 mid).toNat = s.target (f old.toNat) := by
  rw [s.toNat_target16 (Nat.le_trans (Nat.le_of_eq h) hwithin) (.inr hroom), h]

/-! ## Positions in entries -/

/-- A handler with its positions moved. -/
structure Handler.CarriedBy (f : Nat → Nat) (old new : Handler) : Prop where
  /-- The positions are moved. -/
  positions : new.positions = old.positions.map f
  /-- The same class is caught. -/
  catchType : new.catchType = old.catchType

/-- A moved handler is shifted. -/
theorem Handler.CarriedBy.shift {old mid : Handler} (h : Handler.CarriedBy f old mid)
    (hwithin : ∀ p ∈ old.positions, f p ≤ size) (hroom : size + s.gap ≤ 65535) :
    Handler.CarriedBy (s.target ∘ f) old (mid.shift s) := by
  refine ⟨?_, h.catchType⟩
  have hpositions : (Handler.shift s mid).positions = mid.positions.map s.target := by
    have hmid : ∀ p ∈ mid.positions, p ≤ size := by
      intro p hp
      rw [h.positions] at hp
      obtain ⟨q, hq, rfl⟩ := List.mem_map.mp hp
      exact hwithin q hq
    have hplace : ∀ p : UInt16, p.toNat ∈ mid.positions →
        (s.target16 p).toNat = s.target p.toNat :=
      fun p hp => s.toNat_target16 (hmid _ hp) (.inr hroom)
    unfold Handler.positions at hplace ⊢
    simp only [List.map_cons, List.map_nil]
    rw [← hplace mid.start (by simp), ← hplace mid.stop (by simp), ← hplace mid.target (by simp)]
    rfl
  rw [hpositions, h.positions, List.map_map]

/-- A line with its start moved. -/
structure LineNumber.CarriedBy (f : Nat → Nat) (old new : LineNumber) : Prop where
  /-- The start is moved. -/
  start : new.start.toNat = f old.start.toNat
  /-- The line is the same. -/
  line : new.line = old.line

/-- A moved line is shifted. -/
theorem LineNumber.CarriedBy.shift {old mid : LineNumber} (h : LineNumber.CarriedBy f old mid)
    (hwithin : f old.start.toNat ≤ size) (hroom : size + s.gap ≤ 65535) :
    LineNumber.CarriedBy (s.target ∘ f) old (mid.shift s) :=
  ⟨toNat_target16_of_eq h.start hwithin hroom, h.line⟩

/-- A variable with its range moved. -/
structure LocalVariable.CarriedBy (f : Nat → Nat) (old new : LocalVariable) : Prop where
  /-- The start is moved. -/
  start : new.start.toNat = f old.start.toNat
  /-- The end is moved. -/
  stop : new.stop = f old.stop
  /-- The name, the type and the slot are the same. -/
  fields : (new.nameIndex, new.typeIndex, new.slot) = (old.nameIndex, old.typeIndex, old.slot)

/-- A moved variable is shifted. -/
theorem LocalVariable.CarriedBy.shift {old mid : LocalVariable}
    (h : LocalVariable.CarriedBy f old mid)
    (hwithin : f old.stop ≤ size) (hroom : size + s.gap ≤ 65535) :
    LocalVariable.CarriedBy (s.target ∘ f) old (mid.shift s) := by
  obtain ⟨hstart, hstop⟩ := bounds_shift (s := s)
    (Nat.le_trans (Nat.le_of_eq h.stop) hwithin) hroom
  refine ⟨?_, ?_, (fields_shift mid).trans h.fields⟩
  · rw [hstart, h.start]
    rfl
  · rw [hstop, h.stop]
    rfl

/-! ## Positions in stack maps -/

/-- A stack map with its frames moved, and with related types in them. -/
structure StackMap.CarriedBy (f : Nat → Nat) (R : VerificationType → VerificationType → Prop)
    (old new : StackMap) : Prop where
  /-- The frames are moved. -/
  offsets : StackMap.offsets new = (StackMap.offsets old).map f
  /-- The frames say the same of related types. -/
  contents : List.Forall₂ (fun frame frame' => StackFrame.Content.Matches R frame.content
    frame'.content) old new

/-- A moved stack map is shifted. Its types are related to the shifted types. -/
theorem StackMap.CarriedBy.shift {R R' : VerificationType → VerificationType → Prop}
    {old mid : StackMap} (h : StackMap.CarriedBy f R old mid)
    (hR : ∀ a b c, R a b → VerificationType.Follows s (List.range (size + 1)) b c → R' a c)
    (hwithin : ∀ p ∈ StackMap.offsets old, f p ≤ size) (hroom : size + s.gap ≤ 65535) :
    StackMap.CarriedBy (s.target ∘ f) R' old (mid.shift s) := by
  have hmid : ∀ p ∈ StackMap.offsets mid, p ≤ size := by
    intro p hp
    rw [h.offsets] at hp
    obtain ⟨q, hq, rfl⟩ := List.mem_map.mp hp
    exact hwithin q hq
  have hstarts : ∀ p ∈ List.range (size + 1), s.start p ≤ 65535 := by
    intro p hp
    have hlt := List.mem_range.mp hp
    have hbounds := s.start_bounds p
    omega
  have hoffsets : ∀ p ∈ StackMap.offsets mid, s.target p ≤ 65535 := by
    intro p hp
    have hle := hmid p hp
    have hbounds := s.target_bounds p
    omega
  have hfollows := follows_shift hstarts hoffsets
  refine ⟨?_, ?_⟩
  · rw [hfollows.offsets, h.offsets, List.map_map]
  · refine forall₂_trans h.contents hfollows.contents fun _ _ _ hold hnew => ⟨?_, ?_, ?_⟩
    · rw [hnew.gone, hold.gone]
    · exact forall₂_trans hold.locals hnew.locals hR
    · exact forall₂_trans hold.operands hnew.operands hR

/-! ## Positions in attributes -/

/-- A payload with all its positions moved, and with related types in it. -/
def AttributeData.CarriedBy (f : Nat → Nat) (R : VerificationType → VerificationType → Prop) :
    AttributeData → AttributeData → Prop
  | .lineNumbers old, .lineNumbers new => List.Forall₂ (LineNumber.CarriedBy f) old new
  | .localVariables old, .localVariables new => List.Forall₂ (LocalVariable.CarriedBy f) old new
  | .localVariableTypes old, .localVariableTypes new =>
    List.Forall₂ (LocalVariable.CarriedBy f) old new
  | .stackMap old, .stackMap new => StackMap.CarriedBy f R old new
  | old, new => new = old

/-- A payload with its positions moved is of the same kind. -/
theorem AttributeData.kind_of_carriedBy {R : VerificationType → VerificationType → Prop}
    {old new : AttributeData} (h : AttributeData.CarriedBy f R old new) : new.kind = old.kind := by
  cases old with
  | lineNumbers | localVariables | localVariableTypes | stackMap =>
    cases new <;> first | rfl | cases h
  | _ =>
    obtain rfl : new = _ := h
    rfl

/-- A payload of an attribute with its positions moved. A body within a body is left
alone. -/
def AttributeBody.CarriedBy (f : Nat → Nat) (R : VerificationType → VerificationType → Prop) :
    AttributeBody → AttributeBody → Prop
  | .data old, .data new => AttributeData.CarriedBy f R old new
  | old, new => new = old

/-- A payload of an attribute with its positions moved is of the same kind. -/
theorem AttributeBody.kind_of_carriedBy {R : VerificationType → VerificationType → Prop}
    {old new : AttributeBody} (h : AttributeBody.CarriedBy f R old new) : new.kind = old.kind := by
  cases old with
  | code body =>
    obtain rfl : new = _ := h
    rfl
  | data payload =>
    cases new with
    | code body => cases h
    | data payload' => exact AttributeData.kind_of_carriedBy h

/-- An attribute with its positions moved. -/
structure Attribute.CarriedBy (f : Nat → Nat) (R : VerificationType → VerificationType → Prop)
    (old new : Attribute) : Prop where
  /-- The name is the same. -/
  nameIndex : new.nameIndex = old.nameIndex
  /-- The payload has its positions moved. -/
  body : AttributeBody.CarriedBy f R old.body new.body

section Attributes

variable {R R' : VerificationType → VerificationType → Prop}
  (hR : ∀ a b c, R a b → VerificationType.Follows s (List.range (size + 1)) b c → R' a c)
  (hroom : size + s.gap ≤ 65535)

include hR hroom

/-- A moved payload is shifted. -/
theorem AttributeData.CarriedBy.shift {old mid : AttributeData}
    (h : AttributeData.CarriedBy f R old mid) (hwithin : ∀ p ∈ old.positions, f p ≤ size) :
    AttributeData.CarriedBy (s.target ∘ f) R' old (mid.shift s) := by
  have hlines (old mid : List LineNumber) (h : List.Forall₂ (LineNumber.CarriedBy f) old mid)
      (hwithin : ∀ p ∈ old.map fun e => e.start.toNat, f p ≤ size) :
      List.Forall₂ (LineNumber.CarriedBy (s.target ∘ f)) old (mid.map (LineNumber.shift s)) :=
    forall₂_map_of_mem h fun e he _ hmoved =>
      hmoved.shift (hwithin _ (List.mem_map_of_mem he)) hroom
  have hvariables (old mid : List LocalVariable)
      (h : List.Forall₂ (LocalVariable.CarriedBy f) old mid)
      (hwithin : ∀ p ∈ old.flatMap fun v => [v.start.toNat, v.stop], f p ≤ size) :
      List.Forall₂ (LocalVariable.CarriedBy (s.target ∘ f)) old (mid.map (LocalVariable.shift s)) :=
    forall₂_map_of_mem h fun v hv _ hmoved =>
      hmoved.shift (hwithin _ (List.mem_flatMap.mpr ⟨v, hv, by simp⟩)) hroom
  cases old with
  | lineNumbers old =>
    cases mid with
    | lineNumbers mid => exact hlines old mid h hwithin
    | _ => cases h
  | localVariables old =>
    cases mid with
    | localVariables mid => exact hvariables old mid h hwithin
    | _ => cases h
  | localVariableTypes old =>
    cases mid with
    | localVariableTypes mid => exact hvariables old mid h hwithin
    | _ => cases h
  | stackMap old =>
    cases mid with
    | stackMap mid => exact StackMap.CarriedBy.shift h hR hwithin hroom
    | _ => cases h
  | _ =>
    obtain rfl : mid = _ := h
    rfl

/-- A moved attribute is shifted. -/
theorem Attribute.CarriedBy.shift {old mid : Attribute} (h : Attribute.CarriedBy f R old mid)
    (hwithin : ∀ payload, old.body = .data payload → ∀ p ∈ payload.positions, f p ≤ size) :
    Attribute.CarriedBy (s.target ∘ f) R' old (mid.shift s) := by
  obtain ⟨nameIndex, body⟩ := old
  obtain ⟨nameIndex', body'⟩ := mid
  obtain ⟨hname, hbody⟩ := h
  cases body with
  | code nested =>
    obtain rfl : body' = _ := hbody
    exact ⟨hname, rfl⟩
  | data payload =>
    cases body' with
    | code nested => cases hbody
    | data payload' =>
      exact ⟨hname, AttributeData.CarriedBy.shift hR hroom hbody (hwithin payload rfl)⟩

end Attributes

/-- A payload that is left alone has its positions where they are. -/
theorem AttributeData.carriedBy_self {R : VerificationType → VerificationType → Prop}
    (hR : ∀ type, R type type) (payload : AttributeData) :
    AttributeData.CarriedBy id R payload payload := by
  have hsame (types : List VerificationType) : List.Forall₂ R types types :=
    List.forall₂_same.mpr fun type _ => hR type
  cases payload with
  | lineNumbers table => exact List.forall₂_same.mpr fun e _ => ⟨rfl, rfl⟩
  | localVariables table | localVariableTypes table =>
    exact List.forall₂_same.mpr fun v _ => ⟨rfl, rfl, rfl⟩
  | stackMap frames =>
    exact ⟨(List.map_id _).symm, List.forall₂_same.mpr fun _ _ => ⟨rfl, hsame _, hsame _⟩⟩
  | _ => rfl

/-- An attribute that is left alone has its positions where they are. -/
theorem Attribute.carriedBy_self {R : VerificationType → VerificationType → Prop}
    (hR : ∀ type, R type type) (a : Attribute) : Attribute.CarriedBy id R a a := by
  obtain ⟨nameIndex, body⟩ := a
  cases body with
  | code nested => exact ⟨rfl, rfl⟩
  | data payload => exact ⟨rfl, payload.carriedBy_self hR⟩

/-! ## Bodies with widened loads -/

/-- A type stays the same when loads are widened, except that an object not yet
initialized is named by where the instruction that created it is now. Nothing is
said of positions at which no instruction starts, and of loads. -/
def VerificationType.WidenedBy (starts widened : List Nat) :
    VerificationType → VerificationType → Prop
  | .uninitialized old, .uninitialized new =>
    old.toNat ∈ starts → old.toNat ∉ widened → new.toNat = Widening.home widened old.toNat
  | old, new => new = old

/-- A body in which some loads are widened, those at the listed positions. -/
structure Code.Widened (index : Nat → UInt16) (starts widened : List Nat) (old new : Code) :
    Prop where
  /-- The loads are widened in the code. -/
  bytes : Bytecode.Widened index starts widened old.bytes new.bytes
  /-- Handlers are moved. -/
  handlers : List.Forall₂ (Handler.CarriedBy (Widening.target widened)) old.handlers new.handlers
  /-- Attributes are moved. -/
  attributes : List.Forall₂ (Attribute.CarriedBy (Widening.target widened)
    (VerificationType.WidenedBy starts widened)) old.attributes new.attributes
  /-- The limits stay. -/
  limits : (new.maxStack, new.maxLocals) = (old.maxStack, old.maxLocals)

namespace Code

open Bytecode (Walk Loads)

variable {index : Nat → UInt16} {starts widened : List Nat} {old mid next : Code} {w : Nat}

/-- Types of a body with widened loads are shifted when one more load is widened. -/
theorem widenedBy_of_follows {a b c : VerificationType} (hfirst : ∀ q ∈ widened, w < q)
    (hinside : ∀ p ∈ starts, Widening.target widened p ≤ size)
    (first : VerificationType.WidenedBy starts widened a b)
    (second : VerificationType.Follows (Widening.gap w) (List.range (size + 1)) b c) :
    VerificationType.WidenedBy starts (w :: widened) a c := by
  cases a with
  | uninitialized old =>
    cases b with
    | uninitialized mid =>
      cases c with
      | uninitialized new =>
        intro hold hnot
        obtain ⟨hne, hnot⟩ := not_or.mp fun h => hnot (List.mem_cons.mpr h)
        have hmid : mid.toNat = Widening.home widened old.toNat := first hold hnot
        have hle : mid.toNat ≤ size := by
          rw [hmid, Widening.home_of_not_mem widened hnot]
          exact hinside _ hold
        rw [Widening.home_cons_of_ne hfirst hne, ← hmid]
        exact second (List.mem_range.mpr (Nat.lt_succ_of_le hle))
      | _ => cases second
    | _ => cases first
  | _ =>
    obtain rfl : b = _ := first
    obtain rfl : c = _ := second
    rfl

/-- A body in which no load is widened yet. -/
theorem widened_nil (walk : Walk old.bytes 0 starts old.bytes.size) :
    Code.Widened index starts [] old old := by
  refine ⟨Bytecode.widened_nil walk, ?_, ?_, rfl⟩
  · exact List.forall₂_same.mpr fun h _ => ⟨(List.map_id _).symm, rfl⟩
  · refine List.forall₂_same.mpr fun a _ => a.carriedBy_self fun type => ?_
    cases type with
    | uninitialized position => exact fun _ _ => rfl
    | _ => rfl

/-- Widening the next load of a body leads to a body with one more widened load. -/
theorem Widened.step (walk : Walk old.bytes 0 starts old.bytes.size)
    (hwithin : ∀ p ∈ old.positions, p ≤ old.bytes.size)
    (loads : Loads old.bytes starts (w :: widened))
    (widens : Code.Widened index starts widened old mid)
    (h : mid.widenLoad w (index w) = .ok next) :
    Code.Widened index starts (w :: widened) old next := by
  have hbytes := widened_of_widenLoad walk loads widens.bytes h
  obtain ⟨opened, hopened, -, hroom, rfl⟩ := opened_of_widenLoad walk loads widens.bytes h
  have hfirst := loads.lt
  have htarget : Widening.target (w :: widened) =
      (Widening.gap w).target ∘ Widening.target widened :=
    funext fun t => Widening.target_cons hfirst t
  have hinside (p : Nat) (hp : p ≤ old.bytes.size) :
      Widening.target widened p ≤ mid.bytes.size := by
    rw [widens.bytes.size]
    exact Widening.target_le_target hp
  refine ⟨hbytes, ?_, ?_, hopened.limits.trans widens.limits⟩
  · rw [hopened.handlers, htarget]
    refine forall₂_map_of_mem widens.handlers fun handler hmem _ hmoved => ?_
    refine hmoved.shift (fun p hp => hinside p (hwithin p ?_)) hroom
    exact List.mem_append_left _ (List.mem_flatMap.mpr ⟨handler, hmem, hp⟩)
  · have hattributes : opened.attributes = mid.attributes.map (Attribute.shift (Widening.gap w)) :=
      hopened.attributes
    have htypes (a b c : VerificationType) :
        VerificationType.WidenedBy starts widened a b →
        VerificationType.Follows (Widening.gap w) (List.range (mid.bytes.size + 1)) b c →
        VerificationType.WidenedBy starts (w :: widened) a c :=
      widenedBy_of_follows hfirst fun p hp => hinside p (Nat.le_of_lt (walk.mem_bounds hp).2)
    rw [hattributes, htarget]
    refine forall₂_map_of_mem widens.attributes fun a hmem _ hmoved => ?_
    refine Attribute.CarriedBy.shift htypes hroom hmoved fun payload hpayload p hp => ?_
    refine hinside p (hwithin p (List.mem_append_right _ (List.mem_flatMap.mpr ⟨a, hmem, ?_⟩)))
    rw [hpayload]
    exact hp

/-- Widening loads from back to front leads to a body in which all of them are
widened. -/
theorem widened_of_foldlM (walk : Walk old.bytes 0 starts old.bytes.size)
    (hwithin : ∀ p ∈ old.positions, p ≤ old.bytes.size) {later : List Nat}
    (loads : Loads old.bytes starts (later.reverse ++ widened))
    (widens : Code.Widened index starts widened old mid)
    (h : (later.map fun p => (p, index p)).foldlM
      (fun code (p, i) => Code.widenLoad code p i) mid = .ok next) :
    Code.Widened index starts (later.reverse ++ widened) old next := by
  induction later generalizing widened mid with
  | nil =>
    cases h
    exact widens
  | cons w later ih =>
    rw [List.map_cons, List.foldlM_cons] at h
    obtain ⟨between, hfirst, hrest⟩ := bind_eq_ok_iff.mp h
    rw [List.reverse_cons, List.append_assoc] at loads ⊢
    exact ih loads (widens.step walk hwithin loads.of_append hfirst) hrest

end Code

end JvmClass
