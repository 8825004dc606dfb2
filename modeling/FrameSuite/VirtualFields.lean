import Mathlib.Data.List.Basic

/-! Virtual fields of dynamic shape. A field holds nothing, one value or a bounded collection, and the
helpers read and write it through conversions between these shapes. Reading as a collection takes every
shape, reading as a single value takes only the single shape, and every write of a collection leaves the
collection shape behind. -/

namespace FrameSuite

variable {α : Type} {bound : Nat}

structure BoundedVec (α : Type) (bound : Nat) where
  elems : List α
  length_le : elems.length ≤ bound

def BoundedVec.tryFrom (xs : List α) : Except Unit (BoundedVec α bound) :=
  if h : xs.length ≤ bound then .ok ⟨xs, h⟩ else .error ()

inductive SumDynType (α : Type) (bound : Nat)
  | none
  | some (value : α)
  | many (elems : BoundedVec α bound)

namespace SumDynType

def fromSome (value : α) : SumDynType α bound := .some value

def tryIntoSome : SumDynType α bound → Except Unit α
  | .some value => .ok value
  | _ => .error ()

def tryFromMany (xs : List α) : Except Unit (SumDynType α bound) := (BoundedVec.tryFrom xs).map .many

def intoMany : SumDynType α bound → List α
  | .none => []
  | .some value => [value]
  | .many v => v.elems

theorem tryFromMany_eq_ok {xs : List α} {r : SumDynType α bound} :
    tryFromMany xs = .ok r ↔ ∃ h : xs.length ≤ bound, r = .many ⟨xs, h⟩ := by
  unfold tryFromMany BoundedVec.tryFrom
  split
  · rename_i h
    simp [Except.map, h, eq_comm]
  · rename_i h
    simp [Except.map, h]

theorem tryFromMany_of_le {xs : List α} (h : xs.length ≤ bound) :
    (tryFromMany xs : Except Unit (SumDynType α bound)) = .ok (.many ⟨xs, h⟩) :=
  tryFromMany_eq_ok.mpr ⟨h, rfl⟩

theorem tryFromMany_of_lt {xs : List α} (h : bound < xs.length) :
    (tryFromMany xs : Except Unit (SumDynType α bound)) = .error () := by
  simp [tryFromMany, BoundedVec.tryFrom, Nat.not_le.mpr h, Except.map]

end SumDynType

namespace VirtualDynField

/-- The value at an index, after the list was extended by defaults up to it. -/
def setIndex [Inhabited α] (xs : List α) (index : Nat) (value : α) : List α :=
  (if xs.length ≤ index then xs ++ List.replicate (index + 1 - xs.length) default else xs).set index value

section SetIndex

variable [Inhabited α] {xs : List α} {index : Nat} {value : α}

theorem length_setIndex : (setIndex xs index value).length = max xs.length (index + 1) := by
  unfold setIndex
  split
  · rw [List.length_set, List.length_append, List.length_replicate]
    omega
  · rw [List.length_set]
    omega

theorem setIndex_getElem?_self : (setIndex xs index value)[index]? = some value := by
  have hlt : index < (setIndex xs index value).length := by
    rw [length_setIndex]
    omega
  unfold setIndex at hlt ⊢
  rw [List.length_set] at hlt
  rw [List.getElem?_set_self hlt]

theorem setIndex_getElem?_of_lt {j : Nat} (hj : j < xs.length) (hne : j ≠ index) :
    (setIndex xs index value)[j]? = xs[j]? := by
  unfold setIndex
  rw [List.getElem?_set_ne hne.symm]
  split
  · exact List.getElem?_append_left hj
  · rfl

theorem setIndex_getElem?_gap {j : Nat} (hj : xs.length ≤ j) (hlt : j < index) :
    (setIndex xs index value)[j]? = some default := by
  have hin : j - xs.length < index + 1 - xs.length := by omega
  have hle : xs.length ≤ index := by omega
  unfold setIndex
  rw [List.getElem?_set_ne (Nat.ne_of_gt hlt), if_pos hle, List.getElem?_append_right hj,
    List.getElem?_replicate, if_pos hin]

end SetIndex

end VirtualDynField

/-- A field of a container: its content is read and replaced as a whole. -/
structure VirtualDynField (C α : Type) (bound : Nat) where
  access : C → SumDynType α bound
  mutate : C → SumDynType α bound → C
  access_mutate : ∀ c r, access (mutate c r) = r

namespace VirtualDynField

variable {C : Type} (field : VirtualDynField C α bound) (c : C)

def len : Nat :=
  match field.access c with
  | .none => 0
  | .some _ => 1
  | .many v => v.elems.length

def indexGet (index : Nat) : Option α := (field.access c).intoMany[index]?

/-- The result of the call and the container it leaves behind. -/
def iterMut (f : α → α) : Except Unit Unit × C :=
  match SumDynType.tryFromMany ((field.access c).intoMany.map f) with
  | .error e => (.error e, c)
  | .ok repr => (.ok (), field.mutate c repr)

def indexSet [Inhabited α] (index : Nat) (value : α) : Except Unit Unit × C :=
  match SumDynType.tryFromMany (setIndex (field.access c).intoMany index value) with
  | .error e => (.error e, c)
  | .ok repr => (.ok (), field.mutate c repr)

def get : Option α := (field.access c).tryIntoSome.toOption

def set (value : α) : C := field.mutate c (SumDynType.fromSome value)

end VirtualDynField

/-- The container of the lazy balance, its snapshots and its receipts, with a field for each of the asset,
the price and the time. -/
structure ProductType (asset bias time : Type) (maxAsset maxBias maxTime : Nat) where
  asset : SumDynType asset maxAsset
  bias : SumDynType bias maxBias
  time : SumDynType time maxTime

namespace ProductType

variable {asset bias time : Type} {maxAsset maxBias maxTime : Nat}

def assetField : VirtualDynField (ProductType asset bias time maxAsset maxBias maxTime) asset maxAsset :=
  ⟨fun p => p.asset, fun p r => { p with asset := r }, fun _ _ => rfl⟩

def biasField : VirtualDynField (ProductType asset bias time maxAsset maxBias maxTime) bias maxBias :=
  ⟨fun p => p.bias, fun p r => { p with bias := r }, fun _ _ => rfl⟩

def timeField : VirtualDynField (ProductType asset bias time maxAsset maxBias maxTime) time maxTime :=
  ⟨fun p => p.time, fun p r => { p with time := r }, fun _ _ => rfl⟩

end ProductType

namespace VirtualDynField

variable {C : Type} {field : VirtualDynField C α bound} {c : C}

/-- A field that holds a single value in the single shape. -/
def HoldsSingle (field : VirtualDynField C α bound) (c : C) : Prop := ∃ w, field.access c = .some w

theorem len_eq : field.len c = (field.access c).intoMany.length := by
  unfold len
  cases field.access c <;> rfl

theorem get_set (value : α) : field.get (field.set c value) = some value := by
  simp [get, set, field.access_mutate, SumDynType.fromSome, SumDynType.tryIntoSome, Except.toOption]

theorem holdsSingle_set (value : α) : HoldsSingle field (field.set c value) :=
  ⟨value, field.access_mutate c _⟩

/-- What is left behind by a write of a collection. -/
structure Rewritten (field : VirtualDynField C α bound) (c : C) (xs : List α)
    (out : Except Unit Unit × C) : Prop where
  ok_iff : out.1 = .ok () ↔ xs.length ≤ bound
  access_of_ok : out.1 = .ok () → (field.access out.2).intoMany = xs ∧ ¬HoldsSingle field out.2
  unchanged : out.1 = .error () → out.2 = c

/-- Every write of a collection succeeds exactly within the bound and leaves the collection shape. -/
theorem rewritten (field : VirtualDynField C α bound) (c : C) (xs : List α) :
    Rewritten field c xs (match SumDynType.tryFromMany xs with
      | .error e => (.error e, c)
      | .ok repr => (.ok (), field.mutate c repr)) := by
  by_cases hle : xs.length ≤ bound
  · rw [SumDynType.tryFromMany_of_le hle]
    refine ⟨by simp [hle], fun _ => ?_, fun h => nomatch h⟩
    simp [field.access_mutate, SumDynType.intoMany, HoldsSingle]
  · rw [SumDynType.tryFromMany_of_lt (by omega)]
    exact ⟨by simp [hle], fun h => (nomatch h), fun _ => rfl⟩

theorem iterMut_rewritten (field : VirtualDynField C α bound) (c : C) (f : α → α) :
    Rewritten field c ((field.access c).intoMany.map f) (field.iterMut c f) :=
  rewritten field c _

theorem indexSet_rewritten [Inhabited α] (field : VirtualDynField C α bound) (c : C) (index : Nat) (value : α) :
    Rewritten field c (setIndex (field.access c).intoMany index value) (field.indexSet c index value) :=
  rewritten field c _

theorem get_eq_none_of_not_holdsSingle (h : ¬HoldsSingle field c) : field.get c = none := by
  unfold get
  cases ha : field.access c with
  | none => rfl
  | some w => exact absurd ⟨w, ha⟩ h
  | many v => rfl

/-- A write at an index succeeds exactly within the bound, puts the value there, keeps the other elements,
fills the gap with defaults and reaches the index. -/
structure IndexSetLaws [Inhabited α] (field : VirtualDynField C α bound) (c : C) (index : Nat) (value : α) :
    Prop where
  ok_iff : (field.indexSet c index value).1 = .ok () ↔ max (field.len c) (index + 1) ≤ bound
  written : (field.indexSet c index value).1 = .ok () →
    field.indexGet (field.indexSet c index value).2 index = some value
  kept : (field.indexSet c index value).1 = .ok () → ∀ j < field.len c, j ≠ index →
    field.indexGet (field.indexSet c index value).2 j = field.indexGet c j
  gap : (field.indexSet c index value).1 = .ok () → ∀ j, field.len c ≤ j → j < index →
    field.indexGet (field.indexSet c index value).2 j = some default
  len : (field.indexSet c index value).1 = .ok () →
    field.len (field.indexSet c index value).2 = max (field.len c) (index + 1)
  unchanged : (field.indexSet c index value).1 = .error () → (field.indexSet c index value).2 = c

/-- A change of every element succeeds within the bound and keeps their number. -/
structure IterMutLaws (field : VirtualDynField C α bound) (c : C) (f : α → α) : Prop where
  ok : field.len c ≤ bound → (field.iterMut c f).1 = .ok ()
  mapped : (field.iterMut c f).1 = .ok () →
    ∀ j, field.indexGet (field.iterMut c f).2 j = (field.indexGet c j).map f
  len : (field.iterMut c f).1 = .ok () → field.len (field.iterMut c f).2 = field.len c
  unchanged : (field.iterMut c f).1 = .error () → (field.iterMut c f).2 = c

/-- A single value is still returned as one after it was changed through the collection helpers. -/
structure SingleLaws [Inhabited α] (field : VirtualDynField C α bound) (c : C) (value : α) (f : α → α) :
    Prop where
  get_iterMut : ∀ w, field.access c = .some w → (field.iterMut c f).1 = .ok () →
    field.get (field.iterMut c f).2 = some (f w)
  get_indexSet : ∀ w, field.access c = .some w → (field.indexSet c 0 value).1 = .ok () →
    field.get (field.indexSet c 0 value).2 = some value

/-- A single value is returned by `get` until a collection is written back in its place: then it is the element
at index zero, and `get` returns nothing. -/
structure WrittenBack [Inhabited α] (field : VirtualDynField C α bound) (c : C) (value : α) (f : α → α) :
    Prop where
  get_single : ∀ w, field.access c = .some w → field.get c = some w
  get_iterMut : ∀ w, field.access c = .some w → (field.iterMut c f).1 = .ok () →
    field.get (field.iterMut c f).2 = none ∧ field.indexGet (field.iterMut c f).2 0 = some (f w)
  get_indexSet : ∀ w, field.access c = .some w → (field.indexSet c 0 value).1 = .ok () →
    field.get (field.indexSet c 0 value).2 = none ∧ field.indexGet (field.indexSet c 0 value).2 0 = some value

theorem indexSetLaws [Inhabited α] (index : Nat) (value : α) : IndexSetLaws field c index value := by
  have hw := indexSet_rewritten field c index value
  refine ⟨?_, fun hok => ?_, fun hok j hj hne => ?_, fun hok j hj hlt => ?_, fun hok => ?_, hw.unchanged⟩
  · rw [hw.ok_iff, length_setIndex, len_eq]
  · rw [indexGet, (hw.access_of_ok hok).1, setIndex_getElem?_self]
  · rw [len_eq] at hj
    rw [indexGet, (hw.access_of_ok hok).1, setIndex_getElem?_of_lt hj hne, indexGet]
  · rw [len_eq] at hj
    rw [indexGet, (hw.access_of_ok hok).1, setIndex_getElem?_gap hj hlt]
  · rw [len_eq, (hw.access_of_ok hok).1, length_setIndex, len_eq]

theorem iterMutLaws (f : α → α) : IterMutLaws field c f := by
  have hw := iterMut_rewritten field c f
  refine ⟨fun hle => ?_, fun hok j => ?_, fun hok => ?_, hw.unchanged⟩
  · rw [hw.ok_iff, List.length_map, ← len_eq]
    exact hle
  · rw [indexGet, (hw.access_of_ok hok).1, List.getElem?_map, indexGet]
  · rw [len_eq, (hw.access_of_ok hok).1, List.length_map, len_eq]

theorem writtenBack [Inhabited α] (value : α) (f : α → α) : WrittenBack field c value f := by
  refine ⟨fun w hw => ?_, fun w hw hok => ?_, fun w _ hok => ?_⟩
  · rw [get, hw]
    rfl
  · obtain ⟨helems, hmany⟩ := (iterMut_rewritten field c f).access_of_ok hok
    refine ⟨get_eq_none_of_not_holdsSingle hmany, ?_⟩
    rw [indexGet, helems, hw]
    rfl
  · obtain ⟨-, hmany⟩ := (indexSet_rewritten field c 0 value).access_of_ok hok
    exact ⟨get_eq_none_of_not_holdsSingle hmany, (indexSetLaws 0 value).written hok⟩

theorem singleLaws_iff [Inhabited α] (value : α) (f : α → α) :
    SingleLaws field c value f ↔ ¬HoldsSingle field c ∨ bound = 0 := by
  constructor
  · intro h
    by_contra hnot
    obtain ⟨⟨w, hw⟩, hb⟩ := not_or.mp hnot |>.imp_left not_not.mp
    have hr := iterMut_rewritten field c f
    have hok : (field.iterMut c f).1 = .ok () := by
      rw [hr.ok_iff, hw]
      exact Nat.pos_of_ne_zero hb
    have hget := h.get_iterMut w hw hok
    rw [get_eq_none_of_not_holdsSingle (hr.access_of_ok hok).2] at hget
    cases hget
  · rintro (h | hb)
    · exact ⟨fun w hw => absurd ⟨w, hw⟩ h, fun w hw => absurd ⟨w, hw⟩ h⟩
    · -- Nothing can be written within the bound zero, so no call succeeds.
      refine ⟨fun w hw hok => ?_, fun w hw hok => ?_⟩
      · rw [(iterMut_rewritten field c f).ok_iff, hw] at hok
        simp [SumDynType.intoMany, hb] at hok
      · rw [(indexSet_rewritten field c 0 value).ok_iff, length_setIndex] at hok
        omega

/-- The laws of virtual field access, with a single value that stays one. -/
structure FieldLaws [Inhabited α] (field : VirtualDynField C α bound) (c : C) (index : Nat) (value : α)
    (f : α → α) : Prop where
  indexSet : IndexSetLaws field c index value
  iterMut : IterMutLaws field c f
  single : SingleLaws field c value f

/-- The laws of virtual field access, with a single value that collections are written back over. -/
structure AccessLaws [Inhabited α] (field : VirtualDynField C α bound) (c : C) (index : Nat) (value : α)
    (f : α → α) : Prop where
  indexSet : IndexSetLaws field c index value
  iterMut : IterMutLaws field c f
  set : HoldsSingle field (field.set c value) ∧ field.get (field.set c value) = some value
  single : WrittenBack field c value f

theorem accessLaws [Inhabited α] (field : VirtualDynField C α bound) (c : C) (index : Nat) (value : α)
    (f : α → α) : AccessLaws field c index value f where
  indexSet := indexSetLaws index value
  iterMut := iterMutLaws f
  set := ⟨holdsSingle_set value, get_set value⟩
  single := writtenBack value f

/-- A single value fails to stay one exactly where there is one, with room for it in the collection shape. -/
theorem fieldLaws_iff [Inhabited α] (field : VirtualDynField C α bound) (c : C) (index : Nat) (value : α)
    (f : α → α) : FieldLaws field c index value f ↔ ¬HoldsSingle field c ∨ bound = 0 := by
  constructor
  · intro h
    exact (singleLaws_iff value f).mp h.single
  · intro h
    exact ⟨indexSetLaws index value, iterMutLaws f, (singleLaws_iff value f).mpr h⟩

/-- The content of the first field is no part of the second one. -/
def Apart {β : Type} {bound' : Nat} (field : VirtualDynField C α bound) (other : VirtualDynField C β bound') : Prop :=
  ∀ c r, other.access (field.mutate c r) = other.access c

/-- Nothing that is written to a field shows in one apart from it. -/
theorem Apart.kept [Inhabited α] {β : Type} {bound' : Nat} {other : VirtualDynField C β bound'}
    (h : Apart field other) (index : Nat) (value : α) (f : α → α) :
    other.access (field.set c value) = other.access c ∧
      other.access (field.iterMut c f).2 = other.access c ∧
      other.access (field.indexSet c index value).2 = other.access c := by
  refine ⟨h c _, ?_, ?_⟩
  · unfold iterMut
    split
    · rfl
    · exact h c _
  · unfold indexSet
    split
    · rfl
    · exact h c _

/-- A balance whose asset field was set to seven: after each element was increased, and after the element
at index zero was replaced, the field is no longer read as a single value. -/
theorem not_fieldLaws_set_asset :
    ¬FieldLaws ProductType.assetField
      (ProductType.assetField.set (⟨.none, .none, .none⟩ : ProductType Nat Nat Nat 2 1 2) 7) 0 9 (· + 1) := by
  intro h
  have hget := h.single.get_indexSet 7 rfl rfl
  cases hget

end VirtualDynField

namespace ProductType

open VirtualDynField

variable (asset bias time : Type) (maxAsset maxBias maxTime : Nat)

/-- The asset, the price and the time are apart from each other. -/
theorem fields_apart :
    (Apart (assetField : VirtualDynField (ProductType asset bias time maxAsset maxBias maxTime) ..) biasField ∧
        Apart (assetField : VirtualDynField (ProductType asset bias time maxAsset maxBias maxTime) ..) timeField) ∧
      (Apart (biasField : VirtualDynField (ProductType asset bias time maxAsset maxBias maxTime) ..) assetField ∧
        Apart (biasField : VirtualDynField (ProductType asset bias time maxAsset maxBias maxTime) ..) timeField) ∧
      Apart (timeField : VirtualDynField (ProductType asset bias time maxAsset maxBias maxTime) ..) assetField ∧
        Apart (timeField : VirtualDynField (ProductType asset bias time maxAsset maxBias maxTime) ..) biasField :=
  ⟨⟨fun _ _ => rfl, fun _ _ => rfl⟩, ⟨fun _ _ => rfl, fun _ _ => rfl⟩, fun _ _ => rfl, fun _ _ => rfl⟩

end ProductType

end FrameSuite
