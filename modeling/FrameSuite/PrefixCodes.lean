import Mathlib.Algebra.Ring.Nat
import Mathlib.Data.List.Basic

/-! Codes whose words can be read off the front of a text: words follow each other without separators, and a list
follows its length. -/

namespace FrameSuite

variable {B α β : Type}

/-- On its domain the text after a word is known, and so is what the word stands for. -/
structure PrefixCode (B α : Type) where
  encode : α → List B
  domain : α → Prop
  unique : ∀ {a b : α} {r s : List B}, domain a → domain b → encode a ++ r = encode b ++ s → a = b ∧ r = s

namespace PrefixCode

theorem injective (c : PrefixCode B α) {a b : α} (ha : c.domain a) (hb : c.domain b) (h : c.encode a = c.encode b) :
    a = b :=
  (c.unique (r := []) (s := []) ha hb (by rw [h])).1

/-- One value that is always there takes the same text. -/
def only (a : α) (text : List B) : PrefixCode B α where
  encode _ := text
  domain b := b = a
  unique ha hb h := ⟨ha.trans hb.symm, List.append_cancel_left h⟩

def pair (c : PrefixCode B α) (d : PrefixCode B β) : PrefixCode B (α × β) where
  encode p := c.encode p.1 ++ d.encode p.2
  domain p := c.domain p.1 ∧ d.domain p.2
  unique ha hb h := by
    rw [List.append_assoc, List.append_assoc] at h
    obtain ⟨hfst, h⟩ := c.unique ha.1 hb.1 h
    obtain ⟨hsnd, h⟩ := d.unique ha.2 hb.2 h
    exact ⟨Prod.ext hfst hsnd, h⟩

/-- A record is encoded as the tuple of its fields. -/
def comap (c : PrefixCode B α) (f : β → α) (hf : Function.Injective f) : PrefixCode B β where
  encode b := c.encode (f b)
  domain b := c.domain (f b)
  unique ha hb h := (c.unique ha hb h).imp_left fun he => hf he

theorem flatMap_unique (c : PrefixCode B α) {l m : List α} {r s : List B} (hl : ∀ a ∈ l, c.domain a)
    (hm : ∀ a ∈ m, c.domain a) (hlen : l.length = m.length)
    (h : l.flatMap c.encode ++ r = m.flatMap c.encode ++ s) : l = m ∧ r = s := by
  induction l generalizing m with
  | nil =>
    obtain rfl := List.eq_nil_of_length_eq_zero hlen.symm
    exact ⟨rfl, h⟩
  | cons a l ih =>
    cases m with
    | nil => cases hlen
    | cons b m =>
      rw [List.flatMap_cons, List.flatMap_cons, List.append_assoc, List.append_assoc] at h
      obtain ⟨hword, hrest⟩ := c.unique (hl a List.mem_cons_self) (hm b List.mem_cons_self) h
      have hl' : ∀ x ∈ l, c.domain x := fun x hx => hl x (List.mem_cons_of_mem a hx)
      have hm' : ∀ x ∈ m, c.domain x := fun x hx => hm x (List.mem_cons_of_mem b hx)
      obtain ⟨rfl, hend⟩ := ih hl' hm' (Nat.succ.inj hlen) hrest
      exact ⟨by rw [hword], hend⟩

def list (length : PrefixCode B Nat) (c : PrefixCode B α) : PrefixCode B (List α) where
  encode l := length.encode l.length ++ l.flatMap c.encode
  domain l := length.domain l.length ∧ ∀ a ∈ l, c.domain a
  unique ha hb h := by
    rw [List.append_assoc, List.append_assoc] at h
    obtain ⟨hlen, h⟩ := length.unique ha.1 hb.1 h
    exact c.flatMap_unique ha.2 hb.2 hlen h

/-- All words have the same length. -/
def Fixed (c : PrefixCode B α) : Prop := ∀ a b, (c.encode a).length = (c.encode b).length

theorem Fixed.pair {c : PrefixCode B α} {d : PrefixCode B β} (hc : c.Fixed) (hd : d.Fixed) : (c.pair d).Fixed := by
  intro a b
  change (c.encode a.1 ++ d.encode a.2).length = (c.encode b.1 ++ d.encode b.2).length
  rw [List.length_append, List.length_append, hc a.1 b.1, hd a.2 b.2]

/-- A word of a fixed length can be read off the end as well. -/
theorem Fixed.unique_last {c : PrefixCode B α} (hc : c.Fixed) {a b : α} {r s : List B} (ha : c.domain a)
    (hb : c.domain b) (h : r ++ c.encode a = s ++ c.encode b) : r = s ∧ a = b := by
  obtain ⟨hr, hword⟩ := List.append_inj' h (hc a b)
  exact ⟨hr, c.injective ha hb hword⟩

end PrefixCode

section Bytes

/-- The lowest bytes of a number, the least one first. -/
def littleEndian : Nat → Nat → List UInt8
  | 0, _ => []
  | width + 1, n => UInt8.ofNat (n % 256) :: littleEndian width (n / 256)

theorem length_littleEndian (width n : Nat) : (littleEndian width n).length = width := by
  induction width generalizing n with
  | zero => rfl
  | succ width ih => rw [littleEndian, List.length_cons, ih]

def readBytes (text : List UInt8) : Nat := text.foldr (fun byte n => byte.toNat + 256 * n) 0

theorem readBytes_littleEndian {width n : Nat} (h : n < 256 ^ width) : readBytes (littleEndian width n) = n := by
  induction width generalizing n with
  | zero =>
    rw [Nat.pow_zero] at h
    exact (Nat.lt_one_iff.mp h).symm
  | succ width ih =>
    have hrest : n / 256 < 256 ^ width := Nat.div_lt_of_lt_mul (by rwa [Nat.mul_comm, ← Nat.pow_succ])
    have hread := ih hrest
    change (UInt8.ofNat (n % 256)).toNat + 256 * readBytes (littleEndian width (n / 256)) = n
    rw [hread, UInt8.toNat_ofNat']
    omega

/-- Unsigned integers of a number of bytes. -/
def PrefixCode.bytes (width : Nat) : PrefixCode UInt8 Nat where
  encode := littleEndian width
  domain n := n < 256 ^ width
  unique ha hb h := by
    obtain ⟨hword, hrest⟩ := List.append_inj h (by rw [length_littleEndian, length_littleEndian])
    refine ⟨?_, hrest⟩
    rw [← readBytes_littleEndian ha, hword, readBytes_littleEndian hb]

theorem PrefixCode.fixed_bytes (width : Nat) : (PrefixCode.bytes width).Fixed := fun a b => by
  rw [PrefixCode.bytes, length_littleEndian, length_littleEndian]

end Bytes

end FrameSuite
