/-
The order of texts is that of their bytes.

Texts are compared character by character.  In UTF-8 a character of a larger
number never has smaller bytes: one that needs more bytes begins with a larger
one, and of two that need the same the bytes hold the digits of their numbers
from the highest on.  So two texts compare as their bytes do.
-/
import Mathlib.Data.String.Basic

namespace StepGraph

/-- The bytes of a text in UTF-8. -/
def bytes (text : String) : List UInt8 := text.toUTF8.data.toList

theorem bytes_eq_flatMap (text : String) :
    bytes text = text.toList.flatMap String.utf8EncodeChar := by
  rw [bytes, String.toUTF8_eq_toByteArray, ← String.utf8Encode_toList, List.utf8Encode,
    List.toList_data_toByteArray]

/-- Bytes compare by the first in which they differ. -/
theorem ofNat_cons_lt {m n : Nat} {rest other : List UInt8} (hn : n < 256) (hle : m ≤ n)
    (h : m = n → rest < other) : UInt8.ofNat m :: rest < UInt8.ofNat n :: other := by
  rw [List.cons_lt_cons_iff, UInt8.lt_iff_toNat_lt, UInt8.toNat_ofNat', UInt8.toNat_ofNat',
    Nat.mod_eq_of_lt hn, Nat.mod_eq_of_lt (Nat.lt_of_le_of_lt hle hn)]
  rcases Nat.lt_or_eq_of_le hle with hlt | rfl
  · exact .inl hlt
  · exact .inr ⟨rfl, h rfl⟩

/-- Whatever stands behind them, the bytes of a smaller character come first. -/
theorem utf8EncodeChar_append_lt {c d : Char} (h : c < d) (rest other : List UInt8) :
    String.utf8EncodeChar c ++ rest < String.utf8EncodeChar d ++ other := by
  have hlt : c.val.toNat < d.val.toNat := UInt32.lt_iff_toNat_lt.mp h
  have hd : d.val.toNat < 1114112 := by
    have hvalid : d.val.toNat < 55296 ∨ 57343 < d.val.toNat ∧ d.val.toNat < 1114112 := d.valid
    omega
  simp only [String.utf8EncodeChar]
  -- the bytes before the one that decides are equal, and there is one that decides
  split_ifs
  all_goals
    repeat refine ofNat_cons_lt (by omega) (by omega) fun _ => ?_
    omega

/-- A smaller text has smaller bytes. -/
theorem flatMap_utf8EncodeChar_lt {chars others : List Char} (h : chars < others) :
    chars.flatMap String.utf8EncodeChar < others.flatMap String.utf8EncodeChar := by
  induction h with
  | @nil d others =>
      rw [List.flatMap_nil, List.flatMap_cons]
      cases hd : String.utf8EncodeChar d with
      | nil => exact absurd hd String.utf8EncodeChar_ne_nil
      | cons first rest => exact List.nil_lt_cons _ _
  | rel hlt =>
      rw [List.flatMap_cons, List.flatMap_cons]
      exact utf8EncodeChar_append_lt hlt _ _
  | cons _ ih =>
      rw [List.flatMap_cons, List.flatMap_cons]
      exact List.append_left_lt ih

/-- Texts compare as their bytes do. -/
theorem bytes_lt_iff {text other : String} : bytes text < bytes other ↔ text < other := by
  have hsmaller : ∀ {text other : String}, text < other → bytes text < bytes other := by
    intro text other h
    rw [bytes_eq_flatMap, bytes_eq_flatMap]
    exact flatMap_utf8EncodeChar_lt (String.lt_iff_toList_lt.mp h)
  constructor
  · intro h
    rcases lt_trichotomy text other with hlt | rfl | hlt
    · exact hlt
    · exact absurd h (List.lt_irrefl _)
    · exact absurd h (List.lt_asymm (hsmaller hlt))
  · exact hsmaller

end StepGraph
