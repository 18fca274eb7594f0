import Mathlib.Data.List.Basic

/-!
# Percent-encoding

A byte that may not stand for itself is written as a percent sign and two hexadecimal
digits. Whatever set of bytes is kept, as long as the percent sign is not one of them,
decoding undoes encoding, and an encoded text has no bytes but kept ones, percent signs and
digits.
-/

namespace Percent

/-- The sign in front of an encoded byte. -/
def percent : UInt8 := 37

/-- A hexadecimal digit, upper case. -/
def upperHex (n : Nat) : UInt8 := UInt8.ofNat (if n < 10 then 48 + n else 55 + n)

/-- The value of a hexadecimal digit of either case. -/
def unhex (b : UInt8) : Option Nat :=
  if 48 ≤ b ∧ b ≤ 57 then some (b.toNat - 48)
  else if 97 ≤ b ∧ b ≤ 102 then some (b.toNat - 87)
  else if 65 ≤ b ∧ b ≤ 70 then some (b.toNat - 55)
  else none

variable (keep : UInt8 → Bool)

/-- Encode one byte. -/
def escapeByte (b : UInt8) : List UInt8 :=
  if keep b then [b] else [percent, upperHex (b.toNat / 16), upperHex (b.toNat % 16)]

/-- Encode a text. -/
def escape (s : List UInt8) : List UInt8 := s.flatMap (escapeByte keep)

/-- Decode a text; a percent sign that two digits do not follow is an error. -/
def unescape : List UInt8 → Option (List UInt8)
  | [] => some []
  | b :: rest =>
      if b = percent then
        match rest with
        | high :: low :: rest =>
            match unhex high, unhex low with
            | some h, some l => (unescape rest).map (UInt8.ofNat (16 * h + l) :: ·)
            | _, _ => none
        | _ => none
      else (unescape rest).map (b :: ·)

theorem unhex_upperHex : ∀ n < 16, unhex (upperHex n) = some n := by decide

/-- An encoded byte is read back. -/
theorem unescape_encoded (b : UInt8) (t : List UInt8) :
    unescape (percent :: upperHex (b.toNat / 16) :: upperHex (b.toNat % 16) :: t) =
      (unescape t).map (b :: ·) := by
  have hlt := b.toNat_lt
  have hb : UInt8.ofNat (16 * (b.toNat / 16) + b.toNat % 16) = b := by
    rw [Nat.div_add_mod, UInt8.ofNat_toNat]
  simp only [unescape, if_true, unhex_upperHex _ (show b.toNat / 16 < 16 by omega),
    unhex_upperHex _ (show b.toNat % 16 < 16 by omega), hb]

theorem unescape_other {b : UInt8} (h : b ≠ percent) (t : List UInt8) :
    unescape (b :: t) = (unescape t).map (b :: ·) := by
  rw [unescape.eq_def]
  exact if_neg h

variable {keep} (hkeep : keep percent = false)

include hkeep

/-- Decoding an encoded text that stands in front of another one. -/
theorem unescape_escape_append (s t : List UInt8) :
    unescape (escape keep s ++ t) = (unescape t).map (s ++ ·) := by
  induction s with
  | nil => simp [escape]
  | cons b s ih =>
      have hrest : escape keep (b :: s) ++ t = escapeByte keep b ++ (escape keep s ++ t) := by
        rw [escape, List.flatMap_cons, List.append_assoc]
        rfl
      have hread : unescape (escapeByte keep b ++ (escape keep s ++ t)) =
          (unescape (escape keep s ++ t)).map (b :: ·) := by
        unfold escapeByte
        split_ifs with hb
        · exact unescape_other (fun h => by simp [h, hkeep] at hb) _
        · exact unescape_encoded b _
      rw [hrest, hread, ih, Option.map_map]
      rfl

/-- Decoding undoes encoding. -/
theorem unescape_escape (s : List UInt8) : unescape (escape keep s) = some s := by
  have h := unescape_escape_append hkeep s []
  simpa [unescape] using h

theorem escape_injective : Function.Injective (escape keep) := by
  intro s t h
  exact Option.some.inj ((unescape_escape hkeep s).symm.trans ((congrArg unescape h).trans
    (unescape_escape hkeep t)))

omit hkeep

/-- A byte that is neither kept, nor the sign, nor a digit does not occur in an encoded text. -/
theorem notMem_escape {b : UInt8} (hb : keep b = false) (hsign : b ≠ percent)
    (hdigit : ∀ n < 16, upperHex n ≠ b) (s : List UInt8) : b ∉ escape keep s := by
  intro hmem
  obtain ⟨c, -, hc⟩ := List.mem_flatMap.mp hmem
  have hlt := c.toNat_lt
  unfold escapeByte at hc
  split_ifs at hc with hkept
  · obtain rfl := List.mem_singleton.mp hc
    simp [hb] at hkept
  · rcases List.mem_cons.mp hc with h | hc
    · exact hsign h
    rcases List.mem_cons.mp hc with h | hc
    · exact hdigit _ (by omega) h.symm
    · exact hdigit _ (by omega) (List.mem_singleton.mp hc).symm

end Percent
