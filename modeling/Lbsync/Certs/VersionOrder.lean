import Lbsync.Certs.Provider
import Lbsync.Lib.Lex

/-!
# Two orders on bundle versions

`compare` orders bundles by their validity times, then the serial, then the
digest. The record of a bundle is ordered by the validity times and then by one
text, serial and digest joined by a colon. A colon is above the decimal digits
and below the letters, so the two orders differ exactly on serials of which one
continues the other with a decimal digit.
-/

namespace Lbsync.Certs

open Engine

/-- `strings.Compare`. -/
def compareStrings (a b : GoString) : Int := if a = b then 0 else if a < b then -1 else 1

namespace BundleVersion

/-- Positive when the first version is newer, negative when it is older. -/
def compare (a b : BundleVersion) : Int :=
  if a.notBefore ≠ b.notBefore then (if a.notBefore > b.notBefore then 1 else -1)
  else if a.notAfter ≠ b.notAfter then (if a.notAfter > b.notAfter then 1 else -1)
  else if compareStrings a.serial b.serial ≠ 0 then compareStrings a.serial b.serial
  else compareStrings a.sha256 b.sha256

/-- Whether the first version is strictly newer. -/
def newer (a b : BundleVersion) : Bool := compare a b > 0

end BundleVersion

/-- A lower-case hexadecimal digit. -/
def IsHex (b : UInt8) : Prop := (48 ≤ b ∧ b ≤ 57) ∨ (97 ≤ b ∧ b ≤ 102)

instance (b : UInt8) : Decidable (IsHex b) := inferInstanceAs (Decidable (_ ∨ _))

/-- Whole seconds, a hexadecimal serial and a digest of 64 hexadecimal digits. -/
structure WellFormed (v : BundleVersion) : Prop where
  notBefore : 1000000000 ∣ v.notBefore
  notAfter : 1000000000 ∣ v.notAfter
  serial : ∀ b ∈ v.serial, IsHex b
  sha256 : v.sha256.length = 64 ∧ ∀ b ∈ v.sha256, IsHex b

/-- The second serial continues the first with a decimal digit. -/
def DigitFollows (s t : GoString) : Prop := ∃ b rest, t = s ++ b :: rest ∧ 48 ≤ b ∧ b ≤ 57

theorem compareStrings_eq_zero_iff {a b : GoString} : compareStrings a b = 0 ↔ a = b := by
  unfold compareStrings
  split_ifs with heq hlt
  · exact iff_of_true rfl heq
  · exact iff_of_false (by decide) heq
  · exact iff_of_false (by decide) heq

theorem compareStrings_pos_iff {a b : GoString} : compareStrings a b > 0 ↔ b < a := by
  unfold compareStrings
  split_ifs with heq hlt
  · exact iff_of_false (by decide) (heq ▸ lt_irrefl _)
  · exact iff_of_false (by decide) (lt_asymm hlt)
  · exact iff_of_true (by decide) (lt_of_le_of_ne (not_lt.mp hlt) (Ne.symm heq))

/-- The comparison chain is the lexicographic order of the four fields. -/
theorem BundleVersion.newer_iff {a b : BundleVersion} :
    a.newer b = true ↔ b.notBefore < a.notBefore ∨ b.notBefore = a.notBefore ∧
      (b.notAfter < a.notAfter ∨ b.notAfter = a.notAfter ∧
        (b.serial < a.serial ∨ b.serial = a.serial ∧ b.sha256 < a.sha256)) := by
  rw [newer, decide_eq_true_eq, compare]
  by_cases hb : a.notBefore = b.notBefore
  · by_cases ha : a.notAfter = b.notAfter
    · by_cases hs : a.serial = b.serial
      · have hzero : compareStrings b.serial b.serial = 0 := compareStrings_eq_zero_iff.mpr rfl
        simp only [hb, ha, hs, hzero, ne_eq, not_true_eq_false, if_false, lt_irrefl, true_and,
          false_or]
        exact compareStrings_pos_iff
      · have hne := mt compareStrings_eq_zero_iff.mp hs
        simp [hb, ha, hne, compareStrings_pos_iff, Ne.symm hs]
    · simp only [hb, ha, Ne.symm ha, ne_eq, not_true_eq_false, not_false_eq_true, if_true, if_false,
        lt_irrefl, true_and, false_and, false_or, or_false]
      split_ifs with hlt
      · exact iff_of_true (by decide) hlt
      · exact iff_of_false (by decide) hlt
  · simp only [hb, Ne.symm hb, ne_eq, not_false_eq_true, if_true, false_and, or_false]
    split_ifs with hlt
    · exact iff_of_true (by decide) hlt
    · exact iff_of_false (by decide) hlt

theorem unix_lt_iff {s t : Int} (hs : 1000000000 ∣ s) (ht : 1000000000 ∣ t) :
    unix s < unix t ↔ s < t := by
  unfold unix
  omega

theorem unix_eq_iff {s t : Int} (hs : 1000000000 ∣ s) (ht : 1000000000 ∣ t) :
    unix s = unix t ↔ s = t := by
  unfold unix
  omega

/-- The record of one bundle is newer than that of another. -/
theorem toRecord_newer_iff {a b : Bundle} (ha : WellFormed a.version) (hb : WellFormed b.version)
    (host host' : GoString) :
    (toRecord a host).version.newer (toRecord b host').version = true ↔
      b.version.notBefore < a.version.notBefore ∨
        b.version.notBefore = a.version.notBefore ∧
          (b.version.notAfter < a.version.notAfter ∨ b.version.notAfter = a.version.notAfter ∧
            b.version.serial ++ 58 :: b.version.sha256 <
              a.version.serial ++ 58 :: a.version.sha256) := by
  rw [Version.newer_iff_lt, Version.lt_iff]
  have hcolon (v : BundleVersion) :
      v.serial ++ ascii ":" ++ v.sha256 = v.serial ++ 58 :: v.sha256 := by
    simp [ascii]
  simp only [toRecord, hcolon, unix_lt_iff hb.notBefore ha.notBefore,
    unix_eq_iff hb.notBefore ha.notBefore, unix_lt_iff hb.notAfter ha.notAfter,
    unix_eq_iff hb.notAfter ha.notAfter]

theorem colon_notMem {s : GoString} (h : ∀ b ∈ s, IsHex b) : 58 ∉ s := fun hmem =>
  absurd (h 58 hmem) (by decide)

/-- Below the colon, a hexadecimal digit is a decimal one. -/
theorem continuesBelow_iff {s t : GoString} (ht : ∀ b ∈ t, IsHex b) :
    Lex.ContinuesBelow 58 s t ↔ DigitFollows s t := by
  constructor
  · rintro ⟨b, rest, rfl, hlt⟩
    refine ⟨b, rest, rfl, ?_⟩
    rcases ht b (by simp) with hdigit | hletter
    · exact hdigit
    · exact absurd (lt_of_lt_of_le hlt (by decide : (58 : UInt8) ≤ 97)) (not_lt.mpr hletter.1)
  · rintro ⟨b, rest, rfl, _, hle⟩
    exact ⟨b, rest, rfl, lt_of_le_of_lt hle (by decide)⟩

/-- The two orders agree on two versions exactly when these do not have the same validity
and serials of which one continues the other with a decimal digit. -/
theorem orders_agree_iff (a b : Bundle) (host host' : GoString) (ha : WellFormed a.version)
    (hb : WellFormed b.version) :
    (a.version.newer b.version = true ↔
        (toRecord a host).version.newer (toRecord b host').version = true) ↔
      ¬ (a.version.notBefore = b.version.notBefore ∧ a.version.notAfter = b.version.notAfter ∧
        (DigitFollows a.version.serial b.version.serial ∨
          DigitFollows b.version.serial a.version.serial)) := by
  rw [BundleVersion.newer_iff, toRecord_newer_iff ha hb]
  by_cases hbefore : a.version.notBefore = b.version.notBefore
  · by_cases hafter : a.version.notAfter = b.version.notAfter
    · have hjoined := Lex.joined_lt_iff (colon_notMem hb.serial) (colon_notMem ha.serial)
        b.version.sha256 a.version.sha256
      rw [continuesBelow_iff ha.serial, continuesBelow_iff hb.serial] at hjoined
      simp only [hbefore, hafter, lt_irrefl, true_and, false_or]
      rw [iff_comm (b := _ < _), hjoined, or_comm]
    · simp [hbefore, hafter, Ne.symm hafter]
  · simp [hbefore, Ne.symm hbefore]

/-- A bundle with the given serial. -/
def serialBundle (serial : GoString) : Bundle :=
  ⟨ascii "a", ascii "a", ⟨0, 0, serial, List.replicate 64 48⟩, [], [], [], []⟩

theorem wellFormed_serialBundle {serial : GoString} (h : serial.all (IsHex ·) = true) :
    WellFormed (serialBundle serial).version where
  notBefore := Int.dvd_zero _
  notAfter := Int.dvd_zero _
  serial b hb := of_decide_eq_true (List.all_eq_true.mp h b hb)
  sha256 := ⟨List.length_replicate, fun _ hb => List.eq_of_mem_replicate hb ▸ by decide⟩

/-- Serial `12` is newer than `1` for bundles and older for their records. -/
theorem orders_differ :
    WellFormed (serialBundle (ascii "12")).version ∧
    WellFormed (serialBundle (ascii "1")).version ∧
    (serialBundle (ascii "12")).version.newer (serialBundle (ascii "1")).version = true ∧
    (toRecord (serialBundle (ascii "12")) []).version.newer
      (toRecord (serialBundle (ascii "1")) []).version = false :=
  ⟨wellFormed_serialBundle rfl, wellFormed_serialBundle rfl, by decide, by decide⟩

/-- Serial `1f` is newer than `1` in both orders. -/
theorem orders_agree_on_letter :
    (serialBundle (ascii "1f")).version.newer (serialBundle (ascii "1")).version = true ↔
      (toRecord (serialBundle (ascii "1f")) []).version.newer
        (toRecord (serialBundle (ascii "1")) []).version = true := by
  refine (orders_agree_iff _ _ [] [] (wellFormed_serialBundle rfl)
    (wellFormed_serialBundle rfl)).mpr ?_
  rintro ⟨_, _, ⟨b, rest, hb, _⟩ | ⟨b, rest, hb, _, hle⟩⟩
  · exact absurd (congrArg List.length hb) (by simp [serialBundle, ascii])
  · have hsplit : ascii "1" ++ [102] = ascii "1" ++ b :: rest := hb
    have hletter : 102 = b := (List.cons.inj (List.append_cancel_left hsplit)).1
    exact absurd hle (hletter ▸ by decide)

end Lbsync.Certs
