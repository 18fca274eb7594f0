import Lbsync.GoString
import Lbsync.Lib.NewestWins
import Mathlib.Data.Prod.Lex

/-!
# Versions and records

`Version.newer` follows the three comparisons of the source. It is the strict
order of the lexicographic triple, so the generic newest-wins selection applies
to records with their version as rank, and `pickNewer` is that selection.

The two Go maps of a record are association lists. Nothing in the program
iterates over them; every access looks one literal name up.
-/

namespace Lbsync.Engine

/-- Which copy wins. Larger is newer. -/
structure Version where
  primary : Int
  secondary : Int
  tiebreak : GoString
  deriving DecidableEq, Repr

namespace Version

/-- Whether `v` is strictly newer than `o`. -/
def newer (v o : Version) : Bool :=
  if v.primary ≠ o.primary then decide (v.primary > o.primary)
  else if v.secondary ≠ o.secondary then decide (v.secondary > o.secondary)
  else decide (v.tiebreak > o.tiebreak)

/-- The lexicographic triple compared by `newer`. -/
def key (v : Version) : Int ×ₗ Int ×ₗ GoString :=
  toLex (v.primary, toLex (v.secondary, v.tiebreak))

theorem key_injective : Function.Injective key := by
  rintro ⟨p, q, t⟩ ⟨p', q', t'⟩ h
  simpa [key] using h

instance : LinearOrder Version := LinearOrder.lift' key key_injective

theorem lt_iff {v o : Version} :
    o < v ↔ o.primary < v.primary ∨ o.primary = v.primary ∧
      (o.secondary < v.secondary ∨ o.secondary = v.secondary ∧ o.tiebreak < v.tiebreak) := by
  change o.key < v.key ↔ _
  simp [key, Prod.Lex.toLex_lt_toLex]

/-- The comparison chain of the source is the strict lexicographic order. -/
@[simp] theorem newer_iff_lt {v o : Version} : v.newer o = true ↔ o < v := by
  rw [lt_iff]
  by_cases hp : v.primary = o.primary
  · by_cases hs : v.secondary = o.secondary
    · simp [newer, hp, hs]
    · simp [newer, hp, hs, Ne.symm hs]
  · simp [newer, hp, Ne.symm hp]

@[simp] theorem newer_eq_false_iff {v o : Version} : v.newer o = false ↔ v ≤ o := by
  rw [← not_lt, ← newer_iff_lt, Bool.not_eq_true]

end Version

/-- One replicated item, namespaced by its kind. -/
structure Record where
  kind : GoString
  key : GoString
  version : Version
  blobs : List (GoString × Bytes)
  metaData : List (GoString × GoString)
  source : GoString
  deriving DecidableEq, Repr

namespace Record

/-- The blob stored under a name. A missing name reads as the empty slice. -/
def blob (r : Record) (name : GoString) : Bytes := (r.blobs.lookup name).getD []

/-- The metadata under a name. A missing name reads as the empty string. -/
def metaValue (r : Record) (name : GoString) : GoString := (r.metaData.lookup name).getD []

end Record

/-- The newer of two records, either of which may be nil. -/
def pickNewer (a b : Option Record) : Option Record :=
  match a, b with
  | none, b => b
  | some a, none => some a
  | some a, some b => if a.version.newer b.version then some a else some b

/-- `pickNewer` is newest-wins selection by version. -/
theorem pickNewer_eq_newest (a b : Option Record) :
    pickNewer a b = NewestWins.newest Record.version a b := by
  cases a <;> cases b <;> simp [pickNewer, NewestWins.newest]

/-- The version of an optional record, with absence below every version. -/
abbrev versionOf (r : Option Record) : WithBot Version := NewestWins.rankOf Record.version r

/-- `b` is present whenever `a` is, and `a` is not strictly newer. -/
def NotOlder (a b : Option Record) : Prop :=
  ∀ r, a = some r → ∃ r', b = some r' ∧ r.version.newer r'.version = false

theorem notOlder_iff {a b : Option Record} : NotOlder a b ↔ versionOf a ≤ versionOf b := by
  simp [NotOlder, versionOf, NewestWins.rankOf_le_iff]

theorem NotOlder.refl (a : Option Record) : NotOlder a a := notOlder_iff.mpr le_rfl

theorem NotOlder.trans {a b c : Option Record} (h₁ : NotOlder a b) (h₂ : NotOlder b c) :
    NotOlder a c := notOlder_iff.mpr ((notOlder_iff.mp h₁).trans (notOlder_iff.mp h₂))

/-- The stored record stays or is replaced by a newer one. -/
def Renewed (before after : Option Record) : Prop :=
  after = before ∨ versionOf before < versionOf after

theorem Renewed.trans {a b c : Option Record} (h : Renewed a b) (h' : Renewed b c) :
    Renewed a c := by
  rcases h with rfl | hlt
  · exact h'
  · rcases h' with rfl | hlt'
    · exact Or.inr hlt
    · exact Or.inr (hlt.trans hlt')

theorem eq_none_of_versionOf_le {a b : Option Record} (h : versionOf a ≤ versionOf b)
    (hb : b = none) : a = none := by
  cases a with
  | none => rfl
  | some r =>
      rw [hb] at h
      exact absurd (le_bot_iff.mp h) WithBot.coe_ne_bot

theorem versionOf_pickNewer (a b : Option Record) :
    versionOf (pickNewer a b) = max (versionOf a) (versionOf b) := by
  rw [pickNewer_eq_newest]
  exact NewestWins.rankOf_newest Record.version a b

/-- What competes with a record renews it. -/
theorem renewed_pickNewer (a : Record) (b : Option Record) : Renewed b (pickNewer (some a) b) := by
  cases b with
  | none => exact Or.inr (WithBot.bot_lt_coe a.version)
  | some b =>
      by_cases hnew : a.version.newer b.version = true
      · refine Or.inr ?_
        simp only [pickNewer, hnew, if_true]
        exact WithBot.coe_lt_coe.mpr (Version.newer_iff_lt.mp hnew)
      · exact Or.inl (by simp [pickNewer, hnew])

/-- There is a winner when there is a local record. -/
theorem exists_pickNewer (a : Record) (b : Option Record) :
    ∃ r, pickNewer (some a) b = some r := by
  cases b with
  | none => exact ⟨a, rfl⟩
  | some b =>
      by_cases hnewer : a.version.newer b.version = true
      · exact ⟨a, by simp [pickNewer, hnewer]⟩
      · exact ⟨b, by simp [pickNewer, hnewer]⟩

theorem pickNewer_of_le {a b : Option Record} (h : versionOf a ≤ versionOf b) :
    pickNewer a b = b := by
  rw [pickNewer_eq_newest]
  exact NewestWins.newest_of_le Record.version h

theorem pickNewer_of_lt {a b : Option Record} (h : versionOf b < versionOf a) :
    pickNewer a b = a := by
  rw [pickNewer_eq_newest]
  exact NewestWins.newest_of_lt Record.version h

end Lbsync.Engine
