import Lbsync.Files.Fates

/-!
# The calls of a write

The calls that a write makes, in their order, and which of them may fail. A read
of the old content that fails is taken for a missing file, and nothing depends on
the removal of the temp file; a failure of any call between these ends the write
with an error. What follows is how a write ends, in terms of the number of each of
its calls in the list of coming failures.
-/

namespace Lbsync.Files

/-- The coming call with this number does not fail. -/
def passes (faults : List Fault) (i : Nat) : Bool := decide (faults[i]?.getD .pass = .pass)

/-- The calls a write may make. -/
inductive WriteCall where
  | read | copyRead | copyWrite | createTemp | write | chmod | close | rename | remove
  deriving DecidableEq, Repr

/-- A failure of the call ends the write with an error. -/
def WriteCall.Vital (c : WriteCall) : Prop := c ≠ .read ∧ c ≠ .remove

instance (c : WriteCall) : Decidable c.Vital := inferInstanceAs (Decidable (_ ∧ _))

/-- The calls that put a file in its place. -/
def replaceCalls : List WriteCall := [.createTemp, .write, .chmod, .close, .rename, .remove]

/-- The calls that write a file when no vital one fails, from whether the first read passes and
what it would find. Nothing is written without data. -/
def writeCalls (reads : Bool) (old : Option Bytes) (data : Bytes) : List WriteCall :=
  if data = [] then []
  else if reads = true ∧ old = some data then [.read]
  else if reads = true ∧ old ≠ none then .read :: .copyRead :: .copyWrite :: replaceCalls
  else .read :: replaceCalls

/-- None of the calls ends the write when they are made from the given number on. -/
def NoneFails (calls : List WriteCall) (faults : List Fault) (first : Nat) : Prop :=
  ∀ call ∈ calls.zipIdx first, call.1.Vital → passes faults call.2

instance (calls : List WriteCall) (faults : List Fault) (first : Nat) :
    Decidable (NoneFails calls faults first) :=
  inferInstanceAs (Decidable (∀ call ∈ calls.zipIdx first, _))

/-- How a write ends when no vital call fails. -/
def fateOf (reads : Bool) (old : Option Bytes) (data : Bytes) : Fate :=
  if data = [] ∨ reads = true ∧ old = some data then .same
  else if reads = true ∧ old ≠ none then .backedUp
  else .blind

theorem fateOf_ne_failed (reads : Bool) (old : Option Bytes) (data : Bytes) :
    fateOf reads old data ≠ .failed := by
  unfold fateOf
  split_ifs <;> simp

/-- The fate of the write of one file; nothing is written without data. -/
def fileFate (old : Option Bytes) (data : Bytes) (faults : List Fault) : Fate × List Fault :=
  if data = [] then (.same, faults) else writeFate old data faults

variable {calls : List WriteCall} {faults : List Fault} {first : Nat}

theorem noneFails_cons {call : WriteCall} :
    NoneFails (call :: calls) faults first ↔
      (call.Vital → passes faults first) ∧ NoneFails calls faults (first + 1) := by
  simp [NoneFails, List.zipIdx_cons]

/-- The next of the coming calls. -/
theorem takeFault_drop (faults : List Fault) (i : Nat) :
    takeFault (faults.drop i) = (passes faults i, faults.drop (i + 1)) := by
  have hhead : faults[i]? = (faults.drop i).head? := (List.head?_drop).symm
  rw [passes, hhead, ← List.tail_drop]
  rcases faults.drop i with _ | ⟨_ | _ | _, rest⟩ <;> simp [takeFault]

theorem noneFails_replaceCalls {i : Nat} :
    NoneFails replaceCalls faults i ↔ passes faults i = true ∧ passes faults (i + 1) = true ∧
      passes faults (i + 2) = true ∧ passes faults (i + 3) = true ∧
      passes faults (i + 4) = true := by
  simp [replaceCalls, WriteCall.Vital, NoneFails]

/-- A file gets to its place when no vital call fails, and else it does not. -/
theorem replaceFate_drop (faults : List Fault) (i : Nat) :
    ((replaceFate (faults.drop i)).1 = true ↔ NoneFails replaceCalls faults i) ∧
      (NoneFails replaceCalls faults i →
        (replaceFate (faults.drop i)).2 = faults.drop (i + replaceCalls.length)) := by
  rw [noneFails_replaceCalls]
  -- the first call that fails ends it
  cases h₀ : passes faults i with
  | false => simp [replaceFate, takeFault_drop, h₀]
  | true =>
      cases h₁ : passes faults (i + 1) with
      | false => simp [replaceFate, fillFate, takeFault_drop, h₀, h₁]
      | true =>
          cases h₂ : passes faults (i + 2) with
          | false => simp [replaceFate, fillFate, takeFault_drop, h₀, h₁, h₂]
          | true =>
              cases h₃ : passes faults (i + 3) with
              | false => simp [replaceFate, fillFate, takeFault_drop, h₀, h₁, h₂, h₃]
              | true => simp [replaceFate, fillFate, takeFault_drop, h₀, h₁, h₂, h₃, replaceCalls]

/-- How replacing a file ends, from the number of its first call. -/
theorem replaceAs_drop (fate : Fate) (faults : List Fault) (i : Nat) :
    (¬ NoneFails replaceCalls faults i → (replaceAs fate (faults.drop i)).1 = .failed) ∧
      (NoneFails replaceCalls faults i →
        replaceAs fate (faults.drop i) = (fate, faults.drop (i + replaceCalls.length))) := by
  obtain ⟨hfirst, hrest⟩ := replaceFate_drop faults i
  refine ⟨fun hnot => ?_, fun hnone => ?_⟩
  · simp [replaceAs, hfirst, hnot]
  · simp [replaceAs, hfirst, hnone, hrest hnone]

/-- A write fails when a vital call of it does, and else it ends as what its first read finds
decides. -/
theorem fileFate_drop (old : Option Bytes) (data : Bytes) (faults : List Fault) (i : Nat) :
    let calls := writeCalls (passes faults i) old data
    (¬ NoneFails calls faults i → (fileFate old data (faults.drop i)).1 = .failed) ∧
      (NoneFails calls faults i → fileFate old data (faults.drop i) =
        (fateOf (passes faults i) old data, faults.drop (i + calls.length))) := by
  by_cases hdata : data = []
  · simp [writeCalls, fileFate, fateOf, hdata, NoneFails]
  have hread (calls : List WriteCall) :
      NoneFails (.read :: calls) faults i ↔ NoneFails calls faults (i + 1) := by
    simp [noneFails_cons, WriteCall.Vital]
  have hblind := replaceAs_drop .blind faults (i + 1)
  simp only [fileFate, writeCalls, fateOf, hdata, false_or, writeFate, takeFault_drop]
  cases hpass : passes faults i with
  | false =>
      simp only [hread, Bool.false_eq_true, false_and, if_false, List.length_cons]
      rwa [Nat.add_comm replaceCalls.length, ← Nat.add_assoc]
  | true =>
      cases old with
      | none =>
          simp only [hread, ne_eq, not_true_eq_false, reduceCtorEq, and_false, if_false,
            List.length_cons]
          rwa [Nat.add_comm replaceCalls.length, ← Nat.add_assoc]
      | some content =>
          by_cases hsame : content = data
          · simp [hsame, NoneFails, WriteCall.Vital]
          · have hcopy : NoneFails (.copyRead :: .copyWrite :: replaceCalls) faults (i + 1) ↔
                passes faults (i + 1) = true ∧ passes faults (i + 2) = true ∧
                  NoneFails replaceCalls faults (i + 3) := by
              simp [noneFails_cons, WriteCall.Vital]
            have hbacked := replaceAs_drop .backedUp faults (i + 3)
            simp only [Option.some.injEq, hsame, and_false, if_false, ne_eq, reduceCtorEq,
              not_false_eq_true, and_self, if_true, hread, hcopy, takeFault_drop]
            cases passes faults (i + 1) with
            | false => simp
            | true =>
                cases h₂ : passes faults (i + 2) with
                | false => simp [takeFault_drop, h₂]
                | true => simpa [takeFault_drop, h₂, replaceCalls] using hbacked

end Lbsync.Files
