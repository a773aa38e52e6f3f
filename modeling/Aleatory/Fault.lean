/-!
# Faults and counts

A fault ends a whole computation at once: it is neither a value nor one of the errors that a run
may report as its result.  Counts are 64-bit words that never wrap, so the sum of two counts is
either the exact sum or a fault.
-/

namespace Aleatory

/-- The reasons for which a computation ends without a result. -/
inductive Fault where
  /-- A count of effect steps passed the largest 64-bit word. -/
  | stepOverflow
  /-- A count of samples passed the largest 64-bit word. -/
  | countOverflow
  /-- Two lists that are read side by side differ in length. -/
  | lengthMismatch
  /-- A list of weights was accepted although its total is no finite number. -/
  | unboundedTotal
  /-- A loop used up the number of passes that it was granted. -/
  | passesExhausted
  deriving DecidableEq, Repr

/-- The sum of two counts, or `fault` when it does not fit in 64 bits. -/
def addCounts (fault : Fault) (a b : UInt64) : Except Fault UInt64 :=
  if a.toNat + b.toNat < UInt64.size then .ok (a + b) else .error fault

/-- The sum of a list of counts, taken from the left, or a fault at the first sum that does not
fit. -/
def sumCounts (counts : List UInt64) : Except Fault UInt64 :=
  counts.foldlM (addCounts .countOverflow) 0

theorem addCounts_of_lt (fault : Fault) {a b : UInt64} (h : a.toNat + b.toNat < UInt64.size) :
    addCounts fault a b = .ok (a + b) :=
  if_pos h

theorem addCounts_of_le (fault : Fault) {a b : UInt64} (h : UInt64.size ≤ a.toNat + b.toNat) :
    addCounts fault a b = .error fault :=
  if_neg (Nat.not_lt.mpr h)

/-- A sum that is reported is the sum of the natural numbers. -/
theorem toNat_of_addCounts {fault : Fault} {a b c : UInt64} (h : addCounts fault a b = .ok c) :
    c.toNat = a.toNat + b.toNat := by
  unfold addCounts at h
  split at h
  · next hlt =>
    cases h
    rw [UInt64.toNat_add]
    exact Nat.mod_eq_of_lt hlt
  · cases h

end Aleatory
