/-!
# Splicing

Replaces parts of a text, all at once. Replacements are taken in the order of the parts they
replace; those of one place keep their order.
-/

namespace TreeQuery.XPath

/-- Puts `text` in the place of the characters from `start` up to `stop`. -/
structure Replacement where
  start : Nat
  stop : Nat
  text : String
  deriving DecidableEq, Repr

namespace Replacement

/-- Adds `text` at a position. -/
def insertion (position : Nat) (text : String) : Replacement := ⟨position, position, text⟩

def le (a b : Replacement) : Bool :=
  a.start < b.start || (a.start == b.start && a.stop ≤ b.stop)

theorem le_trans (a b c : Replacement) (h : a.le b = true) (h' : b.le c = true) :
    a.le c = true := by
  simp only [le, Bool.or_eq_true, Bool.and_eq_true, decide_eq_true_eq, beq_iff_eq] at *
  omega

theorem le_total (a b : Replacement) : (a.le b || b.le a) = true := by
  simp only [le, Bool.or_eq_true, Bool.and_eq_true, decide_eq_true_eq, beq_iff_eq]
  omega

end Replacement

/-- The characters of a text from one position up to another. -/
def slice (cs : List Char) (start stop : Nat) : List Char :=
  (cs.drop start).take (stop - start)

/-- Copies the text from `position` on, with sorted replacements made. -/
def spliceFrom (cs : List Char) (position : Nat) : List Replacement → List Char
  | [] => cs.drop position
  | r :: rs => slice cs position r.start ++ r.text.toList ++ spliceFrom cs r.stop rs

def splice (text : String) (replacements : List Replacement) : String :=
  String.ofList (spliceFrom text.toList 0 (replacements.mergeSort Replacement.le))

end TreeQuery.XPath
