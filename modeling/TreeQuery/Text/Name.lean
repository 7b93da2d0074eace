import TreeQuery.Text.Range

/-!
# Names and characters of XML

A name has no colon: it starts with a name start character and goes on with name characters, as
the fifth edition of XML lists them.
-/

namespace TreeQuery.Text

def nameStartRanges : Ranges :=
  [(0x41, 0x5A), (0x5F, 0x5F), (0x61, 0x7A), (0xC0, 0xD6), (0xD8, 0xF6), (0xF8, 0x2FF),
    (0x370, 0x37D), (0x37F, 0x1FFF), (0x200C, 0x200D), (0x2070, 0x218F), (0x2C00, 0x2FEF),
    (0x3001, 0xD7FF), (0xF900, 0xFDCF), (0xFDF0, 0xFFFD), (0x10000, 0xEFFFF)]

/-- What a name may hold after its first character and not at its start. -/
def nameExtraRanges : Ranges :=
  [(0x2D, 0x2E), (0x30, 0x39), (0xB7, 0xB7), (0x300, 0x36F), (0x203F, 0x2040)]

def isNameStart (c : Char) : Bool :=
  nameStartRanges.has c

def isNameChar (c : Char) : Bool :=
  nameStartRanges.has c || nameExtraRanges.has c

def isName : List Char → Bool
  | [] => false
  | c :: cs => isNameStart c && cs.all isNameChar

/-- A character that an XML document may hold. -/
def isXmlChar (c : Char) : Bool :=
  (0x20 ≤ c.toNat && c.toNat != 0xFFFE && c.toNat != 0xFFFF) ||
    c == '\t' || c == '\n' || c == '\r'

/-- Text that an XML document may hold. -/
def isXmlText (s : String) : Bool :=
  s.toList.all isXmlChar

theorem isNameChar_of_isNameStart {c : Char} (h : isNameStart c = true) : isNameChar c = true := by
  simp only [isNameStart] at h
  simp [isNameChar, h]

theorem isNameChar_of_mem {cs : List Char} (h : isName cs = true) {c : Char} (hc : c ∈ cs) :
    isNameChar c = true := by
  cases cs with
  | nil => cases hc
  | cons d cs =>
    rw [isName, Bool.and_eq_true] at h
    rcases List.mem_cons.1 hc with rfl | hc
    · exact isNameChar_of_isNameStart h.1
    · exact List.all_eq_true.1 h.2 c hc

end TreeQuery.Text
