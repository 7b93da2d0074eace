/-!
# Namespaces

A namespace binds a prefix to a URI. The empty prefix binds the default namespace; the empty
prefix with the empty URI stands for "in no namespace". The prefix `xml` and its URI belong
together.
-/

namespace TreeQuery

def xmlUri : String := "http://www.w3.org/XML/1998/namespace"

/-- What a binding must satisfy. -/
structure Namespace.Valid (pfx uri : String) : Prop where
  noColon : ':' ∉ pfx.toList
  bound : pfx ≠ "" → uri ≠ ""
  xml : pfx = "xml" ↔ uri = xmlUri

structure Namespace where
  pfx : String
  uri : String
  valid : Namespace.Valid pfx uri

namespace Namespace

/-- Why a prefix can not be bound to a URI. -/
inductive Fault where
  | notText
  | colon (pfx : String)
  | emptyUri (pfx : String)
  | reserved
  deriving DecidableEq, Repr

def make (pfx uri : String) : Except Fault Namespace :=
  if colon : ':' ∈ pfx.toList then .error (.colon pfx)
  else if empty : pfx ≠ "" ∧ uri = "" then .error (.emptyUri pfx)
  else if xml : pfx = "xml" ↔ uri = xmlUri then
    .ok ⟨pfx, uri, colon, fun h h' => empty ⟨h, h'⟩, xml⟩
  else .error .reserved

def none : Namespace := ⟨"", "", by decide, by decide, by decide⟩

def xml : Namespace := ⟨"xml", xmlUri, by decide, by decide, by decide⟩

theorem ext' {a b : Namespace} (hp : a.pfx = b.pfx) (hu : a.uri = b.uri) : a = b := by
  cases a; cases b; simp_all

instance : DecidableEq Namespace := fun a b =>
  if h : a.pfx = b.pfx ∧ a.uri = b.uri then .isTrue (ext' h.1 h.2)
  else .isFalse fun e => h (e ▸ ⟨rfl, rfl⟩)

instance : Inhabited Namespace := ⟨none⟩

theorem make_eq_ok_iff {pfx uri : String} {ns : Namespace} :
    make pfx uri = .ok ns ↔ ns.pfx = pfx ∧ ns.uri = uri := by
  constructor
  · intro h
    unfold make at h
    split at h
    · cases h
    · split at h
      · cases h
      · split at h
        · cases h; exact ⟨rfl, rfl⟩
        · cases h
  · rintro ⟨rfl, rfl⟩
    have hv := ns.valid
    unfold make
    rw [dite_cond_eq_false (by simpa using hv.noColon),
      dite_cond_eq_false (by simp only [eq_iff_iff, iff_false]; exact fun h => hv.bound h.1 h.2),
      dite_cond_eq_true (by simpa using hv.xml)]

theorem pfx_of_uri_empty {ns : Namespace} (h : ns.uri = "") : ns.pfx = "" := by
  by_cases hp : ns.pfx = ""
  · exact hp
  · exact absurd h (ns.valid.bound hp)

/-- The name of an expanded name in braces: `{uri}local`, or the local name alone. -/
def clark (uri localName : String) : String :=
  if uri = "" then localName else "\x7b" ++ uri ++ "\x7d" ++ localName

/-- The name as it is written with a prefix. -/
def qualified (ns : Namespace) (localName : String) : String :=
  if ns.pfx = "" then localName else ns.pfx ++ ":" ++ localName

end Namespace

end TreeQuery
