import TreeQuery.XPath.Token

/-!
# References in an expression

Variable references (`$p:name`, `$name`) and prefixed names (`p:name`, `p:*`, `p:f(`), each with
the part of the text it spans, in the order of the expression. A qualified name has no white space
inside; there may be some after `$`.
-/

namespace TreeQuery.XPath

structure VariableReference where
  pfx : Option String
  name : String
  start : Nat
  stop : Nat
  deriving DecidableEq, Repr

/-- What a prefixed name is used for. -/
inductive NameUse where
  | name | wildcard | function
  deriving DecidableEq, Repr

structure QualifiedName where
  pfx : String
  localName : String
  use : NameUse
  start : Nat
  stop : Nat
  deriving DecidableEq, Repr

/-- Whether three tokens are a qualified name or a prefixed wildcard. -/
def isQualified (p c l : Token) : Bool :=
  p.isName && c.kind == .colon && (l.isName || l.kind == .star) &&
    p.stop == c.start && c.stop == l.start

/-- The qualified name at the front: its prefix, its local part and what follows. -/
def qualified? : List Token → Option (Token × Token × List Token)
  | p :: c :: l :: rest => if isQualified p c l then some (p, l, rest) else none
  | _ => none

theorem length_of_qualified? {ts rest : List Token} {p l : Token}
    (h : qualified? ts = some (p, l, rest)) : ts.length = rest.length + 3 := by
  unfold qualified? at h
  split at h
  · split at h <;> cases h
    simp
  · cases h

/-- The variable references of a list of tokens. -/
def variableReferences (ts : List Token) : List VariableReference :=
  match ts with
  | d :: n :: rest =>
    if d.kind == .dollar && n.isName then
      match _h : qualified? (n :: rest) with
      | some (p, l, rest') =>
        if l.kind == .star then ⟨none, n.string, d.start, n.stop⟩ :: variableReferences rest
        else ⟨some p.string, l.string, d.start, l.stop⟩ :: variableReferences rest'
      | none => ⟨none, n.string, d.start, n.stop⟩ :: variableReferences rest
    else variableReferences (n :: rest)
  | _ => []
  termination_by ts.length
  decreasing_by
    all_goals simp only [List.length_cons]
    · omega
    · have := length_of_qualified? _h
      simp only [List.length_cons] at this
      omega
    · omega
    · omega

def nameUse (last : Token) (rest : List Token) : NameUse :=
  if last.kind == .star then .wildcard
  else if rest.head?.any (·.kind == .openParen) then .function
  else .name

/-- The prefixed names of a list of tokens, those of variables left out. -/
def qualifiedNames (ts : List Token) : List QualifiedName :=
  match ts with
  | [] => []
  | t :: rest =>
    if t.kind == .dollar then
      match _h : qualified? rest with
      | some (_, _, rest') => qualifiedNames rest'
      | none => qualifiedNames rest.tail
    else
      match _h : qualified? (t :: rest) with
      | some (p, l, rest') =>
        ⟨p.string, l.string, nameUse l rest', p.start, l.stop⟩ :: qualifiedNames rest'
      | none => qualifiedNames rest
  termination_by ts.length
  decreasing_by
    · have := length_of_qualified? _h
      simp only [List.length_cons]
      omega
    · simp only [List.length_cons, List.length_tail]
      omega
    · have := length_of_qualified? _h
      omega
    · simp

end TreeQuery.XPath
