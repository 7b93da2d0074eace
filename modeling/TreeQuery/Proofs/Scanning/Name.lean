import TreeQuery.Proofs.Anchoring.Anchors
import TreeQuery.Proofs.Grammar.Spacing
import TreeQuery.Proofs.Scanning.Place

/-!
# What scans find at names

The scans for variables and for prefixed names find one thing at a variable (`variable_finds`) and
one at a prefixed name or wildcard (`Name.finds`, `finds_prefixed`), whatever words these are. Where
there is neither a `$` nor a colon they find nothing (`StandFor.finds_nothing`).
-/

namespace TreeQuery.XPath

/-! ## References -/

/-- A name with a prefix as it is used in a tree. A wildcard has a `*` for its local name. -/
structure PrefixedName where
  pfx : String
  localName : String
  use : NameUse

/-- What is looked up when a tree is evaluated: a variable, or the namespace of a prefix. -/
inductive Reference where
  | variable (n : Name)
  | prefixed (n : PrefixedName)

def Reference.variable? : Reference → Option Name
  | .variable n => some n
  | .prefixed _ => none

def Reference.prefixed? : Reference → Option PrefixedName
  | .variable _ => none
  | .prefixed n => some n

def Name.references (n : Name) (use : NameUse) : List (Nat × Reference) :=
  match n.pfx with
  | none => []
  | some p => [(0, .prefixed ⟨p, n.localName, use⟩)]

/-! ## What is found -/

/-- Tokens that are written as `texts` from one position to another, right next to each other. -/
structure Spans (us : List Token) (texts : List (List Char)) (start stop : Nat) : Prop where
  texts : us.map Token.text = texts
  adjacent : us.IsChain fun a b => a.stop = b.start
  start : us.head?.map Token.start = some start
  stop : us.getLast?.map Token.stop = some stop

/-- The lexemes of a name. -/
def Name.texts (n : Name) : List (List Char) :=
  match n.pfx with
  | none => [n.localName.toList]
  | some p => [p.toList, [':'], n.localName.toList]

/-- The tokens of a variable are a `$` and its name. -/
structure IsVariable (n : Name) (r : VariableReference) (us : List Token) : Prop where
  name : r.pfx = n.pfx ∧ r.name = n.localName
  tokens : ∃ d ns first, us = d :: ns ∧ d.text = ['$'] ∧ d.start = r.start ∧
    Spans ns n.texts first r.stop

/-- The tokens of a prefixed name. -/
structure IsPrefixed (n : PrefixedName) (q : QualifiedName) (us : List Token) : Prop where
  name : q.pfx = n.pfx ∧ q.localName = n.localName ∧ q.use = n.use
  tokens : Spans us [n.pfx.toList, [':'], n.localName.toList] q.start q.stop

/-- Among some tokens the scans find the references of a part of a tree. -/
structure FindsReferences (us rest : List Token) (refs : List (Nat × Reference)) : Prop where
  references : Finds (fun _ => variableReferences) IsVariable none us rest
    (picked Reference.variable? refs)
  names : Finds (fun _ => qualifiedNames) IsPrefixed none us rest
    (picked Reference.prefixed? refs)

/-- What does not begin with a colon leaves a name before it whole. -/
def Parted (rest : List Token) : Prop := ∀ u ∈ rest.head?, u.kind ≠ .colon

/-- Tokens of a text: a colon stands next to the names around it, and a `*` after it is a name
test. -/
structure Joined (us : List Token) : Prop where
  glued : Glued us
  stars : us.IsChain fun a b => a.kind = .colon → b.kind ≠ .times

section Scan

variable {us vs rest : List Token} {refs refs' : List (Nat × Reference)}

theorem Joined.of_append (h : Joined (us ++ vs)) : Joined us ∧ Joined vs := by
  obtain ⟨hg, hg', -⟩ := List.isChain_append.1 h.glued
  obtain ⟨hs, hs', -⟩ := List.isChain_append.1 h.stars
  exact ⟨⟨hg, hs⟩, ⟨hg', hs'⟩⟩

theorem Joined.of_cons {t : Token} (h : Joined (t :: us)) : Joined us :=
  (List.singleton_append ▸ h : Joined ([t] ++ us)).of_append.2

theorem Follows.parted (h : Follows rest) : Parted rest := fun u hu => (h u hu).2

theorem parted_cons {t : Token} (h : t.kind ≠ .colon) (rest : List Token) :
    Parted (t :: rest) := by
  intro u hu
  cases hu
  exact h

theorem StandFor.parted {ss : List Symbol} (hu : StandFor us ss)
    (h : ∀ s ∈ ss.head?, s.kind ≠ .colon) (hr : Parted rest) : Parted (us ++ rest) := by
  cases ss with
  | nil =>
    rw [standFor_nil_iff.1 hu]
    exact hr
  | cons s ss =>
    obtain ⟨t, vs, rfl, ht, -⟩ := standFor_cons_iff.1 hu
    exact parted_cons ((kind_eq_iff_of_plain ht (by decide)).not.2 (h s rfl)) _

theorem qualified?_of_parted {t : Token} (h : Parted rest) :
    qualified? (t :: rest) = none := by
  cases rest with
  | nil => rfl
  | cons u rest => exact qualified?_cons_of_ne (h u rfl) rest

theorem FindsReferences.append (h : FindsReferences us (vs ++ rest) refs)
    (h' : FindsReferences vs rest refs') {n : Nat} (hn : us.length = n) :
    FindsReferences (us ++ vs) rest (refs ++ shifted n refs') where
  references := by
    rw [picked_append, picked_shifted]
    exact h.references.append h'.references hn
  names := by
    rw [picked_append, picked_shifted]
    exact h.names.append h'.names hn

theorem FindsReferences.after (h : FindsReferences us (vs ++ rest) [])
    (h' : FindsReferences vs rest refs) {n : Nat} (hn : us.length = n) :
    FindsReferences (us ++ vs) rest (shifted n refs) :=
  h.append h' hn

theorem FindsReferences.before (h : FindsReferences us (vs ++ rest) refs)
    (h' : FindsReferences vs rest []) : FindsReferences (us ++ vs) rest refs := by
  have ha := h.append h' rfl
  rwa [shifted, List.map_nil, List.append_nil] at ha

theorem finds_token {t : Token} (h : t.kind ≠ .dollar) (hr : Parted rest) :
    FindsReferences [t] rest [] where
  references := .nothing (variableReferences_cons h)
  names := .nothing (qualifiedNames_cons h (qualified?_of_parted hr))

/-- Where there is no `$` and no colon there are no references. -/
theorem StandFor.finds_nothing {ss : List Symbol} (hu : StandFor us ss)
    (hs : ∀ s ∈ ss, s.kind ≠ .dollar ∧ s.kind ≠ .colon) (hr : Parted rest) :
    FindsReferences us rest [] := by
  induction ss generalizing us with
  | nil =>
    rw [standFor_nil_iff.1 hu]
    exact ⟨.nothing rfl, .nothing rfl⟩
  | cons s ss ih =>
    obtain ⟨t, vs, rfl, ht, hv⟩ := standFor_cons_iff.1 hu
    obtain ⟨⟨hd, -⟩, hs⟩ := List.forall_mem_cons.1 hs
    refine (finds_token ((kind_eq_iff_of_plain ht (by decide)).not.2 hd) ?_).before (ih hv hs)
    exact hv.parted (fun s h => (hs s (List.mem_of_mem_head? h)).2) hr

theorem FindsReferences.cons {t : Token} {s : Symbol} (ht : t.symbol.plain = s.plain)
    (hs : s.kind ≠ .dollar) (hr : Parted (us ++ rest)) (h : FindsReferences us rest refs) :
    FindsReferences (t :: us) rest (shifted 1 refs) :=
  (finds_token ((kind_eq_iff_of_plain ht (by decide)).not.2 hs) hr).after h rfl

/-! ### Names -/

theorem isQualified_of_standFor {p c l : Token} {x : String} {s : Symbol} (hj : Joined [p, c, l])
    (hu : StandFor [p, c, l] [nameSymbol x, sign .colon ":", s])
    (hs : s.kind.isName = true ∨ s.kind = .star) :
    isQualified p c l = true ∧ l.kind = s.kind := by
  obtain ⟨hp, hu⟩ := List.cons.inj hu
  obtain ⟨hc, hu⟩ := List.cons.inj hu
  have hl : l.symbol.plain = s.plain := (List.cons.inj hu).1
  have hck : c.kind = .colon := (kind_eq_iff_of_plain hc (by decide)).2 rfl
  have hglued : p.stop = c.start ∧ c.stop = l.start := by
    simpa [Glued, hck] using hj.glued
  have hstars : l.kind ≠ .times := by
    simpa [hck] using hj.stars
  have hlk : l.kind = s.kind := by
    refine kind_eq_of_plain hl hstars fun hk => ?_
    rw [hk] at hs
    exact absurd hs (by decide)
  refine ⟨isQualified_iff.2 ⟨?_, hck, ?_, hglued⟩, hlk⟩
  · rw [isName_of_plain hp]
    exact isName_nameSymbol x
  · exact hs.imp (isName_of_plain hl).trans hlk.trans

theorem string_of_text {t : Token} {s : String} (h : t.text = s.toList) : t.string = s := by
  rw [Token.string, h, String.ofList_toList]

theorem spans_of_standFor {p c l : Token} {x y : String} {k : TokenKind} (hj : Joined [p, c, l])
    (hu : StandFor [p, c, l] [nameSymbol x, sign .colon ":", ⟨k, y.toList⟩])
    (hs : k.isName = true ∨ k = .star) :
    Spans [p, c, l] [x.toList, [':'], y.toList] p.start l.stop where
  texts := by
    refine hu.texts ?_
    rintro s hm
    simp only [List.mem_cons, List.not_mem_nil, or_false] at hm
    rcases hm with rfl | rfl | rfl
    · exact TokenKind.ne_of_isName (isName_nameSymbol x) rfl
    · exact nofun
    · exact hs.elim (TokenKind.ne_of_isName · rfl) fun hk => by rw [hk]; exact nofun
  adjacent := by
    obtain ⟨-, -, -, hpc, hcl⟩ := isQualified_iff.1 (isQualified_of_standFor hj hu hs).1
    simpa using ⟨hpc, hcl⟩
  start := rfl
  stop := rfl

/-- A prefixed name is found as what it is used for. -/
theorem finds_prefixed {p l : String} {k : TokenKind} {use : NameUse} (hj : Joined us)
    (hu : StandFor us [nameSymbol p, sign .colon ":", ⟨k, l.toList⟩])
    (hk : k.isName = true ∨ k = .star)
    (huse : ∀ u : Token, u.kind = k → nameUse u rest = use) :
    FindsReferences us rest [(0, .prefixed ⟨p, l, use⟩)] := by
  obtain ⟨t, us, rfl, ht, hu₁⟩ := standFor_cons_iff.1 hu
  obtain ⟨c, us, rfl, hc, hu₂⟩ := standFor_cons_iff.1 hu₁
  obtain ⟨u, rfl, hl⟩ := standFor_singleton_iff.1 hu₂
  obtain ⟨hq, huk⟩ := isQualified_of_standFor hj hu hk
  have hspans := spans_of_standFor hj hu hk
  have htexts := hspans.texts
  simp only [List.map_cons, List.map_nil, List.cons.injEq, and_true] at htexts
  have hd : t.kind ≠ .dollar := t.kind_ne_of_isName (isQualified_iff.1 hq).1 Token.isName_of_dollar
  have hn : qualifiedNames (t :: c :: u :: rest) = _ := qualifiedNames_name hd hq
  rw [huse u huk] at hn
  refine ⟨.nothing (variableReferences_qualified hq), [_], hn, .single ⟨?_, hspans⟩⟩
  exact ⟨string_of_text htexts.1, string_of_text htexts.2.2, rfl⟩

theorem nameUse_of_isName {l : Token} (h : l.kind.isName = true) (rest : List Token) :
    nameUse l rest =
      if rest.head?.any (·.kind == .openParen) then NameUse.function else .name := by
  rw [nameUse, beq_false_of_ne (TokenKind.ne_of_isName h rfl)]
  rfl

theorem Name.finds {n : Name} {use : NameUse} (hj : Joined us) (hu : StandFor us n.symbols)
    (hr : Parted rest)
    (huse : ∀ u : Token, u.kind.isName = true → nameUse u rest = use) :
    FindsReferences us rest (n.references use) := by
  obtain ⟨pfx, n⟩ := n
  have hname := isName_nameSymbol n
  cases pfx with
  | none =>
    refine hu.finds_nothing (fun s hs => ?_) hr
    rw [List.mem_singleton.1 hs]
    exact ⟨TokenKind.ne_of_isName hname rfl, TokenKind.ne_of_isName hname rfl⟩
  | some p =>
    exact finds_prefixed hj hu (.inl hname) fun u hk => huse u (by rw [hk]; exact hname)

theorem variable_finds {n : Name} (hj : Joined us)
    (hu : StandFor us (sign .dollar "$" :: n.symbols)) (hr : Parted rest) :
    FindsReferences us rest [(0, .variable n)] := by
  obtain ⟨d, us, rfl, hd, hn⟩ := standFor_cons_iff.1 hu
  have hdk : d.kind = .dollar := (kind_eq_iff_of_plain hd (by decide)).2 rfl
  have hdt : d.text = ['$'] := text_of_plain hd nofun
  have hj := hj.of_cons
  obtain ⟨pfx, n⟩ := n
  have hname := isName_nameSymbol n
  cases pfx with
  | none =>
    obtain ⟨t, rfl, ht⟩ := standFor_singleton_iff.1 hn
    have htn : t.isName = true := (isName_of_plain ht).trans hname
    have htt : t.text = n.toList := text_of_plain ht (TokenKind.ne_of_isName hname rfl)
    have hq : qualified? (t :: rest) = none := qualified?_of_parted hr
    refine ⟨⟨[_], variableReferences_unprefixed hdk htn hq,
      .single ⟨⟨rfl, string_of_text htt⟩, ?_⟩⟩, .nothing (qualifiedNames_unprefixed hdk hq)⟩
    exact ⟨d, [t], t.start, rfl, hdt, rfl, ⟨congrArg (· :: []) htt, .singleton _, rfl, rfl⟩⟩
  | some p =>
    obtain ⟨t, us, rfl, ht, hu₁⟩ := standFor_cons_iff.1 hn
    obtain ⟨c, us, rfl, hc, hu₂⟩ := standFor_cons_iff.1 hu₁
    obtain ⟨u, rfl, hl⟩ := standFor_singleton_iff.1 hu₂
    obtain ⟨hq, huk⟩ := isQualified_of_standFor hj hn (.inl hname)
    have hspans := spans_of_standFor hj hn (.inl hname)
    have htexts := hspans.texts
    simp only [List.map_cons, List.map_nil, List.cons.injEq, and_true] at htexts
    have hus : u.kind ≠ .star := by
      rw [huk]
      exact (ne_star_nameSymbol n).1
    refine ⟨⟨[_], variableReferences_reference hdk hq hus,
      .single ⟨⟨?_, string_of_text htexts.2.2⟩, d, _, t.start, rfl, hdt, rfl, hspans⟩⟩,
      .nothing (qualifiedNames_reference hdk hq)⟩
    exact congrArg some (string_of_text htexts.1)

end Scan

end TreeQuery.XPath
